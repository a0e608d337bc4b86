import Stackling.Proofs.Closures.Frames

/-!
# Code of expressions with function values

The machine evaluates each typed expression as the watched evaluation does, and leaves the words of
its value on top of the stack. If the evaluation stops because it uses the bindings of an invocation
that has ended, nothing is claimed of the machine but that functions escape.
-/

namespace Stackling.Lexical

/-! ### Simulation -/

/-- A machine that follows a watched evaluation whose calls are at most `n` deep. -/
def machine (w : World) (escapes : Prop) (n : Nat) : Follower Halt Config where
  Leads := w.Reach
  Stops
    | .stale, _ => escapes
    | .stop .divisionByZero, c => ∃ k, w.Fails k c .divisionByZero
    | .stop .tooDeep, c => ∃ k c', n ≤ k ∧ w.Reach k c c'
    | .stop .nullReceiver, _ | .stop .stuck, _ => False
  leads_refl := .refl w
  leads_trans := .trans
  stops_after {k halt c c'} hreach h := by
    rcases halt with (_ | _ | _ | _) | _
    case stop.divisionByZero =>
      obtain ⟨j, hfails⟩ := h
      exact ⟨k + j, hreach.fails hfails⟩
    case stop.tooDeep =>
      obtain ⟨j, c'', hj, hreach'⟩ := h
      exact ⟨k + j, c'', Nat.le_add_left_of_le hj, hreach.trans hreach'⟩
    all_goals exact h

/-- What the machine does, given the result of the evaluation. -/
def Sim (w : World) (escapes : Prop) (n : Nat) {α : Type} (result : Except Halt (α × Tally))
    (c : Config) (post : α → Tally → Config → Prop) : Prop :=
  (machine w escapes n).Follows result c post

/-- Steps that come first count towards the depth of an evaluation. -/
theorem Sim.reach {w : World} {escapes : Prop} {α : Type} {c c' : Config}
    {result : Except Halt (α × Tally)} {post : α → Tally → Config → Prop} {k m n : Nat}
    (hreach : w.Reach k c c') (h : Sim w escapes m result c' post) (hn : n ≤ k + m) :
    Sim w escapes n result c post := by
  rcases result with ((_ | _ | _ | _) | _) | ⟨a, σ⟩
  case error.stop.tooDeep =>
    obtain ⟨j, c'', hj, hreach'⟩ := h
    exact ⟨k + j, c'', by omega, hreach.trans hreach'⟩
  all_goals exact Follower.Follows.after (X := machine w escapes n) hreach h

/-! ### Sites -/

/-- A place of the program as an evaluation gets there: the environment and its bindings, the
invocation that is going on with its frame and its stack below what is being computed, and the
stacks of the invocations around it. -/
structure Site where
  env : Env
  live : List Nat
  scope : Scope
  id : Nat
  frame : Int32
  base : List Int32
  outer : Frames

def Site.frames (s : Site) : Frames := fun id => if id = s.id then some s.base else s.outer id

/-- The bindings lie in memory, and the invocations that go on are known. -/
structure Matches (r : Resolution) (w : World) (escapes : Prop) (s : Site) (n : Nat) : Prop where
  scope : Laid r w escapes s.frames n (.scope s.env s.scope s.id s.frame)
  live : ∀ id, id ∈ s.live ↔ (s.frames id).isSome
  below : ∀ id st, s.frames id = some st → st <:+ s.base
  fresh : ∀ id, (s.frames id).isSome → id < n

/-- The machine has printed the trace, but for functions. -/
def Printed (trace : Array (Option Int32)) (out : Array Int32) : Prop :=
  List.Forall₂ (fun o v => o = none ∨ o = some v) trace.toList out.toList

theorem Printed.push {trace : Array (Option Int32)} {out : Array Int32} (h : Printed trace out)
    {o : Option Int32} {v : Int32} (ho : o = none ∨ o = some v) :
    Printed (trace.push o) (out.push v) := by
  rw [Printed, Array.toList_push, Array.toList_push]
  exact List.rel_append h (.cons ho .nil)

/-- The machine is at a site, with some words on top of its stack. -/
def At (r : Resolution) (w : World) (escapes : Prop) (s : Site) (σ : Tally) (pc : Nat)
    (temps : List Int32) (c : Config) :
    Prop :=
  ∃ ra tm out, Matches r w escapes s σ.next ∧ Printed σ.output out ∧
    c = ⟨pc, temps ++ s.base, [], s.frame, ra, tm, out, none⟩

/-- What the machine shows after the evaluation of an expression. -/
def Yields (r : Resolution) (w : World) (escapes : Prop) (s : Site) (σ : Tally) (t : Ty) (pc : Nat)
    (temps : List Int32) (d : Datum) (σ' : Tally) (c : Config) : Prop :=
  ∃ words, σ.next ≤ σ'.next ∧ Laid r w escapes s.frames σ'.next (.value d t words) ∧
    At r w escapes s σ' pc (words ++ temps) c

variable {r : Resolution} {w : World} {escapes : Prop} {n m : Nat} {call : Call} {s : Site}
  {σ σ' : Tally} {pc : Nat} {temps : List Int32} {c : Config}

theorem Later.of_le {φ : Frames} (h : n ≤ m) : Later escapes φ n φ m :=
  ⟨h, fun _ _ hnone => hnone, fun _ st hst => .inl ⟨st, hst, List.suffix_refl _⟩⟩

theorem Matches.of_le (h : Matches r w escapes s n) (hle : n ≤ m) : Matches r w escapes s m :=
  ⟨h.scope.later (.of_le hle), h.live, h.below, fun id hid =>
    Nat.lt_of_lt_of_le (h.fresh id hid) hle⟩

theorem Matches.mem_live (h : Matches r w escapes s n) : s.id ∈ s.live := by
  rw [h.live, Site.frames, if_pos rfl]
  rfl

/-- Steps that touch nothing but the words on top of the stack. -/
theorem At.step {k : Nat} (h : At r w escapes s σ pc temps c) (pc' : Nat) (temps' : List Int32)
    (hreach : ∀ ra tm out, ∃ tm', w.Reach k ⟨pc, temps ++ s.base, [], s.frame, ra, tm, out, none⟩
      ⟨pc', temps' ++ s.base, [], s.frame, ra, tm', out, none⟩) :
    ∃ c', w.Reach k c c' ∧ At r w escapes s σ pc' temps' c' := by
  obtain ⟨ra, tm, out, hm, hout, rfl⟩ := h
  obtain ⟨tm', hreach⟩ := hreach ra tm out
  exact ⟨_, hreach, ra, tm', out, hm, hout, rfl⟩

/-- The machine evaluates an expression at a site as the watched evaluation does. -/
def Simulated (r : Resolution) (w : World) (escapes : Prop) (n : Nat) (call : Call) (s : Site)
    (e : Expr) (t : Ty) : Prop :=
  ∀ ⦃σ : Tally⦄ ⦃pc : Nat⦄ ⦃temps : List Int32⦄ ⦃c : Config⦄ ⦃code : List Instr⦄,
    e.Coded r w false code → w.Carries pc code → At r w escapes s σ pc temps c →
    Sim w escapes n (eval call (some s.live) s.scope e σ) c
    (Yields r w escapes s σ t (pc + Code.size code) temps)

/-! ### Names -/

variable {t : Ty} {pos : SourcePos}

/-- The code for the frame of an entry pushes its address. -/
theorem reach_frameAccess {st : List Int32} {F F' ra tm : Int32} {out : Array Int32} {entry : Entry}
    {depth : Nat}
    (hcode : w.image.CodeAt w.address pc ((w.context r false).frameAccess ⟨entry, depth⟩))
    (hchain : w.Chain st [] (depth - entry.depth) F F') :
    w.Reach (1 + (depth - entry.depth)) ⟨pc, st, [], F, ra, tm, out, none⟩
      ⟨pc + Code.size ((w.context r false).frameAccess ⟨entry, depth⟩), F' :: st, [], F, ra, tm,
        out, none⟩ := by
  rw [Platform.frameAccess_context, if_neg (by simp)] at hcode ⊢
  obtain ⟨hlfp, hlinks⟩ := Image.codeAt_bare.mp hcode
  rw [Code.size_plain, List.length_cons, List.length_replicate, Nat.add_comm _ 1, ← Nat.add_assoc]
  exact (Platform.reach_lfp hlfp).trans (Platform.reach_hops hlinks hchain)

/-- The result of looking up a name. -/
theorem lift_ok {α : Type} (a : α) : (StateT.lift (.ok a) : EvalM α) σ = .ok (a, σ) := rfl

theorem simulated_name {id : NodeId} {x : String} {entry : Entry}
    (hlookup : s.env.scopes.lookup? x = some entry)
    (huse : r.uses[id]? = some ⟨entry, s.env.scopes.depth⟩)
    (hvalue : entry.ty.asValue x pos = .ok t) :
    Simulated r w escapes n call s (.name id x pos) t := by
  rintro σ pc temps c code ⟨q, q', hcode⟩ hcarries hat
  obtain ⟨b, hb, -, rfl⟩ := Expr.code_name.mp hcode
  rw [Platform.context_resolution, huse] at hb
  cases hb
  obtain rfl := Ty.eq_of_asValue hvalue
  rw [eval]
  obtain ⟨ra, tm, out, hm, hout, rfl⟩ := hat
  rw [Platform.carries_append] at hcarries
  rw [Code.size_append, ← Nat.add_assoc]
  rcases hm.scope.lookup hm.live hm.below hm.mem_live hlookup with
    ⟨hescapes, hstale⟩ | ⟨d, words, F', hfind, hd, -, hchain, hcells⟩
  · rw [hstale]
    exact hescapes
  · rw [hfind, lift_ok]
    have hup : s.base <:+ temps ++ s.base := List.suffix_append _ _
    have hcells := hcells.mono hup
    refine .after (reach_frameAccess hcarries.1.1 (hchain.mono hup (List.prefix_refl _))) ?_
    cases ht : entry.ty.isArrow with
    | false =>
      rw [ht] at hcarries
      obtain ⟨v, rfl, rfl, hv⟩ := hd.exists_base ht
      exact ⟨3, _, Platform.reach_load hcarries.2.1 hcells.single, _, Nat.le_refl _, hd, ra, tm,
        out, hm, hout, rfl⟩
    | true =>
      rw [ht] at hcarries
      obtain ⟨u, v, rfl⟩ := hd.exists_pair ht
      exact ⟨9, _, Platform.reach_loadClosure hcarries.2.1 hcells.pair.1 hcells.pair.2, _,
        Nat.le_refl _, hd, ra, F', out, hm, hout, rfl⟩

/-! ### Operators -/

theorem operate_ok {op : BinOp} {x y v : Value} {σ₀ : Store} (σ : Tally)
    (h : op.apply x y {} = .ok (v, σ₀)) : operate op (.base x) (.base y) σ = .ok (.base v, σ) := by
  simp only [operate, StateT.run', h]
  rfl

theorem operate_error {op : BinOp} {x y : Value} {stop : Stop} (σ : Tally)
    (h : op.apply x y {} = .error stop) :
    operate op (.base x) (.base y) σ = .error (.stop stop) := by
  simp only [operate, StateT.run', h]
  rfl

/-- The evaluator of programs in which functions are values. -/
def evaluator (call : Call) (live : Watch) (ρ : Scope) : Evaluator Tally Halt Datum where
  base := .base
  halt := .stop
  eval := eval call live ρ
  operate := operate
  written d σ := { σ with output := σ.output.push d.word? }
  eval_int _ _ := by rw [eval]
  eval_bool _ _ := by rw [eval]
  eval_null _ := by rw [eval]
  eval_binary _ _ _ hor hge := by rw [eval]; exacts [hor, hge]
  eval_greaterEqual _ _ _ := by rw [eval]
  eval_or _ _ _ := by rw [eval]; exact ⟨_, rfl, rfl, rfl⟩
  eval_not _ _ := by rw [eval]; exact ⟨_, rfl, rfl, rfl⟩
  eval_ite _ _ _ _ := by rw [eval]; exact ⟨_, rfl, rfl, rfl⟩
  eval_print _ _ := by rw [eval]
  operate_ok := operate_ok
  operate_error := operate_error

/-- The word that is printed for a value is the top one. -/
theorem Laid.exists_word {φ : Frames} {d : Datum} {words : List Int32}
    (h : Laid r w escapes φ n (.value d t words)) :
    ∃ v rest, words = v :: rest ∧ (d.word? = none ∨ d.word? = some v) := by
  cases h with
  | base => exact ⟨_, _, rfl, .inr rfl⟩
  | closure => exact ⟨_, _, rfl, .inl rfl⟩

/-- The machine at a site. It is not asked for room: where there is none, it collides. -/
def setting (r : Resolution) (w : World) (escapes : Prop) (n : Nat) (call : Call) (s : Site) :
    Setting Unit Tally Halt Datum Config where
  toEvaluator := evaluator call (some s.live) s.scope
  toFollower := machine w escapes n
  resolution := r
  machine _ := w
  inClass := false
  At σ pc temps := At r w escapes s σ (pc ()) (temps ())
  Room _ _ := True
  Since σ σ' := σ.next ≤ σ'.next
  Shows σ d t words := Laid r w escapes s.frames σ.next (.value d t words)
  since_refl σ := Nat.le_refl σ.next
  since_trans := Nat.le_trans
  room_mono _ _ := trivial
  room_cons _ _ := trivial
  shows_base hv := .base hv
  exists_base hd ht := by
    obtain ⟨v, rfl, rfl, hv⟩ := hd.exists_base ht
    exact ⟨v, {}, rfl, rfl, hv⟩
  shows_join hjoin := Or.rec (Laid.widen · (.left hjoin)) (Laid.widen · (.right hjoin))
  push hat _ hcode :=
    ⟨1, At.step hat _ _ fun _ tm _ => ⟨tm, Platform.reach_push (hcode ())⟩⟩
  move _ hat _ hmoves :=
    ⟨1, At.step hat _ _ fun ra tm out => ⟨tm, (hmoves () _ _ _ ra tm out).reach⟩⟩
  divide := by
    rintro σ pc temps c l ⟨ra, tm, out, -, -, rfl⟩ hcode
    exact ⟨0, Platform.fails_div (hcode ())⟩
  print := by
    rintro σ pc temps c d t words ⟨ra, tm, out, hm, hout, rfl⟩ hd hcode
    obtain ⟨v, rest, rfl, hword⟩ := hd.exists_word
    exact ⟨1, _, Platform.reach_print (hcode ()), ⟨ra, tm, _, hm, hout.push hword, rfl⟩, hd,
      Nat.le_refl _⟩

theorem simulated_iff {e : Expr} :
    Simulated r w escapes n call s e t ↔ (setting r w escapes n call s).Simulated e t :=
  ⟨fun h _ _ _ _ _ hcoded hcarries _ hat => h (hcoded ()) (hcarries ()) hat,
    fun h _ pc temps _ code hcoded hcarries hat =>
      @h _ (fun _ => pc) (fun _ => temps) _ (fun _ => code) (fun _ => hcoded) (fun _ => hcarries)
        trivial hat⟩

end Stackling.Lexical
