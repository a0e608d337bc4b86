import Stackling.Proofs.Correctness

/-!
# Programs without declarations

The code of an expression that uses no names has no loops and no calls. So its run can be bounded
before it starts: it takes at most one step for each operation of the code, and at most one cell for
each node of the tree. With that much memory and that many steps, a program which is such an
expression always ends as the evaluator says.
-/

namespace Stackling

/-! ### Runs without collisions -/

namespace Platform

/-- A machine with a clock. If it fails, it does so before it has taken a step for each operation
of the code. -/
def clocked (w : Platform) : Follower Stop (Config × Nat) where
  Leads k c c' := w.Advances k c.1 c'.1 ∧ c'.2 = c.2 + k
  Stops stop c := stop = .divisionByZero ∧ ∃ k c', w.Advances k c.1 c' ∧
    w.Fails 0 c' .divisionByZero ∧ c.2 + k < w.image.ops.size
  leads_refl c := ⟨.refl w c.1, rfl⟩
  leads_trans := by
    rintro j k c₁ c₂ c₃ ⟨hadvances, hclock⟩ ⟨hadvances', hclock'⟩
    exact ⟨hadvances.trans hadvances', by rw [hclock', hclock, Nat.add_assoc]⟩
  stops_after := by
    rintro k stop c c' ⟨hadvances, hclock⟩ ⟨hstop, j, c'', hadvances', hfails, hlt⟩
    exact ⟨hstop, k + j, c'', hadvances.trans hadvances', hfails, by omega⟩

/-- A configuration with an empty heap, in the frame of the program. -/
def flat (w : Platform) (pc : Nat) (st : List Int32) (out : Array Int32) : Config :=
  ⟨pc, st, [], Int32.ofNat w.size, 0, 0, out, none⟩

/-- The machine is at an address, which is at least the number of steps that it has taken. -/
structure Timely (w : Platform) (pc : Nat) (st : List Int32) (out : Array Int32)
    (c : Config × Nat) : Prop where
  config : c.1 = w.flat pc st out
  clock : c.2 ≤ pc

variable {w : Platform} {pc pc' : Nat} {st st' : List Int32} {out out' : Array Int32}
  {c : Config × Nat}

/-- Every step leads forward in the code. -/
theorem Timely.step (h : w.Timely pc st out c) (hlt : pc < pc')
    (hmoves : w.Moves (w.flat pc st out) (w.flat pc' st' out')) :
    ∃ k c', w.clocked.Leads k c c' ∧ w.Timely pc' st' out' c' := by
  obtain ⟨c, steps⟩ := c
  obtain ⟨rfl, hclock⟩ := h
  refine ⟨1, ⟨w.flat pc' st' out', steps + 1⟩, ⟨hmoves.advances, rfl⟩, rfl, ?_⟩
  exact Nat.lt_of_le_of_lt hclock hlt

end Platform

/-! ### Expressions -/

variable {r : Resolution} {w : Platform} {call : Call} {ρ : Bindings}

/-- A machine that never collides, because it has a free cell for each node. It takes at most one
step for each operation, since all jumps in the code of an expression lead forward. -/
def closedSetting (r : Resolution) (w : Platform) (call : Call) (ρ : Bindings) :
    Setting Unit Store Stop Value (Config × Nat) where
  toEvaluator := evaluator call ρ
  toFollower := w.clocked
  resolution := r
  machine _ := w
  inClass := false
  At σ pc temps := w.Timely (pc ()) (temps ()) σ.output
  Room temps n := (temps ()).length + n ≤ w.size
  Since _ _ := True
  Shows _ v t words := words = [v.word] ∧ v.HasTy r.hierarchy {} t
  since_refl _ := trivial
  since_trans _ _ := trivial
  room_mono hroom hle := Nat.le_trans (Nat.add_le_add_left hle _) hroom
  room_cons _ hroom := by
    rw [List.length_cons, Nat.add_assoc, Nat.add_comm 1]
    exact hroom
  shows_base hv := ⟨rfl, hv⟩
  exists_base := fun ⟨hwords, hv⟩ _ => ⟨_, _, rfl, hwords, hv⟩
  shows_join hjoin hd := ⟨hd.elim And.left And.left, .join hjoin (hd.imp And.right And.right)⟩
  push hat hroom hcode := by
    refine hat.step (Nat.lt_succ_self _) (Platform.moves_push (hcode ()) ?_)
    rw [List.length_nil, Nat.zero_add]
    exact hroom
  move temps' hat hlt hmoves := by
    have hmoves := hmoves () [] [] (Int32.ofNat w.size) 0 0
    simp only [List.append_nil] at hmoves
    exact hat.step (hlt ()) (hmoves _)
  divide := by
    rintro σ pc temps ⟨c, steps⟩ l ⟨rfl, hclock⟩ hcode
    refine ⟨rfl, 0, _, .refl w _, Platform.fails_div (hcode ()), ?_⟩
    exact Nat.lt_of_le_of_lt hclock (Array.getElem?_eq_some_iff.mp (hcode ())).1
  print := by
    rintro σ pc temps c v t _ hat ⟨rfl, hv⟩ hcode
    obtain ⟨k, c', hleads, hat'⟩ :=
      Platform.Timely.step hat (Nat.lt_succ_self _) (Platform.moves_print (hcode ()))
    exact ⟨k, c', hleads, hat', ⟨rfl, hv⟩, trivial⟩

theorem Env.lookup?_global (x : String) : Env.global.scopes.lookup? x = none := by
  simp [Env.global, Scopes.push, Scopes.lookup?]

/-- An expression that has a type where nothing is declared uses no names, and so it can be
computed. -/
theorem Expr.computed : ∀ {t : Ty} (e : Expr), e.Typed r .global t →
    (closedSetting r w call ρ).Simulated e t
  | _, .int .., .int => Setting.simulated_int
  | _, .bool .., .bool => Setting.simulated_bool
  | _, .null .., .null => Setting.simulated_null
  | _, .binary _ left right _, .binary hleft hright hop =>
    Setting.simulated_binary (left.computed hleft) (right.computed hright) hop
  | _, .not e _, .not he hbool => Setting.simulated_not (e.computed he) hbool
  | _, .ite cond yes no _, .ite hcond hbool hyes hno hjoin =>
    Setting.simulated_ite (cond.computed hcond) hbool (yes.computed hyes) (no.computed hno) hjoin
  | _, .print e _, .print he => Setting.simulated_print (e.computed he)
  | _, .name .., .name hlookup _ _ => by
    rw [Env.lookup?_global] at hlookup
    cases hlookup
  | _, .call .., .call hlookup _ _ _ => by
    rw [Env.lookup?_global] at hlookup
    cases hlookup
  | _, .send .., .send hlookup _ _ _ _ _ _ => by
    rw [Env.lookup?_global] at hlookup
    cases hlookup
  | _, .new .., .new hrecord _ _ _ => by
    rw [Env.classFree_global] at hrecord
    cases hrecord

/-! ### Programs -/

/-- Where nothing is declared, an expression that resolves without errors uses no names. -/
theorem Expr.nodes_of_errorFree : ∀ e : Expr, ErrorFree (e.resolve .global) → e.nodes = []
  | .int .., _ | .bool .., _ | .null .., _ => by rw [Expr.nodes]
  | .name .., h => by
    rw [Expr.resolve] at h
    obtain ⟨b, hb, -⟩ := Env.useName_errorFree h
    simp [Scopes.use?, Env.lookup?_global] at hb
  | .binary _ left right _, h => by
    rw [Expr.resolve, ErrorFree.append] at h
    rw [Expr.nodes, left.nodes_of_errorFree h.1, right.nodes_of_errorFree h.2, List.append_nil]
  | .not e _, h | .print e _, h => by
    rw [Expr.resolve] at h
    rw [Expr.nodes, e.nodes_of_errorFree h]
  | .ite cond yes no _, h => by
    rw [Expr.resolve, ErrorFree.append, ErrorFree.append] at h
    rw [Expr.nodes, cond.nodes_of_errorFree h.1.1, yes.nodes_of_errorFree h.1.2,
      no.nodes_of_errorFree h.2]
    rfl
  | .call .., h => by
    rw [Expr.resolve, ErrorFree.cons] at h
    obtain ⟨b, hb, -⟩ := Env.useName_errorFree h.1
    simp [Scopes.use?, Env.lookup?_global] at hb
  | .send .., h => by
    rw [Expr.resolve, ErrorFree.cons] at h
    obtain ⟨b, _, _, _, hb, -⟩ := Env.useMethod_errorFree h.1
    simp [Scopes.use?, Env.lookup?_global] at hb
  | .new .., h => by
    rw [Expr.resolve, ErrorFree.cons] at h
    obtain ⟨record, hrecord, -⟩ := Env.useClass_errorFree h.1
    rw [Env.classFree_global] at hrecord
    cases hrecord

namespace Program

variable {p : Program} {memorySize : Int32}

theorem nodes_of_no_decls (hdecls : p.decls = []) (hresolve : p.resolve.errors = []) :
    p.nodes = [] := by
  have hfree := errorFree_findings hresolve
  rw [findings, hdecls] at hfree
  rw [nodes, hdecls, p.body.nodes_of_errorFree (ErrorFree.append.mp hfree).2]
  rfl

theorem eval_of_no_decls (hdecls : p.decls = []) (depth : Nat) :
    p.eval depth = p.body.eval (callAt depth) [] {} := by
  rw [eval, hdecls]
  rfl

theorem typed_of_no_decls (hdecls : p.decls = []) (haccepted : p.Accepted) :
    ∃ t, p.body.Typed p.resolve .global t := by
  have hnodes := nodes_of_no_decls hdecls haccepted.1
  have hdistinct : p.Distinct := by
    rw [Distinct, hnodes]
    exact List.nodup_nil
  have hplain : p.FirstOrder := by
    rw [FirstOrder, hnodes]
    exact List.forall_mem_nil _
  obtain ⟨t, -, env, htyped, hbody⟩ := typed hdistinct hplain haccepted.1 haccepted.2
  rw [hdecls] at htyped
  cases htyped
  exact ⟨t, hbody⟩

theorem instrs_of_no_decls (hdecls : p.decls = []) {r : Resolution} {listing : Listing}
    (hgenerate : p.generate r memorySize = .ok listing) :
    ∃ q value q', p.body.code { resolution := r, globalFrame := memorySize } q = .ok (value, q') ∧
      listing.instrs = value ++ [.bare .halt] := by
  obtain ⟨locals, q, value, q', hlocals, hvalue, rfl⟩ := generate_eq_ok.mp hgenerate
  rw [hdecls, declCode_nil] at hlocals
  obtain ⟨rfl, rfl⟩ := hlocals
  refine ⟨_, value, q', hvalue, ?_⟩
  rw [opening, hdecls]
  rfl

theorem nonneg_of_size_le (hmemory : p.body.size ≤ memorySize.toInt) : 0 ≤ memorySize := by
  rw [Int32.le_iff_toInt_le]
  exact Int.le_trans (Int.natCast_nonneg _) hmemory

/-- The machine evaluates a program without declarations if it has a cell for each node. -/
theorem follows_of_no_decls (hdecls : p.decls = []) (haccepted : p.Accepted)
    (hmemory : p.body.size ≤ memorySize.toInt) {listing : Listing}
    (hgenerate : p.generate p.resolve memorySize = .ok listing) (depth : Nat) :
    (listing.platform memorySize).clocked.Follows (p.eval depth)
      ((listing.platform memorySize).start, 0) fun v σ c =>
        (listing.platform memorySize).Done v.word σ.output c.1 ∧
          c.2 < (listing.platform memorySize).image.ops.size := by
  obtain ⟨t, htyped⟩ := typed_of_no_decls hdecls haccepted
  obtain ⟨q, value, q', hvalue, hinstrs⟩ := instrs_of_no_decls hdecls hgenerate
  have hat := Code.codeAt_link (generate_labels hgenerate).1
  rw [hinstrs, Image.codeAt_append, Image.codeAt_bare, Nat.zero_add] at hat
  obtain ⟨hvalueAt, hhalt, -⟩ := hat
  rw [← hinstrs] at hvalueAt hhalt
  have hlt := (Array.getElem?_eq_some_iff.mp hhalt).1
  have hcoded : p.body.Coded p.resolve (listing.platform memorySize) false value := by
    refine ⟨q, q', ?_⟩
    rw [← hvalue, Platform.context, Listing.platform,
      Int32.ofNat_toNatClampNeg _ (nonneg_of_size_le hmemory)]
  have hcarries : (listing.platform memorySize).Carries 0 value := by
    refine ⟨hvalueAt, ?_⟩
    rw [Nat.zero_add]
    exact hlt
  have hroom : (closedSetting p.resolve (listing.platform memorySize) (callAt depth) []).Room
      (fun _ => []) p.body.size := by
    change 0 + p.body.size ≤ memorySize.toNatClampNeg
    rw [Nat.zero_add, Int32.toNatClampNeg]
    omega
  have hstart : (closedSetting p.resolve (listing.platform memorySize) (callAt depth) []).At {}
      (fun _ => 0) (fun _ => []) ((listing.platform memorySize).start, 0) := ⟨rfl, Nat.le_refl 0⟩
  rw [eval_of_no_decls hdecls]
  refine Follower.Follows.mono
    (p.body.computed htyped (fun _ => hcoded) (fun _ => hcarries) hroom hstart) ?_
  rintro v σ ⟨c, steps⟩ - ⟨_, -, ⟨rfl, -⟩, rfl, hclock⟩
  rw [Nat.zero_add] at hclock
  refine ⟨⟨?_, ⟨_, rfl⟩, rfl⟩, Nat.lt_of_le_of_lt hclock hlt⟩
  rw [Platform.flat, Nat.zero_add]
  exact hhalt

/-- A program without declarations always ends as the evaluator says if there is a cell of memory
for each node of its tree and a step for each operation of its code: it has a value or divides by
zero. -/
theorem run_total_without_decls {p : Program} (hdecls : p.decls = []) (haccepted : p.Accepted)
    {memorySize : Int32} (hmemory : p.body.size ≤ memorySize.toInt) :
    ∃ listing, p.listing { memorySize } = .ok listing ∧
      ∀ maxSteps, Code.size listing.instrs ≤ maxSteps →
      (∀ v trace, p.Evaluates v trace → ∃ steps ≤ Code.size listing.instrs,
        p.run { memorySize } maxSteps = .ok ⟨some v.word, trace, steps⟩) ∧
      (p.Aborts .divisionByZero →
        ∃ ip, p.run { memorySize } maxSteps = .error (.fault (.divisionByZero ip))) ∧
      ((∃ v trace, p.Evaluates v trace) ∨ p.Aborts .divisionByZero) := by
  have hbuilt : p.Built := by
    rw [Built, nodes_of_no_decls hdecls haccepted.1]
    exact nofun
  obtain ⟨listing, hgenerate, hlisting, hrun⟩ := haccepted.exists_listing hbuilt memorySize
  refine ⟨listing, hlisting, fun maxSteps hsteps => ?_⟩
  change ∀ maxSteps, _ = Except.mapError _ (State.run (listing.platform memorySize).image _ _ _)
    at hrun
  have hfollows := follows_of_no_decls hdecls haccepted hmemory hgenerate
  have hsize : (listing.platform memorySize).image.ops.size = Code.size listing.instrs :=
    Code.size_link _
  have hstart : (listing.platform memorySize).Rep _ (State.initial memorySize) :=
    Platform.rep_start (nonneg_of_size_le hmemory) rfl
  refine ⟨?_, ?_, ?_⟩
  · rintro v _ ⟨depth, σ, heval, rfl⟩
    have hfollows := hfollows depth
    rw [heval] at hfollows
    obtain ⟨k, ⟨c, steps⟩, ⟨hadvances, hclock⟩, hdone, hlt⟩ := hfollows
    obtain ⟨s, hafter, hs⟩ := hadvances _ hstart
    dsimp only at hclock hlt
    obtain ⟨budget, hbudget⟩ : ∃ b, maxSteps - k = b + 1 := ⟨maxSteps - k - 1, by omega⟩
    refine ⟨k + 1, by omega, ?_⟩
    rw [hrun, State.run_of_after hafter (by omega), hbudget, Nat.zero_add]
    exact congrArg _ (hdone.run hs budget k)
  · rintro ⟨-, depth, heval⟩
    have hfollows := hfollows depth
    rw [heval] at hfollows
    obtain ⟨-, k, c, hadvances, hfails, hlt⟩ := hfollows
    obtain ⟨s, hafter, hs⟩ := hadvances _ hstart
    obtain ⟨budget, hbudget⟩ : ∃ b, maxSteps - k = b + 1 := ⟨maxSteps - k - 1, by omega⟩
    have hfault : s.step (listing.platform memorySize).image = .error (.divisionByZero s.ip) :=
      hfails s hs
    refine ⟨s.ip, ?_⟩
    rw [hrun, State.run_of_after hafter (by omega), hbudget, State.run, hfault]
    rfl
  · have hfollows := hfollows 0
    cases heval : p.eval 0 with
    | ok result => exact .inl ⟨result.1, _, 0, result.2, heval, rfl⟩
    | error stop =>
      rw [heval] at hfollows
      exact .inr ⟨by decide, 0, hfollows.1 ▸ heval⟩

/-- Prints in its condition and in the branch that is taken; the other branch would divide by
zero. -/
def tightFit : Program where
  decls := []
  body :=
    .ite (.binary .or (.binary .greaterEqual (.print (.int 6 default) default)
      (.int 7 default) default) (.not (.bool false default) default) default)
    (.print (.binary .mul (.int 6 default) (.int 7 default) default) default)
    (.binary .div (.int 1 default) (.int 0 default) default) default
  pos := default

theorem run_total_without_decls_tightFit :
    tightFit.Evaluates (.int 42) #[6, 42] ∧ tightFit.body.size = 15 ∧ ∃ listing,
      tightFit.listing { memorySize := 15 } = .ok listing ∧ ∃ steps ≤ Code.size listing.instrs,
        tightFit.run { memorySize := 15 } (Code.size listing.instrs) =
          .ok ⟨some 42, #[6, 42], steps⟩ := by
  have hvalue : tightFit.Evaluates (.int 42) #[6, 42] :=
    @evaluates_of_eval _ 0 _ _ (by decide +kernel)
  obtain ⟨listing, hlisting, hruns⟩ :=
    @run_total_without_decls tightFit rfl (by decide +kernel) 15 (by decide)
  exact ⟨hvalue, by decide, listing, hlisting, (hruns _ (Nat.le_refl _)).1 _ _ hvalue⟩

end Program

end Stackling
