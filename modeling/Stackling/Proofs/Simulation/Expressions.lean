import Stackling.Proofs.Simulation.Basic
import Stackling.Proofs.Typing.Acceptance

/-!
# Code of expressions

The machines evaluate each typed expression as the evaluator does, and leave its value on top of the
stack. What names need is here; for operators, the machines and the evaluator make a setting.
-/

namespace Stackling

variable {ι : Type} {r : Resolution} {w : ι → World} {n : Nat} {call : Call} {s : Site ι}

/-- The machines evaluate an expression at a site as the evaluator does. -/
def Expr.Simulated (r : Resolution) (w : ι → World) (n : Nat) (call : Call) (s : Site ι) (e : Expr)
    (t : Ty) : Prop :=
  ∀ ⦃σ : Store⦄ ⦃pc : ι → Nat⦄ ⦃temps : ι → List Int32⦄ ⦃c : ι → Config⦄ ⦃code : ι → List Instr⦄,
    (∀ i, e.Coded r (w i) s.inClass (code i)) → (∀ i, (w i).Carries (pc i) (code i)) →
    At r w s σ pc temps c →
    Sim r w n (e.eval call s.bindings σ) c
    (Yields r w s σ t (fun i => pc i + Code.size (code i)) temps)

variable {σ : Store} {pc : ι → Nat} {temps : ι → List Int32} {c : ι → Config}

/-- What is so since a later store is so since an earlier one. -/
theorem Sim.since {σ' : Store} {t : Ty} {result : Except Stop (Value × Store)}
    (h : Sim r w n result c (Yields r w s σ' t pc temps)) (hgrow : σ.Grows σ') :
    Sim r w n result c (Yields r w s σ t pc temps) :=
  h.mono fun _ _ _ _ ⟨hv, hgrow', hat⟩ => ⟨hv, hgrow.trans hgrow', hat⟩

/-! ### Names -/

theorem Platform.frameAccess_context (w : Platform) (r : Resolution) (b : Bool) (entry : Entry)
    (depth : Nat) :
    (w.context r b).frameAccess ⟨entry, depth⟩ =
      if entry.depth = 0 && b then [.push (Int32.ofNat w.size)]
      else Code.plain (.lfp :: List.replicate (depth - entry.depth) .lw) :=
  rfl

/-- The code for the frame of an entry pushes its address. -/
theorem Access.reach {st hp : ι → List Int32} {b : Bool} {depth : Nat} {entry : Entry}
    {F F' ra tm : ι → Int32} {out : Array Int32} (h : Access w st hp b depth entry F F')
    (hcode : ∀ i, (w i).image.CodeAt (w i).address (pc i) (((w i).context r b).frameAccess
      ⟨entry, depth⟩)) :
    ∃ k, ∀ i, (w i).Reach k ⟨pc i, st i, hp i, F i, ra i, tm i, out, none⟩
      ⟨pc i + Code.size (((w i).context r b).frameAccess ⟨entry, depth⟩), F' i :: st i, hp i, F i,
        ra i, tm i, out, none⟩ := by
  unfold Access at h
  simp only [Platform.frameAccess_context] at hcode ⊢
  by_cases hglobal : (entry.depth = 0 && b) = true
  · rw [if_pos hglobal] at h
    simp only [if_pos hglobal] at hcode ⊢
    subst h
    exact ⟨1, fun i => Platform.reach_push (hcode i).1⟩
  · rw [if_neg hglobal] at h
    simp only [if_neg hglobal] at hcode ⊢
    refine ⟨1 + (depth - entry.depth), fun i => ?_⟩
    obtain ⟨hlfp, hlinks⟩ := Image.codeAt_bare.mp (hcode i)
    rw [Code.size_plain, List.length_cons, List.length_replicate, Nat.add_comm _ 1, ← Nat.add_assoc]
    exact (Platform.reach_lfp hlfp).trans (Platform.reach_hops hlinks (h.2 i))

theorem Access.mono {st st' hp : ι → List Int32} {b : Bool} {depth : Nat} {entry : Entry}
    {F F' : ι → Int32} (h : Access w st hp b depth entry F F') (hst : ∀ i, st i <:+ st' i) :
    Access w st' hp b depth entry F F' := by
  unfold Access at h ⊢
  split
  next hglobal =>
    rw [if_pos hglobal] at h
    exact h
  next hlocal =>
    rw [if_neg hlocal] at h
    exact ⟨h.1, fun i => (h.2 i).mono (hst i) (List.prefix_refl _)⟩

/-- The value of a name is read from its cell. -/
theorem Found.load {st hp : ι → List Int32} {b : Bool} {depth : Nat} {entry : Entry}
    {F F' ra tm : ι → Int32} {out : Array Int32} {v : Value}
    (haccess : Access w st hp b depth entry F F')
    (hcell : Shows w st hp (fun i => F' i + entry.offset) fun _ => v.word)
    (hcode : ∀ i, (w i).image.CodeAt (w i).address (pc i)
      (((w i).context r b).frameAccess ⟨entry, depth⟩ ++ Code.load entry.offset)) :
    ∃ k, ∀ i, (w i).Reach k ⟨pc i, temps i ++ st i, hp i, F i, ra i, tm i, out, none⟩
      ⟨pc i + Code.size (((w i).context r b).frameAccess ⟨entry, depth⟩ ++ Code.load entry.offset),
        v.word :: (temps i ++ st i), hp i, F i, ra i, tm i, out, none⟩ := by
  have hup : ∀ i, st i <:+ temps i ++ st i := fun i => List.suffix_append _ _
  simp only [Image.codeAt_append] at hcode
  obtain ⟨k, hreach⟩ := Access.reach (haccess.mono hup) fun i => (hcode i).1
  refine ⟨k + 3, fun i => ?_⟩
  rw [Code.size_append, ← Nat.add_assoc]
  exact (hreach i).trans
    (Platform.reach_load (hcode i).2 ((hcell i).mono (hup i) (List.prefix_refl _)))

theorem Ty.eq_of_asValue {t t' : Ty} {x : String} {pos : SourcePos} (h : t.asValue x pos = .ok t') :
    t = t' := by
  cases t <;> cases h <;> rfl

theorem Expr.simulated_name {id : NodeId} {x : String} {pos : SourcePos} {entry : Entry} {t : Ty}
    (hlookup : s.env.scopes.lookup? x = some entry)
    (huse : r.uses[id]? = some ⟨entry, s.env.scopes.depth⟩)
    (hvalue : entry.ty.asValue x pos = .ok t) (ht : t.isArrow = false) :
    (Expr.name id x pos).Simulated r w n call s t := by
  intro σ pc temps c code hcoded hcarries hat
  choose q q' hcode using hcoded
  simp only [Expr.code_name, Platform.context_resolution, huse, Option.some.injEq, exists_eq_left']
    at hcode
  obtain rfl := Ty.eq_of_asValue hvalue
  simp only [ht, Bool.false_eq_true, if_false] at hcode
  simp only [← (hcode _).2] at hcarries ⊢
  obtain ⟨hp, ra, tm, hm, rfl⟩ := hat
  obtain ⟨slot, ρ', F', hfind, haccess, hmeans⟩ := hm.scope.lookup hlookup
  cases hmeans with
  | @value _ _ _ _ v hread hty hcell =>
    obtain ⟨k, hreach⟩ := Found.load haccess hcell fun i => (hcarries i).1
    have heval : (Expr.name id x pos).eval call s.bindings σ = .ok (v, σ) := by
      rw [Expr.eval, EvalM.some_bind hfind]
      change EvalM.some (slot.read? σ) σ = _
      rw [hread]
      rfl
    rw [heval]
    exact ⟨k, _, hreach, hty, .refl σ, hp, ra, tm, hm, rfl⟩
  | function _ _ hty =>
    rw [hty] at ht
    cases ht
  | method => cases hvalue
  | cls hty =>
    rw [hty] at hvalue
    cases hvalue

/-! ### Operators -/

/-- The operators do not look at the store. -/
theorem BinOp.apply_eq (op : BinOp) (x y : Value) (σ : Store) :
    op.apply x y σ = (op.apply x y {}).map fun p => (p.1, σ) := by
  cases op with
  | add | sub | mul =>
    simp only [BinOp.apply]
    cases x.number? <;> cases y.number? <;> rfl
  | div =>
    simp only [BinOp.apply]
    rcases x.number? with _ | m
    · rfl
    · rcases y.number? with _ | k
      · rfl
      · by_cases hzero : k = 0
        · subst hzero
          rfl
        · simp only [EvalM.some, pure_bind, if_neg hzero]
          rfl
  | and | or => cases x <;> cases y <;> rfl
  | equal | lessEqual | greaterEqual => rfl

/-- The evaluator of programs in which functions are not values. -/
def evaluator (call : Call) (ρ : Bindings) : Evaluator Store Stop Value where
  base v := v
  halt stop := stop
  eval e := e.eval call ρ
  operate := BinOp.apply
  written v σ := { σ with output := σ.output.push v.word }
  eval_int _ _ := by rw [Expr.eval]
  eval_bool _ _ := by rw [Expr.eval]
  eval_null _ := by rw [Expr.eval]
  eval_binary _ _ _ hor hge := by rw [Expr.eval]; exacts [hor, hge]
  eval_greaterEqual _ _ _ := by rw [Expr.eval]
  eval_or _ _ _ := by rw [Expr.eval]; exact ⟨_, rfl, rfl, rfl⟩
  eval_not _ _ := by rw [Expr.eval]; exact ⟨_, rfl, rfl, rfl⟩
  eval_ite _ _ _ _ := by rw [Expr.eval]; exact ⟨_, rfl, rfl, rfl⟩
  eval_print _ _ := by rw [Expr.eval]
  operate_ok σ h := by rw [BinOp.apply_eq, h]; rfl
  operate_error σ h := by rw [BinOp.apply_eq, h]; rfl

theorem At.printed {v : Value} (hat : At r w s σ pc (fun i => v.word :: temps i) c)
    (hcode : ∀ i, (w i).image.ops[pc i]? = some (.bare .print)) :
    ∃ c', (∀ i, (w i).Reach 1 (c i) (c' i)) ∧ At r w s { σ with output := σ.output.push v.word }
      (fun i => pc i + 1) (fun i => v.word :: temps i) c' :=
  hat.step _ _ fun _ ra tm _ => ⟨ra, tm, fun i => Platform.reach_print (hcode i)⟩

/-- The machines at a site. They are not asked for room: where there is none, they collide. -/
def setting (r : Resolution) (w : ι → World) (n : Nat) (call : Call) (s : Site ι) :
    Setting ι Store Stop Value (ι → Config) where
  toEvaluator := evaluator call s.bindings
  toFollower := machines r w n
  resolution := r
  machine i := w i
  inClass := s.inClass
  At := At r w s
  Room _ _ := True
  Since := Store.Grows
  Shows σ v t words := words = [v.word] ∧ v.HasTy r.hierarchy σ t
  since_refl := .refl
  since_trans := .trans
  room_mono _ _ := trivial
  room_cons _ _ := trivial
  shows_base hv := ⟨rfl, hv.mono ⟨List.nil_prefix, List.nil_prefix⟩⟩
  exists_base := fun ⟨hwords, hv⟩ _ => ⟨_, _, rfl, hwords, hv⟩
  shows_join hjoin hd := ⟨hd.elim And.left And.left, .join hjoin (hd.imp And.right And.right)⟩
  push hat _ hcode :=
    ⟨1, hat.stackStep _ _ fun i _ _ _ => Platform.reach_push (hcode i)⟩
  move _ hat _ hmoves := ⟨1, hat.stackStep _ _ fun i hp ra tm => (hmoves i _ hp _ ra tm _).reach⟩
  divide hat hcode := by
    obtain ⟨hp, ra, tm, -, rfl⟩ := hat
    exact ⟨0, fun i => Platform.fails_div (hcode i)⟩
  print := by
    rintro σ pc temps c v t _ hat ⟨rfl, hv⟩ hcode
    obtain ⟨c', hreach, hat'⟩ := hat.printed hcode
    have hgrow : σ.Grows { σ with output := σ.output.push v.word } := ⟨List.prefix_refl _, rfl⟩
    exact ⟨1, c', hreach, hat', ⟨rfl, hv.mono hgrow.extends⟩, hgrow⟩

/-- In this setting a value is a single word. -/
theorem Expr.simulated_iff {e : Expr} {t : Ty} :
    e.Simulated r w n call s t ↔ (setting r w n call s).Simulated e t := by
  constructor
  · intro h σ pc temps c code hcoded hcarries _ hat
    refine Follower.Follows.mono (h hcoded hcarries hat) ?_
    rintro v σ' c' - ⟨hv, hgrow, hat'⟩
    exact ⟨[v.word], hgrow, ⟨rfl, hv⟩, hat'⟩
  · intro h σ pc temps c code hcoded hcarries hat
    refine Follower.Follows.mono (h hcoded hcarries trivial hat) ?_
    rintro v σ' c' - ⟨_, hgrow, ⟨rfl, hv⟩, hat'⟩
    exact ⟨hv, hgrow, hat'⟩

theorem Hierarchy.isArrow_of_join? {h : Hierarchy} {a b t : Ty} (hjoin : h.join? a b = some t)
    (ht : t.isArrow = false) : a.isArrow = false ∧ b.isArrow = false := by
  have hleast := isJoin_of_join? hjoin
  exact ⟨isArrow_of_isSubtype hleast.left ht, isArrow_of_isSubtype hleast.right ht⟩

end Stackling
