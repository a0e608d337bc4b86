import Stackling.Proofs.Simulation.Program

/-!
# Programs whose value is a function

The body of a program may be the name of a function, or a choice between such names, or print them.
The evaluator has no value for it, but the machine gets through its code: it leaves two cells.
`Passes` is what remains of a simulation if the evaluation is forgotten.
-/

namespace Stackling

variable {r : Resolution} {w : Unit → World} {n : Nat} {c c' : Unit → Config}

/-- The machine does what some evaluation has it do, and shows `post` if it gets to the end. -/
def Passes (r : Resolution) (w : Unit → World) (n : Nat) (c : Unit → Config)
    (post : Store → (Unit → Config) → Prop) :
    Prop :=
  ∃ α, ∃ result : Except Stop (α × Store), Sim r w n result c fun _ => post

namespace Passes

variable {α : Type} {result : Except Stop (α × Store)} {post post' : Store → (Unit → Config) → Prop}

theorem of_sim {after : α → Store → (Unit → Config) → Prop} (h : Sim r w n result c after)
    (hnext : ∀ a σ c', after a σ c' → Passes r w n c' post) : Passes r w n c post := by
  rcases result with stop | ⟨a, σ⟩
  · refine ⟨α, .error stop, ?_⟩
    cases stop with
    | divisionByZero | nullReceiver | tooDeep => exact h
    | stuck => exact h.elim
  · obtain ⟨k, c', hreach, hafter⟩ := h
    obtain ⟨β, result', hsim⟩ := hnext a σ c' hafter
    exact ⟨β, result', hsim.after hreach⟩

/-- The machine may be where it should be after some steps. -/
theorem reach {k : Nat} (σ : Store) (hreach : ∀ i, (w i).Reach k (c i) (c' i)) (hpost : post σ c') :
    Passes r w n c post :=
  ⟨Unit, .ok ((), σ), k, c', hreach, hpost⟩

theorem after {k : Nat} (hreach : ∀ i, (w i).Reach k (c i) (c' i)) (h : Passes r w n c' post) :
    Passes r w n c post := by
  obtain ⟨α, result, hsim⟩ := h
  exact ⟨α, result, hsim.after hreach⟩

theorem bind (h : Passes r w n c post) (hnext : ∀ σ c', post σ c' → Passes r w n c' post') :
    Passes r w n c post' := by
  obtain ⟨α, result, hsim⟩ := h
  exact of_sim hsim fun _ => hnext

end Passes

variable {call : Call} {s : Site Unit}

/-- What the machine shows after an expression: its value, in one cell or two. -/
def Leaves (r : Resolution) (w : Unit → World) (s : Site Unit) (pc : Unit → Nat)
    (temps : Unit → List Int32) (σ : Store) (c : Unit → Config) : Prop :=
  ∃ v cells, At r w s σ pc (fun i => v :: cells ++ temps i) c

/-- The machine gets through the code of an expression. -/
def Expr.Passable (r : Resolution) (w : Unit → World) (n : Nat) (s : Site Unit) (e : Expr) : Prop :=
  ∀ ⦃σ : Store⦄ ⦃pc : Unit → Nat⦄ ⦃temps : Unit → List Int32⦄ ⦃c : Unit → Config⦄
    ⦃code : Unit → List Instr⦄, (∀ i, e.Coded r (w i) s.inClass (code i)) →
    (∀ i, (w i).Carries (pc i) (code i)) → At r w s σ pc temps c →
    Passes r w n c (Leaves r w s (fun i => pc i + Code.size (code i)) temps)

namespace Expr

variable {pos : SourcePos}

theorem Simulated.passable {e : Expr} {t : Ty} (h : e.Simulated r w n call s t) :
    e.Passable r w n s := by
  intro σ pc temps c code hcoded hcarries hat
  refine .of_sim (h hcoded hcarries hat) ?_
  rintro v σ' c' ⟨-, -, hat'⟩
  exact .reach σ' (fun i => .refl (w i) _) ⟨v.word, [], hat'⟩

/-- The name of a function gives its frame and its code. -/
theorem passable_name {id : NodeId} {x : String} {entry : Entry} {t : Ty}
    (hlookup : s.env.scopes.lookup? x = some entry)
    (huse : r.uses[id]? = some ⟨entry, s.env.scopes.depth⟩)
    (hvalue : entry.ty.asValue x pos = .ok t) (ht : t.isArrow = true) :
    (Expr.name id x pos).Passable r w n s := by
  intro σ pc temps c code hcoded hcarries hat
  choose q q' hcode using hcoded
  simp only [Expr.code_name, Platform.context_resolution, huse, Option.some.injEq, exists_eq_left']
    at hcode
  obtain rfl := Ty.eq_of_asValue hvalue
  simp only [ht, if_true] at hcode
  simp only [← (hcode _).2, Platform.carries_append, Code.size_append, ← Nat.add_assoc]
    at hcarries ⊢
  obtain ⟨hp, ra, tm, hm, rfl⟩ := hat
  obtain ⟨slot, ρ', F', hfind, haccess, hmeans⟩ := hm.scope.lookup hlookup
  have hup : ∀ i, s.base i <:+ temps i ++ s.base i := fun i => List.suffix_append _ _
  obtain ⟨k, hreach⟩ := Access.reach (haccess.mono hup) fun i => (hcarries i).1.1
  refine .after hreach ?_
  cases hmeans with
  | @function _ _ _ _ _ _ a _ _ hty hframe hcode _ =>
    exact .reach σ (fun i => Platform.reach_loadClosure (hcarries i).2.1
      ((hframe i).mono (hup i) (List.prefix_refl _)) ((hcode i).mono (hup i) (List.prefix_refl _)))
        ⟨Int32.ofNat (a ()), [F' ()], hp, ra, F', hm, rfl⟩
  | value _ hty => exact absurd (hty.isArrow.symm.trans ht) (by decide)
  | method => cases ht
  | cls hty =>
    rw [hty] at ht
    cases ht

theorem passable_ite {cond yes no : Expr} {g : Ty} (hcond : cond.Simulated r w n call s g)
    (hbool : r.hierarchy.isSubtype g .bool) (hyes : yes.Passable r w n s)
    (hno : no.Passable r w n s) :
    (Expr.ite cond yes no pos).Passable r w n s := by
  intro σ pc temps c code hcoded hcarries hat
  choose q q' hcode using hcoded
  simp only [Expr.code_ite] at hcode
  choose code₁ s₁ code₂ s₂ code₃ hcode₁ hcode₂ hcode₃ hcode using hcode
  simp only [← hcode, Platform.carries_append, Platform.carries_push, Platform.carries_jump,
    Platform.carries_label, Code.size_append, ← Nat.add_assoc] at hcarries ⊢
  refine .of_sim (hcond (fun i => ⟨_, _, hcode₁ i⟩) (fun i => (hcarries i).1.1.1.1.1) hat) ?_
  rintro x σ₁ c₁ ⟨hx, -, hat₁⟩
  obtain ⟨p, rfl⟩ := (hx.sub hbool).exists_bool
  have hplace : ∀ i, pc i + Code.size (code₁ i) + 1 < (w i).address (.branch (q i).branches) := by
    intro i
    have htest : Code.size [.push 1, .jump .equal (.branch (q i).branches)] = 2 := rfl
    rw [(hcarries i).1.1.2.2.1]
    omega
  obtain ⟨k, c₂, hreach, hat₂⟩ : ∃ (k : Nat) (c₂ : Unit → Config),
      (∀ i, (w i).Reach k (c₁ i) (c₂ i)) ∧
      At r w s σ₁ (fun i => if p then (w i).address (.branch (q i).branches)
        else pc i + Code.size (code₁ i) + 1 + 1) temps c₂ :=
    Setting.test (X := setting r w n call s) hat₁ trivial (fun i => (hcarries i).1.1.1.1.2.1)
      (fun i => (hcarries i).1.1.1.1.2.2.1) hplace
  refine .after hreach ?_
  cases p with
  | true =>
    simp only [if_true, fun i => (hcarries i).1.1.2.2.1] at hat₂
    have hpasses := hyes (fun i => ⟨_, _, hcode₃ i⟩) (fun i => (hcarries i).1.2) hat₂
    exact hpasses
  | false =>
    refine (hno (fun i => ⟨_, _, hcode₂ i⟩) (fun i => (hcarries i).1.1.1.2) hat₂).bind ?_
    rintro σ₂ c₃ ⟨v, cells, hat₃⟩
    obtain ⟨c₄, hreach', hat₄⟩ := hat₃.stackStep _ (fun i => v :: cells ++ temps i)
      fun i _ _ _ => Platform.reach_jump (hcarries i).1.1.2.1
    simp only [fun i => (hcarries i).2.1] at hat₄
    exact .reach σ₂ hreach' ⟨v, cells, hat₄⟩

theorem passable_print {e : Expr} (he : e.Passable r w n s) :
    (Expr.print e pos).Passable r w n s := by
  intro σ pc temps c code hcoded hcarries hat
  choose q q' hcode using hcoded
  simp only [Expr.code_print] at hcode
  choose code₁ hcode₁ hcode using hcode
  simp only [← hcode, Platform.carries_append, Platform.carries_bare,
    Code.size_append, ← Nat.add_assoc] at hcarries ⊢
  refine (he (fun i => ⟨_, _, hcode₁ i⟩) (fun i => (hcarries i).1) hat).bind ?_
  rintro σ₁ c₁ ⟨v, cells, hat₁⟩
  obtain ⟨c₂, hreach, hat₂⟩ := hat₁.step _ (fun i => v :: cells ++ temps i)
    fun hp ra tm _ => ⟨ra, tm, fun i => Platform.reach_print (hcarries i).2.1⟩
  exact .reach _ hreach ⟨v, cells, hat₂⟩

end Expr

theorem BinOp.isArrow_infer {h : Hierarchy} {op : BinOp} {a b t : Ty} {pos : SourcePos}
    (hop : op.infer h a b pos = .ok t) : t.isArrow = false := by
  unfold BinOp.infer at hop
  split at hop
  · split at hop <;> cases hop
    rfl
  · split at hop <;> cases hop
    rfl
  · split at hop
    · cases hop
    · split at hop <;> cases hop
      rfl

/-- The machine gets through the code of every typed expression. -/
theorem Expr.passable {σ : Store} {hp : Unit → List Int32} (hm : Matches r w s σ hp)
    (hcall : CallSim r w n call) :
    (e : Expr) → {t : Ty} → e.Typed r s.env t → e.Passable r w n s
  | .name id x pos, t, .name hlookup huse hvalue => by
    cases ht : t.isArrow with
    | true => exact Expr.passable_name hlookup huse hvalue ht
    | false => exact (Expr.simulated hm hcall _ (.name hlookup huse hvalue) ht).passable
  | .ite cond yes no _, _, .ite hcond hbool hyes hno _ =>
    Expr.passable_ite
      (Expr.simulated hm hcall cond hcond (Hierarchy.isArrow_of_isSubtype hbool rfl)) hbool
      (Expr.passable hm hcall yes hyes) (Expr.passable hm hcall no hno)
  | .print e _, _, .print he => Expr.passable_print (Expr.passable hm hcall e he)
  | .int .., _, h@.int | .bool .., _, h@.bool | .null .., _, h@.null | .not .., _, h@(.not ..)
      | .new .., _, h@(.new ..) =>
    (Expr.simulated hm hcall _ h rfl).passable
  | .binary .., _, h@(.binary _ _ hop) =>
    (Expr.simulated hm hcall _ h (BinOp.isArrow_infer hop)).passable
  | .call .., _, h@(.call hlookup _ hsig _) =>
    (Expr.simulated hm hcall _ h (hm.isArrow_signature hlookup hsig).2).passable
  | .send .., _, h@(.send _ _ hrecord hmethod _ hsig _) => by
    obtain ⟨fields, methods, j, sig', -, hlists, hj, rfl⟩ := hm.exists_method hrecord hmethod
    cases hsig
    exact (Expr.simulated hm hcall _ h (hlists.isArrow_signature hj).2).passable

/-- The machine gets through the code of a typed program, to the operation that halts. -/
theorem Program.passes {p : Program} {t : Ty} {w : World} (hlinked : r.classes.Linked)
    (htyped : p.Typed r t) (hw : w.Holds r p) (n : Nat) :
    Passes r (fun _ => w) n (fun _ => w.start) fun _ c =>
      w.image.ops[(c ()).ip]? = some (.bare .halt) := by
  obtain ⟨env, hdecls, hbody⟩ := htyped
  obtain ⟨locals, q, value, hlocals, hcoded, hmain, hvalue, hhalt, hbodies⟩ := hw.exists_code
  have hcall : CallSim r (fun _ : Unit => w) n (callAt n) := callSim hlinked n
  refine .of_sim (simulated_decls hlinked hcall hdecls (fun _ => hlocals) (fun _ => hmain) fun _ =>
    hbodies) ?_
  rintro ρ σ c ⟨s, hclass, rfl, rfl, hat⟩
  have hpassable : p.body.Passable r (fun _ => w) n s := by
    obtain ⟨hp, _, _, hm, -⟩ := hat
    exact Expr.passable hm hcall p.body hbody
  refine (hpassable (fun _ => hclass ▸ hcoded) (fun _ => hvalue) hat).bind ?_
  rintro σ' c' ⟨v, cells, hp, ra, tm, -, rfl⟩
  exact .reach σ' (fun _ => .refl w _) hhalt

end Stackling
