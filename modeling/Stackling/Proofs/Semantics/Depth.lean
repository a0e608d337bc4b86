import Stackling.Proofs.Semantics.Eval

/-!
# The bound on nested calls

An evaluation that does not run out of depth is the same under every larger bound. So a program has
one of three behaviours: it has a value, it stops with a fault, or it goes deeper than any bound.
-/

namespace Stackling

/-- The second computation goes at least as deep: they agree unless the first one runs out of
depth. -/
def EvalM.Below {α : Type} (x y : EvalM α) : Prop := ∀ σ, x σ ≠ .error .tooDeep → y σ = x σ

namespace EvalM.Below

variable {α β : Type}

theorem refl (x : EvalM α) : Below x x := fun _ _ => rfl

theorem bind {x y : EvalM α} {f g : α → EvalM β} (h : Below x y) (hf : ∀ a, Below (f a) (g a)) :
    Below (x >>= f) (y >>= g) := by
  intro σ hne
  change (x σ >>= fun p => f p.1 p.2) ≠ _ at hne
  change (y σ >>= fun p => g p.1 p.2) = (x σ >>= fun p => f p.1 p.2)
  cases hx : x σ with
  | error stop =>
    rw [hx] at hne
    have hstop : stop ≠ .tooDeep := by
      rintro rfl
      exact hne rfl
    rw [h σ (hx ▸ fun heq => hstop (Except.error.inj heq)), hx]
    rfl
  | ok p =>
    rw [hx] at hne
    rw [h σ (hx ▸ nofun), hx]
    exact hf p.1 p.2 hne

end EvalM.Below

open EvalM

variable {call call' : Call}

/-- What is known of one way to call functions holds of a deeper one. -/
def Call.Below (call call' : Call) : Prop :=
  ∀ f ρ args, EvalM.Below (call f ρ args) (call' f ρ args)

theorem invoke_below (h : call.Below call') (object : Nat) (name : String) (args : List Value) :
    Below (invoke call object name args) (invoke call' object name args) :=
  .bind (.refl _) fun _ => .bind (.refl _) fun _ => h _ _ _

mutual

theorem Expr.eval_below (h : call.Below call') (ρ : Bindings) :
    (e : Expr) → Below (e.eval call ρ) (e.eval call' ρ)
  | .int .. | .bool .. | .null .. | .name .. => by
    simp only [Expr.eval]
    exact .refl _
  | .binary op left right _ => by
    have hleft := left.eval_below h ρ
    have hright := right.eval_below h ρ
    simp only [Expr.eval]
    split
    · refine .bind hleft fun v => ?_
      split
      · exact .refl _
      · exact .bind hright fun _ => .refl _
    · exact .bind hright fun _ => .bind hleft fun _ => .refl _
    · exact .bind hleft fun _ => .bind hright fun _ => .refl _
  | .not operand _ => by
    simp only [Expr.eval]
    exact .bind (operand.eval_below h ρ) fun _ => .refl _
  | .ite cond yes no _ => by
    simp only [Expr.eval]
    refine .bind (cond.eval_below h ρ) fun v => ?_
    split
    · exact yes.eval_below h ρ
    · exact no.eval_below h ρ
    · exact .refl _
  | .print value _ => by
    simp only [Expr.eval]
    exact .bind (value.eval_below h ρ) fun _ => .refl _
  | .call _ callee args _ => by
    simp only [Expr.eval]
    refine .bind (evalArgs_below h ρ args) fun vs => .bind (.refl _) fun found => ?_
    split
    · exact h _ _ _
    · exact invoke_below h _ _ _
    · exact .refl _
  | .send _ receiver method args _ => by
    simp only [Expr.eval]
    refine .bind (evalArgs_below h ρ args) fun vs => .bind (.refl _) fun found => ?_
    refine .bind (.refl _) fun σ => .bind (.refl _) fun v => ?_
    split
    · exact invoke_below h _ _ _
    · exact .refl _
    · exact .refl _
  | .new _ cls args _ => by
    simp only [Expr.eval]
    exact .bind (evalFields_below h ρ args) fun _ => .refl _

theorem evalArgs_below (h : call.Below call') (ρ : Bindings) :
    (es : List Expr) → Below (evalArgs call ρ es) (evalArgs call' ρ es)
  | [] => by
    simp only [evalArgs]
    exact .refl _
  | e :: es => by
    simp only [evalArgs]
    exact .bind (evalArgs_below h ρ es) fun _ => .bind (e.eval_below h ρ) fun _ => .refl _

theorem evalFields_below (h : call.Below call') (ρ : Bindings) :
    (es : List Expr) → Below (evalFields call ρ es) (evalFields call' ρ es)
  | [] => by
    simp only [evalFields]
    exact .refl _
  | e :: es => by
    simp only [evalFields]
    exact .bind (e.eval_below h ρ) fun _ => .bind (evalFields_below h ρ es) fun _ => .refl _

end

theorem evalDecls_below (h : call.Below call') (ρ : Bindings) (ds : List Decl) :
    Below (evalDecls call ρ ds) (evalDecls call' ρ ds) := by
  induction ds generalizing ρ with
  | nil => exact .refl _
  | cons d ds ih =>
    cases d with
    | var d =>
      simp only [evalDecls]
      exact .bind (d.init.eval_below h ρ) fun _ => ih _
    | fn f =>
      simp only [evalDecls]
      exact ih _
    | cls c =>
      simp only [evalDecls]
      exact .bind (.refl _) fun _ => ih _

theorem callAt_below {depth depth' : Nat} (hle : depth ≤ depth') :
    (callAt depth).Below (callAt depth') := by
  induction depth generalizing depth' with
  | zero =>
    intro f ρ args σ hne
    exact absurd rfl hne
  | succ depth ih =>
    obtain ⟨depth', rfl⟩ : ∃ d, depth' = d + 1 := ⟨depth' - 1, by omega⟩
    have hcall := ih (Nat.le_of_succ_le_succ hle)
    intro f ρ args
    simp only [callAt]
    split
    · exact .bind (evalDecls_below hcall _ _) fun _ => f.body.eval_below hcall _
    · exact .refl _

namespace Program

variable {p : Program}

theorem eval_of_le {depth depth' : Nat} (hle : depth ≤ depth')
    (hne : p.eval depth ≠ .error .tooDeep) :
    p.eval depth' = p.eval depth :=
  Below.bind (evalDecls_below (callAt_below hle) _ _)
    (fun _ => p.body.eval_below (callAt_below hle) _) {} hne

/-- The program has a value and prints some numbers. -/
def Evaluates (p : Program) (v : Value) (trace : Array Int32) : Prop :=
  ∃ depth σ, p.eval depth = .ok (v, σ) ∧ σ.output = trace

/-- The program stops with a fault. -/
def Aborts (p : Program) (stop : Stop) : Prop :=
  stop ≠ .tooDeep ∧ ∃ depth, p.eval depth = .error stop

/-- The calls of the program are nested deeper than any bound. -/
def Diverges (p : Program) : Prop := ∀ depth, p.eval depth = .error .tooDeep

theorem evaluates_of_eval {depth : Nat} {v : Value} {trace : Array Int32}
    (h : (p.eval depth).map (Prod.map id Store.output) = .ok (v, trace)) : p.Evaluates v trace := by
  cases heval : p.eval depth with
  | error stop =>
    rw [heval] at h
    cases h
  | ok result =>
    rw [heval] at h
    cases h
    exact ⟨depth, result.2, heval, rfl⟩

/-- All evaluations that end have the same result. -/
theorem eval_unique {depth depth' : Nat} (h : p.eval depth ≠ .error .tooDeep)
    (h' : p.eval depth' ≠ .error .tooDeep) :
    p.eval depth = p.eval depth' := by
  rcases Nat.le_total depth depth' with hle | hle
  · exact (eval_of_le hle h).symm
  · exact eval_of_le hle h'

theorem Evaluates.iff {v v' : Value} {trace trace' : Array Int32} (h : p.Evaluates v trace) :
    p.Evaluates v' trace' ↔ v' = v ∧ trace' = trace := by
  obtain ⟨depth, σ, heval, rfl⟩ := h
  constructor
  · rintro ⟨depth', σ', heval', rfl⟩
    have heq : p.eval depth' = p.eval depth := eval_unique (heval' ▸ nofun) (heval ▸ nofun)
    rw [heval, heval'] at heq
    obtain ⟨rfl, rfl⟩ := Prod.mk.inj (Except.ok.inj heq)
    exact ⟨rfl, rfl⟩
  · rintro ⟨rfl, rfl⟩
    exact ⟨depth, σ, heval, rfl⟩

theorem evaluates_or_aborts_or_diverges (p : Program) :
    (∃ v trace, p.Evaluates v trace) ∨ (∃ stop, p.Aborts stop) ∨ p.Diverges := by
  by_cases h : p.Diverges
  · exact .inr (.inr h)
  · obtain ⟨depth, hne⟩ := Classical.not_forall.mp h
    cases hr : p.eval depth with
    | error stop => exact .inr (.inl ⟨stop, fun heq => hne (heq ▸ hr), depth, hr⟩)
    | ok result => exact .inl ⟨result.1, _, depth, result.2, hr, rfl⟩

end Program

end Stackling
