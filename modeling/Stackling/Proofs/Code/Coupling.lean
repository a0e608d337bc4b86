import Stackling.Code.Declaration

/-!
# Two code generations side by side

Generation for one program, or for one setting, is compared with generation for another from state
to state: from related states both fail alike, or both answer alike and go on from related states.
What failures, states and answers have to do with each other is left open, and each form of tree is
then one line in the order in which its parts are generated.
-/

namespace Stackling

namespace Lowering

/-- Related answers, or related failures. -/
inductive Related {α β : Type} (E : LoweringError → LoweringError → Prop) (R : α → β → Prop) :
    Except LoweringError α → Except LoweringError β → Prop
  | ok {a : α} {b : β} (hab : R a b) : Related E R (.ok a) (.ok b)
  | error {e e' : LoweringError} (he : E e e') : Related E R (.error e) (.error e')

/-- From related states, two generations end in related answers and states, or fail alike. -/
def Coupled {σ α β : Type} (E : LoweringError → LoweringError → Prop) (S : σ → σ → Prop)
    (R : α → β → Prop) (x : StateT σ (Except LoweringError) α)
    (x' : StateT σ (Except LoweringError) β) : Prop :=
  ∀ s s', S s s' → Related E (fun p p' => R p.1 p'.1 ∧ S p.2 p'.2) (x s) (x' s')

namespace Coupled

variable {σ α β γ δ : Type} {E : LoweringError → LoweringError → Prop} {S : σ → σ → Prop}
  {R : α → β → Prop} {T : γ → δ → Prop}

theorem pure {a : α} {b : β} (hab : R a b) :
    Coupled E S R (Pure.pure a : StateT σ (Except LoweringError) α)
      (Pure.pure b : StateT σ (Except LoweringError) β) :=
  fun _ _ hs => .ok ⟨hab, hs⟩

theorem throw {e e' : LoweringError} (he : E e e') :
    Coupled E S R (MonadExcept.throw e : StateT σ (Except LoweringError) α)
      (MonadExcept.throw e' : StateT σ (Except LoweringError) β) :=
  fun _ _ _ => .error he

theorem bind {x : StateT σ (Except LoweringError) α} {x' : StateT σ (Except LoweringError) β}
    {k : α → StateT σ (Except LoweringError) γ} {k' : β → StateT σ (Except LoweringError) δ}
    (hx : Coupled E S R x x') (hk : ∀ a b, R a b → Coupled E S T (k a) (k' b)) :
    Coupled E S T (x >>= k) (x' >>= k') := by
  intro s s' hs
  have hxs := hx s s' hs
  change Related E _ (x s >>= fun p => k p.1 p.2) (x' s' >>= fun p => k' p.1 p.2)
  generalize x s = o, x' s' = o' at hxs
  cases hxs with
  | error he => exact .error he
  | ok hab => exact hk _ _ hab.1 _ _ hab.2

/-- The usual case: the answers are the same. -/
theorem bind_eq {x x' : StateT σ (Except LoweringError) α}
    {k : α → StateT σ (Except LoweringError) γ} {k' : α → StateT σ (Except LoweringError) δ}
    (hx : Coupled E S Eq x x') (hk : ∀ a, Coupled E S T (k a) (k' a)) :
    Coupled E S T (x >>= k) (x' >>= k') := by
  refine hx.bind ?_
  rintro a _ rfl
  exact hk a

theorem get : Coupled E S S (MonadState.get : StateT σ (Except LoweringError) σ) MonadState.get :=
  fun _ _ hs => .ok ⟨hs, hs⟩

theorem modifyGet {h : σ → α × σ} {h' : σ → β × σ}
    (hh : ∀ s s', S s s' → R (h s).1 (h' s').1 ∧ S (h s).2 (h' s').2) :
    Coupled E S R (MonadStateOf.modifyGet h : StateT σ (Except LoweringError) α)
      (MonadStateOf.modifyGet h' : StateT σ (Except LoweringError) β) :=
  fun s s' hs => .ok (hh s s' hs)

/-- From one state, the same generation. -/
theorem refl (hE : ∀ e, E e e) (x : StateT σ (Except LoweringError) α) : Coupled E Eq Eq x x := by
  rintro s _ rfl
  cases x s with
  | error e => exact .error (hE e)
  | ok p => exact .ok ⟨rfl, rfl⟩

/-- The labels that expressions take are all that they see of the state. -/
theorem lift {S : CodeState → CodeState → Prop} (hlabels : ∀ {s s'}, S s s' → s.labels = s'.labels)
    (hS : ∀ {s s'} (labels : LabelSupply), S s s' → S { s with labels } { s' with labels })
    {x : LabelM α} {x' : LabelM β} (hx : Coupled E Eq R x x') : Coupled E S R x.lift x'.lift := by
  intro s s' hs
  have hxs := hx s.labels s'.labels (hlabels hs)
  unfold LabelM.lift
  generalize x s.labels = o, x' s'.labels = o' at hxs
  cases hxs with
  | error he => exact .error he
  | ok hab =>
    obtain ⟨hr, heq⟩ := hab
    exact .ok ⟨hr, heq ▸ hS _ hs⟩

/-- What is left when the states are forgotten. -/
theorem run' {x : StateT σ (Except LoweringError) α} {x' : StateT σ (Except LoweringError) β}
    {s s' : σ} (hx : Coupled E S R x x') (hs : S s s') : Related E R (x.run' s) (x'.run' s') := by
  have hxs := hx s s' hs
  rw [StateT.run', StateT.run']
  generalize x s = o, x' s' = o' at hxs
  cases hxs with
  | error he => exact .error he
  | ok hab => exact .ok hab.1

end Coupled

end Lowering

theorem coupled_freshBranch {E : LoweringError → LoweringError → Prop} :
    Lowering.Coupled E Eq Eq freshBranch freshBranch := by
  refine .modifyGet ?_
  rintro s _ rfl
  exact ⟨rfl, rfl⟩

end Stackling
