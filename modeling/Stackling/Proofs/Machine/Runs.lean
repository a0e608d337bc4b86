import Stackling.Machine.Run

/-!
# Runs up to a collision of stack and heap

The machine looks for room only when it pushes, and it compares the stack pointer with the heap
pointer as it is. A store to the first free cell of the heap is not seen by that test until the heap
pointer is advanced, so what is pushed in between can land on the stored cell. A state collides if
the stack has reached the heap and either the step overflows, or the heap pointer is about to be
advanced over such a cell.

`Runs` describes a number of steps that are clean unless a collision comes first; `run_cases` says
what they mean for a bounded run.
-/

namespace Stackling

/-- The operations from here on are the last two of a store to the heap. -/
def Image.AdvancesHeap (image : Image) (ip : Nat) : Prop :=
  image.ops[ip]? = some (.bare .add) ∧ image.ops[ip + 1]? = some (.bare .shp)

instance (image : Image) (ip : Nat) : Decidable (image.AdvancesHeap ip) :=
  inferInstanceAs (Decidable (_ ∧ _))

namespace State

/-- The heap pointer is about to be advanced though the stack has reached the heap: the cell that
was stored last is lost, and nothing is reported. -/
def Clobbers (image : Image) (s : State) : Prop := s.sp ≤ s.hp ∧ image.AdvancesHeap s.ip

instance (image : Image) (s : State) : Decidable (s.Clobbers image) :=
  inferInstanceAs (Decidable (_ ∧ _))

/-- Stack and heap have met, and the step overflows or loses a stored cell. -/
def Collides (image : Image) (s : State) : Prop :=
  s.sp ≤ s.hp ∧ (s.step image = .error (.stackOverflow s.ip) ∨ image.AdvancesHeap s.ip)

/-- The number of free cells between the heap and the stack. -/
def room (s : State) : Int := s.sp.toInt - s.hp.toInt

/-- The heap only grows from one state to another, and what is on it stays. -/
structure Keeps (s s' : State) : Prop where
  nonneg : 0 ≤ s.hp
  grows : s.hp ≤ s'.hp
  kept : ∀ a < s.hp.toNatClampNeg, s'.memory.get? a = s.memory.get? a

/-- A step that keeps what is on the heap and takes at most one free cell. -/
structure Clean (s s' : State) : Prop extends Keeps s s' where
  room : s.room ≤ s'.room + 1

theorem Keeps.trans {s₁ s₂ s₃ : State} (h : s₁.Keeps s₂) (h' : s₂.Keeps s₃) : s₁.Keeps s₃ where
  nonneg := h.nonneg
  grows := Int32.le_trans h.grows h'.grows
  kept a ha := by
    rw [h'.kept a (Nat.lt_of_lt_of_le ha (Int32.toNatClampNeg_le h.grows)), h.kept a ha]

/-- Unless a collision comes first, `k` clean steps lead to a state with the property `post`. -/
def Runs (image : Image) : (k : Nat) → (post : State → Prop) → State → Prop
  | 0, post, s => post s
  | k + 1, post, s =>
    s.Collides image ∨ ∃ s', s.step image = .ok (.running s') ∧ s.Clean s' ∧ s'.Runs image k post

/-- The state after a number of steps, if the run gets that far. -/
def after (image : Image) : Nat → State → Option State
  | 0, s => some s
  | n + 1, s =>
    match s.step image with
    | .ok (.running s') => s'.after image n
    | _ => none

theorem after_of_step {image : Image} {s s' : State} (h : s.step image = .ok (.running s'))
    (n : Nat) :
    s.after image (n + 1) = s'.after image n := by
  rw [after, h]

theorem after_succ {image : Image} {n : Nat} {s t : State} :
    s.after image (n + 1) = some t ↔
      ∃ u, s.after image n = some u ∧ u.step image = .ok (.running t) := by
  induction n generalizing s with
  | zero =>
    constructor
    · intro h
      refine ⟨s, rfl, ?_⟩
      rw [after] at h
      split at h
      next s' hstep => rw [hstep, Option.some.inj h]
      next => cases h
    · rintro ⟨u, hu, hstep⟩
      obtain rfl := Option.some.inj hu
      exact after_of_step hstep 0
  | succ n ih =>
    rw [after, after]
    split
    next s' hstep => exact ih
    next => simp

theorem after_add {image : Image} {j k : Nat} {s t : State} (h : s.after image j = some t) :
    s.after image (j + k) = t.after image k := by
  induction j generalizing s with
  | zero =>
    obtain rfl := Option.some.inj h
    rw [Nat.zero_add]
  | succ j ih =>
    rw [after] at h
    split at h
    next s' hstep =>
      rw [Nat.succ_add, after_of_step hstep]
      exact ih h
    next => cases h

/-- A run that gets far has taken all steps before. -/
theorem exists_step_of_after {image : Image} {m n : Nat} {s t : State}
    (h : s.after image n = some t) (hm : m < n) :
    ∃ u u', s.after image m = some u ∧ u.step image = .ok (.running u') := by
  induction n generalizing t with
  | zero => exact absurd hm (Nat.not_lt_zero m)
  | succ n ih =>
    obtain ⟨u, hu, hstep⟩ := after_succ.mp h
    rcases Nat.lt_or_eq_of_le (Nat.le_of_lt_succ hm) with hlt | rfl
    · exact ih hu hlt
    · exact ⟨u, t, hu, hstep⟩

/-- Stack and heap are apart in all states of a run before a number of steps. -/
def ApartBefore (image : Image) (s : State) (n : Nat) : Prop :=
  ∀ m < n, ∀ t, s.after image m = some t → t.hp < t.sp

namespace Runs

variable {image : Image} {j k : Nat} {post post' : State → Prop} {s : State}

theorem mono (h : s.Runs image k post) (hpost : ∀ s, post s → post' s) : s.Runs image k post' := by
  induction k generalizing s with
  | zero => exact hpost s h
  | succ k ih =>
    rcases h with hc | ⟨s', hstep, hclean, hrest⟩
    · exact .inl hc
    · exact .inr ⟨s', hstep, hclean, ih hrest⟩

theorem trans (h : s.Runs image j fun s' => s'.Runs image k post) : s.Runs image (j + k) post := by
  induction j generalizing s with
  | zero =>
    rw [Nat.zero_add]
    exact h
  | succ j ih =>
    rw [Nat.succ_add]
    rcases h with hc | ⟨s', hstep, hclean, hrest⟩
    · exact .inl hc
    · exact .inr ⟨s', hstep, hclean, ih hrest⟩

theorem bind (h : s.Runs image j post) (hpost : ∀ s, post s → s.Runs image k post') :
    s.Runs image (j + k) post' :=
  trans (h.mono hpost)

/-- The first steps of a run as a run. -/
theorem truncate (h : s.Runs image k post) (hj : j ≤ k) : s.Runs image j fun _ => True := by
  induction j generalizing s k with
  | zero => trivial
  | succ j ih =>
    obtain ⟨k, rfl⟩ : ∃ k', k = k' + 1 := ⟨k - 1, by omega⟩
    rcases h with hc | ⟨s', hstep, hclean, hrest⟩
    · exact .inl hc
    · exact .inr ⟨s', hstep, hclean, ih hrest (Nat.le_of_succ_le_succ hj)⟩

/-- A run that is not over after `n` steps goes on from there, as long as stack and heap are
apart. -/
theorem after (h : s.Runs image k post) {n : Nat} (hn : n ≤ k) {t : State}
    (hafter : s.after image n = some t)
    (happart : s.ApartBefore image n) : t.Runs image (k - n) post := by
  induction n generalizing s k with
  | zero =>
    obtain rfl : s = t := Option.some.inj hafter
    exact h
  | succ n ih =>
    obtain ⟨k, rfl⟩ : ∃ k', k = k' + 1 := ⟨k - 1, by omega⟩
    rw [Nat.add_sub_add_right]
    rcases h with hc | ⟨s', hstep, -, hrest⟩
    · have hlt := happart 0 (Nat.succ_pos n) s rfl
      exact absurd hc.1 (Int32.not_le.mpr hlt)
    · rw [after_of_step hstep] at hafter
      exact ih hrest (Nat.le_of_succ_le_succ hn) hafter fun m hm u hu =>
        happart (m + 1) (Nat.succ_lt_succ hm) u ((after_of_step hstep m).trans hu)

theorem exists_after_of_apart (h : s.Runs image k post) (happart : s.ApartBefore image k) :
    ∃ t, s.after image k = some t ∧ post t := by
  induction k generalizing s with
  | zero => exact ⟨s, rfl, h⟩
  | succ k ih =>
    rcases h with ⟨hmeet, -⟩ | ⟨s', hstep, -, hrest⟩
    · exact absurd hmeet (Int32.not_le.mpr (happart 0 (Nat.succ_pos k) s rfl))
    · rw [after_of_step hstep]
      exact ih hrest fun m hm t ht =>
        happart (m + 1) (Nat.succ_lt_succ hm) t ((after_of_step hstep m).trans ht)

/-- With a free cell for each step, there is no collision. -/
theorem exists_after (h : s.Runs image k post) (hroom : k ≤ s.room) :
    ∃ t, s.after image k = some t ∧ post t := by
  induction k generalizing s with
  | zero => exact ⟨s, rfl, h⟩
  | succ k ih =>
    rcases h with ⟨hmeet, -⟩ | ⟨s', hstep, hclean, hrest⟩
    · rw [Int32.le_iff_toInt_le] at hmeet
      unfold room at hroom
      omega
    · have hroom' := hclean.room
      obtain ⟨t, hafter, ht⟩ := ih hrest (by omega)
      exact ⟨t, (after_of_step hstep k).trans hafter, ht⟩

end Runs

theorem run_of_after {image : Image} {k : Nat} {s t : State} (h : s.after image k = some t)
    {budget : Nat} (hk : k ≤ budget) (done : Nat) :
    s.run image budget done = t.run image (budget - k) (done + k) := by
  induction k generalizing s budget done with
  | zero =>
    obtain rfl : s = t := Option.some.inj h
    rfl
  | succ k ih =>
    obtain ⟨budget, rfl⟩ : ∃ b, budget = b + 1 := ⟨budget - 1, by omega⟩
    rw [State.after] at h
    rw [State.run]
    split at h
    next s' hstep =>
      rw [hstep, Nat.add_sub_add_right, Nat.add_comm k, ← Nat.add_assoc]
      exact ih h (Nat.le_of_succ_le_succ hk) (done + 1)
    next => cases h

/-- A budget that ends before the run does is what the run reports. -/
theorem run_of_after_self {image : Image} {n : Nat} {s t : State} (h : s.after image n = some t) :
    s.run image n 0 = .error (.stepLimitExceeded n) := by
  rw [run_of_after h (Nat.le_refl n), Nat.sub_self, Nat.zero_add]
  rfl

/-- A bounded run along clean steps: it overflows, or its budget ends, or it comes to the end of
them. -/
theorem run_cases {image : Image} {k : Nat} {post : State → Prop} {s : State}
    (h : s.Runs image k post) (hsilent : ∀ n t, s.after image n = some t → ¬t.Clobbers image)
    (budget done : Nat) :
    (∃ ip, s.run image budget done = .error (.stackOverflow ip)) ∨
      (budget < k ∧ s.run image budget done = .error (.stepLimitExceeded (done + budget))) ∨
      ∃ s', s.after image k = some s' ∧ post s' ∧ k ≤ budget ∧
        s.run image budget done = s'.run image (budget - k) (done + k) := by
  induction k generalizing s budget done with
  | zero => exact .inr (.inr ⟨s, rfl, h, Nat.zero_le _, rfl⟩)
  | succ k ih =>
    cases budget with
    | zero => exact .inr (.inl ⟨Nat.succ_pos k, rfl⟩)
    | succ budget =>
      rcases h with ⟨hmeet, hover | hadvance⟩ | ⟨s', hstep, -, hrest⟩
      · refine .inl ⟨s.ip, ?_⟩
        rw [State.run, hover]
      · exact absurd ⟨hmeet, hadvance⟩ (hsilent 0 s rfl)
      · have hrun : s.run image (budget + 1) done = s'.run image budget (done + 1) := by
          rw [State.run, hstep]
        have hnext := after_of_step hstep
        rw [hrun]
        rcases ih hrest (fun n t ht => hsilent (n + 1) t ((hnext n).trans ht)) budget
          (done + 1) with
          h | ⟨hlt, h⟩ | ⟨t, hafter, hpost, hle, h⟩
        · exact .inl h
        · refine .inr (.inl ⟨Nat.succ_lt_succ hlt, ?_⟩)
          rw [h, Nat.add_assoc, Nat.add_comm 1]
        · refine .inr (.inr ⟨t, (hnext k).trans hafter, hpost, Nat.succ_le_succ hle, ?_⟩)
          rw [h, Nat.add_sub_add_right, Nat.add_assoc, Nat.add_comm 1]

/-- A run that ends well goes through the states that the code leads to, and takes further steps
from there. -/
theorem Runs.of_run_eq_ok {s : State} {image : Image} {k maxSteps : Nat} {post : State → Prop}
    {outcome : Outcome} (h : s.Runs image k post) (hsilent : ∀ s : State, ¬s.Clobbers image)
    (hrun : s.run image maxSteps 0 = .ok outcome) :
    ∃ t budget, post t ∧ maxSteps = k + (budget + 1) ∧
      t.run image (budget + 1) k = .ok outcome := by
  rcases run_cases h (fun _ s _ => hsilent s) maxSteps 0 with ⟨ip, hover⟩ | ⟨-, hlimit⟩ |
    ⟨t, -, ht, hle, hlast⟩
  · rw [hover] at hrun
    cases hrun
  · rw [hlimit] at hrun
    cases hrun
  · rw [hlast, Nat.zero_add] at hrun
    cases hbudget : maxSteps - k with
    | zero =>
      rw [hbudget] at hrun
      cases hrun
    | succ budget =>
      rw [hbudget] at hrun
      exact ⟨t, budget, ht, by omega, hrun⟩

end State

end Stackling
