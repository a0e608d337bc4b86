import Stackling.Proofs.Bounds

/-!
# Budgets of steps

Where the steps of a machine lead does not depend on how many of them are allowed. A run comes to an
end of its own after some number of steps, or never; the budget only says how far it is followed,
and a run that is cut short reports the budget that it was given. The step that halts counts like
the others, so a run that has an outcome needs just as many steps as the outcome tells.
-/

namespace Stackling

namespace State

variable {image : Image} {s t : State} {k n : Nat} {result : Except Fault State}

/-! ### The end of a run -/

/-- The end that a step makes of a run, if it is the last one: a fault, or the state in which the
machine halts. -/
def end? (image : Image) (s : State) : Option (Except Fault State) :=
  match s.step image with
  | .error fault => some (.error fault)
  | .ok (.halted t) => some (.ok t)
  | .ok (.running _) => none

/-- A run goes on for a number of steps, and the next one ends it. -/
def EndsAfter (image : Image) (s : State) (k : Nat) (result : Except Fault State) : Prop :=
  ∃ t, s.after image k = some t ∧ t.end? image = some result

/-- What a machine leaves behind that halts in this state. -/
def outcome (s : State) (steps : Nat) : Outcome := ⟨s.memory.cell? s.sp, s.output, steps⟩

theorem end?_eq_none_iff : s.end? image = none ↔ ∃ t, s.step image = .ok (.running t) := by
  unfold end?
  split
  next fault hstep => simp [hstep]
  next t hstep => simp [hstep]
  next t hstep => simp [hstep]

/-- Within any number of steps a run comes to its end, or else it goes on after them. -/
theorem endsAfter_or_after (image : Image) (s : State) (n : Nat) :
    (∃ k < n, ∃ result, s.EndsAfter image k result) ∨ ∃ t, s.after image n = some t := by
  induction n with
  | zero => exact .inr ⟨s, rfl⟩
  | succ n ih =>
    rcases ih with ⟨k, hk, hends⟩ | ⟨t, ht⟩
    · exact .inl ⟨k, Nat.lt_succ_of_lt hk, hends⟩
    · cases hend : t.end? image with
      | some result => exact .inl ⟨n, Nat.lt_succ_self n, result, t, ht, hend⟩
      | none =>
        obtain ⟨u, hu⟩ := end?_eq_none_iff.mp hend
        exact .inr ⟨u, after_succ.mpr ⟨t, ht, hu⟩⟩

/-- Up to its end, a run goes on after every step. -/
theorem EndsAfter.exists_after (h : s.EndsAfter image k result) (hn : n ≤ k) :
    ∃ t, s.after image n = some t := by
  obtain ⟨t, ht, -⟩ := h
  rcases Nat.lt_or_eq_of_le hn with hlt | rfl
  · obtain ⟨u, -, hu, -⟩ := exists_step_of_after ht hlt
    exact ⟨u, hu⟩
  · exact ⟨t, ht⟩

/-! ### Runs within a budget -/

/-- With a budget for its last step, a run is followed to its end. -/
theorem EndsAfter.run_eq (h : s.EndsAfter image k result) (hn : k < n) :
    s.run image n 0 = result.map (·.outcome (k + 1)) := by
  obtain ⟨t, ht, hend⟩ := h
  obtain ⟨rest, hrest⟩ : ∃ rest, n - k = rest + 1 := ⟨n - k - 1, by omega⟩
  rw [run_of_after ht (Nat.le_of_lt hn), hrest, Nat.zero_add, State.run]
  unfold end? at hend
  split at hend
  next fault hstep =>
    obtain rfl := Option.some.inj hend
    rw [hstep]
    rfl
  next u hstep =>
    obtain rfl := Option.some.inj hend
    rw [hstep]
    rfl
  next => cases hend

/-- No step fails for want of a budget: its fault names an operation. -/
theorem EndsAfter.ne_stepLimitExceeded {memorySize : Int32}
    (h : (initial memorySize).EndsAfter image k result) (limit : Nat) :
    result ≠ .error (.stepLimitExceeded limit) := by
  rintro rfl
  obtain ⟨t, ht, hend⟩ := h
  unfold end? at hend
  split at hend
  next fault hstep =>
    obtain rfl := Except.error.inj (Option.some.inj hend)
    cases (Unchecked.step_follows (within_after ht) image).fault _ hstep
  next => cases hend
  next => cases hend

end State

namespace Image

/-- A budget only cuts runs short. It is exceeded just if the machine goes on after that many steps,
and is then reported itself. Any other answer is the answer of all larger budgets. An outcome tells
the least budget that gives it: all budgets from there on give it too, and all below are
exceeded. -/
theorem budget_only_cuts (image : Image) (memorySize : Int32) (n : Nat) :
    (∀ limit, image.run ⟨memorySize, n⟩ = .error (.stepLimitExceeded limit) ↔
      limit = n ∧ ∃ s, (State.initial memorySize).after image n = some s) ∧
    ((∀ limit, image.run ⟨memorySize, n⟩ ≠ .error (.stepLimitExceeded limit)) →
      ∀ m ≥ n, image.run ⟨memorySize, m⟩ = image.run ⟨memorySize, n⟩) ∧
    ∀ outcome, image.run ⟨memorySize, n⟩ = .ok outcome → outcome.steps ≤ n ∧
      (∀ m ≥ outcome.steps, image.run ⟨memorySize, m⟩ = .ok outcome) ∧
      ∀ m < outcome.steps, image.run ⟨memorySize, m⟩ = .error (.stepLimitExceeded m) := by
  have hcut {m : Nat} {s : State} (hs : (State.initial memorySize).after image m = some s) :
      image.run ⟨memorySize, m⟩ = .error (.stepLimitExceeded m) := State.run_of_after_self hs
  rcases State.endsAfter_or_after image (State.initial memorySize) n with ⟨k, hk, result, hends⟩ |
    ⟨s, hs⟩
  · have hrun {m : Nat} (hm : k < m) : image.run ⟨memorySize, m⟩ = result.map (·.outcome (k + 1)) :=
      hends.run_eq hm
    have hproper : ∀ limit, image.run ⟨memorySize, n⟩ ≠ .error (.stepLimitExceeded limit) := by
      intro limit heq
      rw [hrun hk] at heq
      cases result with
      | error fault => exact hends.ne_stepLimitExceeded limit (congrArg _ (Except.error.inj heq))
      | ok t => cases heq
    refine ⟨fun limit => iff_of_false (hproper limit) ?_, fun _ m hm => ?_,
      fun outcome houtcome => ?_⟩
    · rintro ⟨-, s, hs⟩
      exact hproper n (hcut hs)
    · rw [hrun hk, hrun (Nat.lt_of_lt_of_le hk hm)]
    · rw [hrun hk] at houtcome
      cases result with
      | error fault => cases houtcome
      | ok t =>
        obtain rfl := Except.ok.inj houtcome
        refine ⟨hk, fun m hm => hrun hm, fun m hm => ?_⟩
        obtain ⟨u, hu⟩ := hends.exists_after (Nat.le_of_lt_succ hm)
        exact hcut hu
  · have hlimit := hcut hs
    refine ⟨fun limit => ⟨fun heq => ?_, ?_⟩, fun hproper => absurd hlimit (hproper n),
      fun outcome houtcome => ?_⟩
    · rw [hlimit] at heq
      obtain ⟨⟩ := heq
      exact ⟨rfl, s, hs⟩
    · rintro ⟨rfl, -⟩
      exact hlimit
    · rw [hlimit] at houtcome
      cases houtcome

/-- Counts down from two, and prints the numbers on the way. -/
def launch : Image :=
  ⟨#[.push 2, .bare .print, .push 1, .bare .sub, .bare .stm, .bare .ltm, .bare .ltm, .push 0,
    .jump .equal 10, .jump .always 1, .bare .halt]⟩

theorem budget_only_cuts_launch :
    launch.run ⟨8, 100⟩ = .ok ⟨some 0, #[2, 1], 19⟩ ∧
    launch.run ⟨8, 19⟩ = .ok ⟨some 0, #[2, 1], 19⟩ ∧
      launch.run ⟨8, 18⟩ = .error (.stepLimitExceeded 18) ∧
      launch.run ⟨1, 3⟩ = .error (.stackOverflow 2) ∧
      launch.run ⟨1, 200⟩ = .error (.stackOverflow 2) := by
  have hrun : launch.run ⟨8, 100⟩ = .ok ⟨some 0, #[2, 1], 19⟩ := rfl
  have hfault : launch.run ⟨1, 3⟩ = .error (.stackOverflow 2) := rfl
  obtain ⟨-, hsame, hbelow⟩ := (budget_only_cuts launch 8 100).2.2 _ hrun
  have hlarger := (budget_only_cuts launch 1 3).2.1 (fun limit heq => nomatch hfault.symm.trans heq)
    200 (by decide)
  exact ⟨hrun, hsame 19 (by decide), hbelow 18 (by decide), hfault, hlarger.trans hfault⟩

end Image

end Stackling
