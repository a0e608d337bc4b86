import Stackling.Proofs.Semantics.Depth
import Stackling.Proofs.Simulation.Program

/-!
# Runs compute what programs mean

For programs without classes and without function values, a run that ends has the value and the
output of the evaluator. The other way round, what the evaluator does is what a run does unless
memory or steps run out; a run that takes some number of steps has enough memory with as many cells.
-/

namespace Stackling

/-- A run ends in some way unless memory or steps run out, and it does end so if there are as many
cells and as many steps as it takes. -/
structure Ends (good : Except Failure Outcome → Prop) (steps : Nat) (memorySize : Int32)
    (maxSteps : Nat) (run : Except Failure Outcome) : Prop where
  cases : good run ∨ (∃ ip, run = .error (.fault (.stackOverflow ip))) ∨
    maxSteps < steps ∧ run = .error (.fault (.stepLimitExceeded maxSteps))
  enough : steps ≤ maxSteps → steps ≤ memorySize.toInt → good run

variable {good : Except Failure Outcome → Prop} {memorySize : Int32} {maxSteps : Nat}

theorem Ends.of_ok {steps : Nat} {outcome : Outcome}
    (h : Ends good steps memorySize maxSteps (.ok outcome)) :
    good (.ok outcome) := by
  rcases h.cases with hgood | ⟨_, ⟨⟩⟩ | ⟨-, ⟨⟩⟩
  exact hgood

theorem State.room_initial (hnonneg : 0 ≤ memorySize) :
    (State.initial memorySize).room = memorySize.toInt := by
  rw [State.initial_of_nonneg hnonneg]
  exact Int.sub_zero _

/-- The last step decides how a run ends. -/
theorem State.Runs.ends {image : Image} {k : Nat} {post : State → Prop}
    (h : (State.initial memorySize).Runs image k post) (hnonneg : 0 ≤ memorySize)
    (hsilent : ∀ s : State, ¬s.Clobbers image)
    (hpost : ∀ s, post s → ∀ budget, good ((s.run image (budget + 1) k).mapError .fault)) :
    Ends good (k + 1) memorySize maxSteps
      (((State.initial memorySize).run image maxSteps 0).mapError .fault) := by
  have hlast {s : State} (hs : post s) (hlt : k < maxSteps) : good
      ((s.run image (maxSteps - k) (0 + k)).mapError .fault) := by
    obtain ⟨budget, hbudget⟩ : ∃ b, maxSteps - k = b + 1 := ⟨maxSteps - k - 1, by omega⟩
    rw [hbudget, Nat.zero_add]
    exact hpost s hs budget
  constructor
  · rcases State.run_cases h (fun _ s _ => hsilent s) maxSteps 0 with ⟨ip, hrun⟩ | ⟨hlt, hrun⟩ |
      ⟨s, -, hs, hle, hrun⟩
    · rw [hrun]
      exact .inr (.inl ⟨ip, rfl⟩)
    · rw [hrun, Nat.zero_add]
      exact .inr (.inr ⟨Nat.lt_succ_of_lt hlt, rfl⟩)
    · rw [hrun]
      rcases Nat.lt_or_eq_of_le hle with hlt | rfl
      · exact .inl (hlast hs hlt)
      · rw [Nat.sub_self, Nat.zero_add]
        exact .inr (.inr ⟨Nat.lt_succ_self _, rfl⟩)
  · intro hsteps hroom
    rw [← State.room_initial hnonneg] at hroom
    obtain ⟨s, hafter, hs⟩ := h.exists_after (by omega)
    rw [State.run_of_after hafter (by omega) 0]
    exact hlast hs hsteps

/-- Without memory a program takes no step. -/
theorem Program.Accepted.ends_of_neg {p : Program} (h : p.Accepted) (hbuilt : p.Built)
    (hneg : memorySize < 0) (k : Nat) :
    Ends good (k + 1) memorySize maxSteps (p.run { memorySize } maxSteps) := by
  constructor
  · cases maxSteps with
    | zero =>
      obtain ⟨listing, -, -, hrun⟩ := h.exists_listing hbuilt memorySize
      rw [hrun]
      exact .inr (.inr ⟨Nat.succ_pos k, rfl⟩)
    | succ maxSteps => exact .inr (.inl ⟨0, h.run_of_neg hbuilt hneg maxSteps⟩)
  · intro _ hle
    rw [Int32.lt_iff_toInt_lt] at hneg
    have hzero : (0 : Int32).toInt = 0 := rfl
    omega

namespace Program

variable {p : Program} {t : Ty}

/-- The sizes of memory for which the code of a program fits the machine. -/
def MemorySize (p : Program) : Type :=
  { memorySize : Int32 // 0 ≤ memorySize ∧ p.CodeFits memorySize }

/-- The type that checking finds for an accepted program is its type. -/
theorem Accepted.typed_of_result (h : p.Accepted) (hdistinct : p.Distinct) (hplain : p.FirstOrder)
    (hresult : (p.check p.resolve).result = some t) : p.Typed p.resolve t := by
  obtain ⟨t', hresult', htyped⟩ := Program.typed hdistinct hplain h.1 h.2
  rw [hresult] at hresult'
  exact Option.some.inj hresult' ▸ htyped

/-- The machines that run a program, one for each size of memory. -/
theorem Accepted.exists_worlds (h : p.Accepted) (hbuilt : p.Built) :
    ∃ w : p.MemorySize → World, ∀ i, (w i).Holds p.resolve p ∧
      (w i).Rep (w i).start (State.initial i.1) ∧ ∀ maxSteps, p.run { memorySize := i.1 } maxSteps =
        ((State.initial i.1).run (w i).image maxSteps 0).mapError .fault := by
  choose w hw using fun i : p.MemorySize => h.exists_world hbuilt i.2.2 i.2.1
  exact ⟨w, hw⟩

end Program

/-- Code that leaves the heap alone loses no cell of it. -/
theorem Platform.Holds.not_clobbers {w : Platform} {r : Resolution} {p : Program} (h : w.Holds r p)
    (hfree : ∀ {globalFrame listing}, p.generate r globalFrame = .ok listing →
      Code.HeapFree listing.instrs)
    (s : State) : ¬s.Clobbers w.image := by
  obtain ⟨listing, hgenerate, himage, -⟩ := h
  rw [himage]
  exact (hfree hgenerate).not_clobbers s

namespace Program

variable {p : Program} {t : Ty}

section ClassFree

variable (haccepted : p.Accepted) (hbuilt : p.Built) (hclasses : p.ClassFree)
  (htyped : p.Typed p.resolve t) (harrow : t.isArrow = false)

include haccepted hbuilt hclasses htyped

/-- A way to end that all machines have after the same number of steps. -/
theorem ends_of_runs {w : p.MemorySize → World} (hholds : ∀ i, (w i).Holds p.resolve p)
    (hrun : ∀ i maxSteps, p.run { memorySize := i.1 } maxSteps =
      ((State.initial i.1).run (w i).image maxSteps 0).mapError .fault)
    {k : Nat} {post : p.MemorySize → State → Prop}
    (hruns : ∀ i, (State.initial i.1).Runs (w i).image k (post i))
    (hpost : ∀ i s, post i s → ∀ budget, good ((s.run (w i).image (budget + 1) k).mapError .fault))
    (memorySize : Int32) (hfits : p.CodeFits memorySize) (maxSteps : Nat) :
    Ends good (k + 1) memorySize maxSteps (p.run { memorySize } maxSteps) := by
  by_cases hnonneg : 0 ≤ memorySize
  · let i : p.MemorySize := ⟨memorySize, hnonneg, hfits⟩
    have hsilent := (hholds i).not_clobbers (heapFree (hclasses.resolve haccepted.1) htyped)
    rw [hrun i]
    exact (hruns i).ends hnonneg hsilent (hpost i)
  · exact haccepted.ends_of_neg hbuilt (Int32.not_le.mp hnonneg) k

include harrow

theorem ends_of_evaluates {v : Value} {trace : Array Int32} (h : p.Evaluates v trace) :
    ∃ steps, ∀ memorySize, p.CodeFits memorySize → ∀ maxSteps,
      Ends (· = .ok ⟨some v.word, trace, steps⟩) steps memorySize maxSteps
        (p.run { memorySize } maxSteps) := by
  obtain ⟨depth, σ, heval, rfl⟩ := h
  obtain ⟨w, hw⟩ := haccepted.exists_worlds hbuilt
  have hsim := simulated (linked p) htyped harrow (fun i => (hw i).1) (n := depth)
  rw [heval] at hsim
  obtain ⟨k, c, hreach, hdone⟩ := hsim
  refine ⟨k + 1, ends_of_runs haccepted hbuilt hclasses htyped (fun i => (hw i).1)
    (fun i => (hw i).2.2) (fun i => hreach i _ (hw i).2.1) fun i s hs budget => ?_⟩
  rw [(hdone i).run hs]
  rfl

theorem ends_of_aborts (h : p.Aborts .divisionByZero) :
    ∃ steps, ∀ memorySize, p.CodeFits memorySize → ∀ maxSteps,
      Ends (fun run => ∃ ip, run = .error (.fault (.divisionByZero ip))) steps memorySize maxSteps
        (p.run { memorySize } maxSteps) := by
  obtain ⟨-, depth, heval⟩ := h
  obtain ⟨w, hw⟩ := haccepted.exists_worlds hbuilt
  have hsim := simulated (linked p) htyped harrow (fun i => (hw i).1) (n := depth)
  rw [heval] at hsim
  obtain ⟨k, hfails⟩ := hsim
  refine ⟨k + 1, ends_of_runs haccepted hbuilt hclasses htyped (fun i => (hw i).1)
    (fun i => (hw i).2.2) (fun i => hfails i _ (hw i).2.1) fun i s hs budget => ⟨s.ip, ?_⟩⟩
  rw [State.run, hs]
  rfl

theorem ends_of_diverges (h : p.Diverges) {memorySize : Int32} (hfits : p.CodeFits memorySize)
    (maxSteps : Nat) :
    Ends (· = .error (.fault (.stepLimitExceeded maxSteps))) maxSteps memorySize maxSteps
      (p.run { memorySize } maxSteps) := by
  by_cases hnonneg : 0 ≤ memorySize
  · obtain ⟨w, hholds, hrep, hrun⟩ := haccepted.exists_world hbuilt hfits hnonneg
    have hsim := simulated (linked p) htyped harrow (fun _ : Unit => hholds) (n := maxSteps)
    rw [h] at hsim
    obtain ⟨k, c, hk, hreach⟩ := hsim ()
    have hruns := (hreach _ hrep).truncate hk
    have hsilent := hholds.not_clobbers (heapFree (hclasses.resolve haccepted.1) htyped)
    rw [hrun]
    constructor
    · rcases State.run_cases hruns (fun _ s _ => hsilent s) maxSteps 0 with ⟨ip, hover⟩ | ⟨hlt, -⟩ |
        ⟨s, -, -, -, hlast⟩
      · rw [hover]
        exact .inr (.inl ⟨ip, rfl⟩)
      · exact absurd hlt (Nat.lt_irrefl _)
      · rw [hlast, Nat.sub_self, Nat.zero_add]
        exact .inl rfl
    · intro _ hroom
      rw [← State.room_initial hnonneg] at hroom
      obtain ⟨s, hafter, -⟩ := hruns.exists_after hroom
      rw [State.run_of_after hafter (Nat.le_refl _) 0, Nat.sub_self, Nat.zero_add]
      rfl
  · have hneg := Int32.not_le.mp hnonneg
    have hends : Ends (· = .error (.fault (.stepLimitExceeded maxSteps))) 1 memorySize maxSteps
        (p.run { memorySize } maxSteps) := haccepted.ends_of_neg hbuilt hneg 0
    constructor
    · rcases hends.cases with hlimit | hover | ⟨-, hlimit⟩
      · exact .inl hlimit
      · exact .inr (.inl hover)
      · exact .inl hlimit
    · intro _ hle
      rw [Int32.lt_iff_toInt_lt] at hneg
      have hzero : (0 : Int32).toInt = 0 := rfl
      omega

/-- The evaluation of a program without classes has a value, divides by zero or goes on for ever. -/
theorem evaluates_or_divides_or_diverges :
    (∃ v trace, p.Evaluates v trace) ∨ p.Aborts .divisionByZero ∨ p.Diverges := by
  rcases p.evaluates_or_aborts_or_diverges with hvalue | ⟨stop, hstop⟩ | hdiverges
  · exact .inl hvalue
  · obtain ⟨hne, depth, heval⟩ := hstop
    obtain ⟨w, hw⟩ := haccepted.exists_worlds hbuilt
    have hsim := simulated (linked p) htyped harrow (fun i => (hw i).1) (n := depth)
    rw [heval] at hsim
    cases stop with
    | divisionByZero => exact .inr (.inl ⟨hne, depth, heval⟩)
    | nullReceiver =>
      obtain ⟨⟨name, record, hrecord⟩, -⟩ := hsim
      rw [hclasses.resolve haccepted.1] at hrecord
      cases hrecord
    | tooDeep => exact absurd rfl hne
    | stuck => exact hsim.elim
  · exact .inr (.inr hdiverges)

end ClassFree

/-- Runs of a program without classes and function values have the meaning that the evaluator gives,
if the code has at most `2 ^ 31` operations, so that each code address is a machine word. -/
theorem run_preserves_evaluation {p : Program} (hdistinct : p.Distinct) (hclasses : p.ClassFree)
    (hplain : p.FirstOrder) (haccepted : p.Accepted) {t : Ty}
    (hresult : (p.check p.resolve).result = some t) (harrow : t.isArrow = false) :
    (∀ memorySize, p.CodeFits memorySize →
      ∀ maxSteps outcome, p.run { memorySize } maxSteps = .ok outcome →
      ∃ v, outcome.result = some v.word ∧
        ∀ v' trace, p.Evaluates v' trace ↔ v' = v ∧ trace = outcome.output) ∧
    (∀ v trace, p.Evaluates v trace → ∃ steps, ∀ memorySize, p.CodeFits memorySize → ∀ maxSteps,
      Ends (· = .ok ⟨some v.word, trace, steps⟩) steps memorySize maxSteps
        (p.run { memorySize } maxSteps)) ∧
    (p.Aborts .divisionByZero → ∃ steps, ∀ memorySize, p.CodeFits memorySize → ∀ maxSteps,
      Ends (fun run => ∃ ip, run = .error (.fault (.divisionByZero ip))) steps memorySize maxSteps
        (p.run { memorySize } maxSteps)) ∧
    (p.Diverges → ∀ memorySize, p.CodeFits memorySize → ∀ maxSteps,
      Ends (· = .error (.fault (.stepLimitExceeded maxSteps))) maxSteps memorySize maxSteps
        (p.run { memorySize } maxSteps)) ∧
    ((∃ v trace, p.Evaluates v trace) ∨ p.Aborts .divisionByZero ∨ p.Diverges) := by
  have hbuilt := hdistinct.built
  have htyped := haccepted.typed_of_result hdistinct hplain hresult
  have hvalue {v : Value} {trace : Array Int32} (h : p.Evaluates v trace) :=
    ends_of_evaluates haccepted hbuilt hclasses htyped harrow h
  have hzero := ends_of_aborts haccepted hbuilt hclasses htyped harrow
  have hforever := ends_of_diverges haccepted hbuilt hclasses htyped harrow
  have hcases := evaluates_or_divides_or_diverges haccepted hbuilt hclasses htyped harrow
  refine ⟨?_, fun v trace => hvalue, hzero, fun h _ => hforever h, hcases⟩
  intro memorySize hfits maxSteps outcome hrun
  rcases hcases with ⟨v, trace, h⟩ | h | h
  · obtain ⟨steps, hends⟩ := hvalue h
    obtain rfl := Except.ok.inj (hrun ▸ hends memorySize hfits maxSteps).of_ok
    exact ⟨v, rfl, fun _ _ => h.iff⟩
  · obtain ⟨steps, hends⟩ := hzero h
    obtain ⟨_, ⟨⟩⟩ := (hrun ▸ hends memorySize hfits maxSteps).of_ok
  · cases (hrun ▸ hforever h hfits maxSteps).of_ok

/-- Prints the factorial of three. -/
def factorial : Program where
  decls := [.fn {
    id := 0
    name := "f"
    params := [⟨1, "n", .int, default⟩]
    result := .int
    decls := []
    body := .ite (.binary .lessEqual (.name 2 "n" default) (.int 0 default) default)
      (.int 1 default) (.binary .mul (.name 3 "n" default)
        (.call 4 "f" [.binary .sub (.name 5 "n" default) (.int 1 default) default] default) default)
          default
    pos := default }]
  body := .print (.call 6 "f" [.int 3 default] default) default
  pos := default

theorem run_preserves_evaluation_factorial :
    factorial.Evaluates (.int 6) #[6] ∧ ∃ steps, ∀ maxSteps,
      Ends (· = .ok ⟨some 6, #[6], steps⟩) steps 10000 maxSteps
        (factorial.run { memorySize := 10000 } maxSteps) := by
  have hvalue : factorial.Evaluates (.int 6) #[6] := @evaluates_of_eval _ 4 _ _ (by decide +kernel)
  have hresult : (factorial.check factorial.resolve).result = some .int := by decide +kernel
  obtain ⟨-, hends, -⟩ :=
    run_preserves_evaluation (p := factorial) (by decide +kernel) (by decide +kernel)
      (by decide +kernel) (by decide +kernel) hresult rfl
  obtain ⟨steps, hsteps⟩ := hends _ _ hvalue
  exact ⟨hvalue, steps, hsteps 10000 (by decide +kernel)⟩

end Program

end Stackling
