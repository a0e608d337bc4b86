import Stackling.Proofs.Closures.Programs
import Stackling.Proofs.Correctness

/-!
# Functions that outlive their frames

In a program without classes that takes, stores and returns functions, a run that ends has the
lexical value of the program, unless the program uses the bindings of an invocation after its end.
Only a program in which some function returns a function can do that. Then the cells of the
invocation have been given up, and the run may read others in their place: the last program here is
an example.
-/

namespace Stackling

open Lexical (Datum Halt Printed Tally)

namespace Program

variable {p : Program}

/-- A run that ends well does what a watched evaluation does that is no deeper than the run is
long. -/
theorem Formed.of_run_eq_ok {r : Resolution} {escapes : Prop} {t : Ty} (h : p.Formed r escapes t)
    (ht : t.isArrow = false) {w : World} (hw : w.Holds r p) {s : State} (hs : w.Rep w.start s)
    {maxSteps : Nat} {outcome : Outcome} (hrun : s.run w.image maxSteps 0 = .ok outcome) :
    (escapes ∧ p.lexical maxSteps (some [0]) = .error .stale) ∨
      ∃ (v : Value) (σ : Tally), p.lexical maxSteps (some [0]) = .ok (.base v, σ) ∧
        outcome.result = some v.word ∧ Printed σ.output outcome.output := by
  have hsilent := hw.not_clobbers h.heapFree
  have hsim := Lexical.simulated_program h ht hw (n := maxSteps)
  rcases heval : p.lexical maxSteps (some [0]) with ((_ | _ | _ | _) | _) | ⟨d, σ⟩
  all_goals rw [heval] at hsim
  · obtain ⟨k, hfails⟩ := hsim
    obtain ⟨t, budget, hfault, -, hlast⟩ := (hfails s hs).of_run_eq_ok hsilent hrun
    rw [State.run, hfault] at hlast
    cases hlast
  · exact hsim.elim
  · obtain ⟨k, c, hk, hreach⟩ := hsim
    obtain ⟨t, budget, -, hsteps, -⟩ := (hreach s hs).of_run_eq_ok hsilent hrun
    omega
  · exact hsim.elim
  · exact .inl ⟨hsim, rfl⟩
  · obtain ⟨k, c, hreach, v, out, rfl, hout, hdone⟩ := hsim
    obtain ⟨t, budget, hc, -, hlast⟩ := (hreach s hs).of_run_eq_ok hsilent hrun
    rw [hdone.run hc] at hlast
    cases hlast
    exact .inr ⟨v, σ, rfl, rfl, hout⟩

/-- Functions may be passed, stored and returned in a program without classes. If a run ends well,
its result is the lexical value of the program and its output is the lexical trace, unless some
function returns a function and the program uses the bindings of an invocation after its end. The
code has at most `2 ^ 31` operations, so that each code address is a machine word. -/
theorem run_lexical_unless_stale (hdistinct : p.Distinct) (hclasses : p.ClassFree)
    (haccepted : p.Accepted) {t : Ty} (hresult : (p.check p.resolve).result = some t)
    (ht : t.isArrow = false) {memorySize : Int32} (hfits : p.CodeFits memorySize) {maxSteps : Nat}
    {outcome : Outcome} (hrun : p.run { memorySize } maxSteps = .ok outcome) :
    (p.ReturnsFunctions ∧ p.Stale) ∨
      ∃ v trace, (∀ d trace', p.Denotes d trace' ↔ d = .base v ∧ trace' = trace) ∧
        outcome.result = some v.word ∧ Printed trace outcome.output := by
  have hbuilt := hdistinct.built
  by_cases hnonneg : 0 ≤ memorySize
  · have hformed := formed hdistinct hclasses haccepted.1 haccepted.2 hresult
    obtain ⟨w, hw, hrep, hruns⟩ := haccepted.exists_world hbuilt hfits hnonneg
    have hrun' : (State.initial memorySize).run w.image maxSteps 0 = .ok outcome := by
      rw [hruns] at hrun
      cases hlast : (State.initial memorySize).run w.image maxSteps 0
      all_goals rw [hlast] at hrun
      all_goals cases hrun
      rfl
    rcases hformed.of_run_eq_ok ht hw hrep hrun' with ⟨hreturns, hstale⟩ |
      ⟨v, σ, heval, hword, hout⟩
    · exact .inl ⟨hreturns, _, hstale⟩
    · exact .inr ⟨v, σ.output, fun d trace' => (denotes_of_watched heval).iff, hword, hout⟩
  · have hends : Ends (fun _ => False) 1 memorySize maxSteps (p.run { memorySize } maxSteps) :=
      haccepted.ends_of_neg hbuilt (Int32.not_le.mp hnonneg) 0
    rw [hrun] at hends
    exact hends.of_ok.elim

/-- Returns a function and calls it while the invocation that has declared it goes on. -/
def picker : Program where
  decls := [.fn {
    id := 0
    name := "outer"
    params := [⟨1, "k", .int, default⟩]
    result := .int
    decls := [
      .fn {
        id := 2
        name := "add"
        params := [⟨3, "n", .int, default⟩]
        result := .int
        decls := []
        body := .binary .add (.name 4 "n" default) (.name 5 "k" default) default
        pos := default },
      .fn {
        id := 6
        name := "pick"
        params := []
        result := .arrow [.int] .int
        decls := []
        body := .name 7 "add" default
        pos := default },
      .var ⟨8, "f", .arrow [.int] .int, .call 9 "pick" [] default, default⟩]
    body := .call 10 "f" [.int 2 default] default
    pos := default }]
  body := .call 11 "outer" [.int 40 default] default
  pos := default

/-- The function that is returned reads the parameter of the invocation that has declared it. -/
theorem run_lexical_unless_stale_picker : picker.ReturnsFunctions ∧ ¬picker.Stale ∧
    picker.run { memorySize := 64 } 1000 = .ok ⟨some 42, #[], 106⟩ ∧
    ∃ v, picker.Denotes (.base v) #[] ∧ v.word = 42 := by
  have haccepted : picker.Accepted := by decide +kernel
  have hdistinct : picker.Distinct := by decide +kernel
  have hresult : (picker.check picker.resolve).result = some .int := by decide +kernel
  have hrun : picker.run { memorySize := 64 } 1000 = .ok ⟨some 42, #[], 106⟩ :=
    haccepted.run_of_linked hdistinct.built (.ok ⟨some 42, #[], 106⟩) (by decide +kernel)
  have hstale : ¬picker.Stale := by
    obtain ⟨σ, heval, -⟩ : ∃ σ, picker.lexical 2 (some [0]) = .ok (.base (.int 42), σ) ∧
        σ.output = #[] :=
      exists_lexical_base (by decide +kernel)
    exact not_stale_of_watched heval
  refine ⟨⟨_, .tail _ (.tail _ (.tail _ (.tail _ (.tail _ (.tail _ (.head _)))))), rfl⟩, hstale,
    hrun, ?_⟩
  rcases run_lexical_unless_stale hdistinct (by decide +kernel) haccepted hresult rfl
    (by decide +kernel) hrun with
    ⟨-, h⟩ | ⟨v, trace, hvalue, hword, hprinted⟩
  · exact absurd h hstale
  · obtain rfl : trace = #[] := Array.toList_inj.mp (List.forall₂_nil_right_iff.mp hprinted)
    exact ⟨v, (hvalue _ _).mpr ⟨rfl, rfl⟩, (Option.some.inj hword).symm⟩

/-- Returns a function that reads a parameter of the invocation that returns it, and calls it
later. -/
def adder : Program where
  decls := [
    .fn {
      id := 0
      name := "mk"
      params := [⟨1, "k", .int, default⟩]
      result := .arrow [.int] .int
      decls := [.fn {
        id := 2
        name := "add"
        params := [⟨3, "n", .int, default⟩]
        result := .int
        decls := []
        body := .binary .add (.name 4 "n" default) (.name 5 "k" default) default
        pos := default }]
      body := .name 6 "add" default
      pos := default },
    .var ⟨7, "f", .arrow [.int] .int, .call 8 "mk" [.int 40 default] default, default⟩]
  body := .call 9 "f" [.int 2 default] default
  pos := default

/-- The lexical value of the program is 42, but a run reads another cell in the place of the
parameter. -/
theorem run_adder_wrong : adder.Distinct ∧ adder.ClassFree ∧ adder.Accepted ∧
    (adder.check adder.resolve).result = some .int ∧ adder.Denotes (.base (.int 42)) #[] ∧
    adder.run { memorySize := 64 } 1000 = .ok ⟨some 32, #[], 78⟩ := by
  have haccepted : adder.Accepted := by decide +kernel
  have hdistinct : adder.Distinct := by decide +kernel
  obtain ⟨σ, heval, houtput⟩ : ∃ σ, adder.lexical 2 none = .ok (.base (.int 42), σ) ∧
      σ.output = #[] :=
    exists_lexical_base (by decide +kernel)
  refine ⟨hdistinct, by decide +kernel, haccepted, by decide +kernel, ⟨2, σ, heval, houtput⟩, ?_⟩
  exact haccepted.run_of_linked hdistinct.built (.ok ⟨some 32, #[], 78⟩) (by decide +kernel)

end Program

end Stackling
