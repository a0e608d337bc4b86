import Mathlib.Algebra.Group.Nat.Defs
import Stackling.Compiler
import Stackling.Proofs.Code.Labels
import Stackling.Proofs.Code.Success
import Stackling.Proofs.Printing

/-!
# The pipeline has no failures of its own

Whether a program is compiled depends on the number of errors in its report and on nothing else:
code generation does not fail on what resolution accepts, and the text of the code can be read back.
-/

namespace Stackling

namespace Program

/-- The errors of an earlier tool, of resolution and of type checking. -/
def errorTotal (p : Program) (c : Settings) : Nat :=
  c.externalErrors.toNat + p.resolve.errors.length + (p.check p.resolve).errors.length

/-- The report of a program. -/
def report (p : Program) (c : Settings) : Report :=
  .ofErrors p.resolve.errors (p.check p.resolve).errors c.externalErrors

theorem toNat_errorCount {p : Program} {c : Settings} (h : p.errorTotal c < 2 ^ 64) :
    (p.report c).errorCount.toNat = p.errorTotal c := by
  have hlength : (p.report c).messages.length =
      p.resolve.errors.length + (p.check p.resolve).errors.length := by
    simp [report, Report.ofErrors]
  unfold errorTotal at h ⊢
  rw [Report.errorCount, hlength, UInt64.toNat_add, UInt64.toNat_ofNat']
  simp only [report, Report.ofErrors]
  omega

theorem hasErrors_iff {p : Program} {c : Settings} (h : p.errorTotal c < 2 ^ 64) :
    (p.report c).hasErrors = true ↔ p.errorTotal c ≠ 0 := by
  rw [Report.hasErrors, decide_eq_true_iff, UInt64.lt_iff_toNat_lt, toNat_errorCount h]
  exact Nat.pos_iff_ne_zero

/-- Resolution without errors is enough for code generation, whatever the types are. -/
theorem exists_generate_resolve {p : Program} (hbuilt : p.Built) (h : p.resolve.errors = [])
    (globalFrame : Int32) : ∃ listing, p.generate p.resolve globalFrame = .ok listing :=
  exists_generate (served hbuilt h) globalFrame

theorem compile_of_hasErrors {p : Program} {c : Settings} (h : (p.report c).hasErrors = true) :
    p.compile c = .ok ⟨none, (p.check p.resolve).result, p.report c⟩ := by
  unfold compile
  exact if_pos h

theorem compile_of_generate {p : Program} {c : Settings} {listing : Listing}
    (h : (p.report c).hasErrors = false) (hg : p.generate p.resolve c.globalFrame = .ok listing) :
    p.compile c = .ok ⟨some listing, (p.check p.resolve).result, p.report c⟩ := by
  unfold compile
  unfold report at h
  simp only [h, hg]
  rfl

theorem listing_of_compile {p : Program} {c : Settings} {compilation : Compilation}
    (h : p.compile c = .ok compilation) :
    p.listing c = match compilation.listing with
      | some listing => .ok listing
      | none => .error (.frontEnd compilation.report.errorCount) := by
  unfold listing
  rw [h]
  simp only [bind, Except.bind]
  cases compilation.listing <;> rfl

/-- The code of a program without errors. -/
theorem listing_of_errorTotal_eq_zero {p : Program} (hbuilt : p.Built) {c : Settings}
    (h : p.errorTotal c = 0) : ∃ listing, p.generate p.resolve c.globalFrame = .ok listing ∧
      p.compile c = .ok ⟨some listing, (p.check p.resolve).result, p.report c⟩ ∧
      p.listing c = .ok listing := by
  have hfree : p.resolve.errors = [] :=
    List.length_eq_zero_iff.mp (by unfold errorTotal at h; omega)
  have hno : (p.report c).hasErrors = false := by
    rw [← Bool.not_eq_true, hasErrors_iff (by rw [h]; exact Nat.two_pow_pos 64)]
    exact not_not.mpr h
  obtain ⟨listing, hg⟩ := exists_generate_resolve hbuilt hfree c.globalFrame
  have hcompile := compile_of_generate hno hg
  exact ⟨listing, hg, hcompile, listing_of_compile hcompile⟩

/-- The text of generated code is read back as the linked code, so that a run is one of the
machine. -/
theorem run_of_listing {p : Program} {c : Settings} {listing : Listing}
    (hg : p.generate p.resolve c.globalFrame = .ok listing) (hl : p.listing c = .ok listing)
    (maxSteps : Nat) :
    p.run c maxSteps =
      ((Code.link listing.instrs).run ⟨c.memorySize, maxSteps⟩).mapError .fault := by
  obtain ⟨hnodup, hdefined⟩ := generate_labels hg
  have hread := Image.ofText_text hnodup hdefined
  unfold run
  rw [hl]
  simp only [bind, Except.bind]
  rw [hread]
  rfl

theorem compile_gates_on_errorTotal {p : Program} (hbuilt : p.Built) (c : Settings)
    (hfit : p.errorTotal c < 2 ^ 64) (maxSteps : Nat) :
    (∃ compilation, p.compile c = .ok compilation ∧
      (compilation.listing.isSome ↔ p.errorTotal c = 0)) ∧
    (p.errorTotal c ≠ 0 → ∃ count : UInt64, count.toNat = p.errorTotal c ∧
      p.listing c = .error (.frontEnd count) ∧ p.run c maxSteps = .error (.frontEnd count)) ∧
    (p.errorTotal c = 0 → ∃ listing image, p.listing c = .ok listing ∧
      Image.ofText listing.text = .ok image ∧
      ((∃ outcome, p.run c maxSteps = .ok outcome) ∨
        ∃ fault, p.run c maxSteps = .error (.fault fault))) ∧
    (p.resolve.errors = [] →
      ∀ globalFrame, ∃ listing, p.generate p.resolve globalFrame = .ok listing) := by
  refine ⟨?_, fun hne => ?_, fun hzero => ?_, fun hfree => exists_generate_resolve hbuilt hfree⟩
  · by_cases hzero : p.errorTotal c = 0
    · obtain ⟨listing, -, hcompile, -⟩ := listing_of_errorTotal_eq_zero hbuilt hzero
      exact ⟨_, hcompile, by simp [hzero]⟩
    · exact ⟨_, compile_of_hasErrors ((hasErrors_iff hfit).mpr hzero), by simp [hzero]⟩
  · have hcompile := compile_of_hasErrors ((hasErrors_iff hfit).mpr hne)
    have hlisting := listing_of_compile hcompile
    refine ⟨_, toNat_errorCount hfit, hlisting, ?_⟩
    unfold run
    rw [hlisting]
    rfl
  · obtain ⟨listing, hg, -, hlisting⟩ := listing_of_errorTotal_eq_zero hbuilt hzero
    obtain ⟨hnodup, hdefined⟩ := generate_labels hg
    refine ⟨listing, _, hlisting, Image.ofText_text hnodup hdefined, ?_⟩
    rw [run_of_listing hg hlisting]
    cases (Code.link listing.instrs).run ⟨c.memorySize, maxSteps⟩ with
    | ok outcome => exact .inl ⟨outcome, rfl⟩
    | error fault => exact .inr ⟨fault, rfl⟩

/-- Adds a variable to itself, with one node for both operands. -/
def doubled : Program where
  decls := [.var ⟨0, "x", .int, .int 21 default, default⟩]
  body := .binary .add (.name 1 "x" default) (.name 1 "x" default) default
  pos := default

theorem built_doubled : doubled.Built := by
  intro m hm n hn h
  simp only [nodes, doubled, declNodes, Decl.nodes, Expr.nodes, List.append_nil, List.cons_append,
    List.nil_append, List.mem_cons, List.not_mem_nil, or_false, or_self] at hm hn
  rcases hm with rfl | rfl <;> rcases hn with rfl | rfl
  · rfl
  · exact absurd h (by decide)
  · exact absurd h (by decide)
  · rfl

theorem compile_gates_on_errorTotal_doubled :
    (∃ listing image, doubled.listing {} = .ok listing ∧ Image.ofText listing.text = .ok image ∧
      ((∃ outcome, doubled.run {} 100 = .ok outcome) ∨
        ∃ fault, doubled.run {} 100 = .error (.fault fault))) ∧
    ∃ count : UInt64, count.toNat = 2 ∧
      doubled.listing { externalErrors := 2 } = .error (.frontEnd count) ∧
      doubled.run { externalErrors := 2 } 100 = .error (.frontEnd count) := by
  have hzero : doubled.errorTotal {} = 0 := by decide +kernel
  have htwo : doubled.errorTotal { externalErrors := 2 } = 2 := by decide +kernel
  refine ⟨(compile_gates_on_errorTotal built_doubled {} (by rw [hzero]; decide) 100).2.2.1 hzero,
    ?_⟩
  rw [← htwo]
  exact (compile_gates_on_errorTotal built_doubled { externalErrors := 2 } (by rw [htwo]; decide)
    100).2.1 (by rw [htwo]; decide)

end Program

end Stackling
