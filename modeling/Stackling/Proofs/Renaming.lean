import Mathlib.Logic.Equiv.Basic
import Stackling.Proofs.Renaming.Code
import Stackling.Proofs.Renaming.Typing

/-!
# Names and positions do not matter

Two programs that differ in names and positions only are resolved, checked and compiled alike.
Positions may change without any rule, so neither program is a function of the other; both become
the same program when positions are forgotten, and both are compared with that one.
-/

namespace Stackling

variable {f : String → String}

/-! ### Programs that become one -/

theorem ObjectLayout.Renames.of_id {l l' m : ObjectLayout} (h : l.Renames f m)
    (hid : l'.Renames id m) :
    l.Renames f l' where
  classTy := by rw [← h.classTy, hid.classTy, ClassTy.rename_id]
  fieldCells := hid.fieldCells.symm.trans h.fieldCells
  members :=
    h.members.of_id (fun _ _ c hab hcb => hab.trans (hcb.symm.trans c.rename_id)) hid.members

theorem ClassRecord.Renames.of_id {r r' m : ClassRecord} (h : r.Renames f m)
    (hid : r'.Renames id m) : r.Renames f r' where
  name := hid.name.symm.trans h.name
  superclass := by rw [← h.superclass, hid.superclass, Option.map_id_fun, id]
  entry := by rw [← h.entry, hid.entry, Entry.rename_id]
  layout := h.layout.of_id hid.layout

theorem ClassTable.Renames.of_id {t t' m : ClassTable} (h : t.Renames f m) (hid : t'.Renames id m) :
    t.Renames f t' where
  records := h.records.of_id (fun _ _ _ hab hcb => hab.of_id hcb) hid.records
  hierarchy :=
    NameTable.Renames.of_id (fun _ _ _ hab hcb => hab.trans hcb.symm) h.hierarchy hid.hierarchy

theorem Resolution.Renames.of_id {r r' m : Resolution} (h : r.Renames f m) (hid : r'.Renames id m) :
    r.Renames f r' where
  uses n := by rw [← h.uses, hid.uses, Option.map_congr fun b _ => b.rename_id, Option.map_id']
  sends n := by rw [← h.sends, hid.sends, Option.map_congr fun d _ => d.rename_id, Option.map_id']
  decls n := by rw [← h.decls, hid.decls, Option.map_congr fun e _ => e.rename_id, Option.map_id']
  positions n := (hid.positions n).symm.trans (h.positions n)
  classes := h.classes.of_id hid.classes

/-- One fault under other names, wherever it is reported. -/
def ScopeError.Renames (f : String → String) (e e' : ScopeError) : Prop := e.rename f = e'.rename id

/-- One violation under other names, wherever it is reported. -/
def TypingError.Renames (f : String → String) (e e' : TypingError) : Prop :=
  e.rename f = e'.rename id

theorem forall₂_of_map_eq {α β : Type} {g g' : α → β} {as as' : List α}
    (h : as.map g = as'.map g') :
    List.Forall₂ (fun a a' => g a = g' a') as as' := by
  rwa [← List.forall₂_eq_eq_eq, List.forall₂_map_left_iff, List.forall₂_map_right_iff] at h

theorem Lowering.Related.eq_ok_iff {α : Type} {E : LoweringError → LoweringError → Prop}
    {x x' : Except LoweringError α} (h : Related E Eq x x') {a : α} :
    x' = .ok a ↔ x = .ok a := by
  cases h with
  | ok hab => rw [hab]
  | error => simp

namespace Program

/-- The second program is the first under other names, wherever its nodes stand in the source. -/
def Renames (f : String → String) (p p' : Program) : Prop := p.rename f = p'.rename id

variable {p p' : Program}

theorem Renames.resolve (hf : Function.Injective f) (h : p.Renames f p') :
    p.resolve.Renames f p'.resolve := by
  have hp := resolve_rename hf p
  rw [show p.rename f = p'.rename id from h] at hp
  exact hp.of_id (resolve_rename Function.injective_id p')

theorem Renames.errors (hf : Function.Injective f) (h : p.Renames f p') :
    List.Forall₂ (ScopeError.Renames f) p.resolve.errors p'.resolve.errors := by
  refine forall₂_of_map_eq ?_
  rw [← errors_rename hf, ← errors_rename Function.injective_id, h]

theorem Renames.check (hf : Function.Injective f) (h : p.Renames f p') :
    (p.check p.resolve).rename f = (p'.check p'.resolve).rename id := by
  have hp := check_rename hf (resolve_rename hf p) p
  have hp' := check_rename Function.injective_id (resolve_rename Function.injective_id p') p'
  rw [← hp, ← hp', h]

/-- Both programs have the code of the program that they become. -/
theorem Renames.generate (hf : Function.Injective f) (h : p.Renames f p') (globalFrame : Int32)
    (listing : Listing) :
    p'.generate p'.resolve globalFrame = .ok listing ↔
      p.generate p.resolve globalFrame = .ok listing := by
  have hp := generate_rename hf (resolve_rename hf p) p globalFrame
  have hp' :=
    generate_rename Function.injective_id (resolve_rename Function.injective_id p') p' globalFrame
  rw [← hp'.eq_ok_iff, ← hp.eq_ok_iff, h]

/-- Names and positions of a program do not matter: under other names that are different if the old
ones are, and with any positions, resolution reports the same errors and knows the same of the
nodes, checking reports the same violations and has the same type, and code generation gives the
same code or fails for both. -/
theorem renaming_invariant (hf : Function.Injective f) (h : p.Renames f p') :
    (List.Forall₂ (ScopeError.Renames f) p.resolve.errors p'.resolve.errors ∧
      p.resolve.Renames f p'.resolve) ∧
    (List.Forall₂ (TypingError.Renames f) (p.check p.resolve).errors (p'.check p'.resolve).errors ∧
      (p'.check p'.resolve).result = (p.check p.resolve).result.map (Ty.rename f)) ∧
    ∀ (globalFrame : Int32) (listing : Listing),
      p'.generate p'.resolve globalFrame = .ok listing ↔
        p.generate p.resolve globalFrame = .ok listing := by
  have hchecked := h.check hf
  refine ⟨⟨h.errors hf, h.resolve hf⟩, ⟨forall₂_of_map_eq (congrArg Checked.errors hchecked), ?_⟩,
    h.generate hf⟩
  have hresult : (p.check p.resolve).result.map (Ty.rename f) =
      (p'.check p'.resolve).result.map (Ty.rename id) :=
    congrArg Checked.result hchecked
  rw [hresult, Option.map_congr fun t _ => t.rename_id, Option.map_id']

/-- A class with one below it, and an object of the lower one under a name of the upper. -/
def figures : Program where
  decls := [
    .cls {
      id := 0
      name := "Figure"
      superclass := none
      fields := [⟨1, "size", .int, ⟨1, 2⟩⟩]
      methods := [⟨2, "area", [], .int, [], .name 3 "size" ⟨1, 4⟩, ⟨1, 3⟩⟩]
      pos := ⟨1, 1⟩ },
    .cls {
      id := 4
      name := "Square"
      superclass := some "Figure"
      fields := []
      methods :=
        [⟨5, "area", [], .int, [], .binary .mul (.name 6 "size" ⟨2, 3⟩) (.name 7 "size" ⟨2, 4⟩)
          ⟨2, 3⟩, ⟨2, 2⟩⟩]
      pos := ⟨2, 1⟩ },
    .var ⟨8, "figure", .ref "Figure", .new 9 "Square" [.int 3 ⟨3, 4⟩] ⟨3, 3⟩, ⟨3, 1⟩⟩]
  body := .ite (.binary .equal (.send 10 "figure" "area" [] ⟨4, 2⟩) (.int 9 ⟨4, 4⟩) ⟨4, 3⟩)
    (.name 11 "figure" ⟨4, 5⟩) (.null ⟨4, 6⟩) ⟨4, 1⟩
  pos := ⟨1, 1⟩

/-- The same with the names of the upper class and of the object exchanged, all in one line. -/
def figuresExchanged : Program where
  decls := [
    .cls {
      id := 0
      name := "figure"
      superclass := none
      fields := [⟨1, "size", .int, ⟨1, 0⟩⟩]
      methods := [⟨2, "area", [], .int, [], .name 3 "size" ⟨1, 0⟩, ⟨1, 0⟩⟩]
      pos := ⟨1, 0⟩ },
    .cls {
      id := 4
      name := "Square"
      superclass := some "figure"
      fields := []
      methods :=
        [⟨5, "area", [], .int, [], .binary .mul (.name 6 "size" ⟨1, 0⟩) (.name 7 "size" ⟨1, 0⟩)
          ⟨1, 0⟩, ⟨1, 0⟩⟩]
      pos := ⟨1, 0⟩ },
    .var ⟨8, "Figure", .ref "figure", .new 9 "Square" [.int 3 ⟨1, 0⟩] ⟨1, 0⟩, ⟨1, 0⟩⟩]
  body := .ite (.binary .equal (.send 10 "Figure" "area" [] ⟨1, 0⟩) (.int 9 ⟨1, 0⟩) ⟨1, 0⟩)
    (.name 11 "Figure" ⟨1, 0⟩) (.null ⟨1, 0⟩) ⟨1, 0⟩
  pos := ⟨1, 0⟩

theorem renaming_invariant_exchanged :
    figures.Renames (Equiv.swap "Figure" "figure") figuresExchanged ∧
      (figuresExchanged.check figuresExchanged.resolve).result = some (.ref "figure") ∧
      ∃ listing, figures.generate figures.resolve 10000 = .ok listing ∧
        figuresExchanged.generate figuresExchanged.resolve 10000 = .ok listing := by
  have hrenames : figures.Renames (Equiv.swap "Figure" "figure") figuresExchanged := by
    rfl
  obtain ⟨-, ⟨-, hresult⟩, hcode⟩ :=
    renaming_invariant (Equiv.swap "Figure" "figure").injective hrenames
  have htyped : (figures.check figures.resolve).result = some (.ref "Figure") := by decide +kernel
  have hok : ∃ listing, figures.generate figures.resolve 10000 = .ok listing := by
    have hsome : (figures.generate figures.resolve 10000).toOption.isSome =
        true := by decide +kernel
    cases hcode : figures.generate figures.resolve 10000 with
    | ok listing => exact ⟨listing, rfl⟩
    | error e =>
      rw [hcode] at hsome
      cases hsome
  obtain ⟨listing, hlisting⟩ := hok
  refine ⟨hrenames, ?_, listing, hlisting, (hcode 10000 listing).mpr hlisting⟩
  rw [hresult, htyped]
  rfl

end Program

end Stackling
