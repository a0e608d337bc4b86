import Stackling.Machine.Image
import Stackling.Proofs.Text

/-!
# Linking

The image of a listing can be had without its text: leave out the label definitions, and put for
each label the number of operations before its definition. Printing a listing and reading the text
back gives this image whenever no label is defined twice and none is missing.
-/

namespace Stackling

namespace Instr

/-- The label that is defined here. -/
def defined? : Instr → Option Label
  | .label l => some l
  | _ => none

/-- The label whose address is used here. -/
def mentioned? : Instr → Option Label
  | .pushLabel l | .jump _ l => some l
  | _ => none

/-- The operation that stands for an instruction, given the addresses of the labels. -/
def link (address : Label → Nat) : Instr → Option Op
  | .bare op => some (.bare op)
  | .push value => some (.push value)
  | .pushLabel l => some (.push (Int32.ofNat (address l)))
  | .jump kind l => some (.jump kind (address l))
  | .label _ => none

end Instr

namespace Code

/-- The labels that some code defines, in order and with repetitions. -/
def defined (is : List Instr) : List Label := is.filterMap Instr.defined?

/-- The labels that some code mentions. -/
def mentioned (is : List Instr) : List Label := is.filterMap Instr.mentioned?

/-- The number of operations in a piece of code. -/
def size (is : List Instr) : Nat := is.countP (·.defined?.isNone)

/-- The number of operations before the definition of a label. -/
def address? (l : Label) : List Instr → Option Nat
  | [] => none
  | .label l' :: is => if l' = l then some 0 else address? l is
  | _ :: is => (address? l is).map (· + 1)

/-- The address of a label, which is 0 for those that are not defined. -/
def address (is : List Instr) (l : Label) : Nat := (address? l is).getD 0

/-- The image of some code under its own addresses. -/
def link (is : List Instr) : Image := ⟨(is.filterMap (Instr.link (address is))).toArray⟩

/-! ### Sizes and addresses -/

@[simp] theorem defined_append (is js : List Instr) :
    defined (is ++ js) = defined is ++ defined js :=
  List.filterMap_append

@[simp] theorem mentioned_append (is js : List Instr) :
    mentioned (is ++ js) = mentioned is ++ mentioned js :=
  List.filterMap_append

@[simp] theorem defined_cons (i : Instr) (is : List Instr) :
    defined (i :: is) = i.defined?.toList ++ defined is := by
  cases i <;> simp [defined, List.filterMap_cons, Instr.defined?]

@[simp] theorem mentioned_cons (i : Instr) (is : List Instr) :
    mentioned (i :: is) = i.mentioned?.toList ++ mentioned is := by
  cases i <;> simp [mentioned, List.filterMap_cons, Instr.mentioned?]

@[simp] theorem defined_nil : defined [] = [] := rfl

@[simp] theorem mentioned_nil : mentioned [] = [] := rfl

/-- A label is defined where it stands. -/
theorem mem_defined {l : Label} {is : List Instr} : l ∈ defined is ↔ .label l ∈ is := by
  rw [defined, List.mem_filterMap]
  constructor
  · rintro ⟨i, hi, hl⟩
    cases i with
    | label m =>
      cases hl
      exact hi
    | bare | push | pushLabel | jump => cases hl
  · intro hl
    exact ⟨_, hl, rfl⟩

@[simp] theorem size_nil : size [] = 0 := rfl

@[simp] theorem size_append (is js : List Instr) : size (is ++ js) = size is + size js :=
  List.countP_append

@[simp] theorem size_cons (i : Instr) (is : List Instr) :
    size (i :: is) = (if i.defined?.isNone then 1 else 0) + size is := by
  simp [size, List.countP_cons, Nat.add_comm]

/-- Sizes add up along a listing. -/
theorem size_take_add_size_extract {is : List Instr} {i j : Nat} (h : i ≤ j) :
    size (is.take i) + size (is.extract i j) = size (is.take j) := by
  rw [← size_append, List.extract_eq_take_drop, ← List.take_add, Nat.add_sub_cancel' h]

theorem length_filterMap_link (address : Label → Nat) (is : List Instr) :
    (is.filterMap (Instr.link address)).length = size is := by
  induction is with
  | nil => rfl
  | cons i is ih =>
    cases i <;> simp [List.filterMap_cons, Instr.link, Instr.defined?, ih, Nat.add_comm]

/-- An image has as many instructions as its code without labels. -/
theorem size_link (is : List Instr) : (link is).ops.size = size is := by
  simp [link, length_filterMap_link]

/-- The address of a label is the size of what stands before its first definition. -/
theorem address?_append_label {l : Label} {is : List Instr} (h : l ∉ defined is) (js : List Instr) :
    address? l (is ++ .label l :: js) = some (size is) := by
  induction is with
  | nil => simp [address?]
  | cons i is ih =>
    cases i with
    | label l' =>
      obtain ⟨hl, his⟩ : l ≠ l' ∧ l ∉ defined is := by simpa [Instr.defined?] using h
      simp [address?, Instr.defined?, Ne.symm hl, ih his]
    | bare _ | push _ | pushLabel _ | jump _ _ =>
      have his : l ∉ defined is := by simpa [Instr.defined?] using h
      simp [address?, Instr.defined?, ih his, Nat.add_comm]

theorem address?_eq_none {l : Label} {is : List Instr} (h : l ∉ defined is) :
    address? l is = none := by
  induction is with
  | nil => rfl
  | cons i is ih =>
    have his : l ∉ defined is := fun hl => h (by simp [hl])
    cases i with
    | label l' =>
      have hl : l' ≠ l := by
        rintro rfl
        exact h (by simp [Instr.defined?])
      simp [address?, hl, ih his]
    | bare _ | push _ | pushLabel _ | jump _ _ => simp [address?, ih his]

/-- Every label that is defined has an address. -/
theorem exists_address?_of_mem {l : Label} {is : List Instr} (h : l ∈ defined is) :
    ∃ a, address? l is = some a := by
  induction is with
  | nil => simp at h
  | cons i is ih =>
    cases i with
    | label l' =>
      by_cases hl : l' = l
      · exact ⟨0, by simp [address?, hl]⟩
      · have : l ∈ defined is := by simpa [Instr.defined?, Ne.symm hl] using h
        simpa [address?, hl] using ih this
    | bare _ | push _ | pushLabel _ | jump _ _ =>
      obtain ⟨a, ha⟩ := ih (by simpa [Instr.defined?] using h)
      exact ⟨a + 1, by simp [address?, ha]⟩

/-! ### Code in an image -/

end Code

/-- The image has this code from the address `pc` on, and its labels where `address` says. -/
def Image.CodeAt (image : Image) (address : Label → Nat) : (pc : Nat) → List Instr → Prop
  | _, [] => True
  | pc, .label l :: is => address l = pc ∧ image.CodeAt address pc is
  | pc, i :: is => image.ops[pc]? = i.link address ∧ image.CodeAt address (pc + 1) is

namespace Image

variable {image : Image} {address : Label → Nat} {pc : Nat}

@[simp] theorem codeAt_nil : image.CodeAt address pc [] := trivial

@[simp] theorem codeAt_label {l : Label} {is : List Instr} :
    image.CodeAt address pc (.label l :: is) ↔ address l = pc ∧ image.CodeAt address pc is :=
  Iff.rfl

@[simp] theorem codeAt_bare {op : Bare} {is : List Instr} :
    image.CodeAt address pc (.bare op :: is) ↔
      image.ops[pc]? = some (.bare op) ∧ image.CodeAt address (pc + 1) is := Iff.rfl

@[simp] theorem codeAt_push {v : Int32} {is : List Instr} :
    image.CodeAt address pc (.push v :: is) ↔
      image.ops[pc]? = some (.push v) ∧ image.CodeAt address (pc + 1) is := Iff.rfl

@[simp] theorem codeAt_pushLabel {l : Label} {is : List Instr} :
    image.CodeAt address pc (.pushLabel l :: is) ↔
      image.ops[pc]? = some (.push (Int32.ofNat (address l))) ∧ image.CodeAt address (pc + 1) is :=
  Iff.rfl

@[simp] theorem codeAt_jump {kind : Jump} {l : Label} {is : List Instr} :
    image.CodeAt address pc (.jump kind l :: is) ↔
      image.ops[pc]? = some (.jump kind (address l)) ∧ image.CodeAt address (pc + 1) is := Iff.rfl

/-- An instruction that is not a label takes one place. -/
theorem codeAt_cons {i : Instr} {is : List Instr} (hi : i.defined? = none) :
    image.CodeAt address pc (i :: is) ↔
      image.ops[pc]? = i.link address ∧ image.CodeAt address (pc + 1) is := by
  cases i with
  | label l => cases hi
  | bare _ | push _ | pushLabel _ | jump _ _ => exact Iff.rfl

/-- Code that follows other code starts where that ends. -/
@[simp] theorem codeAt_append {is js : List Instr} :
    image.CodeAt address pc (is ++ js) ↔
      image.CodeAt address pc is ∧ image.CodeAt address (pc + Code.size is) js := by
  induction is generalizing pc with
  | nil => simp
  | cons i is ih =>
    cases i <;> simp [ih, Instr.defined?, and_assoc, Nat.add_assoc]

end Image

namespace Code

/-- Each rest of a listing stands in the linked image behind what comes before it. -/
theorem codeAt_link_append {is js : List Instr} (h : (defined (is ++ js)).Nodup) :
    (link (is ++ js)).CodeAt (address (is ++ js)) (size is) js := by
  induction js generalizing is with
  | nil => simp
  | cons i js ih =>
    have hrest := @ih (is ++ [i]) (by simpa using h)
    rw [List.append_assoc, List.singleton_append] at hrest
    cases i with
    | label l =>
      have hl : l ∉ defined is := by
        intro hmem
        simp only [defined_append, List.nodup_append] at h
        exact h.2.2 l hmem l (by simp [Instr.defined?]) rfl
      refine ⟨by simp [address, address?_append_label hl], ?_⟩
      simpa [Instr.defined?] using hrest
    | bare _ | push _ | pushLabel _ | jump _ _ =>
      refine ⟨?_, by simpa [Instr.defined?] using hrest⟩
      simp [link, Instr.link, length_filterMap_link]

/-- The image of a listing whose labels are defined once has the listing at its start, with every
label where it stands. -/
theorem codeAt_link {is : List Instr} (h : (defined is).Nodup) :
    (link is).CodeAt (address is) 0 is :=
  @codeAt_link_append [] is h

/-- Code that stands somewhere in a listing stands in the linked image behind what comes before
it. -/
theorem codeAt_link_of_prefix {is js : List Instr} {n : Nat} (h : (defined is).Nodup)
    (hjs : js <+: is.drop n) :
    (link is).CodeAt (address is) (size (is.take n)) js := by
  obtain ⟨rest, hrest⟩ := hjs
  have hcode := @codeAt_link_append (is.take n) (is.drop n) (by rw [List.take_append_drop]; exact h)
  rw [List.take_append_drop, ← hrest, Image.codeAt_append] at hcode
  exact hcode.1

end Code

end Stackling
