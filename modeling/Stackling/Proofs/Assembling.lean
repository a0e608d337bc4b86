import Mathlib.Data.List.Induction
import Mathlib.Data.Nat.Find
import Stackling.Proofs.Printing

/-!
# Which listings can be read back

Both passes over the lines of a text go from the first to the last line, so that each fault is the
first of its kind. The text of a listing has only two kinds of faults: a label that is defined once
more, which the first pass finds before any operation is read, and a label that is defined nowhere.
A listing with neither is read back as it is linked.
-/

namespace Stackling

/-! ### The two passes over a text in two parts -/

namespace Image

def Line.isInstruction : Line → Bool
  | .definition _ => false
  | .instruction _ => true

/-- The number of lines that hold an operation. -/
def operationCount (lines : List NumberedLine) : Nat := lines.countP (·.content.isInstruction)

theorem collectLabels_append {labels table : LabelTable} {address : Nat} {xs : List NumberedLine}
    (hxs : collectLabels labels address xs = .ok table) (ys : List NumberedLine) :
    collectLabels labels address (xs ++ ys) = collectLabels table (address + operationCount xs)
      ys := by
  induction xs generalizing labels address with
  | nil =>
    cases hxs
    rfl
  | cons x xs ih =>
    obtain ⟨n, content⟩ := x
    cases content with
    | definition l =>
      rw [collectLabels] at hxs
      split at hxs
      · cases hxs
      · rename_i hnew
        rw [List.cons_append, collectLabels, if_neg hnew, ih hxs]
        rfl
    | instruction words =>
      rw [collectLabels] at hxs
      rw [List.cons_append, collectLabels, ih hxs]
      simp [operationCount, Line.isInstruction, Nat.add_assoc, Nat.add_comm 1]

theorem readOps_append (labels : LabelTable) (xs ys : List NumberedLine) :
    readOps labels (xs ++ ys) = do return (← readOps labels xs) ++ (← readOps labels ys) := by
  induction xs with
  | nil => exact (bind_pure (readOps labels ys)).symm
  | cons x xs ih =>
    obtain ⟨n, content⟩ := x
    cases content with
    | definition l => rw [List.cons_append, readOps, readOps, ih]
    | instruction words => simp [readOps, ih]

theorem linesOf_append (n : Nat) (is js : List Instr) :
    linesOf n (is ++ js) = linesOf n is ++ linesOf (n + is.length) js := by
  induction is generalizing n with
  | nil => rfl
  | cons i is ih =>
    rw [List.cons_append, linesOf, ih, linesOf, List.cons_append, List.length_cons, Nat.add_assoc,
      Nat.add_comm 1]

/-! ### Faults -/

/-- The first pass ends at a label that it has met. -/
theorem ofText_text_of_repeated {is js : List Instr} {l : Label} (hnodup : (Code.defined is).Nodup)
    (hl : l ∈ Code.defined is) :
    ofText (Listing.mk (is ++ .label l :: js)).text =
      .error (.duplicateLabel l.text (is.length + 1)) := by
  obtain ⟨table, htable, hlook⟩ := @collectLabels_linesOf is hnodup ∅ (by simp) 0 1
  obtain ⟨a, ha⟩ := Code.exists_address?_of_mem hl
  have hmet : table.contains l.text = true := by
    rw [Std.TreeMap.contains_eq_isSome_getElem?, hlook l, ha]
    rfl
  have hcollect : collectLabels ∅ 0 (linesOf 1 (is ++ .label l :: js)) =
      .error (.duplicateLabel l.text (1 + is.length)) := by
    rw [linesOf_append, collectLabels_append htable, linesOf, Instr.line, collectLabels,
      if_pos hmet]
  rw [ofText, contentLines_text, hcollect, Nat.add_comm]
  rfl

/-- An instruction with an unknown label cannot be read. -/
theorem readWords_words_of_missing {labels : LabelTable} {i : Instr} {l : Label}
    (hi : i.mentioned? = some l) (hl : labels[l.text]? = none) (n : Nat) :
    readWords labels n i.words = .error (.undefinedLabel l.text n) := by
  cases i with
  | pushLabel m =>
    obtain rfl : m = l := Option.some.inj hi
    simp [Instr.words, readWords, readOp, Label.readInt32?_text, hl, Except.map]
  | jump kind m =>
    obtain rfl : m = l := Option.some.inj hi
    have hpush : kind.mnemonic ≠ "push" := by cases kind <;> decide
    simp [Instr.words, readWords, readOp, hpush, hl, Except.map]
  | bare | push | label => cases hi

/-- The second pass ends at a label that the first pass has not met. -/
theorem ofText_text_of_missing {is js : List Instr} {i : Instr} {l : Label}
    (hnodup : (Code.defined (is ++ i :: js)).Nodup)
    (hbefore : ∀ m ∈ Code.mentioned is, m ∈ Code.defined (is ++ i :: js))
    (hi : i.mentioned? = some l) (hl : l ∉ Code.defined (is ++ i :: js)) :
    ofText (Listing.mk (is ++ i :: js)).text = .error (.undefinedLabel l.text (is.length + 1)) := by
  obtain ⟨table, htable, hlook⟩ := @collectLabels_linesOf (is ++ i :: js) hnodup ∅ (by simp) 0 1
  have haddress : ∀ m ∈ Code.mentioned is, table[m.text]? =
      some (Code.address (is ++ i :: js) m) := by
    intro m hm
    obtain ⟨a, ha⟩ := Code.exists_address?_of_mem (hbefore m hm)
    simp [hlook m, Code.address, ha]
  have hunknown : table[l.text]? = none := by
    simp [hlook l, Code.address?_eq_none hl]
  have hline : i.line = .instruction i.words := by
    cases i <;> first | rfl | cases hi
  rw [ofText, contentLines_text, htable, linesOf_append, linesOf, hline]
  simp [readOps_append, readOps_linesOf haddress, readOps, readWords_words_of_missing hi hunknown,
    Nat.add_comm, bind, Except.bind]

end Image

/-! ### The first fault -/

namespace Code

variable {is : List Instr} {l : Label} {k : Nat}

/-- The label that is defined at a place has been defined before. -/
def RepeatsAt (is : List Instr) (k : Nat) (l : Label) : Prop :=
  is[k]? = some (.label l) ∧ .label l ∈ is.take k

/-- The instruction at a place uses a label that is defined nowhere. -/
def MissesAt (is : List Instr) (k : Nat) (l : Label) : Prop :=
  is[k]?.bind Instr.mentioned? = some l ∧ .label l ∉ is

theorem mem_mentioned : l ∈ mentioned is ↔ ∃ k : Nat, is[k]?.bind Instr.mentioned? = some l := by
  rw [mentioned, List.mem_filterMap]
  constructor
  · rintro ⟨i, hi, hl⟩
    obtain ⟨k, hk⟩ := List.mem_iff_getElem?.mp hi
    exact ⟨k, Option.bind_eq_some_iff.mpr ⟨i, hk, hl⟩⟩
  · rintro ⟨k, hk⟩
    obtain ⟨i, hi, hl⟩ := Option.bind_eq_some_iff.mp hk
    exact ⟨i, List.mem_of_getElem? hi, hl⟩

theorem take_append_of_getElem? {i : Instr} (hk : is[k]? = some i) :
    is.take k ++ i :: is.drop (k + 1) = is := by
  obtain ⟨hlt, rfl⟩ := List.getElem?_eq_some_iff.mp hk
  rw [List.getElem_cons_drop, List.take_append_drop]

theorem length_take_of_getElem? {i : Instr} (hk : is[k]? = some i) : (is.take k).length = k := by
  obtain ⟨hlt, -⟩ := List.getElem?_eq_some_iff.mp hk
  exact List.length_take_of_le (Nat.le_of_lt hlt)

theorem nodup_defined_iff : (defined is).Nodup ↔ ∀ k l, ¬RepeatsAt is k l := by
  constructor
  · rintro hnodup k l ⟨hk, hbefore⟩
    rw [← take_append_of_getElem? hk, defined_append, List.nodup_append] at hnodup
    exact hnodup.2.2 l (mem_defined.mpr hbefore) l (by simp [Instr.defined?]) rfl
  · intro hfirst
    induction is using List.reverseRecOn with
    | nil => exact List.nodup_nil
    | append_singleton is i ih =>
      have hinit : (defined is).Nodup := by
        refine ih fun k l hk => hfirst k l ?_
        obtain ⟨hlt, -⟩ := List.getElem?_eq_some_iff.mp hk.1
        rw [RepeatsAt, List.getElem?_append_left hlt,
          List.take_append_of_le_length (Nat.le_of_lt hlt)]
        exact hk
      rw [defined_append, List.nodup_append]
      refine ⟨hinit, by cases i <;> simp [Instr.defined?], ?_⟩
      intro l hl m hm heq
      subst heq
      have hi : i = .label l := by
        cases i with
        | label m => simpa [Instr.defined?, eq_comm] using hm
        | bare | push | pushLabel | jump => simp [Instr.defined?] at hm
      refine hfirst is.length l ⟨by rw [hi]; simp, ?_⟩
      rw [List.take_left]
      exact mem_defined.mp hl

theorem getElem?_of_take {i : Instr} {j : Nat} (hj : (is.take k)[j]? = some i) :
    j < k ∧ is[j]? = some i := by
  rw [List.getElem?_take] at hj
  split at hj
  · next hlt => exact ⟨hlt, hj⟩
  · cases hj

theorem RepeatsAt.of_take {j : Nat} (h : RepeatsAt (is.take k) j l) : j < k ∧ RepeatsAt is j l := by
  obtain ⟨hlt, hj⟩ := getElem?_of_take h.1
  have hbefore := h.2
  rw [List.take_take, Nat.min_eq_left (Nat.le_of_lt hlt)] at hbefore
  exact ⟨hlt, hj, hbefore⟩

theorem exists_lt_of_mem_mentioned_take (hl : l ∈ mentioned (is.take k)) :
    ∃ j < k, is[j]?.bind Instr.mentioned? = some l := by
  obtain ⟨j, hj⟩ := mem_mentioned.mp hl
  obtain ⟨i, hi, hil⟩ := Option.bind_eq_some_iff.mp hj
  obtain ⟨hlt, hi⟩ := getElem?_of_take hi
  exact ⟨j, hlt, Option.bind_eq_some_iff.mpr ⟨i, hi, hil⟩⟩

theorem exists_first {fault : Nat → Label → Prop} (hsome : ∃ k l, fault k l) :
    ∃ k l, fault k l ∧ ∀ j < k, ∀ m, ¬fault j m := by
  classical
  obtain ⟨l, hl⟩ := Nat.find_spec hsome
  exact ⟨Nat.find hsome, l, hl, fun j hj m hm => Nat.find_min hsome hj ⟨m, hm⟩⟩

/-- The address of a label is the number of operations before its definition. -/
theorem address_eq_size_take (hnodup : (defined is).Nodup) (hk : is[k]? = some (.label l)) :
    address is l = size (is.take k) := by
  have hnew : l ∉ defined (is.take k) :=
    fun hmem => nodup_defined_iff.mp hnodup k l ⟨hk, mem_defined.mp hmem⟩
  have haddress := address?_append_label hnew (is.drop (k + 1))
  rw [take_append_of_getElem? hk] at haddress
  rw [address, haddress]
  rfl

end Code

namespace Listing

variable {listing : Listing}

/-- A label that is defined twice is reported at its second definition, and the first of these if
there are several. -/
theorem ofText_text_of_not_nodup (hnodup : ¬(Code.defined listing.instrs).Nodup) :
    ∃ k l, Code.RepeatsAt listing.instrs k l ∧ (∀ j < k, ∀ m, ¬Code.RepeatsAt listing.instrs j m) ∧
      Image.ofText listing.text = .error (.duplicateLabel l.text (k + 1)) := by
  have hsome : ∃ k l, Code.RepeatsAt listing.instrs k l := by
    simpa [Code.nodup_defined_iff] using hnodup
  obtain ⟨k, l, hk, hfirst⟩ := Code.exists_first hsome
  refine ⟨k, l, hk, hfirst, ?_⟩
  have hbefore : (Code.defined (listing.instrs.take k)).Nodup := by
    rw [Code.nodup_defined_iff]
    intro j m hrepeats
    obtain ⟨hlt, hj⟩ := hrepeats.of_take
    exact hfirst j hlt m hj
  have hread := @Image.ofText_text_of_repeated _ (listing.instrs.drop (k + 1)) l hbefore
    (Code.mem_defined.mpr hk.2)
  rw [Code.take_append_of_getElem? hk.1, Code.length_take_of_getElem? hk.1] at hread
  exact hread

/-- If no label is defined twice, one that is defined nowhere is reported where it is used first. -/
theorem ofText_text_of_not_defined (hnodup : (Code.defined listing.instrs).Nodup)
    (hmissing : ¬∀ l ∈ Code.mentioned listing.instrs, l ∈ Code.defined listing.instrs) :
    ∃ k l, Code.MissesAt listing.instrs k l ∧ (∀ j < k, ∀ m, ¬Code.MissesAt listing.instrs j m) ∧
      Image.ofText listing.text = .error (.undefinedLabel l.text (k + 1)) := by
  have hsome : ∃ k l, Code.MissesAt listing.instrs k l := by
    simp only [not_forall] at hmissing
    obtain ⟨l, hl, hundefined⟩ := hmissing
    obtain ⟨k, hk⟩ := Code.mem_mentioned.mp hl
    exact ⟨k, l, hk, fun hmem => hundefined (Code.mem_defined.mpr hmem)⟩
  obtain ⟨k, l, hk, hfirst⟩ := Code.exists_first hsome
  refine ⟨k, l, hk, hfirst, ?_⟩
  obtain ⟨i, hi, hl⟩ := Option.bind_eq_some_iff.mp hk.1
  have hsplit := Code.take_append_of_getElem? hi
  have hbefore : ∀ m ∈ Code.mentioned (listing.instrs.take k), m ∈ Code.defined listing.instrs := by
    intro m hm
    obtain ⟨j, hlt, hj⟩ := Code.exists_lt_of_mem_mentioned_take hm
    by_contra hundefined
    exact hfirst j hlt m ⟨hj, fun hmem => hundefined (Code.mem_defined.mpr hmem)⟩
  have hread :=
    @Image.ofText_text_of_missing (listing.instrs.take k) (listing.instrs.drop (k + 1)) i l
      (by rwa [hsplit]) (by rwa [hsplit]) hl
      (by rw [hsplit]; exact fun hmem => hk.2 (Code.mem_defined.mp hmem))
  rw [hsplit, Code.length_take_of_getElem? hi] at hread
  exact hread

/-- The text of a listing is read back just if it can be linked, and then as the linked listing;
else the first label that is defined once more is reported, or if there is none, the first use of a
label without definition. -/
theorem text_reads_as_linked (listing : Listing) :
    ((∃ image, Image.ofText listing.text = .ok image) ↔
      (Code.defined listing.instrs).Nodup ∧
        ∀ l ∈ Code.mentioned listing.instrs, l ∈ Code.defined listing.instrs) ∧
    (∀ image, Image.ofText listing.text = .ok image → ∃ address : Label → Nat,
      (∀ (k : Nat) (l : Label), listing.instrs[k]? = some (.label l) →
        address l = Code.size (listing.instrs.take k)) ∧
      image.ops = (listing.instrs.filterMap (Instr.link address)).toArray) ∧
    (¬(Code.defined listing.instrs).Nodup →
      ∃ k l, Code.RepeatsAt listing.instrs k l ∧
        (∀ j < k, ∀ m, ¬Code.RepeatsAt listing.instrs j m) ∧
        Image.ofText listing.text = .error (.duplicateLabel l.text (k + 1))) ∧
    ((Code.defined listing.instrs).Nodup →
      (¬∀ l ∈ Code.mentioned listing.instrs, l ∈ Code.defined listing.instrs) →
      ∃ k l, Code.MissesAt listing.instrs k l ∧ (∀ j < k, ∀ m, ¬Code.MissesAt listing.instrs j m) ∧
        Image.ofText listing.text = .error (.undefinedLabel l.text (k + 1))) := by
  have hlinks {image : Image} (hread : Image.ofText listing.text = .ok image) :
      (Code.defined listing.instrs).Nodup ∧ ∀ l ∈ Code.mentioned listing.instrs,
      l ∈ Code.defined listing.instrs := by
    by_contra hfault
    by_cases hnodup : (Code.defined listing.instrs).Nodup
    · obtain ⟨_, _, -, -, herror⟩ :=
        ofText_text_of_not_defined hnodup fun hdefined => hfault ⟨hnodup, hdefined⟩
      rw [hread] at herror
      cases herror
    · obtain ⟨_, _, -, -, herror⟩ := ofText_text_of_not_nodup hnodup
      rw [hread] at herror
      cases herror
  refine ⟨⟨fun ⟨_, hread⟩ => hlinks hread, fun ⟨hnodup, hdefined⟩ =>
    ⟨_, Image.ofText_text hnodup hdefined⟩⟩, ?_, ofText_text_of_not_nodup,
      ofText_text_of_not_defined⟩
  intro image hread
  obtain ⟨hnodup, hdefined⟩ := hlinks hread
  obtain rfl : Code.link listing.instrs = image :=
    Except.ok.inj ((Image.ofText_text hnodup hdefined).symm.trans hread)
  exact ⟨Code.address listing.instrs, fun k l => Code.address_eq_size_take hnodup, rfl⟩

theorem text_reads_as_linked_samples :
    (∃ image, Image.ofText (mk [.jump .always (.branch 1), .label (.branch 0), .push (-7),
      .label (.branch 1), .pushLabel (.branch 0)]).text = .ok image) ∧
    (∃ k l, Code.RepeatsAt [.label (.function 0), .bare .js, .label (.function 0)] k l ∧
      Image.ofText (mk [.label (.function 0), .bare .js, .label (.function 0)]).text =
        .error (.duplicateLabel l.text (k + 1))) ∧
    ∃ k l, Code.MissesAt [.bare .lfp, .pushLabel (.function 0), .bare .halt] k l ∧
      Image.ofText (mk [.bare .lfp, .pushLabel (.function 0), .bare .halt]).text =
        .error (.undefinedLabel l.text (k + 1)) := by
  refine ⟨(text_reads_as_linked
    (mk [.jump .always (.branch 1), .label (.branch 0), .push (-7), .label (.branch 1),
      .pushLabel (.branch 0)])).1.mpr (by decide), ?_, ?_⟩
  · obtain ⟨k, l, hk, -, herror⟩ :=
      (text_reads_as_linked (mk [.label (.function 0), .bare .js, .label (.function 0)])).2.2.1
        (by decide)
    exact ⟨k, l, hk, herror⟩
  · obtain ⟨k, l, hk, -, herror⟩ :=
      (text_reads_as_linked (mk [.bare .lfp, .pushLabel (.function 0), .bare .halt])).2.2.2
        (by decide) (by decide)
    exact ⟨k, l, hk, herror⟩

end Listing

end Stackling
