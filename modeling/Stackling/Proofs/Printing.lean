import Stackling.Proofs.Linking

/-!
# Printing a listing and reading it back

The text of an instruction is one line of one or two words, so that the lines of a listing's text
are its instructions in order. Label names are told apart from numbers and from one another by
their first letters and their digits.
-/

namespace Stackling

/-! ### Names of labels -/

namespace Label

/-- The letters before the number of a label. -/
def stem : Label → List Char
  | .branch _ => ['l', 'a', 'b', 'e', 'l']
  | .function _ => ['f', 'u', 'n', 'c', 't', 'i', 'o', 'n']

/-- The number in the text of a label. -/
def number : Label → Nat
  | .branch n | .function n => n

theorem toList_text (l : Label) : l.text.toList = l.stem ++ Nat.toDigits 10 l.number := by
  cases l <;> simp [text, stem, number, Nat.toString_eq_repr] <;> rfl

/-- Different labels have different texts. -/
theorem text_injective {l m : Label} (h : l.text = m.text) : l = m := by
  have hlist : l.stem ++ Nat.toDigits 10 l.number = m.stem ++ Nat.toDigits 10 m.number := by
    rw [← toList_text, ← toList_text, h]
  have hdigits : ∀ {a b : Nat}, Nat.toDigits 10 a = Nat.toDigits 10 b → a = b := fun {a b} hab => by
    rw [← Nat.ofDigitChars_ten_toDigits (n := a), hab, Nat.ofDigitChars_ten_toDigits]
  cases l <;> cases m <;> simp [stem, number] at hlist
  · exact congrArg _ (hdigits hlist)
  · exact congrArg _ (hdigits hlist)

/-- There is no blank in the text of a label. -/
theorem isWord_text (l : Label) : Text.IsWord l.text.toList := by
  rw [toList_text]
  refine Text.IsWord.append ?_ (Text.isWord_toDigits _)
  cases l <;> simp [stem, Text.IsWord] <;> decide

/-- No label is a number. -/
theorem readInt32?_text (l : Label) : Text.readInt32? l.text.toList = none := by
  rw [toList_text]
  cases l <;> simp [stem, Text.readInt32?, Text.readInt?, Text.readNat?]

/-- The text of a label does not end in a colon. -/
theorem getLast?_text (l : Label) : l.text.toList.getLast? ≠ some ':' := by
  intro h
  have hmem : ':' ∈ l.stem ++ Nat.toDigits 10 l.number := toList_text l ▸ List.mem_of_getLast? h
  rcases List.mem_append.mp hmem with hmem | hmem
  · cases l <;> simp [stem] at hmem
  · exact absurd (Text.isDigit_of_mem_toDigits hmem) (by decide)

end Label

/-! ### Lines -/

namespace Instr

/-- The words of an instruction's line. -/
def words : Instr → List (List Char)
  | .bare op => [op.mnemonic.toList]
  | .push value => ["push".toList, (Text.decimal value).toList]
  | .pushLabel l => ["push".toList, l.text.toList]
  | .jump kind l => [kind.mnemonic.toList, l.text.toList]
  | .label _ => []

/-- The line that an instruction is read as. -/
def line : Instr → Image.Line
  | .label l => .definition l.text
  | i => .instruction i.words

end Instr

theorem Bare.isWord_mnemonic (op : Bare) : Text.IsWord op.mnemonic.toList := by
  cases op <;> simp [Bare.mnemonic, Text.IsWord] <;> decide

theorem Jump.isWord_mnemonic (kind : Jump) : Text.IsWord kind.mnemonic.toList := by
  cases kind <;> simp [Jump.mnemonic, Text.IsWord] <;> decide

theorem Text.isWord_push : Text.IsWord "push".toList := by
  simp [Text.IsWord]; decide

theorem Text.IsWord.newline_notMem {w : List Char} (h : IsWord w) : '\n' ∉ w := fun hmem =>
  absurd (h.2 _ hmem) (by decide)

theorem Text.isWord_singleton {c : Char} (h : Text.isBlank c = false) : Text.IsWord [c] := by
  simp [Text.IsWord, h]

/-- What the text of an instruction is: a word, two words, or a label with a colon. -/
inductive Instr.Written : Instr → List Char → Prop
  | one (op : Bare) : Written (.bare op) op.mnemonic.toList
  | two {i : Instr} {v w : List Char} (hv : Text.IsWord v) (hw : Text.IsWord w)
      (hlast : w.getLast? ≠ some ':') (hi : i.line = .instruction [v, w]) : Written i
      (v ++ ' ' :: w)
  | definition (l : Label) : Written (.label l) (l.text.toList ++ [':'])

namespace Instr

/-- The text of an instruction is one of the ways to write it. -/
theorem written_text (i : Instr) : i.Written i.text.toList := by
  cases i with
  | bare op => exact .one op
  | push value =>
    have hlast : (Text.decimal value).toList.getLast? ≠ some ':' := fun h => by
      rcases Text.mem_decimal (List.mem_of_getLast? h) with h | h <;> simp at h
    have := Written.two (i := .push value) Text.isWord_push (Text.isWord_decimal value) hlast rfl
    simpa [text] using this
  | pushLabel l =>
    have := Written.two (i := .pushLabel l) Text.isWord_push l.isWord_text l.getLast?_text rfl
    simpa [text] using this
  | jump kind l =>
    have := Written.two (i := .jump kind l) kind.isWord_mnemonic l.isWord_text l.getLast?_text rfl
    simpa [text] using this
  | label l => simpa [text] using Written.definition l

namespace Written

variable {i : Instr} {cs : List Char}

theorem newline_notMem (h : i.Written cs) : '\n' ∉ cs := by
  cases h with
  | one op => exact op.isWord_mnemonic.newline_notMem
  | two hv hw => simp [hv.newline_notMem, hw.newline_notMem]
  | definition l => simp [l.isWord_text.newline_notMem]

/-- There are no blanks around a written instruction. -/
theorem trim_eq (h : i.Written cs) : Text.trim cs = cs := by
  cases h with
  | one op => exact op.isWord_mnemonic.trim_eq
  | two hv hw => simpa using hv.trim_append hw [' ']
  | definition l => simpa using l.isWord_text.trim_append (@Text.isWord_singleton ':' rfl) []

theorem ne_nil (h : i.Written cs) : cs ≠ [] := by
  cases h with
  | one op => exact op.isWord_mnemonic.1
  | two hv => simp [hv.1]
  | definition l => simp

/-- However an instruction is written, it is read as its line. -/
theorem ofChars_eq (h : i.Written cs) : Image.Line.ofChars cs = i.line := by
  cases h with
  | one op =>
    have hlast : op.mnemonic.toList.getLast? ≠ some ':' := by cases op <;> simp [Bare.mnemonic]
    rw [Image.Line.ofChars, if_neg hlast, op.isWord_mnemonic.words_eq]
    rfl
  | two hv hw hlast hi =>
    rw [Image.Line.ofChars, if_neg, hv.words_append hw, hi]
    simpa only [List.getLast?_append, List.getLast?_cons_of_ne_nil hw.1,
      List.getLast?_eq_some_getLast hw.1, Option.some_or] using hlast
  | definition l => simp [Image.Line.ofChars, line]

end Written

end Instr

/-! ### The lines of a listing -/

namespace Image

/-- The lines of a list of instructions, numbered from `n`. -/
def linesOf (n : Nat) : List Instr → List NumberedLine
  | [] => []
  | i :: is => ⟨n, i.line⟩ :: linesOf (n + 1) is

theorem numberLines_text (n : Nat) (is : List Instr) :
    numberLines n (is.map (·.text.toList) ++ [[]]) = linesOf n is := by
  induction is generalizing n with
  | nil => simp [numberLines, linesOf, Text.trim]
  | cons i is ih =>
    have hi := i.written_text
    simp [numberLines, linesOf, hi.trim_eq, hi.ne_nil, hi.ofChars_eq, ih]

/-- The lines of a printed listing are those of its instructions, in order. -/
theorem contentLines_text (l : Listing) : contentLines l.text = linesOf 1 l.instrs := by
  have htext : l.text.toList = (l.instrs.map (·.text.toList)).flatMap (· ++ ['\n']) := by
    simp [Listing.text, Listing.lines, List.flatMap_map]
  have hlines : ∀ line ∈ l.instrs.map (·.text.toList), '\n' ∉ line := by
    intro line hline
    obtain ⟨i, -, rfl⟩ := List.mem_map.mp hline
    exact i.written_text.newline_notMem
  rw [contentLines, htext, Text.lines_flatMap hlines, numberLines_text]

/-! ### Labels -/

/-- The first pass over instructions whose labels are new finds the address of each of them. -/
theorem collectLabels_linesOf {is : List Instr} (hnodup : (Code.defined is).Nodup)
    {labels : LabelTable} (hnew : ∀ l ∈ Code.defined is, l.text ∉ labels) (address n : Nat) :
    ∃ table, collectLabels labels address (linesOf n is) = .ok table ∧
      ∀ l : Label, table[l.text]? =
        ((Code.address? l is).map (address + ·)).or labels[l.text]? := by
  induction is generalizing labels address n with
  | nil => exact ⟨labels, rfl, fun l => by simp [Code.address?]⟩
  | cons i is ih =>
    cases i with
    | label l =>
      obtain ⟨hl, hnodup⟩ : l ∉ Code.defined is ∧ (Code.defined is).Nodup := by
        simpa [Instr.defined?] using hnodup
      have hfresh : l.text ∉ labels := hnew l (by simp [Instr.defined?])
      have hnew' : ∀ m ∈ Code.defined is, m.text ∉ labels.insert l.text address := by
        intro m hm hmem
        rcases Std.TreeMap.mem_insert.mp hmem with h | h
        · exact hl (Label.text_injective (Std.LawfulEqCmp.eq_of_compare h) ▸ hm)
        · exact hnew m (by simp [hm]) h
      obtain ⟨table, htable, hlook⟩ := ih hnodup hnew' address (n + 1)
      refine ⟨table, ?_, fun m => ?_⟩
      · simp [linesOf, Instr.line, collectLabels, Std.TreeMap.contains_iff_mem, hfresh, htable]
      · rw [hlook m, Std.TreeMap.getElem?_insert]
        by_cases hlm : l = m
        · subst hlm
          simp [Code.address?_eq_none hl, Code.address?]
        · have : compare l.text m.text ≠ .eq := fun h =>
            hlm (Label.text_injective (Std.LawfulEqCmp.eq_of_compare h))
          simp [Code.address?, hlm, this]
    | bare _ | push _ | pushLabel _ | jump _ _ =>
      obtain ⟨table, htable, hlook⟩ := ih (by simpa [Instr.defined?] using hnodup)
        (fun m hm => hnew m (by simp [hm])) (address + 1) (n + 1)
      refine ⟨table, by simpa [linesOf, Instr.line, collectLabels] using htable, fun m => ?_⟩
      rw [hlook m]
      cases ha : Code.address? m is <;> simp [Code.address?, ha, Nat.add_assoc, Nat.add_comm 1]

/-! ### Operations -/

theorem ofMnemonic?_jump_bare (op : Bare) : Jump.ofMnemonic? op.mnemonic = none := by
  cases op <;> rfl

/-- The words of an instruction are read as the operation it is linked to. -/
theorem readWords_words {labels : LabelTable} {address : Label → Nat} {i : Instr} {op : Op}
    (hop : i.link address = some op)
    (hlook : ∀ l, i.mentioned? = some l → labels[l.text]? = some (address l)) (n : Nat) :
    readWords labels n i.words = .ok op := by
  cases i with
  | bare b =>
    obtain rfl : Op.bare b = op := by simpa [Instr.link] using hop
    have hpush : b.mnemonic ≠ "push" := by cases b <;> decide
    simp [Instr.words, readWords, readOp, hpush, ofMnemonic?_jump_bare]
  | push value =>
    obtain rfl : Op.push value = op := by simpa [Instr.link] using hop
    simp [Instr.words, readWords, readOp, Text.readInt32?_decimal]
  | pushLabel l =>
    obtain rfl : Op.push (Int32.ofNat (address l)) = op := by simpa [Instr.link] using hop
    simp [Instr.words, readWords, readOp, Label.readInt32?_text, hlook l rfl, Except.map]
  | jump kind l =>
    obtain rfl : Op.jump kind (address l) = op := by simpa [Instr.link] using hop
    have hpush : kind.mnemonic ≠ "push" := by cases kind <;> decide
    simp [Instr.words, readWords, readOp, hpush, hlook l rfl, Except.map]
  | label l => simp [Instr.link] at hop

/-- The second pass reads one operation for each instruction that is not a label. -/
theorem readOps_linesOf {labels : LabelTable} {address : Label → Nat} {is : List Instr}
    (hlook : ∀ l ∈ Code.mentioned is, labels[l.text]? = some (address l)) (n : Nat) :
    readOps labels (linesOf n is) = .ok (is.filterMap (Instr.link address)) := by
  induction is generalizing n with
  | nil => rfl
  | cons i is ih =>
    have hrest := ih (fun l hl => hlook l (by simp [hl])) (n + 1)
    cases hop : i.link address with
    | none =>
      obtain ⟨l, rfl⟩ : ∃ l, i = .label l := by cases i <;> simp [Instr.link] at hop ⊢
      simpa [linesOf, Instr.line, readOps, List.filterMap_cons, Instr.link] using hrest
    | some op =>
      have hread := readWords_words hop (fun l hl => hlook l (by simp [hl])) n
      have hline : i.line = .instruction i.words := by
        cases i <;> first | rfl | simp [Instr.link] at hop
      simp [linesOf, hline, readOps, hread, hrest, hop, bind, Except.bind, pure, Except.pure]

/-- Reading the text of a listing gives the linked listing, if each label has one definition. -/
theorem ofText_text {is : List Instr} (hnodup : (Code.defined is).Nodup)
    (hdefined : ∀ l ∈ Code.mentioned is, l ∈ Code.defined is) :
    ofText (Listing.mk is).text = .ok (Code.link is) := by
  obtain ⟨table, htable, hlook⟩ := @collectLabels_linesOf is hnodup ∅ (by simp) 0 1
  have haddress : ∀ l ∈ Code.mentioned is, table[l.text]? = some (Code.address is l) := by
    intro l hl
    obtain ⟨a, ha⟩ := Code.exists_address?_of_mem (hdefined l hl)
    simp [hlook l, Code.address, ha]
  simp [ofText, contentLines_text, htable, readOps_linesOf haddress, Code.link, bind, Except.bind,
    pure, Except.pure]

end Image

end Stackling
