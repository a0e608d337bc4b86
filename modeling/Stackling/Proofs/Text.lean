import Stackling.Text.Blank
import Stackling.Text.Integer

/-!
# Reading back what was written

Decimal numbers read back as themselves, and a text put together from lines and words comes apart
into them again. What keeps pieces apart is that digits and letters are no blanks.
-/

namespace Stackling.Text

/-! ### Numbers -/

theorem isBlank_of_isDigit {c : Char} (h : c.isDigit) : isBlank c = false := by
  have ⟨h₁, h₂⟩ : 48 ≤ c.toNat ∧ c.toNat ≤ 57 := by
    simpa [Char.isDigit, UInt32.le_iff_toNat_le] using h
  simp only [isBlank, Bool.or_eq_false_iff, Bool.and_eq_false_iff, decide_eq_false_iff_not,
    beq_eq_false_iff_ne]
  omega

theorem isDigit_of_mem_toDigits {n : Nat} {c : Char} (h : c ∈ Nat.toDigits 10 n) : c.isDigit :=
  Nat.isDigit_of_mem_toDigits (by decide) (by decide) h

/-- A number is read back from its digits. -/
theorem readNat?_toDigits (n : Nat) : readNat? (Nat.toDigits 10 n) = some n := by
  have hdigits : (Nat.toDigits 10 n).all Char.isDigit := by
    simpa using fun c hc => isDigit_of_mem_toDigits hc
  simp [readNat?, hdigits, Nat.toDigits_ne_nil, Nat.ofDigitChars_ten_toDigits]

/-- A number without sign is read as such: no digit is a sign. -/
theorem readInt?_toDigits (n : Nat) : readInt? (Nat.toDigits 10 n) = some (n : Int) := by
  have hread := readNat?_toDigits n
  have hdigits : ∀ c ∈ Nat.toDigits 10 n, c.isDigit := fun c => isDigit_of_mem_toDigits
  rcases hcs : Nat.toDigits 10 n with _ | ⟨c, cs⟩
  · exact absurd hcs Nat.toDigits_ne_nil
  · rw [hcs] at hread hdigits
    have hc : c.isDigit := hdigits c List.mem_cons_self
    unfold readInt?
    split
    · simp_all
    · simp_all
    · simp [hread]

/-- So is a number with a sign. -/
theorem readInt?_toString (i : Int) : readInt? (toString i).toList = some i := by
  cases i with
  | ofNat n =>
    have : (toString (Int.ofNat n)).toList = Nat.toDigits 10 n := by
      simp [Int.toString_eq_repr, Int.repr]
    rw [this, readInt?_toDigits]
    rfl
  | negSucc n =>
    have : (toString (Int.negSucc n)).toList = '-' :: Nat.toDigits 10 (n + 1) := by
      simp [Int.toString_eq_repr, Int.repr]
    rw [this, readInt?, readNat?_toDigits]
    rfl

/-- So is a word, since its number is in range. -/
theorem readInt32?_decimal (n : Int32) : readInt32? (decimal n).toList = some n := by
  have hlow := n.minValue_le_toInt
  have hhigh := n.toInt_le
  simp only [readInt32?, decimal, readInt?_toString]
  rw [if_pos ⟨hlow, hhigh⟩, Int32.ofInt_toInt]

/-! ### Lines -/

/-- A line ends at the first line feed. -/
theorem splitLines_append {l : List Char} (h : '\n' ∉ l) (line rest : List Char) :
    splitLines line (l ++ '\n' :: rest) = (line.reverse ++ l) :: splitLines [] rest := by
  induction l generalizing line with
  | nil => simp [splitLines]
  | cons c cs ih =>
    obtain ⟨hc, hcs⟩ : '\n' ≠ c ∧ '\n' ∉ cs := by simpa using h
    simp [splitLines, Ne.symm hc, ih hcs]

/-- Lines that are each ended by a line feed are followed by one empty line. -/
theorem lines_flatMap {ls : List (List Char)} (h : ∀ l ∈ ls, '\n' ∉ l) :
    lines (ls.flatMap (· ++ ['\n'])) = ls ++ [[]] := by
  induction ls with
  | nil => simp [lines, splitLines]
  | cons l ls ih =>
    have hl : '\n' ∉ l := h l List.mem_cons_self
    have hls := ih fun l hl => h l (List.mem_cons_of_mem _ hl)
    simp only [lines] at hls
    simp [lines, splitLines_append hl, hls]

/-! ### Words -/

/-- A word: some characters, none of them blank. -/
def IsWord (cs : List Char) : Prop := cs ≠ [] ∧ ∀ c ∈ cs, isBlank c = false

/-- A word is collected up to the first blank. -/
theorem splitWords_of_isBlank_eq_false {cs : List Char} (h : ∀ c ∈ cs, isBlank c = false)
    (word rest : List Char) :
    splitWords word (cs ++ rest) = splitWords (cs.reverse ++ word) rest := by
  induction cs generalizing word with
  | nil => rfl
  | cons c cs ih =>
    have hc : isBlank c = false := h c List.mem_cons_self
    simp [splitWords, hc, ih fun c hc => h c (List.mem_cons_of_mem _ hc)]

namespace IsWord

/-- A word is all there is on its line. -/
theorem words_eq {w : List Char} (h : IsWord w) : words w = [w] := by
  have := splitWords_of_isBlank_eq_false h.2 [] []
  simpa [words, splitWords, h.1] using this

/-- Two words with a blank between them are two words. -/
theorem words_append {v w : List Char} (hv : IsWord v) (hw : IsWord w) :
    words (v ++ ' ' :: w) = [v, w] := by
  have hblank : isBlank ' ' = true := by decide
  have := hw.words_eq
  rw [words] at this
  rw [words, splitWords_of_isBlank_eq_false hv.2]
  simp [splitWords, hblank, hv.1, this]

theorem append {v w : List Char} (hv : IsWord v) (hw : IsWord w) : IsWord (v ++ w) := by
  refine ⟨by simp [hv.1], fun c hc => ?_⟩
  rcases List.mem_append.mp hc with hc | hc
  · exact hv.2 c hc
  · exact hw.2 c hc

end IsWord

theorem isWord_toDigits (n : Nat) : IsWord (Nat.toDigits 10 n) :=
  ⟨Nat.toDigits_ne_nil, fun _ hc => isBlank_of_isDigit (isDigit_of_mem_toDigits hc)⟩

/-- The decimals of a number are a word. -/
theorem isWord_decimal (n : Int32) : IsWord (decimal n).toList := by
  unfold decimal
  cases n.toInt with
  | ofNat n => simpa [Int.toString_eq_repr, Int.repr] using isWord_toDigits n
  | negSucc n =>
    have hsign : IsWord ['-'] := by simp [IsWord]; decide
    simpa [Int.toString_eq_repr, Int.repr] using hsign.append (isWord_toDigits (n + 1))

/-- There are only digits and a sign in it. -/
theorem mem_decimal {n : Int32} {c : Char} (h : c ∈ (decimal n).toList) : c = '-' ∨ c.isDigit := by
  unfold decimal at h
  cases hn : n.toInt with
  | ofNat m =>
    rw [hn] at h
    exact .inr (isDigit_of_mem_toDigits (by simpa [Int.toString_eq_repr, Int.repr] using h))
  | negSucc m =>
    rw [hn] at h
    have : c = '-' ∨ c ∈ Nat.toDigits 10 (m + 1) := by
      simpa [Int.toString_eq_repr, Int.repr] using h
    exact this.imp_right isDigit_of_mem_toDigits

/-- A text that neither starts nor ends with a blank is trimmed already. -/
theorem trim_eq_self {c d : Char} (hc : isBlank c = false) (hd : isBlank d = false) {cs : List Char}
    (hfirst : cs.head? = some c) (hlast : cs.getLast? = some d) : trim cs = cs := by
  obtain ⟨v, rfl⟩ := List.head?_eq_some_iff.mp hfirst
  obtain ⟨w, hw⟩ := List.getLast?_eq_some_iff.mp hlast
  rw [trim, List.dropWhile_cons_of_neg (by simp [hc]), hw]
  simp [hd]

/-- There are no blanks around a word. -/
theorem IsWord.trim_eq {w : List Char} (h : IsWord w) : trim w = w :=
  trim_eq_self (h.2 _ (List.head_mem h.1)) (h.2 _ (List.getLast_mem h.1))
    (List.head?_eq_some_head h.1) (List.getLast?_eq_some_getLast h.1)

/-- There are none around a line that starts and ends with a word. -/
theorem IsWord.trim_append {v w : List Char} (hv : IsWord v) (hw : IsWord w) (cs : List Char) :
    trim (v ++ cs ++ w) = v ++ cs ++ w :=
  trim_eq_self (hv.2 _ (List.head_mem hv.1)) (hw.2 _ (List.getLast_mem hw.1))
    (by simp [List.head?_eq_some_head hv.1]) (by simp [List.getLast?_eq_some_getLast hw.1])

end Stackling.Text
