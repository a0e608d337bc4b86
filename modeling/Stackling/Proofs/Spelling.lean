import Mathlib.Data.List.DropRight
import Stackling.Proofs.Text

/-!
# Pieces of a text

Texts are taken apart in passes over their characters. Here it is said without the passes what the
pieces are: lines are what stands between line feeds, a trimmed line starts and ends with characters
that are no blanks, and such a line is a word or has a first word, a gap and a rest of the same
kind. Numbers are digits after at most one sign.
-/

namespace Stackling.Text

variable {cs gap rest v w : List Char}

/-! ### Lines -/

theorem splitLines_eq (line cs : List Char) :
    splitLines line cs = List.splitOnPPrepend (· == '\n') cs line := by
  induction cs generalizing line with
  | nil => rfl
  | cons c cs ih =>
    rw [splitLines, List.splitOnPPrepend, ih, ih]
    simp only [beq_iff_eq]

theorem lines_eq (cs : List Char) : lines cs = cs.splitOn '\n' := splitLines_eq [] cs

theorem eq_false_of_head?_dropWhile {p : Char → Bool} {c : Char}
    (h : (cs.dropWhile p).head? = some c) :
    p c = false := by
  have hnot := List.head?_dropWhile_not p cs
  rw [h] at hnot
  simpa using hnot

/-- A line that is not blank, with no blank at either end. -/
structure Trimmed (cs : List Char) : Prop where
  ne_nil : cs ≠ []
  first : ∀ c, cs.head? = some c → isBlank c = false
  last : ∀ c, cs.getLast? = some c → isBlank c = false

/-- What is left of a line has no blanks at its ends. -/
theorem trimmed_trim (hne : trim cs ≠ []) : Trimmed (trim cs) := by
  refine ⟨hne, fun c hc => ?_, fun c hc => ?_⟩
  · -- the first character was the first that is no blank
    have hprefix : trim cs <+: cs.dropWhile isBlank := List.rdropWhile_prefix _ _
    obtain ⟨rest, hrest⟩ := hprefix
    have hhead : (cs.dropWhile isBlank).head? =
        some c := by rw [← hrest, List.head?_append, hc, Option.some_or]
    exact eq_false_of_head?_dropWhile hhead
  · have hlast := List.rdropWhile_last_not isBlank (cs.dropWhile isBlank) hne
    rw [List.getLast?_eq_some_getLast hne] at hc
    obtain rfl := Option.some.inj hc
    exact Bool.eq_false_iff.mpr hlast

/-! ### Words -/

/-- What keeps words apart: one or more blanks. -/
def IsGap (cs : List Char) : Prop := cs ≠ [] ∧ ∀ c ∈ cs, isBlank c = true

theorem words_gap_append (hgap : ∀ c ∈ gap, isBlank c = true) (rest : List Char) :
    words (gap ++ rest) = words rest := by
  induction gap with
  | nil => rfl
  | cons c cs ih =>
    have hc : isBlank c = true := hgap c List.mem_cons_self
    rw [← ih fun d hd => hgap d (List.mem_cons_of_mem _ hd), List.cons_append, words, splitWords,
      if_pos hc]
    rfl

theorem IsWord.words_append_gap (hw : IsWord w) (hgap : IsGap gap) (rest : List Char) :
    words (w ++ gap ++ rest) = w :: words rest := by
  obtain ⟨hne, hblank⟩ := hgap
  cases gap with
  | nil => exact absurd rfl hne
  | cons c cs =>
    have hc : isBlank c = true := hblank c List.mem_cons_self
    have hword : (w.reverse ++ []).isEmpty = false := by simp [hw.1]
    rw [List.append_assoc, words, splitWords_of_isBlank_eq_false hw.2, List.cons_append, splitWords,
      if_pos hc, hword]
    have hrest := words_gap_append (fun d hd => hblank d (List.mem_cons_of_mem _ hd)) rest
    rw [words] at hrest
    simp [hrest]

/-- A text starts with a run of characters of one kind, and what follows starts with another. -/
theorem exists_run (p : Char → Bool) (cs : List Char) :
    ∃ run rest, cs = run ++ rest ∧ (∀ c ∈ run, p c = true) ∧
    ∀ c, rest.head? = some c → p c = false :=
  ⟨cs.takeWhile p, cs.dropWhile p, List.takeWhile_append_dropWhile.symm, fun _ =>
    List.mem_takeWhile_imp,
    fun _ => eq_false_of_head?_dropWhile⟩

/-- A trimmed line is a word, or it goes on behind its first word. -/
theorem Trimmed.cases (h : Trimmed cs) :
    IsWord cs ∨ ∃ w gap rest, IsWord w ∧ IsGap gap ∧ Trimmed rest ∧ cs = w ++ gap ++ rest := by
  obtain ⟨w, behind, rfl, hw, hbehind⟩ := exists_run (fun c => !isBlank c) cs
  have hword : IsWord w := by
    refine ⟨?_, fun c hc => by simpa using hw c hc⟩
    rintro rfl
    obtain ⟨c, hc⟩ : ∃ c, behind.head? = some c := ⟨_, List.head?_eq_some_head h.ne_nil⟩
    have hblank := hbehind c hc
    rw [h.first c hc] at hblank
    cases hblank
  by_cases hne : behind = []
  · rw [hne, List.append_nil]
    exact .inl hword
  · obtain ⟨gap, rest, rfl, hgap, hrest⟩ := exists_run isBlank behind
    have hlast {c : Char} (hc : (gap ++ rest).getLast? = some c) : isBlank c = false :=
      h.last c (by rw [List.getLast?_append, hc, Option.some_or])
    refine .inr ⟨w, gap, rest, hword, ⟨?_, hgap⟩, ⟨?_, hrest, fun c hc => ?_⟩,
      (List.append_assoc _ _ _).symm⟩
    · rintro rfl
      obtain ⟨c, hc⟩ : ∃ c, rest.head? = some c := ⟨_, List.head?_eq_some_head hne⟩
      have hblank := hbehind c hc
      rw [hrest c hc] at hblank
      cases hblank
    · rintro rfl
      have hmem : (gap ++ []).getLast hne ∈ gap := by simp
      have hnot := hlast (List.getLast?_eq_some_getLast hne)
      cases hnot.symm.trans (hgap _ hmem)
    · exact hlast (by rw [List.getLast?_append, hc, Option.some_or])

theorem Trimmed.words_ne_nil (h : Trimmed cs) : words cs ≠ [] := by
  rcases h.cases with hw | ⟨w, gap, rest, hw, hgap, -, rfl⟩
  · rw [hw.words_eq]
    exact List.cons_ne_nil _ _
  · rw [hw.words_append_gap hgap]
    exact List.cons_ne_nil _ _

theorem Trimmed.words_eq_one (h : Trimmed cs) (hcs : words cs = [w]) : IsWord w ∧ cs = w := by
  rcases h.cases with hv | ⟨v, gap, rest, hv, hgap, hrest, rfl⟩
  · rw [hv.words_eq] at hcs
    obtain rfl := List.head_eq_of_cons_eq hcs
    exact ⟨hv, rfl⟩
  · rw [hv.words_append_gap hgap] at hcs
    exact absurd (List.tail_eq_of_cons_eq hcs) hrest.words_ne_nil

theorem Trimmed.words_eq_two (h : Trimmed cs) (hcs : words cs = [v, w]) :
    ∃ gap, IsWord w ∧ IsGap gap ∧ cs = v ++ gap ++ w := by
  rcases h.cases with hu | ⟨u, gap, rest, hu, hgap, hrest, rfl⟩
  · rw [hu.words_eq] at hcs
    cases hcs
  · rw [hu.words_append_gap hgap] at hcs
    obtain rfl := List.head_eq_of_cons_eq hcs
    obtain ⟨hw, rfl⟩ := hrest.words_eq_one (List.tail_eq_of_cons_eq hcs)
    exact ⟨gap, hw, hgap, rfl⟩

/-! ### Numbers -/

/-- A decimal number after at most one sign. -/
inductive Numeral : List Char → Int → Prop
  | plain {ds : List Char} (hne : ds ≠ []) (hds : ∀ d ∈ ds, d.isDigit) :
      Numeral ds (Nat.ofDigitChars 10 ds 0)
  | plus {ds : List Char} (hne : ds ≠ []) (hds : ∀ d ∈ ds, d.isDigit) :
      Numeral ('+' :: ds) (Nat.ofDigitChars 10 ds 0)
  | minus {ds : List Char} (hne : ds ≠ []) (hds : ∀ d ∈ ds, d.isDigit) :
    Numeral ('-' :: ds) (-(Nat.ofDigitChars 10 ds 0 : Int))

/-- A number that a machine word holds. -/
def Literal (cs : List Char) (value : Int32) : Prop := Numeral cs value.toInt

theorem readNat?_eq_some_iff {n : Nat} :
    readNat? cs = some n ↔ cs ≠ [] ∧ (∀ d ∈ cs, d.isDigit) ∧ Nat.ofDigitChars 10 cs 0 = n := by
  simp [readNat?, and_assoc]

theorem readInt?_eq_some_iff {n : Int} : readInt? cs = some n ↔ Numeral cs n := by
  constructor
  · intro h
    unfold readInt? at h
    split at h
    all_goals
      obtain ⟨_, hread, rfl⟩ := Option.map_eq_some_iff.mp h
      obtain ⟨m, hm, hcast⟩ := Option.bind_eq_some_iff.mp hread
      obtain rfl := Option.some.inj hcast
      obtain ⟨hne, hds, rfl⟩ := readNat?_eq_some_iff.mp hm
    · exact .minus hne hds
    · exact .plus hne hds
    · exact .plain hne hds
  · intro h
    cases h with
    | plain hne hds =>
      -- no digit is a sign
      unfold readInt?
      split
      · exact absurd (hds '-' List.mem_cons_self) (by decide)
      · exact absurd (hds '+' List.mem_cons_self) (by decide)
      · rw [readNat?_eq_some_iff.mpr ⟨hne, hds, rfl⟩]
        rfl
    | plus hne hds | minus hne hds =>
      rw [readInt?, readNat?_eq_some_iff.mpr ⟨hne, hds, rfl⟩]
      rfl

theorem readInt32?_eq_some_iff {value : Int32} : readInt32? cs = some value ↔ Literal cs value := by
  rw [Literal, ← readInt?_eq_some_iff, readInt32?]
  constructor
  · intro h
    split at h
    next n hn =>
      split at h
      next hfits =>
        obtain rfl := Option.some.inj h
        rw [hn, Int32.toInt_ofInt_of_le hfits.1 (Int.lt_of_le_of_lt hfits.2 (by decide))]
      next => cases h
    next => cases h
  · intro h
    rw [h]
    simp only
    rw [if_pos ⟨value.minValue_le_toInt, value.toInt_le⟩, Int32.ofInt_toInt]

theorem Numeral.isWord {n : Int} (h : Numeral cs n) : IsWord cs := by
  have hdigits {ds : List Char} (hds : ∀ d ∈ ds, d.isDigit) : ∀ d ∈ ds, isBlank d = false :=
    fun d hd => isBlank_of_isDigit (hds d hd)
  cases h with
  | plain hne hds => exact ⟨hne, hdigits hds⟩
  | plus hne hds | minus hne hds =>
    exact ⟨List.cons_ne_nil _ _, List.forall_mem_cons.mpr ⟨by decide, hdigits hds⟩⟩

end Stackling.Text
