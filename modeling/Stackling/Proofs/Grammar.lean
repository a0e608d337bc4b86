import Mathlib.Data.List.Nodup
import Mathlib.Data.String.Basic
import Stackling.Proofs.Assembling
import Stackling.Proofs.Spelling

/-!
# The grammar of image texts

A text is read in two passes that classify its lines separately. Here it is said at once, and
without tables, which texts describe an image: no name is defined twice, and each line that defines
no name spells an operation, with labels that stand for the number of operations before their
definitions. Any other text is faulted at the first line that defines a name again, even if an
earlier line spells nothing, and only without such a line at the first that spells nothing.
-/

namespace Stackling

theorem Bare.mnemonic_eq_of_ofMnemonic? {s : String} {op : Bare} (h : ofMnemonic? s = some op) :
    op.mnemonic = s := by
  simpa using List.find?_some h

theorem Jump.mnemonic_eq_of_ofMnemonic? {s : String} {kind : Jump} (h : ofMnemonic? s = some kind) :
    kind.mnemonic = s := by
  simpa using List.find?_some h

namespace Image

open Text (Trimmed IsWord IsGap Literal)

/-! ### Rows -/

/-- A line of a text that is not blank, without the blanks at its ends. -/
structure Row where
  number : Nat
  chars : List Char
  trimmed : Trimmed chars

namespace Row

def ofLine? (number : Nat) (line : List Char) : Option Row :=
  if h : Text.trim line = [] then none else some ⟨number, Text.trim line, Text.trimmed_trim h⟩

/-- The name that a row defines, which is all of it but a final colon. -/
def name? (row : Row) : Option String :=
  if row.chars.getLast? = some ':' then some (String.ofList row.chars.dropLast) else none

def line (row : Row) : NumberedLine := ⟨row.number, .ofChars row.chars⟩

theorem line_of_name {row : Row} {name : String} (h : row.name? = some name) :
    row.line = ⟨row.number, .definition name⟩ := by
  simp only [name?, Option.ite_none_right_eq_some, Option.some.injEq] at h
  rw [line, Line.ofChars, if_pos h.1, h.2]

theorem line_of_no_name {row : Row} (h : row.name? = none) :
    row.line = ⟨row.number, .instruction (Text.words row.chars)⟩ := by
  have hcolon : row.chars.getLast? ≠ some ':' := by simpa [name?] using h
  rw [line, Line.ofChars, if_neg hcolon]

end Row

/-- The rows of a text with the numbers of their lines, which blank lines count in. -/
def rows (text : String) : List Row :=
  ((text.toList.splitOn '\n').zipIdx 1).filterMap fun (line, number) => Row.ofLine? number line

theorem numberLines_eq (n : Nat) (ls : List (List Char)) :
    numberLines n ls = ((ls.zipIdx n).filterMap fun (line, number) => Row.ofLine? number line).map
      Row.line := by
  induction ls generalizing n with
  | nil => rfl
  | cons l ls ih =>
    rw [numberLines, ih, List.zipIdx_cons, List.filterMap_cons]
    by_cases h : Text.trim l = []
    · simp [Row.ofLine?, h]
    · simp [Row.ofLine?, h, Row.line]

theorem contentLines_eq (text : String) : contentLines text = (rows text).map Row.line := by
  rw [contentLines, Text.lines_eq, numberLines_eq, rows]

/-! ### Names -/

/-- The names that are defined, in order. -/
def names (rows : List Row) : List String := rows.filterMap Row.name?

/-- The rows that define no name. -/
def operationRows (rows : List Row) : List Row := rows.filter (·.name?.isNone)

/-- A name is defined behind so many operations. -/
def Defines (rows : List Row) (name : String) (address : Nat) : Prop :=
  ∃ before row after, rows = before ++ row :: after ∧ row.name? = some name ∧
    (operationRows before).length = address

/-- A row defines a name again that was defined, when none was before. -/
def FirstRepeat (rows : List Row) (row : Row) (name : String) : Prop :=
  ∃ before after, rows = before ++ row :: after ∧ (names before).Nodup ∧ row.name? = some name ∧
    name ∈ names before

variable {rs : List Row} {row : Row} {name : String} {address : Nat} {table : LabelTable}

theorem names_concat : names (rs ++ [row]) = names rs ++ row.name?.toList := by
  rw [names, List.filterMap_append]
  cases h : row.name? <;> simp [names, h]

theorem operationCount_map_line (rs : List Row) :
    operationCount (rs.map Row.line) = (operationRows rs).length := by
  rw [operationCount, operationRows, List.countP_map, List.countP_eq_length_filter]
  congr 2
  funext row
  cases h : row.name? with
  | none => simp [Row.line_of_no_name h, Line.isInstruction]
  | some name => simp [Row.line_of_name h, Line.isInstruction]

theorem defines_concat : Defines (rs ++ [row]) name address ↔
    Defines rs name address ∨ row.name? = some name ∧ (operationRows rs).length = address := by
  constructor
  · rintro ⟨before, found, after, hsplit, hname, haddress⟩
    rcases List.eq_nil_or_concat' after with rfl | ⟨after, last, rfl⟩
    · obtain ⟨rfl, hrow⟩ := List.append_inj' hsplit rfl
      cases hrow
      exact .inr ⟨hname, haddress⟩
    · rw [← List.cons_append, ← List.append_assoc] at hsplit
      obtain ⟨rfl, -⟩ := List.append_inj' hsplit rfl
      exact .inl ⟨before, found, after, rfl, hname, haddress⟩
  · rintro (⟨before, found, after, rfl, hname, haddress⟩ | ⟨hname, haddress⟩)
    · exact ⟨before, found, after ++ [row], by simp, hname, haddress⟩
    · exact ⟨rs, row, [], rfl, hname, haddress⟩

theorem mem_names_iff : name ∈ names rs ↔ ∃ address, Defines rs name address := by
  constructor
  · intro h
    obtain ⟨row, hrow, hname⟩ := List.mem_filterMap.mp h
    obtain ⟨before, after, rfl⟩ := List.append_of_mem hrow
    exact ⟨_, before, row, after, rfl, hname, rfl⟩
  · rintro ⟨_, before, row, after, rfl, hname, -⟩
    exact List.mem_filterMap.mpr ⟨row, by simp, hname⟩

theorem Defines.le (h : Defines rs name address) : address ≤ (operationRows rs).length := by
  obtain ⟨before, row, after, rfl, -, rfl⟩ := h
  simp [operationRows]

/-! ### The first pass -/

/-- A table holds the names that are defined. -/
def Tabulates (table : LabelTable) (rows : List Row) : Prop :=
  ∀ name address, table[name]? = some address ↔ Defines rows name address

theorem Tabulates.contains_iff (h : Tabulates table rs) :
    table.contains name = true ↔ name ∈ names rs := by
  rw [Std.TreeMap.contains_eq_isSome_getElem?, Option.isSome_iff_exists, mem_names_iff]
  exact exists_congr (h name)

theorem Tabulates.insert (h : Tabulates table rs) (hname : row.name? = some name)
    (hnew : name ∉ names rs) :
    Tabulates (table.insert name (operationRows rs).length) (rs ++ [row]) := by
  intro other address
  rw [Std.TreeMap.getElem?_insert, defines_concat, hname, Option.some.injEq]
  by_cases heq : name = other
  · subst heq
    have hnone : ¬Defines rs name address := fun hd => hnew (mem_names_iff.mpr ⟨_, hd⟩)
    simp [hnone]
  · have hcompare : compare name other ≠ .eq := fun hc => heq (Std.LawfulEqCmp.eq_of_compare hc)
    simp [hcompare, heq, h other address]

/-- The first pass finds each name that is defined, if none is defined again. -/
theorem collectLabels_of_nodup (h : (names rs).Nodup) :
    ∃ table, collectLabels ∅ 0 (rs.map Row.line) = .ok table ∧ Tabulates table rs := by
  -- rows are added at the end, since the address of a name depends only on the rows before it
  induction rs using List.reverseRecOn with
  | nil => exact ⟨∅, rfl, fun name address => by simp [Defines]⟩
  | append_singleton rs row ih =>
    rw [names_concat, List.nodup_append'] at h
    obtain ⟨hrs, -, hdisjoint⟩ := h
    obtain ⟨table, hcollect, htable⟩ := ih hrs
    rw [List.map_append, collectLabels_append hcollect, List.map_singleton, operationCount_map_line,
      Nat.zero_add]
    cases hname : row.name? with
    | none =>
      refine ⟨table, by rw [Row.line_of_no_name hname]; rfl, fun name address => ?_⟩
      rw [htable name address, defines_concat, hname]
      simp
    | some name =>
      have hnew : name ∉ names rs := fun hmem => hdisjoint hmem (by simp [hname])
      refine ⟨_, ?_, htable.insert hname hnew⟩
      rw [Row.line_of_name hname, collectLabels, if_neg (mt htable.contains_iff.mp hnew),
        collectLabels]

theorem exists_firstRepeat (h : ¬(names rs).Nodup) : ∃ row name, FirstRepeat rs row name := by
  induction rs using List.reverseRecOn with
  | nil => exact absurd List.nodup_nil h
  | append_singleton rs row ih =>
    by_cases hrs : (names rs).Nodup
    · rw [names_concat, List.nodup_append'] at h
      cases hname : row.name? with
      | none => simp [hname, hrs] at h
      | some name =>
        have hmem : name ∈ names rs := by simpa [hname, hrs] using h
        exact ⟨row, name, rs, [], rfl, hrs, hname, hmem⟩
    · obtain ⟨found, name, before, after, rfl, hfound⟩ := ih hrs
      exact ⟨found, name, before, after ++ [row], by simp, hfound⟩

theorem FirstRepeat.collectLabels_eq (h : FirstRepeat rs row name) :
    collectLabels ∅ 0 (rs.map Row.line) = .error (.duplicateLabel name row.number) := by
  obtain ⟨before, after, rfl, hbefore, hname, hmem⟩ := h
  obtain ⟨table, hcollect, htable⟩ := collectLabels_of_nodup hbefore
  rw [List.map_append, collectLabels_append hcollect, List.map_cons, Row.line_of_name hname,
    collectLabels, if_pos (htable.contains_iff.mpr hmem)]

/-! ### Operations -/

/-- What operations look like, if names stand for addresses. A number after `push` is itself, even
if it is also a name. -/
inductive Spells (address : String → Nat → Prop) : List Char → Op → Prop
  | bare (op : Bare) : Spells address op.mnemonic.toList (.bare op)
  | literal {gap word : List Char} {value : Int32} (hgap : IsGap gap) (hword : Literal word value) :
    Spells address ("push".toList ++ gap ++ word) (.push value)
  | label {gap word : List Char} {a : Nat} (hgap : IsGap gap) (hword : IsWord word)
      (hliteral : ∀ value, ¬Literal word value) (ha : address (String.ofList word) a) :
    Spells address ("push".toList ++ gap ++ word) (.push (Int32.ofNat a))
  | jump (kind : Jump) {gap word : List Char} {a : Nat} (hgap : IsGap gap) (hword : IsWord word)
      (ha : address (String.ofList word) a) :
    Spells address (kind.mnemonic.toList ++ gap ++ word) (.jump kind a)

theorem Spells.exists_name {address : String → Nat → Prop} {cs : List Char} {kind : Jump}
    {target : Nat} (h : Spells address cs (.jump kind target)) : ∃ name, address name target := by
  cases h with
  | jump _ _ _ ha => exact ⟨_, ha⟩

theorem readOp_none_eq_ok {n : Nat} {m : String} {op : Op} (h : readOp table n m none = .ok op) :
    ∃ b : Bare, m = b.mnemonic ∧ op = .bare b := by
  simp only [readOp] at h
  split at h
  · cases h
  · split at h
    · cases h
    · split at h
      next b hb =>
        cases h
        exact ⟨b, (Bare.mnemonic_eq_of_ofMnemonic? hb).symm, rfl⟩
      next => cases h

theorem readOp_some_eq_ok {n : Nat} {m : String} {word : List Char} {op : Op}
    (h : readOp table n m (some word) = .ok op) :
    (m = "push" ∧ ∃ value, Literal word value ∧ op = .push value) ∨
    (m = "push" ∧ (∀ value, ¬Literal word value) ∧
      ∃ a, table[String.ofList word]? = some a ∧ op = .push (Int32.ofNat a)) ∨
    ∃ (kind : Jump) (a : Nat), m = kind.mnemonic ∧ table[String.ofList word]? = some a ∧
      op = .jump kind a := by
  simp only [readOp] at h
  split at h
  next hm =>
    split at h
    next value hvalue =>
      cases h
      exact .inl ⟨hm, value, Text.readInt32?_eq_some_iff.mp hvalue, rfl⟩
    next hnone =>
      split at h
      next a ha =>
        cases h
        refine .inr (.inl ⟨hm, fun value hvalue => ?_, a, ha, rfl⟩)
        cases hnone.symm.trans (Text.readInt32?_eq_some_iff.mpr hvalue)
      next => cases h
  next =>
    split at h
    next kind hkind =>
      split at h
      next a ha =>
        cases h
        exact .inr (.inr ⟨kind, a, (Jump.mnemonic_eq_of_ofMnemonic? hkind).symm, ha, rfl⟩)
      next => cases h
    next =>
      split at h <;> cases h

theorem readOp_line {n : Nat} {m : String} {operand : Option (List Char)} {e : ReadError}
    (h : readOp table n m operand = .error e) : e.line = n := by
  simp only [readOp] at h
  repeat' split at h
  all_goals cases h
  all_goals rfl

theorem readWords_line {n : Nat} {ws : List (List Char)} {e : ReadError}
    (h : readWords table n ws = .error e) :
    e.line = n := by
  unfold readWords at h
  split at h
  · exact readOp_line h
  · exact readOp_line h
  · exact readOp_line h
  · cases h
    rfl

/-- The second pass accepts what spells an operation, and nothing else. -/
theorem Tabulates.readWords_eq_ok_iff (htable : Tabulates table rs) {cs : List Char}
    (hcs : Trimmed cs) {n : Nat} {op : Op} :
    readWords table n (Text.words cs) = .ok op ↔ Spells (Defines rs) cs op := by
  constructor
  · intro h
    rcases hwords : Text.words cs with _ | ⟨m, _ | ⟨word, _ | ⟨more, rest⟩⟩⟩
    · exact absurd hwords hcs.words_ne_nil
    · obtain ⟨-, rfl⟩ := hcs.words_eq_one hwords
      rw [hwords, readWords] at h
      obtain ⟨b, hb, rfl⟩ := readOp_none_eq_ok h
      obtain rfl := String.ofList_eq.mp hb
      exact .bare b
    · obtain ⟨gap, hword, hgap, rfl⟩ := hcs.words_eq_two hwords
      rw [hwords, readWords] at h
      rcases readOp_some_eq_ok h with ⟨hm, value, hvalue, rfl⟩ | ⟨hm, hliteral, a, ha, rfl⟩ |
        ⟨kind, a, hm, ha, rfl⟩
      · obtain rfl := String.ofList_eq.mp hm
        exact .literal hgap hvalue
      · obtain rfl := String.ofList_eq.mp hm
        exact .label hgap hword hliteral ((htable _ a).mp ha)
      · obtain rfl := String.ofList_eq.mp hm
        exact .jump kind hgap hword ((htable _ a).mp ha)
    · rw [hwords] at h
      cases h
  · intro h
    cases h with
    | bare op =>
      have hpush : op.mnemonic ≠ "push" := by cases op <;> decide
      rw [op.isWord_mnemonic.words_eq]
      simp [readWords, readOp, hpush, ofMnemonic?_jump_bare]
    | literal hgap hword =>
      rw [Text.isWord_push.words_append_gap hgap, (Text.Numeral.isWord hword).words_eq]
      simp [readWords, readOp, Text.readInt32?_eq_some_iff.mpr hword]
    | @label gap word a hgap hword hliteral ha =>
      have hnone : Text.readInt32? word = none :=
        Option.eq_none_iff_forall_ne_some.mpr fun value hvalue =>
          hliteral value (Text.readInt32?_eq_some_iff.mp hvalue)
      rw [Text.isWord_push.words_append_gap hgap, hword.words_eq]
      simp [readWords, readOp, hnone, (htable _ a).mpr ha, Except.map]
    | @jump kind gap word a hgap hword ha =>
      have hpush : kind.mnemonic ≠ "push" := by cases kind <;> decide
      rw [kind.isWord_mnemonic.words_append_gap hgap, hword.words_eq]
      simp [readWords, readOp, hpush, (htable _ a).mpr ha, Except.map]

/-! ### The second pass -/

/-- A row that spells an operation, with the names of the text around it. -/
def Row.Spells (rows : List Row) (row : Row) (op : Op) : Prop :=
  Image.Spells (Defines rows) row.chars op

/-- A row defines no name and spells no operation, when all before it do. -/
def FirstMisspelt (rows : List Row) (row : Row) : Prop :=
  ∃ before after, rows = before ++ row :: after ∧
    (∀ r ∈ operationRows before, ∃ op, r.Spells rows op) ∧
    row.name? = none ∧ ∀ op, ¬row.Spells rows op

theorem Tabulates.readWords_row (htable : Tabulates table rs) {op : Op} :
    readWords table row.number (Text.words row.chars) = .ok op ↔ row.Spells rs op :=
  htable.readWords_eq_ok_iff row.trimmed

/-- The second pass reads an operation off each row that defines no name, in a part of the text
where all spell one. -/
theorem Tabulates.readOps_eq_ok (htable : Tabulates table rs) {part : List Row}
    (hpart : ∀ row ∈ operationRows part, ∃ op, row.Spells rs op) :
    ∃ ops, readOps table (part.map Row.line) = .ok ops ∧
      List.Forall₂ (Row.Spells rs) (operationRows part) ops := by
  induction part with
  | nil => exact ⟨[], rfl, .nil⟩
  | cons row part ih =>
    cases hname : row.name? with
    | none =>
      have hrows : operationRows (row :: part) = row :: operationRows part := by
        simp [operationRows, hname]
      rw [hrows] at hpart ⊢
      obtain ⟨op, hop⟩ := hpart row List.mem_cons_self
      obtain ⟨ops, hread, hops⟩ := ih fun r hr => hpart r (List.mem_cons_of_mem _ hr)
      refine ⟨op :: ops, ?_, .cons hop hops⟩
      rw [List.map_cons, Row.line_of_no_name hname, readOps, htable.readWords_row.mpr hop, hread]
      rfl
    | some name =>
      have hrows : operationRows (row :: part) =
          operationRows part := by simp [operationRows, hname]
      rw [hrows] at hpart ⊢
      rw [List.map_cons, Row.line_of_name hname, readOps]
      exact ih hpart

theorem exists_firstMisspelt (h : ¬∀ row ∈ operationRows rs, ∃ op, row.Spells rs op) :
    ∃ row, FirstMisspelt rs row := by
  classical
  let misspelt (row : Row) : Prop := row.name? = none ∧ ∀ op, ¬row.Spells rs op
  obtain ⟨row, hfind⟩ : ∃ row, rs.find? (fun row => misspelt row) = some row := by
    rw [← Option.isSome_iff_exists, List.find?_isSome]
    simpa [operationRows, misspelt, and_assoc] using h
  obtain ⟨hrow, before, after, hrows, hbefore⟩ := List.find?_eq_some_iff_append.mp hfind
  have ⟨hname, hnot⟩ : misspelt row := of_decide_eq_true hrow
  refine ⟨row, before, after, hrows, fun r hr => ?_, hname, hnot⟩
  obtain ⟨hmem, hr⟩ := List.mem_filter.mp hr
  have hgood : ¬misspelt r := by simpa using hbefore r hmem
  by_contra hnone
  exact hgood ⟨Option.isNone_iff_eq_none.mp hr, fun op hop => hnone ⟨op, hop⟩⟩

/-- A misspelt row ends the second pass; names are looked up in the whole text, also in what follows
the row. -/
theorem FirstMisspelt.readOps_eq_error (h : FirstMisspelt rs row) (htable : Tabulates table rs) :
    ∃ e, readOps table (rs.map Row.line) = .error e ∧ e.line = row.number := by
  obtain ⟨before, after, hrows, hbefore, hname, hrow⟩ := h
  obtain ⟨ops, hread, -⟩ := htable.readOps_eq_ok hbefore
  cases hword : readWords table row.number (Text.words row.chars) with
  | ok op => exact absurd (htable.readWords_row.mp hword) (hrow op)
  | error e =>
    refine ⟨e, ?_, readWords_line hword⟩
    rw [hrows, List.map_append, readOps_append, hread, List.map_cons, Row.line_of_no_name hname,
      readOps, hword]
    rfl

/-! ### Texts -/

/-- The rows of a text that describes an image. -/
structure Grammatical (rows : List Row) : Prop where
  nodup_names : (names rows).Nodup
  spelled : ∀ row ∈ operationRows rows, ∃ op, row.Spells rows op

theorem ofText_of_grammatical {text : String} (h : Grammatical (rows text)) :
    ∃ image, ofText text = .ok image ∧
      List.Forall₂ (Row.Spells (rows text)) (operationRows (rows text)) image.ops.toList := by
  obtain ⟨table, hcollect, htable⟩ := collectLabels_of_nodup h.nodup_names
  obtain ⟨ops, hread, hops⟩ := htable.readOps_eq_ok h.spelled
  refine ⟨⟨ops.toArray⟩, ?_, hops⟩
  simp only [ofText, contentLines_eq, hcollect, hread, bind, Except.bind]
  rfl

theorem ofText_of_firstRepeat {text : String} (h : FirstRepeat (rows text) row name) :
    ofText text = .error (.duplicateLabel name row.number) := by
  simp only [ofText, contentLines_eq, h.collectLabels_eq, bind, Except.bind]

theorem ofText_of_firstMisspelt {text : String} (hnodup : (names (rows text)).Nodup)
    (h : FirstMisspelt (rows text) row) : ∃ e, ofText text = .error e ∧ e.line = row.number := by
  obtain ⟨table, hcollect, htable⟩ := collectLabels_of_nodup hnodup
  obtain ⟨e, hread, he⟩ := h.readOps_eq_error htable
  refine ⟨e, ?_, he⟩
  simp only [ofText, contentLines_eq, hcollect, hread, bind, Except.bind]

/-- A text is grammatical, or it has a first fault. -/
theorem grammatical_or_fault (rows : List Row) :
    Grammatical rows ∨ (∃ row name, FirstRepeat rows row name) ∨
    (names rows).Nodup ∧ ∃ row, FirstMisspelt rows row := by
  by_cases hnodup : (names rows).Nodup
  · by_cases hspelled : ∀ row ∈ operationRows rows, ∃ op, row.Spells rows op
    · exact .inl ⟨hnodup, hspelled⟩
    · exact .inr (.inr ⟨hnodup, exists_firstMisspelt hspelled⟩)
  · exact .inr (.inl (exists_firstRepeat hnodup))

/-- A jump goes at most to the end of the image. -/
theorem target_le_of_spells {ops : List Op}
    (hops : List.Forall₂ (Row.Spells rs) (operationRows rs) ops) {kind : Jump} {target : Nat}
    (hmem : .jump kind target ∈ ops) : target ≤ ops.length := by
  obtain ⟨i, hi, hget⟩ := List.getElem_of_mem hmem
  have hspells := hops.get (hops.length_eq ▸ hi) hi
  rw [List.get_eq_getElem, List.get_eq_getElem, hget] at hspells
  obtain ⟨name, hname⟩ := Spells.exists_name hspells
  rw [← hops.length_eq]
  exact hname.le

/-- A text describes an image just if it is grammatical, and then its rows spell the operations of
the image one by one; else the fault is at the first row that defines a name again, or if there is
none, at the first that is misspelt. -/
theorem ofText_grammar (text : String) :
    ((∃ image, ofText text = .ok image) ↔ Grammatical (rows text)) ∧
    (∀ image, ofText text = .ok image →
      List.Forall₂ (Row.Spells (rows text)) (operationRows (rows text)) image.ops.toList ∧
      ∀ kind target, .jump kind target ∈ image.ops → target ≤ image.ops.size) ∧
    (∀ e, ofText text = .error e →
      (∃ row name, FirstRepeat (rows text) row name ∧ e = .duplicateLabel name row.number) ∨
      (names (rows text)).Nodup ∧ ∃ row, FirstMisspelt (rows text) row ∧ e.line = row.number) := by
  have hiff : (∃ image, ofText text = .ok image) ↔ Grammatical (rows text) := by
    constructor
    · rintro ⟨image, hread⟩
      rcases grammatical_or_fault (rows text) with h | ⟨row, name, hrow⟩ | ⟨hnodup, row, hrow⟩
      · exact h
      · cases hread.symm.trans (ofText_of_firstRepeat hrow)
      · obtain ⟨e, herror, -⟩ := ofText_of_firstMisspelt hnodup hrow
        cases hread.symm.trans herror
    · intro h
      obtain ⟨image, hread, -⟩ := ofText_of_grammatical h
      exact ⟨image, hread⟩
  refine ⟨hiff, fun image hread => ?_, fun e herror => ?_⟩
  · obtain ⟨read, hread', hops⟩ := ofText_of_grammatical (hiff.mp ⟨image, hread⟩)
    obtain rfl := Except.ok.inj (hread.symm.trans hread')
    exact ⟨hops, fun kind target hmem => target_le_of_spells hops (Array.mem_toList_iff.mpr hmem)⟩
  · rcases grammatical_or_fault (rows text) with h | ⟨row, name, hrow⟩ | ⟨hnodup, row, hrow⟩
    · obtain ⟨image, hread⟩ := hiff.mpr h
      cases hread.symm.trans herror
    · exact .inl
        ⟨row, name, hrow, Except.error.inj (herror.symm.trans (ofText_of_firstRepeat hrow))⟩
    · obtain ⟨found, hfound, hline⟩ := ofText_of_firstMisspelt hnodup hrow
      obtain rfl := Except.error.inj (herror.symm.trans hfound)
      exact .inr ⟨hnodup, row, hrow, hline⟩

theorem ofText_grammar_samples :
    Grammatical (rows "\n 7:\n\u00a0push\u3000 7 \n\nb  end\npush +7\r\nend:") ∧
    (∃ row, FirstRepeat (rows "print 1\n a:\nhalt\na:") row "a" ∧ row.number = 4) ∧
    ∃ row, FirstMisspelt (rows "\npush 2147483648\nb") row ∧ row.number = 2 := by
  refine ⟨(ofText_grammar _).1.mp ⟨⟨#[.push 7, .jump .always 3, .push 7]⟩, by decide +kernel⟩,
    ?_, ?_⟩
  · rcases (ofText_grammar "print 1\n a:\nhalt\na:").2.2 (.duplicateLabel "a" 4)
      (by decide +kernel) with
      ⟨row, name, hrow, heq⟩ | ⟨hnodup, -⟩
    · obtain ⟨rfl, hnumber⟩ := ReadError.duplicateLabel.inj heq
      exact ⟨row, hrow, hnumber.symm⟩
    · exact absurd hnodup (by decide +kernel)
  · rcases (ofText_grammar "\npush 2147483648\nb").2.2 (.undefinedLabel "2147483648" 2)
      (by decide +kernel) with
      ⟨_, _, -, heq⟩ | ⟨-, row, hrow, heq⟩
    · cases heq
    · exact ⟨row, hrow, heq.symm⟩

end Image

end Stackling
