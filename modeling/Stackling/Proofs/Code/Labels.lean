import Stackling.Proofs.Code.Emission
import Stackling.Proofs.Linking

/-!
# Labels of generated code

Generation takes labels from a supply that only counts up. Each label that was taken in between is
defined exactly once in the code that was generated meanwhile, and a label that is used there is
one that has been given out by the end.
-/

namespace Stackling

namespace LabelSupply

/-- The supplies that a supply can become. -/
def Before (s s' : LabelSupply) : Prop := s.branches ≤ s'.branches ∧ s.functions ≤ s'.functions

theorem Before.refl (s : LabelSupply) : s.Before s := ⟨Nat.le_refl _, Nat.le_refl _⟩

theorem Before.trans {s₁ s₂ s₃ : LabelSupply} (h : s₁.Before s₂) (h' : s₂.Before s₃) :
    s₁.Before s₃ :=
  ⟨Nat.le_trans h.1 h'.1, Nat.le_trans h.2 h'.2⟩

theorem before_pastTwo (s : LabelSupply) : s.Before s.pastTwo := by
  simp [Before, pastTwo]

/-- How often a label was given out between two supplies. -/
def given (s s' : LabelSupply) : Label → Nat
  | .branch n => if s.branches ≤ n ∧ n < s'.branches then 1 else 0
  | .function n => if s.functions ≤ n ∧ n < s'.functions then 1 else 0

/-- The labels given out so far. -/
def Gave (s : LabelSupply) : Label → Prop
  | .branch n => n < s.branches
  | .function n => n < s.functions

/-- A label once given stays given. -/
theorem Gave.mono {s s' : LabelSupply} (h : s.Before s') : ∀ {l : Label}, s.Gave l → s'.Gave l
  | .branch _, hl => Nat.lt_of_lt_of_le hl h.1
  | .function _, hl => Nat.lt_of_lt_of_le hl h.2

@[simp] theorem given_self (s : LabelSupply) (l : Label) : s.given s l = 0 := by
  cases l <;> simp [given]

/-- Labels given on the way add up. -/
theorem given_add_given {s₁ s₂ s₃ : LabelSupply} (h : s₁.Before s₂) (h' : s₂.Before s₃)
    (l : Label) :
    s₁.given s₂ l + s₂.given s₃ l = s₁.given s₃ l := by
  obtain ⟨hb, hf⟩ := h
  obtain ⟨hb', hf'⟩ := h'
  cases l <;> simp only [given] <;> split <;> split <;> split <;> omega

theorem count_two (s : LabelSupply) (l : Label) :
    [Label.branch s.branches, .branch (s.branches + 1)].count l = s.given s.pastTwo l := by
  cases l with
  | branch n => simp only [given, pastTwo, List.count_cons, List.count_nil]; grind
  | function n => simp only [given, pastTwo, List.count_cons, List.count_nil]; grind

/-- No label is given twice. -/
theorem given_le_one (s s' : LabelSupply) (l : Label) : s.given s' l ≤ 1 := by
  cases l <;> simp only [given] <;> split <;> omega

/-- A label that has been given has been given once. -/
theorem Gave.given_eq {s : LabelSupply} : ∀ {l : Label}, s.Gave l → given {} s l = 1
  | .branch _, h => if_pos ⟨Nat.zero_le _, h⟩
  | .function _, h => if_pos ⟨Nat.zero_le _, h⟩

end LabelSupply

/-- A list of instructions that was generated while one supply became another. -/
structure Labelled (s s' : LabelSupply) (is : List Instr) : Prop where
  before : s.Before s'
  count_defined : ∀ l, (Code.defined is).count l = s.given s' l
  gave_of_mentioned : ∀ l ∈ Code.mentioned is, s'.Gave l

namespace Labelled

theorem nil (s : LabelSupply) : Labelled s s [] := ⟨.refl s, by simp, by simp⟩

/-- Instructions that neither define nor use a label. -/
theorem of_plain {is : List Instr} (hd : Code.defined is = []) (hm : Code.mentioned is = [])
    (s : LabelSupply) : Labelled s s is :=
  ⟨.refl s, by simp [hd], by simp [hm]⟩

/-- Code with fresh labels after code with fresh labels. -/
theorem append {s₁ s₂ s₃ : LabelSupply} {is js : List Instr} (h : Labelled s₁ s₂ is)
    (h' : Labelled s₂ s₃ js) : Labelled s₁ s₃ (is ++ js) := by
  refine ⟨h.before.trans h'.before, fun l => ?_, fun l hl => ?_⟩
  · simp [h.count_defined, h'.count_defined, LabelSupply.given_add_given h.before h'.before]
  · rcases List.mem_append.mp (Code.mentioned_append is js ▸ hl) with hl | hl
    · exact (h.gave_of_mentioned l hl).mono h'.before
    · exact h'.gave_of_mentioned l hl

/-- Only the definitions and uses count, not where they stand. -/
theorem congr {s s' : LabelSupply} {is js : List Instr} (h : Labelled s s' is)
    (hd : ∀ l, (Code.defined js).count l = (Code.defined is).count l)
    (hm : Code.mentioned js ⊆ Code.mentioned is) : Labelled s s' js :=
  ⟨h.before, fun l => (hd l).trans (h.count_defined l), fun l hl => h.gave_of_mentioned l (hm hl)⟩

end Labelled

/-! ### Fixed pieces of code -/

namespace Code

@[simp] theorem defined_plain (ops : List Bare) : defined (plain ops) = [] := by
  induction ops with
  | nil => rfl
  | cons op ops ih => simpa [plain, Instr.defined?] using ih

@[simp] theorem mentioned_plain (ops : List Bare) : mentioned (plain ops) = [] := by
  induction ops with
  | nil => rfl
  | cons op ops ih => simpa [plain, Instr.mentioned?] using ih

/-- Code in which there are no labels. -/
def LabelFree (is : List Instr) : Prop := defined is = [] ∧ mentioned is = []

namespace LabelFree

theorem append {is js : List Instr} (h : LabelFree is) (h' : LabelFree js) :
    LabelFree (is ++ js) := by
  simp [LabelFree, h.1, h.2, h'.1, h'.2]

theorem plain (ops : List Bare) : LabelFree (plain ops) := ⟨defined_plain ops, mentioned_plain ops⟩

theorem push {is : List Instr} (h : LabelFree is) (v : Int32) : LabelFree (.push v :: is) := by
  simp [LabelFree, h.1, h.2, Instr.defined?, Instr.mentioned?]

theorem flatten {iss : List (List Instr)} (h : ∀ is ∈ iss, LabelFree is) :
    LabelFree iss.flatten := by
  induction iss with
  | nil => exact ⟨rfl, rfl⟩
  | cons is iss ih =>
    rw [List.flatten_cons]
    exact (h is List.mem_cons_self).append (ih fun js hjs => h js (List.mem_cons_of_mem _ hjs))

theorem load (offset : Int32) : LabelFree (load offset) := (plain _).push _

theorem loadClosure (offset : Int32) : LabelFree (loadClosure offset) :=
  (((plain _).append (load _)).append (plain _)).append (load _)

theorem heapStore : LabelFree heapStore := (plain _).append ((plain _).push _)

theorem dispatch (offset : Int32) : LabelFree (dispatch offset) :=
  ((plain _).append (load _)).append (plain _)

theorem makeObject (cells : Nat) (slot : Int32) : LabelFree (makeObject cells slot) := by
  refine ((flatten fun is his => ?_).append ((plain _).push _)).append ((plain _).push _)
  exact List.eq_of_mem_replicate his ▸ heapStore

theorem epilogue (localCells paramCells : Nat) (returnsClosure : Bool) :
    LabelFree (epilogue localCells paramCells returnsClosure) :=
  (((((plain _).append (plain _)).append (plain _)).append (plain _)).append (plain _)).append
    (plain _)

theorem frameAccess (g : CodeContext) (b : Binding) : LabelFree (g.frameAccess b) := by
  unfold CodeContext.frameAccess
  split
  · exact (plain []).push _
  · exact plain _

/-- Code without labels takes none from the supply. -/
theorem labelled {is : List Instr} (h : LabelFree is) (s : LabelSupply) : Labelled s s is :=
  .of_plain h.1 h.2 s

end LabelFree

end Code

/-! ### Expressions -/

/-- A branching expression puts its two labels behind the codes of its parts. -/
theorem Labelled.branching {s s' : LabelSupply} {parts is : List Instr}
    (h : Labelled s.pastTwo s' parts)
    (hd : ∀ l, (Code.defined is).count l = (Code.defined parts).count l +
      [Label.branch s.branches, .branch (s.branches + 1)].count l)
    (hm : ∀ l ∈ Code.mentioned is, l ∈ Code.mentioned parts ∨
      l ∈ [Label.branch s.branches, .branch (s.branches + 1)]) : Labelled s s' is := by
  refine ⟨s.before_pastTwo.trans h.before, fun l => ?_, fun l hl => ?_⟩
  · rw [hd, h.count_defined, LabelSupply.count_two, Nat.add_comm,
      LabelSupply.given_add_given s.before_pastTwo h.before]
  · rcases hm l hl with hl | hl
    · exact h.gave_of_mentioned l hl
    · refine LabelSupply.Gave.mono h.before ?_
      obtain rfl | rfl : l = .branch s.branches ∨ l = .branch (s.branches + 1) := by simpa using hl
      · simp [LabelSupply.Gave, LabelSupply.pastTwo]
      · simp [LabelSupply.Gave, LabelSupply.pastTwo]

/-- A comparison takes two labels and those of its operands. -/
theorem Labelled.compareCode {kind : Jump} {x y : LabelM (List Instr)} {s s' : LabelSupply}
    {code : List Instr} (hx : ∀ {s s' a}, x s = .ok (a, s') → Labelled s s' a)
    (hy : ∀ {s s' a}, y s = .ok (a, s') → Labelled s s' a)
    (h : compareCode kind x y s = .ok (code, s')) : Labelled s s' code := by
  obtain ⟨a, s₁, b, ha, hb, rfl⟩ := Expr.compareCode_eq_ok.mp h
  refine ((hx ha).append (hy hb)).branching (fun l => ?_) fun l hl => ?_
  · simp [Code.truthValue, Instr.defined?, Nat.add_assoc]
  · simp [Code.truthValue, Instr.mentioned?] at hl ⊢
    grind

mutual

/-- The code of an expression defines each label that it takes, once. -/
theorem Expr.labelled {g : CodeContext} : ∀ (e : Expr) {s s' : LabelSupply} {code : List Instr},
    e.code g s = .ok (code, s') → Labelled s s' code
  | .int _ _, s, s', code, h => by
    obtain ⟨rfl, rfl⟩ := Expr.code_int.mp h
    exact .of_plain rfl rfl s
  | .bool _ _, s, s', code, h => by
    obtain ⟨rfl, rfl⟩ := Expr.code_bool.mp h
    exact .of_plain rfl rfl s
  | .null _, s, s', code, h => by
    obtain ⟨rfl, rfl⟩ := Expr.code_null.mp h
    exact .of_plain rfl rfl s
  | .name _ _ _, s, s', code, h => by
    obtain ⟨b, -, rfl, rfl⟩ := Expr.code_name.mp h
    refine ((Code.LabelFree.frameAccess g b).append ?_).labelled s
    split
    · exact .loadClosure _
    · exact .load _
  | .binary op l r _, s, s', code, h => by
    have hl : ∀ {s s' a}, l.code g s = .ok (a, s') → Labelled s s' a := l.labelled
    have hr : ∀ {s s' a}, r.code g s = .ok (a, s') → Labelled s s' a := r.labelled
    cases op with
    | add | sub | mul | div | and =>
      obtain ⟨a, s₁, b, ha, hb, rfl⟩ := (Expr.code_bare rfl).mp h
      exact ((hl ha).append (hr hb)).append (.of_plain rfl rfl s')
    | or =>
      obtain ⟨a, s₁, b, ha, hb, rfl⟩ := Expr.code_or.mp h
      refine ((hl ha).append (hr hb)).branching (fun l => ?_) fun l hl => ?_
      · simp [Code.truthValue, Instr.defined?, Nat.add_assoc]
      · simp [Code.truthValue, Instr.mentioned?] at hl ⊢
        grind
    | equal | lessEqual => exact .compareCode hl hr (by simpa only [Expr.code] using h)
    | greaterEqual => exact .compareCode hr hl (by simpa only [Expr.code] using h)
  | .not e _, s, s', code, h => by
    obtain ⟨a, ha, rfl⟩ := Expr.code_not.mp h
    have hpush : Labelled s s [.push 1] := .of_plain rfl rfl s
    exact (hpush.append (e.labelled ha)).append (.of_plain rfl rfl s')
  | .ite c y n _, s, s', code, h => by
    obtain ⟨cc, s₁, cn, s₂, cy, hc, hn, hy, rfl⟩ := Expr.code_ite.mp h
    refine (((c.labelled hc).append (n.labelled hn)).append (y.labelled hy)).branching
      (fun l => ?_) fun l hl => ?_
    · simp [Instr.defined?, List.count_cons]
      omega
    · simp [Instr.mentioned?] at hl ⊢
      grind
  | .print e _, s, s', code, h => by
    obtain ⟨a, ha, rfl⟩ := Expr.code_print.mp h
    exact (e.labelled ha).append (.of_plain rfl rfl s')
  | .call _ _ args _, s, s', code, h => by
    obtain ⟨b, a, -, ha, rfl⟩ := Expr.code_call.mp h
    have hlfp : Labelled s s [.bare .lfp] := .of_plain rfl rfl s
    refine ((hlfp.append (argumentCode_labelled args ha)).append
      ((Code.LabelFree.frameAccess g b).labelled s')).append ?_
    split
    · exact (Code.LabelFree.dispatch _).labelled s'
    · exact ((Code.LabelFree.loadClosure _).append (.plain [.js])).labelled s'
  | .send _ _ _ args _, s, s', code, h => by
    obtain ⟨d, a, -, ha, rfl⟩ := Expr.code_send.mp h
    have hlfp : Labelled s s [.bare .lfp] := .of_plain rfl rfl s
    exact (((hlfp.append (argumentCode_labelled args ha)).append
      ((Code.LabelFree.frameAccess g _).labelled s')).append
      ((Code.LabelFree.load _).labelled s')).append ((Code.LabelFree.dispatch _).labelled s')
  | .new _ _ args _, s, s', code, h => by
    obtain ⟨b, c, a, -, -, ha, rfl⟩ := Expr.code_new.mp h
    exact (valueCode_labelled args ha).append ((Code.LabelFree.makeObject _ _).labelled s')

/-- The same of the arguments of a call. -/
theorem argumentCode_labelled {g : CodeContext} : ∀ (es : List Expr) {s s' : LabelSupply}
    {code : List Instr}, argumentCode g es s = .ok (code, s') → Labelled s s' code
  | [], s, s', code, h => by
    obtain ⟨rfl, rfl⟩ := argumentCode_nil.mp h
    exact .nil s
  | e :: es, s, s', code, h => by
    obtain ⟨a, s₁, b, ha, hb, rfl⟩ := argumentCode_cons.mp h
    exact (argumentCode_labelled es ha).append (e.labelled hb)

/-- The same of the arguments of a constructor. -/
theorem valueCode_labelled {g : CodeContext} : ∀ (es : List Expr) {s s' : LabelSupply}
    {code : List Instr}, valueCode g es s = .ok (code, s') → Labelled s s' code
  | [], s, s', code, h => by
    obtain ⟨rfl, rfl⟩ := valueCode_nil.mp h
    exact .nil s
  | e :: es, s, s', code, h => by
    obtain ⟨a, s₁, b, ha, hb, rfl⟩ := valueCode_cons.mp h
    exact (e.labelled ha).append (valueCode_labelled es hb)

end

/-! ### Declarations -/

/-- All methods in the dispatch tables met so far have been given a label. -/
def CodeState.Tidy (q : CodeState) : Prop :=
  ∀ (name : String) (table : List Label), q.tables[name]? = some table →
    ∀ l ∈ table, q.labels.Gave l

/-- Tables stay tidy while labels are taken. -/
theorem CodeState.Tidy.mono {q : CodeState} (h : q.Tidy) {s : LabelSupply}
    (hs : q.labels.Before s) :
    CodeState.Tidy { q with labels := s } :=
  fun name table ht l hl => (h name table ht l hl).mono hs

theorem CodeState.Tidy.inheritedTable {q : CodeState} (h : q.Tidy) (record : ClassRecord) :
    ∀ l ∈ inheritedTable q.tables record, q.labels.Gave l := by
  intro l hl
  unfold Stackling.inheritedTable at hl
  cases hs : record.superclass.bind (q.tables[·]?) with
  | none => simp [hs] at hl
  | some table =>
    obtain ⟨name, -, ht⟩ := Option.bind_eq_some_iff.mp hs
    exact h name table ht l (by simpa [hs] using hl)

/-- Placing a method keeps to labels that have been given. -/
theorem gave_placeMethod {s : LabelSupply} {table : List Label} {entry : Label}
    (h : ∀ l ∈ table, s.Gave l) (hentry : s.Gave entry) (offset : Int32) :
    ∀ l ∈ placeMethod table offset entry, s.Gave l := by
  intro l hl
  unfold placeMethod at hl
  dsimp only at hl
  split at hl
  · rcases List.mem_or_eq_of_mem_set hl with hl | rfl
    · exact h l hl
    · exact hentry
  · rcases List.mem_append.mp hl with hl | hl
    · exact h l hl
    · obtain rfl := List.mem_singleton.mp hl
      exact hentry

/-- A dispatch table mentions labels and defines none. -/
theorem Labelled.dispatchTable {s : LabelSupply} {table : List Label} (h : ∀ l ∈ table, s.Gave l) :
    Labelled s s (Code.dispatchTable table) := by
  have hpushes : Labelled s s (table.flatMap fun l => .pushLabel l :: Code.heapStore) := by
    induction table with
    | nil => exact .nil s
    | cons l table ih =>
      have hl : Labelled s s [.pushLabel l] :=
        ⟨.refl s, by simp [Instr.defined?],
          by simpa [Instr.mentioned?] using h l List.mem_cons_self⟩
      exact (hl.append (Code.LabelFree.heapStore.labelled s)).append
        (ih fun m hm => h m (List.mem_cons_of_mem _ hm))
  have hlhp : Labelled s s [.bare .lhp] := .of_plain rfl rfl s
  exact hlhp.append hpushes

theorem CodeState.count_function (q : CodeState) (l : Label) :
    [Label.function q.labels.functions].count l = q.labels.given q.pastFunction.labels l := by
  cases l with
  | branch n => simp only [LabelSupply.given, pastFunction, List.count_cons, List.count_nil]; grind
  | function n =>
    simp only [LabelSupply.given, pastFunction, List.count_cons, List.count_nil]
    grind

mutual

/-- The code of a declaration and of the functions in it defines each label that it takes, once, and
mentions no label before it is given. -/
theorem Decl.labelled {g : CodeContext} : ∀ (d : Decl) {q q' : CodeState} {f : Fragment},
    q.Tidy → d.code g q = .ok (f, q') → Labelled q.labels q'.labels (f.code ++ f.bodies) ∧ q'.Tidy
  | .var d, q, q', f, hq, h => by
    obtain ⟨a, s', ha, rfl, rfl⟩ := Decl.code_var.mp h
    have hlabelled := d.init.labelled ha
    exact ⟨by simpa using hlabelled, hq.mono hlabelled.before⟩
  | .fn d, q, q', f, hq, h => by
    obtain ⟨r, hr, rfl⟩ := Decl.code_fn.mp h
    obtain ⟨hlabelled, hentry, hq'⟩ := d.labelled hq hr
    have hcode : Labelled q'.labels q'.labels [.bare .lfp, .pushLabel r.entry] :=
      ⟨.refl _, by simp [Instr.defined?], by simpa [Instr.mentioned?] using hentry⟩
    exact ⟨(hlabelled.append hcode).congr (by simp [Instr.defined?]) (by simp), hq'⟩
  | .cls ⟨id, name, superclass, fields, methods, pos⟩, q, q', f, hq, h => by
    obtain ⟨entry, record, table, bodies, q₁, -, -, hm, rfl, rfl⟩ := Decl.code_cls.mp h
    obtain ⟨hlabelled, htable, hq₁⟩ := methodCode_labelled methods hq (hq.inheritedTable record) hm
    refine ⟨(hlabelled.append (.dispatchTable htable)).congr (by simp [Nat.add_comm]) (by simp), ?_⟩
    intro n t ht l hl
    rw [Std.TreeMap.getElem?_insert] at ht
    split at ht
    · cases ht
      exact htable l hl
    · exact hq₁ n t ht l hl

/-- The same of a function, whose own label is one of them. -/
theorem FunDecl.labelled {g : CodeContext} : ∀ (d : FunDecl) {q q' : CodeState} {r : Routine},
    q.Tidy → d.code g q = .ok (r, q') →
      Labelled q.labels q'.labels r.bodies ∧ q'.labels.Gave r.entry ∧ q'.Tidy
  | ⟨id, name, params, result, decls, body, pos⟩, q, q', r, hq, h => by
    obtain ⟨locals, q₁, value, s', hlocals, hvalue, rfl, rfl⟩ := FunDecl.code_eq_ok.mp h
    have hpast : q.labels.Before q.pastFunction.labels := by
      simp [LabelSupply.Before, CodeState.pastFunction]
    obtain ⟨hl, hq₁⟩ := declCode_labelled decls (hq.mono hpast) hlocals
    have hparts := hl.append (body.labelled hvalue)
    refine ⟨⟨hpast.trans hparts.before, fun l => ?_, fun l hm => ?_⟩, ?_,
      hq₁.mono (body.labelled hvalue).before⟩
    · rw [← LabelSupply.given_add_given hpast hparts.before, ← hparts.count_defined,
        ← q.count_function]
      simp [FunDecl.routine, Instr.defined?, (Code.LabelFree.epilogue _ _ _).1, List.count_cons]
      omega
    · refine hparts.gave_of_mentioned l ?_
      simp [FunDecl.routine, Instr.mentioned?, (Code.LabelFree.epilogue _ _ _).2] at hm ⊢
      grind
    · refine LabelSupply.Gave.mono hparts.before ?_
      simp [LabelSupply.Gave, CodeState.pastFunction]

/-- The same of several declarations. -/
theorem declCode_labelled {g : CodeContext} : ∀ (ds : List Decl) {q q' : CodeState} {f : Fragment},
    q.Tidy → declCode g ds q = .ok (f, q') → Labelled q.labels q'.labels (f.code ++ f.bodies) ∧
    q'.Tidy
  | [], q, q', f, hq, h => by
    obtain ⟨rfl, rfl⟩ := declCode_nil.mp h
    exact ⟨.nil _, hq⟩
  | d :: ds, q, q', f, hq, h => by
    obtain ⟨a, q₁, b, ha, hb, rfl⟩ := declCode_cons.mp h
    obtain ⟨hla, hq₁⟩ := d.labelled hq ha
    obtain ⟨hlb, hq'⟩ := declCode_labelled ds hq₁ hb
    exact ⟨(hla.append hlb).congr (fun l => by simp; omega) (by simp; grind), hq'⟩

/-- The same of the methods of a class, with the labels in its table. -/
theorem methodCode_labelled {g : CodeContext} : ∀ (ms : List FunDecl) {q q' : CodeState}
    {table table' : List Label} {bodies : List Instr}, q.Tidy → (∀ l ∈ table, q.labels.Gave l) →
      methodCode g table ms q = .ok ((table', bodies), q') →
      Labelled q.labels q'.labels bodies ∧ (∀ l ∈ table', q'.labels.Gave l) ∧ q'.Tidy
  | [], q, q', table, table', bodies, hq, ht, h => by
    obtain ⟨h, rfl⟩ := methodCode_nil.mp h
    cases h
    exact ⟨.nil _, ht, hq⟩
  | m :: ms, q, q', table, table', bodies, hq, ht, h => by
    obtain ⟨entry, routine, q₁, rest, -, hm, hrest, hr⟩ := methodCode_cons.mp h
    cases hr
    obtain ⟨hlm, hentry, hq₁⟩ := m.labelled hq hm
    have hplaced := gave_placeMethod (fun l hl => (ht l hl).mono hlm.before) hentry entry.offset
    obtain ⟨hlr, ht', hq'⟩ := methodCode_labelled ms hq₁ hplaced hrest
    exact ⟨hlm.append hlr, ht', hq'⟩

end

namespace Program

variable {p : Program}

theorem labelled {g : CodeContext} {locals : Fragment} {q : CodeState} {value : List Instr}
    {s : LabelSupply} (hlocals : declCode g p.decls {} = .ok (locals, q))
    (hvalue : p.body.code g q.labels = .ok (value, s)) :
    Labelled {} s (p.opening ++ locals.code ++ value ++ .bare .halt :: locals.bodies) := by
  have htidy : CodeState.Tidy {} := fun name table ht => by simp at ht
  obtain ⟨hl, -⟩ := declCode_labelled p.decls htidy hlocals
  have hopening : Code.LabelFree p.opening := by
    unfold opening
    split
    · exact .plain []
    · exact (Code.LabelFree.plain []).push 0
  exact (hl.append (p.body.labelled hvalue)).congr
    (fun l => by simp [hopening.1, Instr.defined?]; omega)
    (by simp [hopening.2, Instr.mentioned?])

/-- In the code of a program each label that is used is defined, and none is defined twice. -/
theorem generate_labels {r : Resolution} {globalFrame : Int32} {listing : Listing}
    (h : p.generate r globalFrame = .ok listing) :
    (Code.defined listing.instrs).Nodup ∧
      ∀ l ∈ Code.mentioned listing.instrs, l ∈ Code.defined listing.instrs := by
  obtain ⟨locals, q, value, s, hlocals, hvalue, rfl⟩ := generate_eq_ok.mp h
  have hlabelled := labelled hlocals hvalue
  refine ⟨List.nodup_iff_count.mpr fun l => ?_, fun l hm => ?_⟩
  · rw [hlabelled.count_defined]
    exact LabelSupply.given_le_one _ _ l
  · have hcount := (hlabelled.gave_of_mentioned l hm).given_eq
    exact List.count_pos_iff.mp (by rw [hlabelled.count_defined, hcount]; exact Nat.one_pos)

end Program

end Stackling
