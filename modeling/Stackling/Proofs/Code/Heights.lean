import Stackling.Proofs.Code.SourceMap
import Stackling.Proofs.Linking
import Stackling.Proofs.Machine.Effects

/-!
# Stack heights

A line is an instruction together with the height of the stack before it. Lines are linked if each
one finds the cells that it takes and leaves the height that the next one starts with. Here is what
it means that heights fit a piece of code with its source map, and how heights of pieces are put
together.
-/

namespace Stackling

/-! ### Stack effects -/

namespace Instr

@[simp] def pops : Instr → Nat
  | .bare op => op.pops
  | .jump kind _ => kind.pops
  | .push _ | .pushLabel _ | .label _ => 0

@[simp] def pushes : Instr → Nat
  | .bare op => op.pushes
  | .push _ | .pushLabel _ => 1
  | .jump _ _ | .label _ => 0

/-- Whether the next instruction may be the one behind, with what this one leaves on the stack. -/
def falls : Instr → Bool
  | .bare .js | .bare .halt | .jump .always _ => false
  | _ => true

end Instr

/-- The machine moves its stack pointer by the cells that the instruction takes and puts. -/
def Instr.Effective (i : Instr) : Prop :=
  ∀ (address : Label → Nat) (op : Op) (n ip : Nat) (s t : State), i.link address = some op →
    s.perform n ip op = .ok (.running t) → t.sp + Int32.ofNat i.pushes = s.sp + Int32.ofNat i.pops

theorem Instr.effective (i : Instr) : i.Effective := by
  intro address op n ip s t hlink h
  have hsp := (State.perform_effect h).sp
  cases i with
  | label l => cases hlink
  | bare | push | pushLabel | jump =>
    cases hlink
    exact hsp

/-! ### Lines -/

structure Line where
  height : Nat
  instr : Instr

namespace Lines

/-- The height before the first line, given the one behind the last. -/
def first : List Line → Nat → Nat
  | [], h => h
  | l :: _, _ => l.height

/-- Each line finds the cells that it takes and leaves the height of the next one. -/
def Linked : List Line → Nat → Prop
  | [], _ => True
  | l :: ls, h => l.instr.pops ≤ l.height ∧
      (l.instr.falls = true → first ls h + l.instr.pops = l.height + l.instr.pushes) ∧ Linked ls h

def heightAt (ls : List Line) (h i : Nat) : Nat := first (ls.drop i) h

/-- The jumps in some lines go to labels among other lines, with the height that they leave. -/
def Lands (all ls : List Line) : Prop :=
  ∀ h kind l, ⟨h, .jump kind l⟩ ∈ ls → ∃ h', ⟨h', .label l⟩ ∈ all ∧ h' + kind.pops = h

variable {a b ls all : List Line} {l : Line} {h i : Nat}

theorem first_append : first (a ++ b) h = first a (first b h) := by
  cases a <;> rfl

theorem linked_append : Linked (a ++ b) h ↔ Linked a (first b h) ∧ Linked b h := by
  induction a with
  | nil => simp [Linked]
  | cons l a ih => simp only [List.cons_append, Linked, first_append, ih, and_assoc]

theorem heightAt_left (hi : i ≤ a.length) : heightAt (a ++ b) h i = heightAt a (first b h) i := by
  rw [heightAt, List.drop_append_of_le_length hi, first_append, heightAt]

theorem heightAt_right (i : Nat) : heightAt (a ++ b) h (a.length + i) = heightAt b h i := by
  rw [heightAt, List.drop_length_add_append, heightAt]

theorem heightAt_zero : heightAt ls h 0 = first ls h := rfl

theorem heightAt_length : heightAt ls h ls.length = h := by
  rw [heightAt, List.drop_length]
  rfl

theorem heightAt_of_getElem? (hl : ls[i]? = some l) : heightAt ls h i = l.height := by
  obtain ⟨hi, rfl⟩ := List.getElem?_eq_some_iff.mp hl
  rw [heightAt, List.drop_eq_getElem_cons hi]
  rfl

theorem Linked.step (hls : Linked ls h) (hl : ls[i]? = some l) :
    l.instr.pops ≤ l.height ∧
    (l.instr.falls = true → heightAt ls h (i + 1) + l.instr.pops = l.height + l.instr.pushes) := by
  induction ls generalizing i with
  | nil => cases hl
  | cons l' ls ih =>
    cases i with
    | zero =>
      cases hl
      exact ⟨hls.1, hls.2.1⟩
    | succ i => exact ih hls.2.2 hl

@[simp] theorem lands_nil : Lands all [] := nofun

@[simp] theorem lands_cons_jump {kind : Jump} {target : Label} :
    Lands all (⟨h, .jump kind target⟩ :: ls) ↔
      (∃ h', ⟨h', .label target⟩ ∈ all ∧ h' + kind.pops = h) ∧ Lands all ls := by
  constructor
  · exact fun hlands => ⟨hlands _ _ _ List.mem_cons_self, fun k kind l hl =>
      hlands k kind l (List.mem_cons_of_mem _ hl)⟩
  · rintro ⟨htarget, hlands⟩ k kind l hl
    rcases List.mem_cons.mp hl with heq | hl
    · cases heq
      exact htarget
    · exact hlands k kind l hl

@[simp] theorem lands_cons {i : Instr} (hi : ∀ kind target, i ≠ .jump kind target) :
    Lands all (⟨h, i⟩ :: ls) ↔ Lands all ls := by
  constructor
  · exact fun hlands k kind l hl => hlands k kind l (List.mem_cons_of_mem _ hl)
  · intro hlands k kind l hl
    rcases List.mem_cons.mp hl with heq | hl
    · cases heq
      exact absurd rfl (hi kind l)
    · exact hlands k kind l hl

theorem lands_append : Lands all (a ++ b) ↔ Lands all a ∧ Lands all b := by
  simp only [Lands, List.mem_append, or_imp, forall_and]

theorem Lands.mono {all' : List Line} (hls : Lands all ls) (hsub : all ⊆ all') : Lands all' ls := by
  intro h kind l hl
  obtain ⟨h', hmem, heq⟩ := hls h kind l hl
  exact ⟨h', hsub hmem, heq⟩

end Lines

/-! ### Pieces of code -/

/-- The signature by which an expression calls, if it is a call. -/
def Expr.callee? (r : Resolution) : Expr → Option Signature
  | .call id _ _ _ => r.uses[id]?.bind (·.entry.ty.signature?)
  | .send id _ _ _ _ => r.sends[id]?.bind (·.method.ty.signature?)
  | _ => none

/-- The cells of the arguments. -/
def Signature.paramCells (sig : Signature) : Nat := totalCells Ty.cells sig.params

def FunDecl.paramCells (f : FunDecl) : Nat := totalCells (·.declared.cells) f.params

def FunDecl.localCells (f : FunDecl) : Nat := totalCells Decl.cells f.decls

def FunDecl.epilogue (f : FunDecl) : List Instr :=
  Code.epilogue f.localCells f.paramCells f.result.isArrow

/-- The code of an expression puts a value on top of the stack and does not touch what is below, and
its jumps do not leave it. A call takes the code address, the static link, the arguments and the
control link, and gives the result. -/
structure Expr.Balanced (r : Resolution) (code : List Instr) (height : Nat → Nat) (e : Expr)
    (start stop : Nat) :
    Prop where
  value : ∃ t, e.infer r = .ok t ∧ height stop = height start + t.cells
  above : ∀ i x, start ≤ i → i < stop → code[i]? = some x → height start + x.pops ≤ height i
  inside : ∀ i kind l, start ≤ i → i < stop → code[i]? = some (.jump kind l) →
    ∃ j, start ≤ j ∧ j < stop ∧ code[j]? = some (.label l)
  call : ∀ sig, e.callee? r = some sig → start < stop ∧ code[stop - 1]? = some (.bare .js) ∧
    height (stop - 1) = height start + sig.paramCells + 3 ∧
    height stop = height start + sig.result.cells

/-- The code of a function starts above its control link, its arguments and its static link. Before
its end, the return address, the local cells and the result have come on top, and at the end nothing
is left but the result and the address to return to. -/
structure FunDecl.Balanced (code : List Instr) (height : Nat → Nat) (f : FunDecl)
    (start stop : Nat) : Prop where
  entry : ∃ l, code[start]? = some (.label l)
  height_start : height start = f.paramCells + 2
  finish : ∃ e, start < e ∧ e + f.epilogue.length = stop ∧
    (∀ i < f.epilogue.length, code[e + i]? = f.epilogue[i]?) ∧
    height e = f.paramCells + 3 + f.localCells + f.result.cells
  height_return : start < stop ∧ code[stop - 1]? = some (.bare .js) ∧
    height (stop - 1) = f.result.cells + 1

def Span.Balanced (r : Resolution) (code : List Instr) (height : Nat → Nat) (s : Span) : Prop :=
  match s.origin with
  | .expr e => e.Balanced r code height s.start s.stop
  | .decl d => height s.stop = height s.start + d.cells
  | .routine f => f.Balanced code height s.start s.stop

namespace Span.Balanced

variable {r : Resolution} {code code' : List Instr} {height height' : Nat → Nat} {s : Span}

/-- What is said of a piece of code depends on no more than its own lines and the height behind
it. -/
theorem congr (h : s.Balanced r code height) (hspan : s.start ≤ s.stop)
    (hcode : ∀ i < s.stop, code'[i]? = code[i]?) (hheight : ∀ i ≤ s.stop, height' i = height i) :
    s.Balanced r code' height' := by
  obtain ⟨origin, start, stop⟩ := s
  dsimp only at hspan hcode hheight
  have hstart : height' start = height start := hheight start hspan
  have hstop : height' stop = height stop := hheight stop (Nat.le_refl _)
  cases origin with
  | expr e =>
    change e.Balanced r code height start stop at h
    refine ⟨?_, ?_, ?_, ?_⟩
    · rw [hstart, hstop]
      exact h.value
    · intro i x hle hlt hx
      rw [hstart, hheight i (Nat.le_of_lt hlt)]
      exact h.above i x hle hlt (hcode i hlt ▸ hx)
    · intro i kind l hle hlt hi
      obtain ⟨j, hle', hlt', hj⟩ := h.inside i kind l hle hlt (hcode i hlt ▸ hi)
      exact ⟨j, hle', hlt', (hcode j hlt').trans hj⟩
    · intro sig hsig
      obtain ⟨hlt, hjs, hbefore, hafter⟩ := h.call sig hsig
      have hlast : stop - 1 < stop := by omega
      rw [hstart, hstop, hheight _ (Nat.le_of_lt hlast), hcode _ hlast]
      exact ⟨hlt, hjs, hbefore, hafter⟩
  | decl d =>
    change height' stop = height' start + d.cells
    rw [hstart, hstop]
    exact h
  | routine f =>
    change f.Balanced code height start stop at h
    obtain ⟨hlt, hjs, hreturn⟩ := h.height_return
    have hlast : stop - 1 < stop := by omega
    refine ⟨?_, ?_, ?_, ?_⟩
    · rw [hcode start hlt]
      exact h.entry
    · rw [hstart]
      exact h.height_start
    · obtain ⟨e, hle, hlength, hinstrs, hheights⟩ := h.finish
      refine ⟨e, hle, hlength, fun i hi => ?_, ?_⟩
      · rw [hcode (e + i) (by omega)]
        exact hinstrs i hi
      · rw [hheight e (by omega)]
        exact hheights
    · rw [hheight _ (Nat.le_of_lt hlast), hcode _ hlast]
      exact ⟨hlt, hjs, hreturn⟩

theorem shift (h : s.Balanced r code height) {k : Nat} (hcode : ∀ i, code'[k + i]? = code[i]?)
    (hheight : ∀ i, height' (k + i) = height i) : (s.shift k).Balanced r code' height' := by
  obtain ⟨origin, start, stop⟩ := s
  cases origin with
  | expr e =>
    change e.Balanced r code height start stop at h
    change e.Balanced r code' height' (k + start) (k + stop)
    refine ⟨?_, ?_, ?_, ?_⟩
    · rw [hheight, hheight]
      exact h.value
    · intro i x hle hlt hx
      obtain ⟨j, rfl⟩ := Nat.exists_eq_add_of_le (Nat.le_trans (Nat.le_add_right k start) hle)
      rw [hheight, hheight]
      exact h.above j x (by omega) (by omega) (hcode j ▸ hx)
    · intro i kind l hle hlt hi
      obtain ⟨i, rfl⟩ := Nat.exists_eq_add_of_le (Nat.le_trans (Nat.le_add_right k start) hle)
      obtain ⟨j, hle', hlt', hj⟩ := h.inside i kind l (by omega) (by omega) (hcode i ▸ hi)
      exact ⟨k + j, by omega, by omega, (hcode j).trans hj⟩
    · intro sig hsig
      obtain ⟨hlt, hjs, hbefore, hafter⟩ := h.call sig hsig
      rw [Nat.add_sub_assoc (by omega), hheight, hheight, hheight, hcode]
      exact ⟨by omega, hjs, hbefore, hafter⟩
  | decl d =>
    change height' (k + stop) = height' (k + start) + d.cells
    rw [hheight, hheight]
    exact h
  | routine f =>
    change f.Balanced code height start stop at h
    change f.Balanced code' height' (k + start) (k + stop)
    refine ⟨?_, ?_, ?_, ?_⟩
    · rw [hcode]
      exact h.entry
    · rw [hheight]
      exact h.height_start
    · obtain ⟨e, hle, hlength, hinstrs, hheights⟩ := h.finish
      refine ⟨k + e, by omega, by omega, fun i hi => ?_, ?_⟩
      · rw [Nat.add_assoc, hcode]
        exact hinstrs i hi
      · rw [hheight]
        exact hheights
    · obtain ⟨hlt, hjs, hreturn⟩ := h.height_return
      rw [Nat.add_sub_assoc (by omega), hheight, hcode]
      exact ⟨by omega, hjs, hreturn⟩

end Span.Balanced

/-- Calls and functions end in a jump to an address on the stack. -/
def Origin.Leaves : Origin → Prop
  | .expr (.call ..) | .expr (.send ..) | .routine _ => True
  | _ => False

/-- Each jump to an address on the stack is the end of a call or of a function. -/
def Sourced.Leaves (m : Sourced) : Prop :=
  ∀ i, m.code[i]? = some (.bare .js) → ∃ s ∈ m.spans, s.stop = i + 1 ∧ s.origin.Leaves

namespace Sourced.Leaves

variable {a b m : Sourced}

theorem plain {code : List Instr} (h : .bare .js ∉ code) : (Sourced.plain code).Leaves :=
  fun _ hi => absurd (List.mem_of_getElem? hi) h

theorem append (ha : a.Leaves) (hb : b.Leaves) : (a ++ b).Leaves := by
  intro i hi
  rw [code_append] at hi
  rcases Nat.lt_or_ge i a.code.length with hlt | hge
  · rw [List.getElem?_append_left hlt] at hi
    obtain ⟨s, hs, hstop, hleaves⟩ := ha i hi
    exact ⟨s, List.mem_append_left _ hs, hstop, hleaves⟩
  · rw [List.getElem?_append_right hge] at hi
    obtain ⟨s, hs, hstop, hleaves⟩ := hb _ hi
    refine ⟨s.shift a.code.length, List.mem_append_right _ (List.mem_map_of_mem hs), ?_, hleaves⟩
    change a.code.length + s.stop = i + 1
    omega

theorem mark (h : m.Leaves) (o : Origin) : (m.mark o).Leaves := by
  intro i hi
  obtain ⟨s, hs, hstop, hleaves⟩ := h i hi
  exact ⟨s, List.mem_cons_of_mem _ hs, hstop, hleaves⟩

/-- The piece itself ends in such a jump. -/
theorem mark_js (h : m.Leaves) {o : Origin} (ho : o.Leaves) :
    ((m ++ .plain [.bare .js]).mark o).Leaves := by
  intro i hi
  rw [code_mark, code_append, code_plain] at hi
  rcases Nat.lt_or_ge i m.code.length with hlt | hge
  · rw [List.getElem?_append_left hlt] at hi
    obtain ⟨s, hs, hstop, hleaves⟩ := h i hi
    exact ⟨s, List.mem_cons_of_mem _ (List.mem_append_left _ hs), hstop, hleaves⟩
  · refine ⟨_, List.mem_cons_self, ?_, ho⟩
    have hlt := (List.getElem?_eq_some_iff.mp hi).1
    simp only [List.length_append, List.length_singleton] at hlt
    simp only [code_append, code_plain, List.length_append, List.length_singleton]
    omega

end Sourced.Leaves

/-! ### Annotated code -/

/-- The instructions at which code is entered or left sideways. -/
@[simp] def Instr.sequential : Instr → Bool
  | .jump _ _ | .bare .js | .bare .halt => false
  | _ => true

/-- Lines for code that runs straight through, from the height before it. -/
def annotate : List Instr → Nat → List Line
  | [], _ => []
  | i :: is, h => ⟨h, i⟩ :: annotate is (h - i.pops + i.pushes)

theorem map_annotate {is : List Instr} {h : Nat} : (annotate is h).map Line.instr = is := by
  induction is generalizing h with
  | nil => rfl
  | cons i is ih => exact congrArg (i :: ·) ih

/-- Code that runs straight through leads from one height to another and stays above a third one. -/
def Straight (n : Nat) : List Instr → Nat → Nat → Prop
  | [], h, h' => h = h'
  | i :: is, h, h' =>
    i.sequential = true ∧ n + i.pops ≤ h ∧ Straight n is (h - i.pops + i.pushes) h'

theorem Straight.append {n h h₁ h₂ : Nat} {is js : List Instr} (his : Straight n is h h₁)
    (hjs : Straight n js h₁ h₂) :
    Straight n (is ++ js) h h₂ := by
  induction is generalizing h with
  | nil => exact his ▸ hjs
  | cons i is ih => exact ⟨his.1, his.2.1, ih his.2.2⟩

namespace Straight

variable {n h h' : Nat} {is : List Instr} {i : Instr}

theorem sequential (his : Straight n is h h') (hi : i ∈ is) : i.sequential = true := by
  induction is generalizing h with
  | nil => cases hi
  | cons j is ih =>
    rcases List.mem_cons.mp hi with rfl | hi
    · exact his.1
    · exact ih his.2.2 hi

theorem js_notMem (his : Straight n is h h') : .bare .js ∉ is := fun hi => nomatch his.sequential hi

end Straight

/-- The lines are those of the code, lead from `h` to `h'` without going below `n`, and give each
piece the heights that it should have. -/
structure Annotates (r : Resolution) (m : Sourced) (ls : List Line) (n h h' : Nat) : Prop where
  code : ls.map Line.instr = m.code
  first : Lines.first ls h' = h
  linked : Lines.Linked ls h'
  above : ∀ l ∈ ls, n + l.instr.pops ≤ l.height
  spans : ∀ s ∈ m.spans, s.start ≤ s.stop ∧ s.stop ≤ m.code.length ∧
    s.Balanced r m.code (Lines.heightAt ls h')

namespace Annotates

variable {r : Resolution} {a b m : Sourced} {ls la lb : List Line} {n n' h h' h₁ h₂ : Nat}

theorem length_eq (hm : Annotates r m ls n h h') : m.code.length = ls.length := by
  rw [← hm.code, List.length_map]

theorem lines {is : List Instr} (hcode : ls.map Line.instr = is) (hfirst : Lines.first ls h' = h)
    (hlinked : Lines.Linked ls h') (habove : ∀ l ∈ ls, n + l.instr.pops ≤ l.height) :
    Annotates r (.plain is) ls n h h' where
  code := hcode
  first := hfirst
  linked := hlinked
  above := habove
  spans := nofun

theorem straight {is : List Instr} (his : Straight n is h h') :
    Annotates r (.plain is) (annotate is h) n h h' := by
  induction is generalizing h with
  | nil =>
    cases his
    exact ⟨rfl, rfl, trivial, nofun, nofun⟩
  | cons i is ih =>
    obtain ⟨hi, hpops, his⟩ := his
    obtain ⟨hcode, hfirst, hlinked, habove, -⟩ := ih his
    refine ⟨congrArg (i :: ·) hcode, rfl, ⟨by dsimp only; omega, fun _ => ?_, hlinked⟩, ?_, nofun⟩
    · rw [hfirst]
      dsimp only
      omega
    · exact List.forall_mem_cons.mpr ⟨hpops, habove⟩

theorem mono (hm : Annotates r m ls n h h') (hn : n' ≤ n) : Annotates r m ls n' h h' where
  code := hm.code
  first := hm.first
  linked := hm.linked
  above := fun l hl => Nat.le_trans (Nat.add_le_add_right hn _) (hm.above l hl)
  spans := hm.spans

theorem append (ha : Annotates r a la n h h₁) (hb : Annotates r b lb n h₁ h₂) :
    Annotates r (a ++ b) (la ++ lb) n h h₂ where
  code := by rw [List.map_append, ha.code, hb.code, Sourced.code_append]
  first := by rw [Lines.first_append, hb.first, ha.first]
  linked := Lines.linked_append.mpr ⟨hb.first.symm ▸ ha.linked, hb.linked⟩
  above := List.forall_mem_append.mpr ⟨ha.above, hb.above⟩
  spans := by
    rw [Sourced.spans_append, Sourced.code_append, List.length_append, List.forall_mem_append,
      List.forall_mem_map]
    constructor
    · intro s hs
      obtain ⟨hle, hstop, hbalanced⟩ := ha.spans s hs
      refine ⟨hle, by omega, hbalanced.congr hle (fun i hi => ?_) (fun i hi => ?_)⟩
      · exact List.getElem?_append_left (by omega)
      · rw [Lines.heightAt_left (by rw [← ha.length_eq]; omega), hb.first]
    · intro s hs
      obtain ⟨hle, hstop, hbalanced⟩ := hb.spans s hs
      refine ⟨Nat.add_le_add_left hle _, Nat.add_le_add_left hstop _,
        hbalanced.shift (fun i => ?_) (fun i => ?_)⟩
      · rw [List.getElem?_append_right (Nat.le_add_right _ _), Nat.add_sub_cancel_left]
      · rw [ha.length_eq, Lines.heightAt_right]

theorem mark (hm : Annotates r m ls n h h') {o : Origin}
    (ho : Span.Balanced r m.code (Lines.heightAt ls h') ⟨o, 0, m.code.length⟩) :
    Annotates r (m.mark o) ls n h h' where
  code := hm.code
  first := hm.first
  linked := hm.linked
  above := hm.above
  spans := List.forall_mem_cons.mpr ⟨⟨Nat.zero_le _, Nat.le_refl _, ho⟩, hm.spans⟩

theorem getElem? (hm : Annotates r m ls n h h') (i : Nat) : m.code[i]? = ls[i]?.map Line.instr := by
  rw [← hm.code, List.getElem?_map]

/-- The height between two pieces. -/
theorem heightAt_append (ha : Annotates r a la n h h₁) (hb : Annotates r b lb n h₁ h₂) :
    Lines.heightAt (la ++ lb) h₂ a.code.length = h₁ := by
  rw [ha.length_eq, ← Nat.add_zero la.length, Lines.heightAt_right, Lines.heightAt_zero, hb.first]

theorem heightAt_stop (hm : Annotates r m ls n h h') : Lines.heightAt ls h' m.code.length = h' := by
  rw [hm.length_eq, Lines.heightAt_length]

end Annotates

/-- Some heights fit the code from `h` to `h'`, its jumps stay inside, and each jump to an address
on the stack is accounted for. -/
def Rises (r : Resolution) (m : Sourced) (n h h' : Nat) : Prop :=
  ∃ ls, Annotates r m ls n h h' ∧ Lines.Lands ls ls ∧ m.Leaves

namespace Rises

variable {r : Resolution} {a b m : Sourced} {n n' h h' h₁ h₂ : Nat}

theorem straight {is : List Instr} (his : Straight n is h h') : Rises r (.plain is) n h h' := by
  refine ⟨annotate is h, .straight his, ?_, .plain his.js_notMem⟩
  intro k kind l hmem
  have hjump : .jump kind l ∈ (annotate is h).map Line.instr := List.mem_map_of_mem hmem
  rw [map_annotate] at hjump
  cases his.sequential hjump

theorem append (ha : Rises r a n h h₁) (hb : Rises r b n h₁ h₂) : Rises r (a ++ b) n h h₂ := by
  obtain ⟨la, ha, hlands, hleaves⟩ := ha
  obtain ⟨lb, hb, hlands', hleaves'⟩ := hb
  refine ⟨la ++ lb, ha.append hb, Lines.lands_append.mpr ⟨?_, ?_⟩, hleaves.append hleaves'⟩
  · exact hlands.mono (List.subset_append_left _ _)
  · exact hlands'.mono (List.subset_append_right _ _)

theorem mono (hm : Rises r m n h h') (hn : n' ≤ n) : Rises r m n' h h' := by
  obtain ⟨ls, hm, hlands, hleaves⟩ := hm
  exact ⟨ls, hm.mono hn, hlands, hleaves⟩

end Rises

end Stackling
