import Stackling.Proofs.Code.Heights
import Stackling.Proofs.Joins

/-!
# The heights of expressions

The code of an expression with a type raises the stack by the cells of the type. The generator does
not look at types; what it relies on is that subtypes and joins have the cells of the types that
they stand for.
-/

namespace Stackling

/-! ### Cells -/

namespace Hierarchy

variable {h : Hierarchy} {a b t : Ty}

/-- Both branches of a conditional leave as many cells as the whole. -/
theorem cells_of_join? (hjoin : h.join? a b = some t) : a.cells = t.cells ∧ b.cells = t.cells := by
  have hleast := isJoin_of_join? hjoin
  exact ⟨cells_of_isSubtype hleast.left, cells_of_isSubtype hleast.right⟩

end Hierarchy

/-- What cannot be called takes one cell. -/
theorem Ty.cells_of_signature? {t : Ty} (h : t.signature? = none) : t.cells = 1 := by
  cases t with
  | arrow => cases h
  | int | bool | null | ref | method | cls => rfl

theorem Ty.cells_pos (t : Ty) : 0 < t.cells := by
  cases t <;> simp [cells]

/-- Operators work on single cells. -/
theorem BinOp.infer_cells {h : Hierarchy} {op : BinOp} {a b t : Ty} {pos : SourcePos}
    (hinfer : op.infer h a b pos = .ok t) : a.cells = 1 ∧ b.cells = 1 ∧ t.cells = 1 := by
  unfold BinOp.infer at hinfer
  split at hinfer
  all_goals split at hinfer
  · next hsub =>
    rw [Bool.and_eq_true] at hsub
    cases hinfer
    exact ⟨Hierarchy.cells_of_isSubtype hsub.1, Hierarchy.cells_of_isSubtype hsub.2, rfl⟩
  · cases hinfer
  · next hsub =>
    rw [Bool.and_eq_true] at hsub
    cases hinfer
    exact ⟨Hierarchy.cells_of_isSubtype hsub.1, Hierarchy.cells_of_isSubtype hsub.2, rfl⟩
  · cases hinfer
  · cases hinfer
  · next hsig =>
    rw [Bool.or_eq_true, not_or, Bool.not_eq_true, Bool.not_eq_true, Option.isSome_eq_false_iff,
      Option.isSome_eq_false_iff, Option.isNone_iff_eq_none, Option.isNone_iff_eq_none] at hsig
    split at hinfer
    · cases hinfer
      exact ⟨Ty.cells_of_signature? hsig.1, Ty.cells_of_signature? hsig.2, rfl⟩
    · cases hinfer

/-- A name that is used as a value has two cells if it is a function and one otherwise. -/
theorem Ty.asValue_eq_ok {t t' : Ty} {x : String} {pos : SourcePos} (h : t.asValue x pos = .ok t') :
    t' = t ∧ t.cells = if t.isArrow then 2 else 1 := by
  cases t <;> simp [asValue] at h <;> subst h <;> exact ⟨rfl, rfl⟩

/-! ### Instruction sequences -/

namespace Straight

variable {n h : Nat}

theorem plain_replicate_lw (k : Nat) (hn : n + 1 ≤ h) :
    Straight n (Code.plain (List.replicate k .lw)) h h := by
  induction k with
  | zero => rfl
  | succ k ih =>
    refine ⟨rfl, hn, ?_⟩
    change Straight n (Code.plain (List.replicate k .lw)) (h - 1 + 1) h
    rwa [Nat.sub_add_cancel (by omega)]

theorem frameAccess (g : CodeContext) (b : Binding) (hn : n ≤ h) :
    Straight n (g.frameAccess b) h (h + 1) := by
  unfold CodeContext.frameAccess
  split
  · exact ⟨rfl, hn, rfl⟩
  · exact ⟨rfl, hn, plain_replicate_lw b.hops (by simpa using hn)⟩

theorem load (offset : Int32) (hn : n + 1 ≤ h) : Straight n (Code.load offset) h h := by
  simp [Straight, Code.load, Code.plain]
  omega

theorem loadClosure (offset : Int32) (hn : n + 1 ≤ h) :
    Straight n (Code.loadClosure offset) h (h + 1) := by
  simp [Straight, Code.loadClosure, Code.load, Code.plain]
  omega

theorem pops (k : Nat) (hn : n ≤ h) : Straight n (Code.pops k) (h + k) h := by
  induction k with
  | zero => rfl
  | succ k ih => exact ⟨rfl, by simp; omega, ih⟩

theorem heapStores (k : Nat) (hn : n ≤ h) :
    Straight n (List.replicate k Code.heapStore).flatten (h + k) h := by
  induction k with
  | zero => rfl
  | succ k ih =>
    rw [List.replicate_succ, List.flatten_cons]
    refine .append ?_ ih
    simp [Straight, Code.heapStore, Code.plain]
    omega

/-- An object takes its cells from the stack and leaves its address. -/
theorem makeObject (k : Nat) (slot : Int32) (hn : n ≤ h) :
    Straight n (Code.makeObject k slot) (h + k) (h + 1) := by
  rw [Code.makeObject, List.append_assoc]
  refine (heapStores k hn).append ?_
  simp [Straight, Code.plain]
  omega

theorem dispatchTable (labels : List Label) (hn : n ≤ h) :
    Straight n (Code.dispatchTable labels) h (h + 1) := by
  refine ⟨rfl, hn, ?_⟩
  induction labels with
  | nil => rfl
  | cons l ls ih =>
    rw [List.flatMap_cons]
    refine .append ?_ ih
    simp [Straight, Code.heapStore, Code.plain]
    omega

end Straight

/-! ### Expressions -/

namespace Rises

open Lines

variable {r : Resolution} {a b c m : Sourced} {n h : Nat} {yes done : Label}

/-- A truth value takes two operands and leaves one cell, on both ways through it. -/
theorem truthValue {kind : Jump} (hkind : kind ≠ .always) (hn : n ≤ h) :
    Rises r (.plain (Code.truthValue kind yes done)) n (h + 2) (h + 1) := by
  cases kind with
  | always => exact absurd rfl hkind
  | equal | lessEqual =>
    refine ⟨[⟨h + 2, .jump _ yes⟩, ⟨h, .push 0⟩, ⟨h + 1, .jump .always done⟩, ⟨h, .label yes⟩,
      ⟨h, .push 1⟩, ⟨h + 1, .label done⟩], .lines rfl rfl ?_ ?_, by simp,
        .plain (by simp [Code.truthValue])⟩
    · simp [Linked, first, Instr.falls]
    · simp
      omega

/-- The second operand is skipped if the first one is true. -/
theorem or (ha : Rises r a n h (h + 1)) (hb : Rises r b n h (h + 1)) (hn : n ≤ h) :
    Rises r (a ++ .plain [.push 1, .jump .equal yes] ++ b ++
      .plain (.push 1 :: Code.truthValue .equal yes done)) n h (h + 1) := by
  obtain ⟨la, ha, hlands, hleaves⟩ := ha
  obtain ⟨lb, hb, hlands', hleaves'⟩ := hb
  let skip : List Line := [⟨h + 1, .push 1⟩, ⟨h + 2, .jump .equal yes⟩]
  let tail : List Line :=
    [⟨h + 1, .push 1⟩, ⟨h + 2, .jump .equal yes⟩, ⟨h, .push 0⟩, ⟨h + 1, .jump .always done⟩,
      ⟨h, .label yes⟩, ⟨h, .push 1⟩, ⟨h + 1, .label done⟩]
  have hskip : Annotates r (.plain [.push 1, .jump .equal yes]) skip n (h + 1) h :=
    .lines rfl rfl (by simp [skip, Linked, first]) (by simp [skip]; omega)
  have htail : Annotates r (.plain (.push 1 :: Code.truthValue .equal yes done)) tail n (h + 1)
      (h + 1) :=
    .lines rfl rfl (by simp [tail, Linked, first, Instr.falls]) (by simp [tail]; omega)
  refine ⟨la ++ skip ++ lb ++ tail, ((ha.append hskip).append hb).append htail, ?_,
    ((hleaves.append (.plain (by simp))).append hleaves').append
    (.plain (by simp [Code.truthValue]))⟩
  simp only [lands_append]
  exact ⟨⟨⟨hlands.mono fun l hl => by simp [hl], by simp [skip, tail]⟩,
    hlands'.mono fun l hl => by simp [hl]⟩, by simp [skip, tail]⟩

/-- Both branches start with the same height and end with the same height. -/
theorem ite {k : Nat} (hc : Rises r c n h (h + 1)) (hb : Rises r b n h k) (ha : Rises r a n h k)
    (hn : n ≤ h) (hk : n ≤ k) :
    Rises r (c ++ .plain [.push 1, .jump .equal yes] ++ b ++ .plain [.jump .always done,
      .label yes] ++ a ++ .plain [.label done]) n h k := by
  obtain ⟨lc, hc, hlands₁, hleaves₁⟩ := hc
  obtain ⟨lb, hb, hlands₂, hleaves₂⟩ := hb
  obtain ⟨la, ha, hlands₃, hleaves₃⟩ := ha
  let test : List Line := [⟨h + 1, .push 1⟩, ⟨h + 2, .jump .equal yes⟩]
  let between : List Line := [⟨k, .jump .always done⟩, ⟨h, .label yes⟩]
  have htest : Annotates r (.plain [.push 1, .jump .equal yes]) test n (h + 1) h :=
    .lines rfl rfl (by simp [test, Linked, first]) (by simp [test]; omega)
  have hbetween : Annotates r (.plain [.jump .always done, .label yes]) between n k h :=
    .lines rfl rfl (by simp [between, Linked, first, Instr.falls]) (by simp [between]; omega)
  have hend : Annotates r (.plain [.label done]) [⟨k, .label done⟩] n k k :=
    .lines rfl rfl (by simp [Linked, first]) (by simpa using hk)
  refine ⟨lc ++ test ++ lb ++ between ++ la ++ [⟨k, .label done⟩],
    ((((hc.append htest).append hb).append hbetween).append ha).append hend, ?_,
    ((((hleaves₁.append (.plain (by simp))).append hleaves₂).append (.plain (by simp))).append
      hleaves₃).append (.plain (by simp))⟩
  simp only [lands_append]
  exact ⟨⟨⟨⟨⟨hlands₁.mono fun l hl => by simp [hl], by simp [test, between]⟩,
    hlands₂.mono fun l hl => by simp [hl]⟩, by simp [test, between]⟩,
      hlands₃.mono fun l hl => by simp [hl]⟩, by simp⟩

end Rises

theorem Sourced.append_plain_append (m : Sourced) (is js : List Instr) :
    m ++ plain (is ++ js) = m ++ plain is ++ plain js := by
  rw [plain_append, append_assoc]

/-- An annotation that rises by the cells of its type is balanced. -/
theorem Annotates.balanced {r : Resolution} {m : Sourced} {ls : List Line} {h : Nat} {e : Expr}
    {t : Ty} (hm : Annotates r m ls h h (h + t.cells)) (hlands : Lines.Lands ls ls)
    (hinfer : e.infer r = .ok t) (hcall : ∀ sig, e.callee? r = some sig →
      t = sig.result ∧ ∃ ls', ls = ls' ++ [⟨h + sig.paramCells + 3, .bare .js⟩]) :
    e.Balanced r m.code (Lines.heightAt ls (h + t.cells)) 0 m.code.length where
  value := ⟨t, hinfer, by rw [hm.heightAt_stop, Lines.heightAt_zero, hm.first]⟩
  above := by
    intro i x _ _ hx
    rw [hm.getElem?, Option.map_eq_some_iff] at hx
    obtain ⟨l, hl, rfl⟩ := hx
    rw [Lines.heightAt_zero, hm.first, Lines.heightAt_of_getElem? hl]
    exact hm.above l (List.mem_of_getElem? hl)
  inside := by
    intro i kind target _ _ hi
    rw [hm.getElem?, Option.map_eq_some_iff] at hi
    obtain ⟨⟨k, _⟩, hl, rfl⟩ := hi
    obtain ⟨k', hmem, -⟩ := hlands k kind target (List.mem_of_getElem? hl)
    obtain ⟨j, hj⟩ := List.getElem?_of_mem hmem
    refine ⟨j, Nat.zero_le j, ?_, ?_⟩
    · rw [hm.length_eq]
      exact (List.getElem?_eq_some_iff.mp hj).1
    · rw [hm.getElem?, hj]
      rfl
  call := by
    intro sig hsig
    obtain ⟨rfl, ls', rfl⟩ := hcall sig hsig
    have hlength : m.code.length = ls'.length + 1 := by simp [hm.length_eq]
    have hlast : (ls' ++ [⟨h + sig.paramCells + 3, .bare .js⟩])[ls'.length]? =
        some ⟨h + sig.paramCells + 3, Instr.bare .js⟩ := List.getElem?_concat_length
    rw [hm.heightAt_stop, Lines.heightAt_zero, hm.first, hlength, Nat.add_sub_cancel, hm.getElem?,
      hlast, Lines.heightAt_of_getElem? hlast]
    exact ⟨Nat.succ_pos _, rfl, rfl, rfl⟩

namespace Rises

variable {r : Resolution} {a m : Sourced} {h : Nat} {e : Expr} {t : Ty} {sig : Signature}

/-- An expression that is not a call, put together from parts that rise. -/
theorem value (hm : Rises r m h h (h + t.cells)) (hinfer : e.infer r = .ok t)
    (hcallee : e.callee? r = none) :
    Rises r (m.mark (.expr e)) h h (h + t.cells) := by
  obtain ⟨ls, hm, hlands, hleaves⟩ := hm
  exact ⟨ls, hm.mark (hm.balanced hlands hinfer fun sig hsig => nomatch hcallee.symm.trans hsig),
    hlands, hleaves.mark _⟩

/-- A call has the control link, the arguments, the static link and the address on the stack when it
jumps. -/
theorem call {is : List Instr} (ha : Rises r a (h + 1) (h + 1) (h + 1 + sig.paramCells))
    (his : Straight h is (h + 1 + sig.paramCells) (h + sig.paramCells + 3))
    (hinfer : e.infer r = .ok sig.result) (hcallee : e.callee? r = some sig)
    (he : Origin.Leaves (.expr e)) :
    Rises r ((.plain [.bare .lfp] ++ a ++ .plain (is ++ [.bare .js])).mark (.expr e)) h h
      (h + sig.result.cells) := by
  have hlink : Straight h [.bare .lfp] h (h + 1) := ⟨rfl, Nat.le_refl _, rfl⟩
  obtain ⟨ls, hls, hlands, hleaves⟩ :=
    ((Rises.straight hlink).append (ha.mono (Nat.le_succ h))).append (.straight his)
  have hjump : Annotates r (.plain [.bare .js]) [⟨h + sig.paramCells + 3, .bare .js⟩] h
      (h + sig.paramCells + 3) (h + sig.result.cells) :=
      .lines rfl rfl (by simp [Lines.Linked, Instr.falls]) (by simp; omega)
  rw [Sourced.append_plain_append]
  have hm := hls.append hjump
  have hlands' : Lines.Lands (ls ++ [⟨h + sig.paramCells + 3, .bare .js⟩])
      (ls ++ [⟨h + sig.paramCells + 3, .bare .js⟩]) :=
    Lines.lands_append.mpr ⟨hlands.mono (List.subset_append_left _ _), by simp⟩
  refine ⟨_, hm.mark (hm.balanced hlands' hinfer ?_), hlands', hleaves.mark_js he⟩
  intro sig' hsig'
  cases hcallee.symm.trans hsig'
  exact ⟨rfl, ls, rfl⟩

end Rises

namespace Straight

variable {n h : Nat}

/-- The code of a callee, up to the jump. -/
theorem callee (g : CodeContext) (b : Binding) (hn : n ≤ h) :
    ∃ is, (g.frameAccess b ++ if b.entry.ty.isMethod then Code.dispatch b.entry.offset
      else Code.loadClosure b.entry.offset ++ [.bare .js]) = is ++ [.bare .js] ∧
        Straight n is h (h + 2) := by
  split
  · refine ⟨g.frameAccess b ++ (Code.plain [.stm, .ltm, .ltm, .lw] ++ Code.load b.entry.offset),
      ?_, ?_⟩
    · simp [Code.dispatch, Code.plain]
    · refine (frameAccess g b hn).append ?_
      simp [Straight, Code.load, Code.plain]
      omega
  · exact ⟨_, (List.append_assoc _ _ _).symm,
      (frameAccess g b hn).append (loadClosure _ (by omega))⟩

/-- Finding a method through its receiver leaves two cells. -/
theorem receiver (g : CodeContext) (d : Dispatch) (hn : n ≤ h) :
    ∃ is, g.frameAccess d.receiver ++ Code.load d.receiver.entry.offset ++
      Code.dispatch d.method.offset = is ++ [.bare .js] ∧ Straight n is h (h + 2) := by
  refine ⟨g.frameAccess d.receiver ++ Code.load d.receiver.entry.offset ++
    (Code.plain [.stm, .ltm, .ltm, .lw] ++ Code.load d.method.offset), ?_, ?_⟩
  · simp [Code.dispatch, Code.plain]
  · refine ((frameAccess g d.receiver hn).append (load _ (by omega))).append ?_
    simp [Straight, Code.load, Code.plain]
    omega

end Straight

open Emission

section

variable {g : CodeContext}

/-- What the code of two operands does to the stack, in either order. -/
theorem Rises.operands {r : Resolution} {a b : Sourced} {x y : Ty} {h : Nat}
    (ha : ∀ h, Rises r a h h (h + x.cells)) (hb : ∀ h, Rises r b h h (h + y.cells))
    (hx : x.cells = 1) (hy : y.cells = 1) : Rises r (a ++ b) h h (h + 2) := by
  have ha := ha h
  have hb := (hb (h + 1)).mono (Nat.le_succ h)
  rw [hx] at ha
  rw [hy] at hb
  exact ha.append hb

/-- A comparison rises by one cell if its operands do. -/
theorem compareSourced_rises {r : Resolution} {kind : Jump} {x y : LabelM Sourced} {m : Sourced}
    {s s' : LabelSupply} (hm : compareSourced kind x y s = .ok (m, s')) (hkind : kind ≠ .always)
    {h : Nat} (hparts : ∀ {a b s₁ s₂}, x s₁ = .ok (a, s₂) → y s₂ = .ok (b, s') →
      Rises r (a ++ b) h h (h + 2)) :
    Rises r m h h (h + 1) := by
  simp only [compareSourced, bind_eq_ok, pure_eq_ok, Prod.mk.injEq] at hm
  obtain ⟨yes, _, -, done, _, -, a, s₂, ha, b, _, hb, rfl, rfl⟩ := hm
  exact (hparts ha hb).append (.truthValue hkind (Nat.le_refl h))

/-- An operator takes the cells of its operands, whichever comes first, and leaves one. -/
theorem Rises.binary {op : BinOp} {left right : Expr} {pos : SourcePos} {t : Ty} {m : Sourced}
    {s s' : LabelSupply}
    (hleft : ∀ {x a s s'}, left.infer g.resolution = .ok x → left.sourced g s = .ok (a, s') →
      ∀ h, Rises g.resolution a h h (h + x.cells))
    (hright : ∀ {y b s s'}, right.infer g.resolution = .ok y → right.sourced g s = .ok (b, s') →
      ∀ h, Rises g.resolution b h h (h + y.cells))
    (hinfer : (Expr.binary op left right pos).infer g.resolution = .ok t)
    (hm : (Expr.binary op left right pos).sourced g s = .ok (m, s')) (h : Nat) :
    Rises g.resolution m h h (h + t.cells) := by
  have hval := hinfer
  simp only [Expr.infer, Except.bind_eq_ok] at hval
  obtain ⟨x, hx, y, hy, hop⟩ := hval
  obtain ⟨hxc, hyc, htc⟩ := BinOp.infer_cells hop
  cases op with
  | add | sub | mul | div | and =>
    simp only [Expr.sourced, map_eq_ok, bind_eq_ok, pure_eq_ok, Prod.mk.injEq] at hm
    obtain ⟨_, ⟨a, s₁, ha, b, _, hb, rfl, rfl⟩, rfl⟩ := hm
    refine .value (.append (.operands (hleft hx ha) (hright hy hb) hxc hyc) (.straight ?_))
      hinfer rfl
    rw [htc]
    exact ⟨rfl, Nat.le_refl _, rfl⟩
  | or =>
    simp only [Expr.sourced, map_eq_ok, bind_eq_ok, pure_eq_ok, Prod.mk.injEq] at hm
    obtain ⟨_, ⟨yes, _, -, done, _, -, a, s₁, ha, b, _, hb, rfl, rfl⟩, rfl⟩ := hm
    refine .value ?_ hinfer rfl
    rw [htc]
    exact .or (hxc ▸ hleft hx ha h) (hyc ▸ hright hy hb h) (Nat.le_refl h)
  | equal | lessEqual =>
    simp only [Expr.sourced, map_eq_ok] at hm
    obtain ⟨m, hm, rfl⟩ := hm
    refine .value ?_ hinfer rfl
    rw [htc]
    exact compareSourced_rises hm (by simp) fun ha hb =>
      .operands (hleft hx ha) (hright hy hb) hxc hyc
  | greaterEqual =>
    simp only [Expr.sourced, map_eq_ok] at hm
    obtain ⟨m, hm, rfl⟩ := hm
    refine .value ?_ hinfer rfl
    rw [htc]
    exact compareSourced_rises hm (by simp) fun hb ha =>
      .operands (hright hy hb) (hleft hx ha) hyc hxc

mutual

/-- The code of an expression raises the stack by the cells of its type. -/
theorem Expr.rises :
    ∀ (e : Expr) {t : Ty} {m : Sourced} {s s' : LabelSupply}, e.infer g.resolution = .ok t →
    e.sourced g s = .ok (m, s') → ∀ h, Rises g.resolution m h h (h + t.cells)
  | .int v pos, t, m, s, s', hinfer, hm, h | .bool v pos, t, m, s, s', hinfer, hm, h
  | .null pos, t, m, s, s', hinfer, hm, h => by
    have hval := hinfer
    rw [Expr.infer] at hval
    cases hval
    simp only [Expr.sourced, map_eq_ok, pure_eq_ok, Prod.mk.injEq] at hm
    obtain ⟨_, ⟨rfl, rfl⟩, rfl⟩ := hm
    exact .value (.straight ⟨rfl, Nat.le_refl _, rfl⟩) hinfer rfl
  | .name id x pos, t, m, s, s', hinfer, hm, h => by
    have hval := hinfer
    simp only [Expr.infer, Except.bind_eq_ok, Resolution.useOf_eq_ok] at hval
    simp only [Expr.sourced, map_eq_ok, bind_eq_ok, pure_eq_ok, CodeContext.useOf_eq_ok,
      Prod.mk.injEq] at hm
    obtain ⟨_, ⟨b, _, ⟨_, hb, rfl, rfl⟩, rfl, rfl⟩, rfl⟩ := hm
    obtain ⟨b', hb', hval⟩ := hval
    cases hb.symm.trans hb'
    obtain ⟨rfl, hcells⟩ := Ty.asValue_eq_ok hval
    refine .value (.straight (.append (Straight.frameAccess g _ (Nat.le_refl h)) ?_)) hinfer rfl
    rw [hcells]
    split
    · exact Straight.loadClosure _ (Nat.le_refl _)
    · exact Straight.load _ (Nat.le_refl _)
  | .binary _ left right _, _, _, _, _, hinfer, hm, h => .binary left.rises right.rises hinfer hm h
  | .not e pos, t, m, s, s', hinfer, hm, h => by
    have hval := hinfer
    rw [Expr.infer, Except.bind_eq_ok] at hval
    obtain ⟨x, hx, hval⟩ := hval
    split at hval
    next hbool =>
      cases hval
      simp only [Expr.sourced, map_eq_ok, bind_eq_ok, pure_eq_ok, Prod.mk.injEq] at hm
      obtain ⟨_, ⟨a, _, ha, rfl, rfl⟩, rfl⟩ := hm
      have hrise := (e.rises hx ha (h + 1)).mono (Nat.le_succ h)
      rw [Hierarchy.cells_of_isSubtype hbool] at hrise
      refine .value (.append (.append (.straight ?_) hrise) (.straight ?_)) hinfer rfl
      · exact ⟨rfl, Nat.le_refl _, rfl⟩
      · exact ⟨rfl, Nat.le_refl _, rfl⟩
    next => cases hval
  | .ite c y n pos, t, m, s, s', hinfer, hm, h => by
    have hval := hinfer
    rw [Expr.infer, Except.bind_eq_ok] at hval
    obtain ⟨x, hx, hval⟩ := hval
    split at hval
    next hbool =>
      simp only [Except.bind_eq_ok] at hval
      obtain ⟨a, ha, b, hb, hval⟩ := hval
      split at hval
      next hjoin =>
        cases hval
        obtain ⟨hac, hbc⟩ := Hierarchy.cells_of_join? hjoin
        simp only [Expr.sourced, map_eq_ok, bind_eq_ok, pure_eq_ok, Prod.mk.injEq] at hm
        obtain ⟨_, ⟨taken, _, -, done, _, -, cc, _, hcc, cn, _, hcn, cy, _, hcy, rfl, rfl⟩, rfl⟩ :=
          hm
        have hcond := c.rises hx hcc h
        rw [Hierarchy.cells_of_isSubtype hbool] at hcond
        refine .value (.ite hcond (hbc ▸ n.rises hb hcn h) (hac ▸ y.rises ha hcy h)
          (Nat.le_refl h) ?_) hinfer rfl
        exact Nat.le_add_right _ _
      next => cases hval
    next => cases hval
  | .print e pos, t, m, s, s', hinfer, hm, h => by
    have hval := hinfer
    rw [Expr.infer] at hval
    simp only [Expr.sourced, map_eq_ok, bind_eq_ok, pure_eq_ok, Prod.mk.injEq] at hm
    obtain ⟨_, ⟨a, _, ha, rfl, rfl⟩, rfl⟩ := hm
    refine .value (.append (e.rises hval ha h) (.straight ⟨rfl, ?_, ?_⟩)) hinfer rfl
    · exact Nat.add_le_add_left t.cells_pos h
    · exact Nat.sub_add_cancel (Nat.le_trans t.cells_pos (Nat.le_add_left _ _))
  | .call id callee args pos, t, m, s, s', hinfer, hm, h => by
    have hval := hinfer
    simp only [Expr.infer, Except.bind_eq_ok, Resolution.useOf_eq_ok, Ty.asCallee_eq_ok] at hval
    obtain ⟨b, hb, sig, ⟨hsig, hlength⟩, _, hcheck, ⟨⟩⟩ := hval
    simp only [Expr.sourced, map_eq_ok, bind_eq_ok, pure_eq_ok, CodeContext.useOf_eq_ok,
      Prod.mk.injEq] at hm
    obtain ⟨_, ⟨b', _, ⟨_, hb', rfl, rfl⟩, a, _, ha, rfl, rfl⟩, rfl⟩ := hm
    cases hb.symm.trans hb'
    have hargs := argumentsSourced_rises args hcheck hlength.symm ha (h + 1)
    obtain ⟨is, heq, his⟩ := Straight.callee g b (n := h) (h := h + 1 + sig.paramCells) (by omega)
    rw [heq]
    refine .call hargs ?_ hinfer (by simp [Expr.callee?, hb, hsig]) trivial
    rwa [show h + sig.paramCells + 3 = h + 1 + sig.paramCells + 2 by omega]
  | .send id receiver method args pos, t, m, s, s', hinfer, hm, h => by
    have hval := hinfer
    simp only [Expr.infer, Except.bind_eq_ok, Resolution.sendOf_eq_ok, Ty.asCallee_eq_ok] at hval
    obtain ⟨d, hd, sig, ⟨hsig, hlength⟩, _, hcheck, ⟨⟩⟩ := hval
    simp only [Expr.sourced, map_eq_ok, bind_eq_ok, pure_eq_ok, CodeContext.sendOf_eq_ok,
      Prod.mk.injEq] at hm
    obtain ⟨_, ⟨d', _, ⟨_, hd', rfl, rfl⟩, a, _, ha, rfl, rfl⟩, rfl⟩ := hm
    cases hd.symm.trans hd'
    have hargs := argumentsSourced_rises args hcheck hlength.symm ha (h + 1)
    obtain ⟨is, heq, his⟩ := Straight.receiver g d (n := h) (h := h + 1 + sig.paramCells) (by omega)
    rw [heq]
    refine .call hargs ?_ hinfer (by simp [Expr.callee?, hd, hsig]) trivial
    rwa [show h + sig.paramCells + 3 = h + 1 + sig.paramCells + 2 by omega]
  | .new id cls args pos, t, m, s, s', hinfer, hm, h => by
    have hval := hinfer
    simp only [Expr.infer, Except.bind_eq_ok, Resolution.useOf_eq_ok, Ty.asClass_eq_ok] at hval
    obtain ⟨b, hb, c, ⟨hty, hlength⟩, _, hcheck, ⟨⟩⟩ := hval
    simp only [Expr.sourced, map_eq_ok, bind_eq_ok, CodeContext.useOf_eq_ok, Prod.mk.injEq] at hm
    obtain ⟨_, ⟨b', _, ⟨_, hb', rfl, rfl⟩, hm⟩, rfl⟩ := hm
    cases hb.symm.trans hb'
    simp only [hty, bind_eq_ok, pure_eq_ok, Prod.mk.injEq] at hm
    obtain ⟨a, _, ha, rfl, rfl⟩ := hm
    have hvalues := valuesSourced_rises args hcheck hlength.symm ha h
    exact .value (hvalues.append (.straight (Straight.makeObject c.cells _ (Nat.le_refl h))))
      hinfer rfl

/-- Arguments of a call rise by the cells of the parameters. -/
theorem argumentsSourced_rises :
    ∀ (es : List Expr) {ts : List Ty} {wrong : Nat → TypingError} {n : Nat} {m : Sourced}
    {s s' : LabelSupply}, checkArgs g.resolution wrong n es ts = .ok () → es.length = ts.length →
      argumentsSourced g es s = .ok (m, s') →
      ∀ h, Rises g.resolution m h h (h + totalCells Ty.cells ts)
  | [], [], wrong, n, m, s, s', _, _, hm, h => by
    simp only [argumentsSourced, pure_eq_ok, Prod.mk.injEq] at hm
    obtain ⟨rfl, rfl⟩ := hm
    exact .straight rfl
  | e :: es, t :: ts, wrong, n, m, s, s', hcheck, hlength, hm, h => by
    rw [checkArgs, Except.bind_eq_ok] at hcheck
    obtain ⟨x, hx, hcheck⟩ := hcheck
    split at hcheck
    next hsub =>
      simp only [argumentsSourced, bind_eq_ok, pure_eq_ok, Prod.mk.injEq] at hm
      obtain ⟨a, s₁, ha, b, _, hb, rfl, rfl⟩ := hm
      have hrest := argumentsSourced_rises es hcheck (Nat.succ.inj hlength) ha h
      have hfirst := (e.rises hx hb (h + totalCells Ty.cells ts)).mono (Nat.le_add_right h _)
      rw [Hierarchy.cells_of_isSubtype hsub] at hfirst
      rw [totalCells_cons, Nat.add_comm t.cells, ← Nat.add_assoc]
      exact hrest.append hfirst
    next => cases hcheck

/-- Arguments of a constructor rise by the cells of the fields. -/
theorem valuesSourced_rises :
    ∀ (es : List Expr) {ts : List Ty} {wrong : Nat → TypingError} {n : Nat} {m : Sourced}
    {s s' : LabelSupply}, checkArgs g.resolution wrong n es ts = .ok () → es.length = ts.length →
      valuesSourced g es s = .ok (m, s') →
      ∀ h, Rises g.resolution m h h (h + totalCells Ty.cells ts)
  | [], [], wrong, n, m, s, s', _, _, hm, h => by
    simp only [valuesSourced, pure_eq_ok, Prod.mk.injEq] at hm
    obtain ⟨rfl, rfl⟩ := hm
    exact .straight rfl
  | e :: es, t :: ts, wrong, n, m, s, s', hcheck, hlength, hm, h => by
    rw [checkArgs, Except.bind_eq_ok] at hcheck
    obtain ⟨x, hx, hcheck⟩ := hcheck
    split at hcheck
    next hsub =>
      simp only [valuesSourced, bind_eq_ok, pure_eq_ok, Prod.mk.injEq] at hm
      obtain ⟨a, s₁, ha, b, _, hb, rfl, rfl⟩ := hm
      have hfirst := e.rises hx ha h
      rw [Hierarchy.cells_of_isSubtype hsub] at hfirst
      have hrest := (valuesSourced_rises es hcheck (Nat.succ.inj hlength) hb (h + t.cells)).mono
        (Nat.le_add_right h _)
      rw [totalCells_cons, ← Nat.add_assoc]
      exact hfirst.append hrest
    next => cases hcheck

end

end

end Stackling
