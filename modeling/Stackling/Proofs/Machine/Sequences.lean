import Stackling.Code.Sequence
import Stackling.Proofs.Machine.Config

/-!
# Instruction sequences on configurations

What the fixed pieces of generated code do: loads through a frame, stores to the heap, the creation
of an object, the end of a function.
-/

namespace Stackling

/-! ### Sizes -/

namespace Code

theorem size_plain (ops : List Bare) : size (plain ops) = ops.length := by
  induction ops with
  | nil => rfl
  | cons op ops ih =>
    rw [List.length_cons, ← ih, Nat.add_comm]
    exact size_cons _ _

theorem size_pops (n : Nat) : size (pops n) = n := by
  rw [pops, size_plain, List.length_replicate]

theorem size_heapStores (n : Nat) : size (List.replicate n heapStore).flatten = 6 * n := by
  induction n with
  | zero => rfl
  | succ n ih =>
    rw [List.replicate_succ, List.flatten_cons, size_append, ih, Nat.mul_succ, Nat.add_comm]
    rfl

theorem size_makeObject (n : Nat) (slot : Int32) : size (makeObject n slot) = 6 * n + 9 := by
  rw [makeObject, size_append, size_append, size_heapStores]
  rfl

theorem size_epilogue (localCells paramCells : Nat) (closure : Bool) :
    size (epilogue localCells paramCells closure) =
      localCells + paramCells + if closure then 11 else 7 := by
  cases closure <;> simp only [epilogue, size_append, size_pops, size_plain] <;> simp <;> omega

theorem size_tableEntries (methods : List Label) :
    size (methods.flatMap fun l => .pushLabel l :: heapStore) = 7 * methods.length := by
  induction methods with
  | nil => rfl
  | cons l methods ih =>
    rw [List.flatMap_cons, size_append, ih, List.length_cons, Nat.mul_succ, Nat.add_comm]
    rfl

theorem size_dispatchTable (methods : List Label) :
    size (dispatchTable methods) = 1 + 7 * methods.length := by
  rw [dispatchTable, size_cons, size_tableEntries]
  rfl

end Code

namespace Platform

variable {w : Platform} {pc : Nat} {st heap : List Int32} {fp ra tm : Int32} {out : Array Int32}
  {o : Option Int32}

/-! ### The heap -/

theorem Rep.spared {c : Config} {s : State} (h : w.Rep c s) {v : Int32}
    (hv : s.memory.get? c.heap.length = some v) : w.Rep { c with spare := some v } s :=
  { h with
    spare := by
      intro x hx _
      rw [hv]
      exact hx }

/-- A store to the first free cell of the heap. -/
theorem moves_sw {v : Int32} (hop : w.image.ops[pc]? = some (.bare .sw)) :
    w.Moves ⟨pc, Int32.ofNat heap.length :: v :: st, heap, fp, ra, tm, out, o⟩
      ⟨pc + 1, st, heap, fp, ra, tm, out, some v⟩ := by
  refine .of_perform hop (by grind) fun s hs ip => ?_
  have hsize := w.size_lt
  have hroom : heap.length + (st.length + 1 + 1) ≤ w.size := hs.apart
  obtain ⟨hpop, hrep⟩ := hs.pop rfl ip
  obtain ⟨hpop', hrep'⟩ := hrep.pop rfl ip
  have hplace : (Int32.ofNat heap.length).toNatClampNeg = heap.length :=
    Int32.toNatClampNeg_ofNat_of_lt (by omega)
  have hcell : (s.memory.cell? (Int32.ofNat heap.length)).isSome := by
    rw [cell?_ofNat (by omega), Option.isSome_iff_ne_none, ne_eq, Memory.get?_eq_none_iff, hs.size]
    omega
  have hget : ∀ a, a ≠ heap.length → (s.memory.set heap.length v).get? a = s.memory.get? a := by
    intro a ha
    rw [Memory.get?_set, if_neg (fun hc => ha hc.1.symm)]
  refine ⟨{ s with sp := s.sp + 1 + 1, memory := s.memory.set heap.length v }, ?_, ?_, ?_, ?_, ?_⟩
  · have hstore : ∀ t : State, t.memory = s.memory → t.store ip (Int32.ofNat heap.length) v =
        .ok { t with memory := t.memory.set heap.length v } := by
      intro t ht
      rw [State.store, ht, if_pos hcell, hplace]
    simp only [State.perform, hpop, hpop', bind, Except.bind]
    rw [hstore { s with sp := s.sp + 1 + 1 } rfl]
    rfl
  · refine ⟨hrep'.ip, ?_, hrep'.apart, hrep'.sp, hrep'.hp, ?_, ?_, ?_, hrep'.fp, hrep'.ra, hrep'.tm,
      hrep'.output⟩
    · rw [Memory.size_set]
      exact hs.size
    · intro i x hi
      rw [hget _ (by dsimp only; omega)]
      exact hrep'.stack i x hi
    · intro i x hi
      have hlt : i < heap.length := (List.getElem?_eq_some_iff.mp hi).1
      rw [hget _ (by omega)]
      exact hs.heap i x hi
    · intro x hx _
      rw [Memory.get?_set, if_pos ⟨rfl, by rw [hs.size]; dsimp only; omega⟩]
      exact hx
  · exact (hs.keeps rfl rfl).nonneg
  · exact Int32.le_refl _
  · intro a ha
    rw [show s.hp = Int32.ofNat heap.length from hs.hp, hplace] at ha
    exact hget _ (by omega)

theorem moves_add_spared {l r v : Int32} (hop : w.image.ops[pc]? = some (.bare .add))
    (hroom : heap.length + (st.length + 2) < w.size) :
    w.Moves ⟨pc, r :: l :: st, heap, fp, ra, tm, out, some v⟩
      ⟨pc + 1, (l + r) :: st, heap, fp, ra, tm, out, some v⟩ := by
  refine .of_perform hop (by grind) fun s hs ip => ?_
  obtain ⟨htwo, hrep⟩ := hs.popTwo rfl ip
  obtain ⟨s', hpush, hrep', hkeeps⟩ :=
    (hrep.spared (hs.spare v rfl hroom)).push_of_lt (by dsimp only; omega) ip (l + r)
  refine ⟨s', ?_, hrep', ⟨hkeeps.nonneg, hkeeps.grows, hkeeps.kept⟩⟩
  simp only [State.perform, State.binary, htwo, bind, Except.bind, hpush]
  rfl

theorem moves_shp {v : Int32} (hop : w.image.ops[pc]? = some (.bare .shp))
    (hroom : heap.length + (st.length + 1) < w.size) :
    w.Moves ⟨pc, Int32.ofNat (heap.length + 1) :: st, heap, fp, ra, tm, out, some v⟩
      ⟨pc + 1, st, heap ++ [v], fp, ra, tm, out, none⟩ := by
  refine .of_perform hop (by grind) fun s hs ip => ?_
  have hsize := w.size_lt
  have hspare := hs.spare v rfl hroom
  obtain ⟨hpop, hrep⟩ := hs.pop rfl ip
  refine ⟨{ s with sp := s.sp + 1, hp := Int32.ofNat (heap.length + 1) }, ?_, ?_, ?_, ?_,
    fun _ _ => rfl⟩
  · simp only [State.perform, hpop, bind, Except.bind]
    rfl
  · refine ⟨hrep.ip, hrep.size, ?_, hrep.sp, ?_, hrep.stack, ?_, ?_, hrep.fp, hrep.ra, hrep.tm,
      hrep.output⟩
    · rw [List.length_append, List.length_singleton]
      dsimp only
      omega
    · rw [List.length_append, List.length_singleton]
    · intro i x hi
      rcases Nat.lt_or_ge i heap.length with hlt | hge
      · rw [List.getElem?_append_left hlt] at hi
        exact hs.heap i x hi
      · rw [List.getElem?_append_right hge, List.getElem?_singleton] at hi
        split at hi
        next hz =>
          obtain rfl : i = heap.length := by omega
          exact hspare.trans hi
        next => cases hi
    · intro _ hnone
      cases hnone
  · exact (hs.keeps rfl rfl).nonneg
  · rw [show s.hp = Int32.ofNat heap.length from hs.hp, Int32.ofNat_le_iff_le (by omega) (by omega)]
    exact Nat.le_succ _

/-- Advancing the heap pointer takes the spare cell over to the heap. -/
theorem passes_advance {v : Int32} (hadd : w.image.ops[pc]? = some (.bare .add))
    (hshp : w.image.ops[pc + 1]? = some (.bare .shp))
    (hroom : heap.length + (st.length + 2) < w.size) :
    w.Passes 2 ⟨pc, 1 :: Int32.ofNat heap.length :: st, heap, fp, ra, tm, out, some v⟩
      ⟨pc + 2, st, heap ++ [v], fp, ra, tm, out, none⟩ := by
  have hsum : Int32.ofNat heap.length + 1 = Int32.ofNat (heap.length + 1) := by
    rw [Int32.ofNat_add]
    rfl
  refine .snoc (moves_add_spared hadd hroom).passes ?_
  rw [hsum]
  exact moves_shp hshp (by omega)

/-- Without room for that, the spare cell is lost by then. -/
theorem reach_advance {v : Int32} (hadd : w.image.ops[pc]? = some (.bare .add))
    (hshp : w.image.ops[pc + 1]? = some (.bare .shp)) :
    w.Reach 2 ⟨pc, 1 :: Int32.ofNat heap.length :: st, heap, fp, ra, tm, out, some v⟩
      ⟨pc + 2, st, heap ++ [v], fp, ra, tm, out, none⟩ := by
  intro s hs
  have hsize := w.size_lt
  rcases Nat.lt_or_eq_of_le hs.apart with hroom | hfull
  · exact (passes_advance hadd hshp hroom).reach s hs
  · refine .inl ⟨?_, .inr ?_⟩
    · rw [hs.sp, hs.hp, Int32.ofNat_le_iff_le (by omega) (by omega)]
      omega
    · rw [hs.ip]
      exact ⟨hadd, hshp⟩

/-- Moves the top of the stack to the end of the heap. -/
theorem reach_heapStore {v : Int32} (hcode : w.image.CodeAt w.address pc Code.heapStore) :
    w.Reach 6 ⟨pc, v :: st, heap, fp, ra, tm, out, none⟩
      ⟨pc + 6, st, heap ++ [v], fp, ra, tm, out, none⟩ := by
  simp only [Code.heapStore, Code.plain, List.map, List.cons_append, List.nil_append,
    Image.codeAt_bare, Image.codeAt_push, Image.codeAt_nil, and_true] at hcode
  obtain ⟨h₁, h₂, h₃, h₄, h₅, h₆⟩ := hcode
  exact ((((reach_lhp h₁).trans (moves_sw h₂).reach).trans (reach_lhp h₃)).trans
    (reach_push h₄)).trans (reach_advance h₅ h₆)

theorem passes_heapStore {v : Int32} (hcode : w.image.CodeAt w.address pc Code.heapStore)
    (hroom : heap.length + (st.length + 2) < w.size) :
    w.Passes 6 ⟨pc, v :: st, heap, fp, ra, tm, out, none⟩
      ⟨pc + 6, st, heap ++ [v], fp, ra, tm, out, none⟩ := by
  simp only [Code.heapStore, Code.plain, List.map, List.cons_append, List.nil_append,
    Image.codeAt_bare, Image.codeAt_push, Image.codeAt_nil, and_true] at hcode
  obtain ⟨h₁, h₂, h₃, h₄, h₅, h₆⟩ := hcode
  refine .trans
    (.snoc (.snoc (.snoc (moves_lhp h₁ ?_).passes (moves_sw h₂)) (moves_lhp h₃ (by omega)))
      (moves_push h₄ ?_)) (passes_advance h₅ h₆ hroom)
  all_goals rw [List.length_cons]; omega

/-- Stores the topmost values one after the other, the top first. -/
theorem reach_heapStores {vs : List Int32}
    (hcode : w.image.CodeAt w.address pc (List.replicate vs.length Code.heapStore).flatten) :
    w.Reach (6 * vs.length) ⟨pc, vs ++ st, heap, fp, ra, tm, out, none⟩
      ⟨pc + 6 * vs.length, st, heap ++ vs, fp, ra, tm, out, none⟩ := by
  induction vs generalizing pc heap with
  | nil =>
    rw [List.append_nil]
    exact .refl w _
  | cons v vs ih =>
    rw [List.length_cons, List.replicate_succ, List.flatten_cons, Image.codeAt_append] at hcode
    have hrest := (reach_heapStore hcode.1).trans (@ih (pc + 6) (heap ++ [v]) hcode.2)
    rw [List.append_assoc] at hrest
    rw [List.length_cons, Nat.mul_succ, Nat.add_comm _ 6, ← Nat.add_assoc]
    exact hrest

/-- The gap between stack and heap stays the same. -/
theorem passes_heapStores {vs : List Int32}
    (hcode : w.image.CodeAt w.address pc (List.replicate vs.length Code.heapStore).flatten)
    (hroom : heap.length + (vs ++ st).length + 1 < w.size) :
    w.Passes (6 * vs.length) ⟨pc, vs ++ st, heap, fp, ra, tm, out, none⟩
      ⟨pc + 6 * vs.length, st, heap ++ vs, fp, ra, tm, out, none⟩ := by
  induction vs generalizing pc heap with
  | nil =>
    rw [List.append_nil]
    exact .refl _
  | cons v vs ih =>
    rw [List.length_cons, List.replicate_succ, List.flatten_cons, Image.codeAt_append] at hcode
    rw [List.cons_append, List.length_cons] at hroom
    have hfirst : w.Passes 6 ⟨pc, v :: (vs ++ st), heap, fp, ra, tm, out, none⟩
        ⟨pc + 6, vs ++ st, heap ++ [v], fp, ra, tm, out, none⟩ :=
        passes_heapStore hcode.1 (by omega)
    have hrest := hfirst.trans
      (@ih (pc + 6) (heap ++ [v]) hcode.2
        (by rw [List.length_append, List.length_singleton]; omega))
    rw [List.append_assoc] at hrest
    rw [List.length_cons, Nat.mul_succ, Nat.add_comm _ 6, ← Nat.add_assoc]
    exact hrest

/-- Makes an object from the topmost values, the top being the last field, and the dispatch pointer
at an address. -/
theorem reach_makeObject {vs : List Int32} {slot table : Int32}
    (hcode : w.image.CodeAt w.address pc (Code.makeObject vs.length slot))
    (htable : w.Has st (heap ++ vs) slot table) :
    w.Reach (6 * vs.length + 9) ⟨pc, vs ++ st, heap, fp, ra, tm, out, none⟩
      ⟨pc + (6 * vs.length + 9), Int32.ofNat (heap.length + vs.length) :: st, heap ++ vs ++ [table],
        fp, ra, tm, out, none⟩ := by
  simp only [Code.makeObject, Code.plain, List.map, List.append_assoc, List.cons_append,
    List.nil_append, Image.codeAt_append, Image.codeAt_bare, Image.codeAt_push, Image.codeAt_nil,
    and_true, Code.size_heapStores] at hcode
  obtain ⟨hstores, h₁, h₂, h₃, h₄, h₅, h₆, h₇, h₈, h₉⟩ := hcode
  rw [← List.length_append]
  exact (reach_heapStores hstores).trans
    ((((((((reach_push h₁).trans (reach_lw h₂ htable)).trans (reach_lhp h₃)).trans
      (moves_sw h₄).reach).trans (reach_lhp h₅)).trans (reach_lhp h₆)).trans (reach_push h₇)).trans
        (reach_advance h₈ h₉))

/-- Three cells between stack and heap are enough, and a fourth one for the spare cell. -/
theorem passes_makeObject {vs : List Int32} {slot table : Int32}
    (hcode : w.image.CodeAt w.address pc (Code.makeObject vs.length slot))
    (htable : w.Has st (heap ++ vs) slot table)
    (hroom : heap.length + (vs ++ st).length + 3 < w.size) :
    w.Passes (6 * vs.length + 9) ⟨pc, vs ++ st, heap, fp, ra, tm, out, none⟩
      ⟨pc + (6 * vs.length + 9), Int32.ofNat (heap.length + vs.length) :: st, heap ++ vs ++ [table],
        fp, ra, tm, out, none⟩ := by
  simp only [Code.makeObject, Code.plain, List.map, List.append_assoc, List.cons_append,
    List.nil_append, Image.codeAt_append, Image.codeAt_bare, Image.codeAt_push, Image.codeAt_nil,
    and_true, Code.size_heapStores] at hcode
  obtain ⟨hstores, h₁, h₂, h₃, h₄, h₅, h₆, h₇, h₈, h₉⟩ := hcode
  have hsum : (heap ++ vs).length + st.length + 3 < w.size := by
    simp only [List.length_append] at hroom ⊢
    omega
  rw [← List.length_append]
  refine (passes_heapStores hstores (by omega)).trans
    (.trans (.snoc
      (.snoc (.snoc (.snoc (.snoc (.snoc (moves_push h₁ (by omega)).passes (moves_lw h₂ htable))
        (moves_lhp h₃ ?_)) (moves_sw h₄)) (moves_lhp h₅ (by omega)))
    (moves_lhp h₆ ?_)) (moves_push h₇ ?_)) (passes_advance h₈ h₉ ?_))
  all_goals simp only [List.length_cons]; omega

/-! ### Frames -/

theorem reach_load {a v offset : Int32} (hcode : w.image.CodeAt w.address pc (Code.load offset))
    (hv : w.Has st heap (a + offset) v) :
    w.Reach 3 ⟨pc, a :: st, heap, fp, ra, tm, out, none⟩
      ⟨pc + 3, v :: st, heap, fp, ra, tm, out, none⟩ := by
  simp only [Code.load, Code.plain, List.map, Image.codeAt_bare, Image.codeAt_push,
    Image.codeAt_nil, and_true] at hcode
  obtain ⟨h₁, h₂, h₃⟩ := hcode
  exact ((reach_push h₁).trans (reach_add h₂)).trans (reach_lw h₃ hv)

/-- Loads the two cells of a function value. -/
theorem reach_loadClosure {a v v' offset : Int32}
    (hcode : w.image.CodeAt w.address pc (Code.loadClosure offset))
    (hv : w.Has st heap (a + offset) v) (hv' : w.Has st heap (a + (offset - 1)) v') :
    w.Reach 9 ⟨pc, a :: st, heap, fp, ra, tm, out, none⟩
      ⟨pc + 9, v' :: v :: st, heap, fp, ra, a, out, none⟩ := by
  simp only [Code.loadClosure, Code.plain, List.map, List.append_assoc, List.cons_append,
    List.nil_append, Image.codeAt_append, Image.codeAt_bare] at hcode
  obtain ⟨h₁, h₂, h₃, h₄, h₅⟩ := hcode
  exact ((((reach_stm h₁).trans (reach_ltm h₂)).trans (reach_load h₃ hv)).trans
    (reach_ltm h₄)).trans (reach_load h₅ (hv'.mono (List.suffix_cons v st) (List.prefix_refl heap)))

/-- A chain of so many cells from one address to another, each holding the next address. -/
def Chain (w : Platform) (st heap : List Int32) : Nat → Int32 → Int32 → Prop
  | 0, a, b => a = b
  | n + 1, a, b => ∃ a', w.Has st heap a a' ∧ w.Chain st heap n a' b

theorem reach_hops {n : Nat} {a b : Int32}
    (hcode : w.image.CodeAt w.address pc (Code.plain (List.replicate n .lw)))
    (h : w.Chain st heap n a b) :
    w.Reach n ⟨pc, a :: st, heap, fp, ra, tm, out, none⟩
      ⟨pc + n, b :: st, heap, fp, ra, tm, out, none⟩ := by
  induction n generalizing pc a with
  | zero =>
    obtain rfl : a = b := h
    exact .refl w _
  | succ n ih =>
    obtain ⟨a', ha, hrest⟩ := h
    rw [List.replicate_succ] at hcode
    obtain ⟨hlw, hcode⟩ := Image.codeAt_bare.mp hcode
    rw [Nat.add_comm n 1, ← Nat.add_assoc]
    exact (reach_lw hlw ha).trans (ih hcode hrest)

theorem passes_pops {xs : List Int32} (hcode : w.image.CodeAt w.address pc (Code.pops xs.length)) :
    w.Passes xs.length ⟨pc, xs ++ st, heap, fp, ra, tm, out, none⟩
      ⟨pc + xs.length, st, heap, fp, ra, tm, out, none⟩ := by
  induction xs generalizing pc with
  | nil => exact .refl _
  | cons x xs ih =>
    rw [List.length_cons, Code.pops, List.replicate_succ] at hcode
    obtain ⟨hpop, hcode⟩ := Image.codeAt_bare.mp hcode
    rw [List.length_cons, Nat.add_comm _ 1, ← Nat.add_assoc]
    exact (moves_of_pop hpop pops_pop).passes.trans (ih hcode)

theorem passes_pops_keeping {xs : List Int32}
    (hcode : w.image.CodeAt w.address pc (Code.pops xs.length))
    (hroom : heap.length + (xs ++ st).length < w.size) :
    w.Passes xs.length ⟨pc, xs ++ st, heap, fp, ra, tm, out, o⟩
      ⟨pc + xs.length, st, heap, fp, ra, tm, out, o⟩ := by
  induction xs generalizing pc with
  | nil => exact .refl _
  | cons x xs ih =>
    rw [List.length_cons, Code.pops, List.replicate_succ] at hcode
    obtain ⟨hpop, hcode⟩ := Image.codeAt_bare.mp hcode
    rw [List.length_cons, Nat.add_comm _ 1, ← Nat.add_assoc]
    exact (moves_of_pop_keeping hpop pops_pop hroom).passes.trans
      (ih hcode (Nat.lt_of_le_of_lt (Nat.add_le_add_left (Nat.le_succ _) _) hroom))

/-- Loads what was stored in the first free cell of the heap. -/
theorem moves_lw_spare {v : Int32} (hop : w.image.ops[pc]? = some (.bare .lw))
    (hroom : heap.length + (st.length + 1) < w.size) :
    w.Moves ⟨pc, Int32.ofNat heap.length :: st, heap, fp, ra, tm, out, some v⟩
      ⟨pc + 1, v :: st, heap, fp, ra, tm, out, none⟩ := by
  refine moves_of_load hop fun s hs => ?_
  have hsize := w.size_lt
  rw [cell?_ofNat (by omega)]
  exact hs.spare v rfl hroom

/-- Writes the methods of a dispatch table behind the heap, one after the other. -/
theorem reach_tableEntries {methods : List Label}
    (hcode : w.image.CodeAt w.address pc (methods.flatMap fun l =>
      .pushLabel l :: Code.heapStore)) :
    w.Reach (7 * methods.length) ⟨pc, st, heap, fp, ra, tm, out, none⟩
      ⟨pc + 7 * methods.length, st, heap ++ methods.map fun l => Int32.ofNat (w.address l), fp, ra,
        tm, out, none⟩ := by
  induction methods generalizing pc heap with
  | nil =>
    rw [List.map_nil, List.append_nil]
    exact .refl w _
  | cons l methods ih =>
    rw [List.flatMap_cons, List.cons_append, Image.codeAt_pushLabel, Image.codeAt_append] at hcode
    obtain ⟨hpush, hstore, hrest⟩ := hcode
    rw [List.length_cons, Nat.mul_succ, Nat.add_comm _ 7, ← Nat.add_assoc, List.map_cons,
      List.append_cons]
    exact ((reach_push hpush).trans (reach_heapStore hstore)).trans (ih hrest)

/-- Writes a dispatch table to the heap and leaves its address. -/
theorem reach_dispatchTable {methods : List Label}
    (hcode : w.image.CodeAt w.address pc (Code.dispatchTable methods)) :
    w.Reach (1 + 7 * methods.length) ⟨pc, st, heap, fp, ra, tm, out, none⟩
      ⟨pc + (1 + 7 * methods.length), Int32.ofNat heap.length :: st, heap ++ methods.map fun l =>
        Int32.ofNat (w.address l), fp, ra, tm, out, none⟩ := by
  obtain ⟨hlhp, hentries⟩ := Image.codeAt_bare.mp hcode
  rw [← Nat.add_assoc]
  exact (reach_lhp hlhp).trans (reach_tableEntries hentries)

/-! ### Returns -/

/-- The end of a function: what remains of its frame is the result. -/
theorem passes_epilogue {v target link back : Int32} {locals params : List Int32} {place : Nat}
    (hcode : w.image.CodeAt w.address pc (Code.epilogue locals.length params.length false))
    (htarget : w.image.Points target place)
    (hroom : heap.length + (v :: (locals ++ target :: link :: (params ++ back :: st))).length ≤
      w.size) :
    w.Passes (locals.length + params.length + 7)
      ⟨pc, v :: (locals ++ target :: link :: (params ++ back :: st)), heap, fp, ra, tm, out, none⟩
      ⟨place, v :: st, heap, back, Int32.ofNat (pc + (locals.length + params.length + 7)), v, out,
        none⟩ := by
  have hepilogue : Code.epilogue locals.length params.length false =
      .bare .stm ::
      (Code.pops locals.length ++ .bare .sra :: .bare .pop :: (Code.pops params.length ++
        .bare .sfp :: .bare .ltm :: .bare .lra :: [.bare .js])) := by
    simp [Code.epilogue, Code.plain]
  rw [hepilogue] at hcode
  simp only [Image.codeAt_append, Image.codeAt_bare, Image.codeAt_nil, and_true, Code.size_pops]
    at hcode
  obtain ⟨h₁, hlocals, h₂, h₃, hparams, h₄, h₅, h₆, h₇⟩ := hcode
  simp only [List.length_append, List.length_cons] at hroom
  rw [show locals.length + params.length + 7 =
    1 + locals.length + 1 + 1 + params.length + 1 + 1 + 1 + 1 by omega]
  refine .snoc (.snoc (.snoc (.snoc (.trans (.snoc (.snoc (.trans (moves_of_pop h₁ pops_stm).passes
    (passes_pops hlocals)) (moves_of_pop h₂ pops_sra)) (moves_of_pop h₃ pops_pop))
      (passes_pops hparams))
    (moves_of_pop h₄ pops_sfp)) (moves_ltm h₅ (by omega))) (moves_lra h₆ ?_)) ?_
  · rw [List.length_cons]
    omega
  · simpa only [Nat.add_assoc] using moves_js h₇ htarget

/-- The end of a function whose result is a function. One of the two cells waits in the first free
cell of the heap, which the stack does not reach again before it is read. -/
theorem passes_closureEpilogue {code frame target link back : Int32} {locals params : List Int32}
    {place : Nat}
    (hcode : w.image.CodeAt w.address pc (Code.epilogue locals.length params.length true))
    (htarget : w.image.Points target place)
    (hroom : heap.length +
      (code :: frame :: (locals ++ target :: link :: (params ++ back :: st))).length ≤ w.size) :
    w.Passes (locals.length + params.length + 11)
      ⟨pc, code :: frame :: (locals ++ target :: link :: (params ++ back :: st)), heap, fp, ra, tm,
        out, none⟩
      ⟨place, code :: frame :: st, heap, back,
        Int32.ofNat (pc + (locals.length + params.length + 11)), code, out, none⟩ := by
  have hepilogue : Code.epilogue locals.length params.length true =
      .bare .stm :: .bare .lhp :: .bare .sw ::
      (Code.pops locals.length ++ .bare .sra :: .bare .pop ::
        (Code.pops params.length ++ .bare .sfp :: .bare .lhp :: .bare .lw :: .bare .ltm ::
          .bare .lra :: [.bare .js])) := by
    simp [Code.epilogue, Code.plain]
  rw [hepilogue] at hcode
  simp only [Image.codeAt_append, Image.codeAt_bare, Image.codeAt_nil, and_true, Code.size_pops]
    at hcode
  obtain ⟨h₁, h₂, h₃, hlocals, h₄, h₅, hparams, h₆, h₇, h₈, h₉, h₁₀, h₁₁⟩ := hcode
  simp only [List.length_append, List.length_cons] at hroom
  have hpark : w.Passes (1 + 1 + 1)
      ⟨pc, code :: frame :: (locals ++ target :: link :: (params ++ back :: st)), heap, fp, ra, tm,
        out, none⟩
      ⟨pc + 1 + 1 + 1, locals ++ target :: link :: (params ++ back :: st), heap, fp, ra, code, out,
        some frame⟩ := by
    refine .snoc (.snoc (moves_of_pop h₁ pops_stm).passes (moves_lhp h₂ ?_)) (moves_sw h₃)
    simp only [List.length_append, List.length_cons]
    omega
  have hclear : w.Passes (locals.length + 1 + 1 + params.length + 1)
      ⟨pc + 1 + 1 + 1, locals ++ target :: link :: (params ++ back :: st), heap, fp, ra, code, out,
        some frame⟩
      ⟨pc + 1 + 1 + 1 + locals.length + 1 + 1 + params.length + 1, st, heap, back, target, code,
        out, some frame⟩ := by
    refine .snoc
      (.trans (.snoc (.snoc (passes_pops_keeping hlocals ?_) (moves_of_pop_keeping h₄ pops_sra ?_))
        (moves_of_pop_keeping h₅ pops_pop ?_)) (passes_pops_keeping hparams ?_))
          (moves_of_pop_keeping h₆ pops_sfp ?_)
    all_goals simp only [List.length_append, List.length_cons]; omega
  rw [show locals.length + params.length + 11 =
    1 + 1 + 1 + (locals.length + 1 + 1 + params.length + 1) + 1 + 1 + 1 + 1 + 1 by omega]
  refine .snoc (.snoc (.snoc (.snoc (.snoc (hpark.trans hclear) (moves_lhp h₇ (by omega)))
    (moves_lw_spare h₈ (by omega))) (moves_ltm h₉ ?_)) (moves_lra h₁₀ ?_)) ?_
  · rw [List.length_cons]
    omega
  · simp only [List.length_cons]
    omega
  · simpa only [Nat.add_assoc] using moves_js h₁₁ htarget

/-- The end of any function, with its result on top of the frame. -/
theorem passes_return {result locals params : List Int32} {target link back : Int32}
    {closure : Bool} {place : Nat}
    (hcode : w.image.CodeAt w.address pc (Code.epilogue locals.length params.length closure))
    (hresult : result.length = if closure then 2 else 1) (htarget : w.image.Points target place)
    (hroom : heap.length + (result ++ (locals ++ target :: link :: (params ++ back :: st))).length ≤
      w.size) :
    ∃ ra' tm', w.Passes (Code.size (Code.epilogue locals.length params.length closure))
      ⟨pc, result ++ (locals ++ target :: link :: (params ++ back :: st)), heap, fp, ra, tm, out,
        none⟩
      ⟨place, result ++ st, heap, back, ra', tm', out, none⟩ := by
  rw [Code.size_epilogue]
  match closure, result, hresult with
  | false, [v], _ => exact ⟨_, _, passes_epilogue hcode htarget hroom⟩
  | true, [code, frame], _ => exact ⟨_, _, passes_closureEpilogue hcode htarget hroom⟩

end Platform

namespace World

open Platform

variable {w : World} {pc : Nat} {st heap : List Int32} {fp ra tm : Int32} {out : Array Int32}

/-- Calls a method: the object stays as the static link of the method, and the code address is taken
from the dispatch table of the object. -/
theorem reach_dispatch {a table offset : Int32} {target : Nat}
    (hcode : w.image.CodeAt w.address pc (Code.dispatch offset)) (htable : w.Has st heap a table)
    (htarget : w.Has st heap (table + offset) (Int32.ofNat target))
    (hlt : target < w.image.ops.size) :
    w.Reach 8 ⟨pc, a :: st, heap, fp, ra, tm, out, none⟩
      ⟨target, a :: st, heap, fp, Int32.ofNat (pc + 8), a, out, none⟩ := by
  simp only [Code.dispatch, Code.plain, List.map, List.cons_append, List.nil_append,
    Image.codeAt_append, Image.codeAt_bare, Image.codeAt_nil, and_true] at hcode
  obtain ⟨h₁, h₂, h₃, h₄, h₅, h₆⟩ := hcode
  have hup := List.suffix_cons a st
  exact (((((reach_stm h₁).trans (reach_ltm h₂)).trans (reach_ltm h₃)).trans
    (reach_lw h₄ (htable.mono hup (List.prefix_refl heap)))).trans
    (reach_load h₅ (htarget.mono hup (List.prefix_refl heap)))).trans (reach_js h₆ hlt)

theorem reach_epilogue {v link back : Int32} {locals params : List Int32} {target : Nat}
    (hcode : w.image.CodeAt w.address pc (Code.epilogue locals.length params.length false))
    (hlt : target < w.image.ops.size) :
    ∃ ra', w.Reach (locals.length + params.length + 7)
      ⟨pc, v :: (locals ++ Int32.ofNat target :: link :: (params ++ back :: st)), heap, fp, ra, tm,
        out, none⟩
      ⟨target, v :: st, heap, back, ra', v, out, none⟩ :=
  ⟨_, .of_apart fun hroom => (passes_epilogue hcode (w.points hlt) hroom).reach⟩

theorem reach_closureEpilogue {code frame link back : Int32} {locals params : List Int32}
    {target : Nat}
    (hcode : w.image.CodeAt w.address pc (Code.epilogue locals.length params.length true))
    (hlt : target < w.image.ops.size) :
    ∃ ra', w.Reach (locals.length + params.length + 11)
      ⟨pc, code :: frame :: (locals ++ Int32.ofNat target :: link :: (params ++ back :: st)), heap,
        fp, ra, tm, out, none⟩
      ⟨target, code :: frame :: st, heap, back, ra', code, out, none⟩ :=
  ⟨_, .of_apart fun hroom => (passes_closureEpilogue hcode (w.points hlt) hroom).reach⟩

end World

end Stackling
