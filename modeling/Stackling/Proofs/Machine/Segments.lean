import Stackling.Proofs.Machine.Config

/-!
# Segments of memory

Any state with its heap below its stack shows a configuration: the heap is the segment of the memory
up to the heap pointer, and the stack is the one from the stack pointer on. So what is known about
code on configurations can be said of such states, with addresses.
-/

namespace Stackling

namespace Memory

variable {m : Memory} {a b c i : Nat}

/-- The cells from one address on, up to the one before another. -/
def segment (m : Memory) (start stop : Nat) : List Int32 :=
  (List.range' start (stop - start)).map fun a => (m.get? a).getD 0

@[simp] theorem length_segment (m : Memory) (start stop : Nat) :
    (m.segment start stop).length = stop - start := by
  rw [segment, List.length_map, List.length_range']

theorem isSome_get? (h : a < m.size) : (m.get? a).isSome := by
  rw [Option.isSome_iff_ne_none, ne_eq, get?_eq_none_iff]
  omega

theorem lt_of_get? {v : Int32} (h : m.get? a = some v) : a < m.size := by
  rcases Nat.lt_or_ge a m.size with hlt | hge
  · exact hlt
  · rw [(m.get?_eq_none_iff a).mpr hge] at h
    cases h

/-- A segment has the words of memory in order. -/
theorem getElem?_segment (hb : b ≤ m.size) (hi : i < b - a) :
    (m.segment a b)[i]? = m.get? (a + i) := by
  obtain ⟨v, hv⟩ := Option.isSome_iff_exists.mp (isSome_get? (show a + i < m.size by omega))
  rw [segment, List.getElem?_map, List.getElem?_range' hi, Nat.one_mul, Option.map_some, hv,
    Option.getD_some]

/-- Adjacent segments make one segment. -/
theorem segment_append (hab : a ≤ b) (hbc : b ≤ c) :
    m.segment a b ++ m.segment b c = m.segment a c := by
  have hrange := @List.range'_append_1 a (b - a) (c - b)
  rw [Nat.add_sub_cancel' hab, show b - a + (c - b) = c - a by omega] at hrange
  rw [segment, segment, segment, ← List.map_append, hrange]

/-- A segment starts with the word at its first address. -/
theorem segment_cons (hab : a < b) {v : Int32} (hv : m.get? a = some v) :
    m.segment a b = v :: m.segment (a + 1) b := by
  have hfirst : m.segment a (a + 1) = [v] := by
    rw [segment, Nat.add_sub_cancel_left, List.range'_one, List.map_singleton, hv, Option.getD_some]
  rw [← segment_append (Nat.le_succ a) hab, hfirst, List.singleton_append]

end Memory

namespace Platform

variable {w : Platform} {c : Config} {s : State} {stack heap a : Nat}

/-- A word is known by the number it stands for. -/
theorem eq_ofNat_of_toInt {x : Int32} {n : Nat} (h : x.toInt = n) : x = Int32.ofNat n := by
  have hlt := x.toInt_lt
  rw [← Int32.toInt_inj, Int32.toInt_ofNat_of_lt (by omega)]
  exact h

/-- Every state with its heap below its stack is represented by the two segments. -/
theorem rep_segments (hsize : s.memory.size = w.size) (hsp : s.sp.toInt = stack)
    (hhp : s.hp.toInt = heap) (happart : heap ≤ stack) (hstack : stack ≤ w.size) :
    w.Rep ⟨s.ip, s.memory.segment stack w.size, s.memory.segment 0 heap, s.fp, s.ra, s.tm, s.output,
      none⟩ s where
  ip := rfl
  size := hsize
  apart := by
    simp only [Memory.length_segment]
    omega
  sp := by
    rw [Memory.length_segment, Nat.sub_sub_self hstack]
    exact eq_ofNat_of_toInt hsp
  hp := by
    rw [Memory.length_segment]
    exact eq_ofNat_of_toInt hhp
  stack := by
    intro i v hi
    have hlt := (List.getElem?_eq_some_iff.mp hi).1
    rw [Memory.length_segment] at hlt ⊢
    rw [Memory.getElem?_segment (Nat.le_of_eq hsize.symm) hlt] at hi
    rw [Nat.sub_sub_self hstack]
    exact hi
  heap := by
    intro i v hi
    have hlt := (List.getElem?_eq_some_iff.mp hi).1
    rw [Memory.length_segment] at hlt
    rw [Memory.getElem?_segment (by omega) hlt, Nat.zero_add] at hi
    exact hi
  spare := nofun
  fp := rfl
  ra := rfl
  tm := rfl
  output := rfl

/-- A cell of the memory as a cell of the stack. -/
theorem has_segment {m : Memory} (hm : m.size = w.size) {b : Nat} (hab : a ≤ b) {word v : Int32}
    (hword : word.toInt = b) (hv : m.get? b = some v) (heap : List Int32) :
    w.Has (m.segment a w.size) heap word v := by
  have hlt : b < w.size := hm ▸ Memory.lt_of_get? hv
  refine .inl ⟨m.segment (b + 1) w.size, ⟨m.segment a b, ?_⟩, ?_⟩
  · rw [← Memory.segment_cons hlt hv, Memory.segment_append hab (Nat.le_of_lt hlt)]
  · rw [Memory.length_segment, slot_eq (by omega), eq_ofNat_of_toInt hword]
    congr 1
    omega

namespace Rep

/-- The stack pointer is the size of memory less the height of the stack. -/
theorem toInt_sp (h : w.Rep c s) : s.sp.toInt = w.size - c.stack.length := by
  have hsize := w.size_lt
  have happart := h.apart
  rw [h.sp, Int32.toInt_ofNat_of_lt (by omega)]
  omega

/-- The heap pointer is the size of the heap. -/
theorem toInt_hp (h : w.Rep c s) : s.hp.toInt = c.heap.length := by
  have hsize := w.size_lt
  have happart := h.apart
  rw [h.hp, Int32.toInt_ofNat_of_lt (by omega)]

variable {m : Memory} {vs : List Int32}

/-- Values on top of what was a segment. -/
theorem get?_top (h : w.Rep c s) (hstack : c.stack = vs ++ m.segment a w.size) (ha : a ≤ w.size)
    {i : Nat} (hi : i < vs.length) : s.memory.get? (a - vs.length + i) = vs[i]? := by
  have happart := h.apart
  have hlength : c.stack.length = vs.length + (w.size - a) := by
    rw [hstack, List.length_append, Memory.length_segment]
  have hget : c.stack[i]? = some vs[i] := by
    rw [hstack, List.getElem?_append_left hi, List.getElem?_eq_getElem hi]
  rw [List.getElem?_eq_getElem hi, ← h.stack i _ hget, hlength]
  congr 1
  omega

/-- Words deep enough in the stack are those of an earlier memory. -/
theorem get?_above (h : w.Rep c s) (hstack : c.stack = vs ++ m.segment a w.size)
    (hm : m.size = w.size) {b : Nat} (hb : a ≤ b) : s.memory.get? b = m.get? b := by
  have happart := h.apart
  rcases Nat.lt_or_ge b w.size with hlt | hge
  · have hlength : c.stack.length = vs.length + (w.size - a) := by
      rw [hstack, List.length_append, Memory.length_segment]
    obtain ⟨v, hv⟩ := Option.isSome_iff_exists.mp (Memory.isSome_get? (hm ▸ hlt))
    have hget : c.stack[vs.length + (b - a)]? = some v := by
      rw [hstack, List.getElem?_append_right (Nat.le_add_right _ _), Nat.add_sub_cancel_left,
        Memory.getElem?_segment (Nat.le_of_eq hm.symm) (by omega), Nat.add_sub_cancel' hb]
      exact hv
    rw [hv, ← h.stack _ _ hget, hlength]
    congr 1
    omega
  · rw [(Memory.get?_eq_none_iff _ b).mpr (h.size ▸ hge),
      (Memory.get?_eq_none_iff _ b).mpr (hm ▸ hge)]

/-- Words low enough in the heap are those of an earlier memory. -/
theorem get?_below (h : w.Rep c s) (hheap : c.heap = m.segment 0 a ++ vs) (ha : a ≤ m.size)
    {b : Nat} (hb : b < a) :
    s.memory.get? b = m.get? b := by
  obtain ⟨v, hv⟩ := Option.isSome_iff_exists.mp (Memory.isSome_get? (Nat.lt_of_lt_of_le hb ha))
  have hget : c.heap[b]? = some v := by
    rw [hheap, List.getElem?_append_left (by rw [Memory.length_segment]; exact hb),
      Memory.getElem?_segment ha hb, Nat.zero_add]
    exact hv
  rw [hv, h.heap b v hget]

end Rep

end Platform

end Stackling
