/-!
# Machine memory

A memory has a fixed number of cells, all zero at first. It is held in pages that are made when
first written, so that a large memory costs no more than what is used of it. Everything above this
module sees only `size`, `get?` and `set`, and the two laws `get?_set` and `size_set`.
-/

namespace Stackling

/-- Cells in a page. -/
abbrev Memory.pageSize : Nat := 1024

abbrev Memory.Page := Vector Int32 Memory.pageSize

structure Memory where
  size : Nat
  pages : Array (Option Memory.Page)
  pages_size : pages.size = size / Memory.pageSize + 1

namespace Memory

def zeroPage : Page := Vector.replicate pageSize 0

def zeros (size : Nat) : Memory where
  size := size
  pages := Array.replicate (size / pageSize + 1) none
  pages_size := by simp

theorem page_lt (m : Memory) {a : Nat} (h : a < m.size) : a / pageSize < m.pages.size := by
  have := Nat.div_le_div_right (c := pageSize) (Nat.le_of_lt h)
  rw [m.pages_size]
  omega

theorem cell_lt (a : Nat) : a % pageSize < pageSize := Nat.mod_lt _ (by decide)

/-- The cell at an address, if the memory has it. -/
def get? (m : Memory) (a : Nat) : Option Int32 :=
  if h : a < m.size then
    have := m.page_lt h
    have := cell_lt a
    match m.pages[a / pageSize] with
    | some page => some page[a % pageSize]
    | none => some 0
  else none

/-- Writes a cell; a memory without that cell is left as it is. -/
def set (m : Memory) (a : Nat) (value : Int32) : Memory :=
  if a < m.size then
    { m with
      pages := m.pages.modify (a / pageSize) fun page =>
        some ((page.getD zeroPage).set (a % pageSize) value (cell_lt a))
      pages_size := by simp [m.pages_size] }
  else m

@[simp] theorem size_zeros (n : Nat) : (zeros n).size = n := rfl

@[simp] theorem size_set (m : Memory) (a : Nat) (v : Int32) : (m.set a v).size = m.size := by
  unfold set; split <;> rfl

theorem get?_zeros (n a : Nat) : (zeros n).get? a = if a < n then some 0 else none := by
  simp [get?, zeros]

theorem get?_set (m : Memory) (a b : Nat) (v : Int32) :
    (m.set a v).get? b = if a = b ∧ b < m.size then some v else m.get? b := by
  by_cases ha : a < m.size
  · by_cases hb : b < m.size
    · have hpage := m.page_lt ha
      by_cases hab : a = b
      · subst hab
        simp [get?, set, ha, Array.getElem_modify]
      · by_cases hp : a / pageSize = b / pageSize
        · have hc : a % pageSize ≠ b % pageSize := by
            intro hc
            exact hab (by rw [← Nat.div_add_mod a pageSize, ← Nat.div_add_mod b pageSize, hp, hc])
          simp only [get?, set, ha, hb, hab, hp, Array.getElem_modify, dite_true, if_true]
          cases m.pages[b / pageSize] <;> simp [zeroPage, hc]
        · simp [get?, set, ha, hb, hab, hp, Array.getElem_modify]
    · simp [get?, hb]
  · have hset : m.set a v = m := by simp [set, ha]
    rw [hset, if_neg]
    rintro ⟨rfl, hb⟩
    exact ha hb

theorem get?_eq_none_iff (m : Memory) (a : Nat) : m.get? a = none ↔ m.size ≤ a := by
  unfold get?
  split
  · rename_i h
    simp only
    split <;> simp <;> omega
  · simp; omega

end Memory

end Stackling
