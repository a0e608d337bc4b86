import Mathlib.Algebra.Group.Nat.Defs
import Mathlib.Algebra.Order.Group.Unbundled.Int
import Mathlib.Data.List.Nodup
import Stackling.Scope.Entry

/-!
# Cells side by side

Frames and objects hold their entries one below the other. An entry has the cell at its offset, and
a function value also the one below. Offsets are numbers of the machine and may wrap around, so that
neighbourhood is stated for all sizes, and what it means for integers where there is room.
-/

namespace Stackling

/-! ### Sums of cells -/

theorem totalCells_append {α : Type} (cells : α → Nat) (as bs : List α) :
    totalCells cells (as ++ bs) = totalCells cells as + totalCells cells bs := by
  induction as with
  | nil => rw [List.nil_append, totalCells_nil, Nat.zero_add]
  | cons a as ih => rw [List.cons_append, totalCells_cons, totalCells_cons, ih, Nat.add_assoc]

/-- An item of the same size in the place of another one changes no sum. -/
theorem totalCells_set {α : Type} (cells : α → Nat) {as : List α} {i : Nat} {a b : α}
    (ha : as[i]? = some a) (hb : cells b = cells a) :
    totalCells cells (as.set i b) = totalCells cells as := by
  induction as generalizing i with
  | nil => rfl
  | cons c as ih =>
    cases i with
    | zero =>
      obtain rfl : c = a := Option.some.inj ha
      rw [List.set_cons_zero, totalCells_cons, totalCells_cons, hb]
    | succ i => rw [List.set_cons_succ, totalCells_cons, totalCells_cons, ih ha]

theorem totalCells_eq_of_map_eq {α : Type} {cells : α → Nat} {as bs : List α}
    (h : as.map cells = bs.map cells) :
    totalCells cells as = totalCells cells bs :=
  calc totalCells cells as
    _ = totalCells id (as.map cells) := (totalCells_map id cells as).symm
    _ = totalCells id (bs.map cells) := by rw [h]
    _ = totalCells cells bs := totalCells_map id cells bs

theorem totalCells_take_add_drop {α : Type} (cells : α → Nat) (as : List α) (i : Nat) :
    totalCells cells (as.take i) + totalCells cells (as.drop i) = totalCells cells as := by
  rw [← totalCells_append, List.take_append_drop]

theorem le_totalCells_drop {α : Type} (cells : α → Nat) {as : List α} {i : Nat} {a : α}
    (h : as[i]? = some a) :
    cells a ≤ totalCells cells (as.drop i) := by
  obtain ⟨hlt, rfl⟩ := List.getElem?_eq_some_iff.mp h
  rw [List.drop_eq_getElem_cons hlt, totalCells_cons]
  exact Nat.le_add_right _ _

/-! ### Offsets one below the other -/

/-- So many offsets, from one downwards. -/
def downFrom (first : Int) (count : Nat) : List Int32 :=
  (List.range count).map fun k : Nat => Int32.ofInt (first - k)

theorem downFrom_add (first : Int) (m n : Nat) :
    downFrom first (m + n) = downFrom first m ++ downFrom (first - m) n := by
  unfold downFrom
  rw [List.range_add, List.map_append, List.map_map]
  refine congrArg _ (List.map_congr_left fun k _ => congrArg Int32.ofInt ?_)
  show first - ((m + k : Nat) : Int) = first - m - k
  omega

/-- Different integers are different offsets, unless they are far from each other. -/
theorem eq_of_ofInt_eq {a b : Int} (h : Int32.ofInt a = Int32.ofInt b) (hab : |a - b| < 2 ^ 32) :
    a = b := by
  have hmod := congrArg Int32.toInt h
  rw [Int32.toInt_ofInt, Int32.toInt_ofInt, Int.bmod_eq_bmod_iff_bmod_sub_eq_zero] at hmod
  have hdvd := Int.dvd_of_bmod_eq_zero hmod
  have hzero := Int.eq_zero_of_abs_lt_dvd hdvd hab
  omega

/-- Up to the number of all offsets, none comes twice. -/
theorem nodup_downFrom {first : Int} {count : Nat} (h : count ≤ 2 ^ 32) :
    (downFrom first count).Nodup := by
  refine List.Nodup.map_on ?_ List.nodup_range
  intro i hi j hj hij
  rw [List.mem_range] at hi hj
  have heq := eq_of_ofInt_eq hij (abs_lt.mpr ⟨by omega, by omega⟩)
  omega

theorem mem_downFrom {first : Int} {count : Nat} (hlow : -2 ^ 31 ≤ first - count + 1)
    (hhigh : first < 2 ^ 31) (c : Int32) :
    c ∈ downFrom first count ↔ first - count < c.toInt ∧ c.toInt ≤ first := by
  unfold downFrom
  rw [List.mem_map]
  constructor
  · rintro ⟨k, hk, rfl⟩
    rw [List.mem_range] at hk
    rw [Int32.toInt_ofInt_of_le (by omega) (by omega)]
    omega
  · rintro ⟨hlt, hle⟩
    refine ⟨(first - c.toInt).toNat, List.mem_range.mpr (by omega), ?_⟩
    rw [Int.toNat_of_nonneg (by omega), Int.sub_sub_self, Int32.ofInt_toInt]

/-- The offsets are so many from the first one downwards. Each is there once, unless there are more
than the machine has, and as integers they are all those down to the last one, if that is an
offset. -/
structure Tiles (cells : List Int32) (first : Int) (count : Nat) : Prop where
  eq_downFrom : cells = downFrom first count
  nodup : count ≤ 2 ^ 32 → cells.Nodup
  mem_iff : -2 ^ 31 ≤ first - count + 1 → first < 2 ^ 31 →
    ∀ c : Int32, c ∈ cells ↔ first - count < c.toInt ∧ c.toInt ≤ first

theorem Tiles.of_eq {cells : List Int32} {first : Int} {count : Nat}
    (h : cells = downFrom first count) :
    Tiles cells first count := by
  subst h
  exact ⟨rfl, nodup_downFrom, mem_downFrom⟩

/-! ### Entries -/

namespace Entry

/-- The cells of an entry in its frame or object. -/
def cells (e : Entry) : List Int32 := if e.ty.isArrow then [e.offset, e.offset - 1] else [e.offset]

theorem cells_eq_downFrom {e : Entry} {first : Int} (h : e.offset = Int32.ofInt first) :
    e.cells = downFrom first e.ty.cells := by
  have htwo : downFrom first 2 = [e.offset, e.offset - 1] := by
    rw [h]
    simp [downFrom, List.range_succ, Int32.ofInt_sub]
  have hone : downFrom first 1 = [e.offset] := by
    rw [h]
    simp [downFrom]
  unfold cells
  cases e.ty with
  | arrow sig => exact htwo.symm
  | int | bool | null | ref | method | cls => exact hone.symm

end Entry

/-- Entries of which each stands below those before it take consecutive cells. -/
theorem flatMap_cells_eq_downFrom {es : List Entry} {first : Int}
    (h : ∀ (j : Nat) (e : Entry), es[j]? = some e →
      e.offset = Int32.ofInt (first - totalCells (fun e : Entry => e.ty.cells) (es.take j))) :
    es.flatMap Entry.cells = downFrom first (totalCells (fun e : Entry => e.ty.cells) es) := by
  induction es generalizing first with
  | nil => rfl
  | cons e es ih =>
    have hfirst : e.offset = Int32.ofInt first := by
      have h0 := h 0 e rfl
      rwa [List.take_zero, totalCells_nil, Int.natCast_zero, Int.sub_zero] at h0
    have hrest : ∀ (j : Nat) (e' : Entry), es[j]? = some e' →
        e'.offset = Int32.ofInt (first - e.ty.cells - totalCells (fun e : Entry => e.ty.cells)
          (es.take j)) := by
      intro j e' hj
      rw [h (j + 1) e' hj, List.take_succ_cons, totalCells_cons, Int.natCast_add, Int.sub_sub]
    rw [List.flatMap_cons, totalCells_cons, downFrom_add, ih hrest, Entry.cells_eq_downFrom hfirst]

end Stackling
