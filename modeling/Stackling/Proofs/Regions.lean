import Mathlib.Logic.Relation
import Stackling.Proofs.Code.Regions
import Stackling.Proofs.Linking
import Stackling.Proofs.Machine.Effects
import Stackling.Proofs.Pipeline

/-!
# Control stays in its region

The code of a program is the main code, up to the one place where the run ends, and behind it a
region for each function. No region can be left at its end or by a jump: until the next call or
return, a run goes on upwards inside the region in which it is.
-/

namespace Stackling

/-! ### Where a step leads -/

/-- A step that neither calls nor returns. -/
def Image.Proceeds (image : Image) (s t : State) : Prop :=
  s.step image = .ok (.running t) ∧ image.ops[s.ip]? ≠ some (.bare .js)

/-- Between two addresses, a run goes on upwards until the next call or return. -/
def Image.Confines (image : Image) (start stop : Nat) : Prop :=
  ∀ s t, Relation.TransGen image.Proceeds s t → start ≤ s.ip → s.ip < stop →
    s.ip < t.ip ∧ t.ip < stop

theorem Image.Proceeds.exists_op {image : Image} {s t : State} (h : image.Proceeds s t) :
    ∃ op, image.ops[s.ip]? = some op ∧ op ≠ .bare .js ∧ op ≠ .bare .halt ∧
      (t.ip = s.ip + 1 ∨ ∃ kind, op = .jump kind t.ip) := by
  obtain ⟨hstep, hjs⟩ := h
  unfold State.step at hstep
  split at hstep
  · cases hstep
  · next op hop =>
    have hne : op ≠ .bare .js := fun heq => hjs (heq ▸ hop)
    refine ⟨op, hop, hne, ?_, (State.perform_effect hstep).ip hne⟩
    rintro rfl
    cases hstep

/-- A run is confined if each of its steps is. -/
theorem Image.confines_of_proceeds {image : Image} {start stop : Nat}
    (h : ∀ s t, image.Proceeds s t → start ≤ s.ip → s.ip < stop → s.ip < t.ip ∧ t.ip < stop) :
    image.Confines start stop := by
  intro s t hrun hstart hstop
  induction hrun with
  | single hstep => exact h s _ hstep hstart hstop
  | tail _ hstep ih =>
    obtain ⟨hup, hin⟩ := ih
    obtain ⟨hup', hin'⟩ := h _ _ hstep (Nat.le_of_lt (Nat.lt_of_le_of_lt hstart hup)) hin
    exact ⟨Nat.lt_trans hup hup', hin'⟩

/-! ### Code that is left by calls and returns only -/

namespace Code

variable {i : Instr} {is js : List Instr}

/-- Each address inside the code is that of one of its operations. -/
theorem exists_eq_append_of_lt_size {n : Nat} (h : n < size is) :
    ∃ before i after, is = before ++ i :: after ∧ size before = n ∧ i.defined? = none := by
  induction is generalizing n with
  | nil => cases h
  | cons i is ih =>
    cases hi : i.defined? with
    | some l =>
      obtain ⟨before, j, after, rfl, rfl, hj⟩ := @ih n (by simpa [hi] using h)
      exact ⟨i :: before, j, after, rfl, by simp [hi], hj⟩
    | none =>
      cases n with
      | zero => exact ⟨[], i, is, rfl, rfl, hi⟩
      | succ n =>
        have hsize : size (i :: is) = 1 + size is := by simp [hi]
        obtain ⟨before, j, after, rfl, rfl, hj⟩ := @ih n (by omega)
        exact ⟨i :: before, j, after, rfl, by simp [hi, Nat.add_comm], hj⟩

/-- The code jumps inside itself only, and its last instruction does not fall through. -/
structure Sealed (is : List Instr) : Prop where
  forward : Forward is
  last : is.getLast? = some (.bare .js) ∨ is.getLast? = some (.bare .halt)

namespace Sealed

variable {image : Image} {address : Label → Nat} {pc : Nat}

theorem size_pos (h : Sealed is) : 0 < size is := by
  obtain ⟨op, hop⟩ : ∃ op, Instr.bare op ∈ is := by
    rcases h.last with h | h
    · exact ⟨_, List.mem_of_getLast? h⟩
    · exact ⟨_, List.mem_of_getLast? h⟩
  exact List.countP_pos_iff.mpr ⟨_, hop, rfl⟩

theorem ne_nil (h : Sealed (i :: is)) (hjs : i ≠ .bare .js) (hhalt : i ≠ .bare .halt) :
    is ≠ [] := by
  rintro rfl
  rcases h.last with h | h
  · exact hjs (Option.some.inj h)
  · exact hhalt (Option.some.inj h)

theorem tail (h : Sealed (i :: is)) (hne : is ≠ []) : Sealed is := by
  refine ⟨(forward_cons.mp h.forward).2, ?_⟩
  obtain ⟨j, is, rfl⟩ := List.exists_cons_of_ne_nil hne
  have hlast := h.last
  rwa [List.getLast?_cons_cons] at hlast

theorem of_append (h : Sealed (is ++ js)) (hne : js ≠ []) : Sealed js := by
  induction is with
  | nil => exact h
  | cons i is ih => exact ih (h.tail (List.append_ne_nil_of_right_ne_nil _ hne))

theorem of_forward (h : Forward is) {op : Bare} (hop : op = .js ∨ op = .halt) :
    Sealed (is ++ [.bare op]) := by
  refine ⟨h.append (forward_cons.mpr ⟨nofun, nofun⟩), ?_⟩
  rw [List.getLast?_concat]
  rcases hop with rfl | rfl
  · exact .inl rfl
  · exact .inr rfl

/-- A label of the code stands before one of its operations. -/
theorem address_mem (h : Sealed is) (hat : image.CodeAt address pc is) {l : Label}
    (hl : .label l ∈ is) :
    pc ≤ address l ∧ address l < pc + size is := by
  obtain ⟨before, after, rfl⟩ := List.append_of_mem hl
  have hlabel : Sealed (.label l :: after) := h.of_append (List.cons_ne_nil _ _)
  have hpos : 0 < size after := (hlabel.tail (hlabel.ne_nil nofun nofun)).size_pos
  have haddress : address l = pc + size before := (Image.codeAt_append.mp hat).2.1
  simp only [size_append, size_cons, haddress, Instr.defined?, Option.isNone_some]
  omega

theorem ip_proceed {s t : State} (h : Sealed is) (hat : image.CodeAt address pc is)
    (hstep : image.Proceeds s t) (hstart : pc ≤ s.ip) (hstop : s.ip < pc + size is) :
    s.ip < t.ip ∧ t.ip < pc + size is := by
  obtain ⟨k, hk⟩ := Nat.exists_eq_add_of_le hstart
  have hinside : k < size is := by omega
  obtain ⟨before, i, after, rfl, rfl, hi⟩ := exists_eq_append_of_lt_size hinside
  have hsealed : Sealed (i :: after) := h.of_append (List.cons_ne_nil _ _)
  obtain ⟨hop, hafter⟩ := (Image.codeAt_cons hi).mp (Image.codeAt_append.mp hat).2
  obtain ⟨op, hop', hjs, hhalt, hnext⟩ := hstep.exists_op
  rw [hk, hop] at hop'
  have hrest : Sealed after := by
    refine hsealed.tail (hsealed.ne_nil ?_ ?_)
    · rintro rfl
      exact hjs (Option.some.inj hop').symm
    · rintro rfl
      exact hhalt (Option.some.inj hop').symm
  have hsize : size (before ++ i :: after) = size before + 1 + size after := by
    simp [hi, Nat.add_assoc]
  rw [hsize]
  rcases hnext with hnext | ⟨kind, rfl⟩
  · -- the next operation is still inside, as the last one does not fall through
    have hpos := hrest.size_pos
    omega
  · obtain ⟨l, rfl, hl⟩ : ∃ l, i = .jump kind l ∧ address l = t.ip := by
      cases i <;> simp_all [Instr.link]
    have hlabel := hrest.address_mem hafter ((forward_cons.mp hsealed.forward).1 kind l rfl)
    omega

/-- Sealed code that is linked somewhere confines control. -/
theorem confines {before block after : List Instr} (h : Sealed block)
    (hnodup : (defined (before ++ (block ++ after))).Nodup) :
    (link (before ++ (block ++ after))).Confines (size before) (size (before ++ block)) := by
  have hat := (Image.codeAt_append.mp (codeAt_link_append hnodup)).1
  rw [size_append]
  exact Image.confines_of_proceeds fun s t hstep => h.ip_proceed hat hstep

end Sealed

end Code

open Code (Interior Forward Sealed)

/-! ### The parts of a program -/

theorem Region.Formed.sealed {r : Region} (h : r.Formed) : Sealed r.code := by
  obtain ⟨body, hbody, hcode⟩ := h.shape
  rw [hcode]
  refine .of_forward ?_ (.inl rfl)
  simp only [Code.forward_cons, reduceCtorEq, IsEmpty.forall_iff, implies_true, true_and]
  exact hbody.forward

theorem Region.Formed.halt_notMem {r : Region} (h : r.Formed) : .bare .halt ∉ r.code := by
  obtain ⟨body, hbody, hcode⟩ := h.shape
  rw [hcode]
  simp [hbody.halt]

/-- The main code and the regions of the functions, in the order in which they stand. -/
def blocks (main : List Instr) (regions : List Region) : List (List Instr) :=
  (main ++ [.bare .halt]) :: regions.map Region.code

theorem sealed_of_mem_blocks {main : List Instr} {regions : List Region} (hmain : Interior main)
    (hregions : ∀ r ∈ regions, r.Formed) {block : List Instr} (h : block ∈ blocks main regions) :
    Sealed block := by
  rcases List.mem_cons.mp h with rfl | h
  · exact .of_forward hmain.forward (.inr rfl)
  · obtain ⟨r, hr, rfl⟩ := List.mem_map.mp h
    exact (hregions r hr).sealed

namespace Program

/-- The code of the program is the given main code, with the end of the run, and the given regions
of its functions. -/
structure Divides (p : Program) (code main : List Instr) (regions : List Region) : Prop where
  code_eq : code = (blocks main regions).flatten
  /-- The run ends at one place only. -/
  count_halt : code.count (.bare .halt) = 1
  interior : Interior main
  /-- Each function of the program has a region, under the number that is its own. -/
  functions : (regions.map fun r => (r.fn, r.number)).Perm p.functions.zipIdx
  formed : ∀ r ∈ regions, r.Formed
  count_function : ∀ n, (Code.defined code).count (.function n) = if n < p.functions.length then
    1 else 0
  count_branch : ∃ k, ∀ n, (Code.defined code).count (.branch n) = if n < k then 1 else 0
  defined_of_mentioned : ∀ l ∈ Code.mentioned code, l ∈ Code.defined code
  /-- Jumps go to labels that stand behind them in the same part. -/
  forward : ∀ block ∈ blocks main regions, Forward block
  /-- No part is left but by calls and returns. -/
  confines : ∀ before block after, blocks main regions = before ++ block :: after →
    (Code.link code).Confines (Code.size before.flatten) (Code.size (before.flatten ++ block))

/-- Code is divided into the main code and one region for each function, and control stays in each
of them. -/
theorem generate_divides {p : Program} {r : Resolution} {globalFrame : Int32} {listing : Listing}
    (h : p.generate r globalFrame = .ok listing) :
    ∃ main regions, p.Divides listing.instrs main regions := by
  obtain ⟨main, bodies, s, hcode, hmain, ⟨regions, rfl, hperm, hformed⟩, hlabelled, hfunctions⟩ :=
    generate_placed h
  obtain ⟨hnodup, hdefined⟩ := generate_labels h
  have hblocks : listing.instrs = (blocks main regions).flatten := by
    rw [hcode, blocks, List.flatten_cons, List.flatMap_def, List.append_assoc]
    rfl
  refine ⟨main, regions, hblocks, ?_, hmain, hperm, hformed, fun n => ?_, ⟨s.branches, fun n => ?_⟩,
    hdefined,
    fun block hblock => (sealed_of_mem_blocks hmain hformed hblock).forward,
    fun before block after hsplit => ?_⟩
  · have hbodies : .bare .halt ∉ regions.flatMap Region.code := by
      intro hmem
      obtain ⟨region, hregion, hhalt⟩ := List.mem_flatMap.mp hmem
      exact (hformed region hregion).halt_notMem hhalt
    rw [hcode, List.count_append, List.count_eq_zero_of_not_mem hmain.halt, List.count_cons_self,
      List.count_eq_zero_of_not_mem hbodies]
  · rw [hlabelled.count_defined, ← hfunctions]
    simp [LabelSupply.given]
  · rw [hlabelled.count_defined]
    simp [LabelSupply.given]
  · have hmem : block ∈ blocks main regions := hsplit ▸ List.mem_append_right _ List.mem_cons_self
    have hparts : listing.instrs = before.flatten ++ (block ++ after.flatten) := by
      rw [hblocks, hsplit, List.flatten_append, List.flatten_cons]
    rw [hparts] at hnodup ⊢
    exact (sealed_of_mem_blocks hmain hformed hmem).confines hnodup

/-- A function that calls itself through one inside it, and a method that calls the function. -/
def countdown : Program where
  decls := [
    .fn {
      id := 0
      name := "count"
      params := [⟨1, "n", .int, default⟩]
      result := .int
      decls := [
        .fn {
          id := 2, name := "next", params := [], result := .int, decls := [], pos := default
          body := .call 3 "count" [.binary .sub (.name 4 "n" default) (.int 1 default) default]
            default }]
      body := .ite (.binary .lessEqual (.name 5 "n" default) (.int 0 default) default)
        (.int 0 default) (.call 6 "next" [] default) default
      pos := default },
    .cls {
      id := 7
      name := "A"
      superclass := none
      fields := [⟨8, "a", .int, default⟩]
      methods := [
        { id := 9, name := "run", params := [], result := .int, decls := [], pos := default
          body := .call 10 "count" [.name 11 "a" default] default }]
      pos := default },
    .var ⟨12, "x", .ref "A", .new 13 "A" [.int 3 default] default, default⟩]
  body := .send 14 "x" "run" [] default
  pos := default

theorem generate_divides_countdown : ∃ listing main regions,
    countdown.generate countdown.resolve 10000 = .ok listing ∧
    countdown.Divides listing.instrs main regions ∧
      regions.length = 3 := by
  have hdistinct : countdown.Distinct := by decide +kernel
  have hresolve : countdown.resolve.errors = [] := by decide +kernel
  obtain ⟨listing, hlisting⟩ := exists_generate_resolve hdistinct.built hresolve 10000
  obtain ⟨main, regions, hdivides⟩ := generate_divides hlisting
  have hlength := hdivides.functions.length_eq
  rw [List.length_map, List.length_zipIdx] at hlength
  exact ⟨listing, main, regions, hlisting, hdivides, hlength⟩

end Program

end Stackling
