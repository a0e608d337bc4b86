import Mathlib.Algebra.Group.Nat.Defs
import Stackling.Proofs.Linking
import Stackling.Proofs.Machine.Runs

/-!
# Configurations

Generated code treats the memory as two lists of cells, a stack and a heap. A configuration holds
these lists, and `Rep` says that a state of the machine shows them at the two ends of its memory.
Each operation then has one lemma on configurations: unless the state collides, the step leads to a
state that shows the next configuration.
-/

namespace Stackling

/-- The value is the address of an operation. -/
structure Image.Points (image : Image) (target : Int32) (place : Nat) : Prop where
  nonneg : ¬target < 0
  place_eq : target.toNatClampNeg = place
  place_lt : place < image.ops.size

theorem Image.points_of_toInt {image : Image} {target : Int32} (hnonneg : 0 ≤ target.toInt)
    (hlt : target.toInt < image.ops.size) : image.Points target target.toInt.toNat := by
  refine ⟨?_, rfl, by omega⟩
  rw [Int32.not_lt, Int32.le_iff_toInt_le]
  exact hnonneg

/-- Code in a memory of a size that the machine can address. -/
structure Platform where
  image : Image
  /-- Where the labels of the code are. -/
  address : Label → Nat
  size : Nat
  size_lt : size < 2 ^ 31

/-- A platform whose code can be addressed too. -/
structure World extends Platform where
  code_le : image.ops.size ≤ 2 ^ 31

instance : Coe World Platform := ⟨World.toPlatform⟩

/-- A state of the machine as far as a program can tell: the stack and the heap are lists. -/
structure Config where
  ip : Nat
  /-- The top of the stack first. -/
  stack : List Int32
  heap : List Int32
  fp : Int32
  ra : Int32
  tm : Int32
  output : Array Int32
  /-- What was stored in the first free cell of the heap, if anything. -/
  spare : Option Int32 := none

namespace Platform

variable {w : Platform} {c : Config} {s : State}

/-- A state shows a configuration. The spare cell counts only until the stack reaches it. -/
structure Rep (w : Platform) (c : Config) (s : State) : Prop where
  ip : s.ip = c.ip
  size : s.memory.size = w.size
  apart : c.heap.length + c.stack.length ≤ w.size
  sp : s.sp = Int32.ofNat (w.size - c.stack.length)
  hp : s.hp = Int32.ofNat c.heap.length
  stack : ∀ i v, c.stack[i]? = some v → s.memory.get? (w.size - c.stack.length + i) = some v
  heap : ∀ i v, c.heap[i]? = some v → s.memory.get? i = some v
  spare : ∀ v, c.spare = some v → c.heap.length + c.stack.length < w.size →
    s.memory.get? c.heap.length = some v
  fp : s.fp = c.fp
  ra : s.ra = c.ra
  tm : s.tm = c.tm
  output : s.output = c.output

/-- The address of the stack cell that has `n` cells below it. -/
def slot (w : Platform) (n : Nat) : Int32 := Int32.ofNat w.size - 1 - Int32.ofNat n

/-- The cell at an address of the stack or the heap. -/
def Has (w : Platform) (stack heap : List Int32) (a v : Int32) : Prop :=
  (∃ below, v :: below <:+ stack ∧ a = w.slot below.length) ∨
    ∃ n, heap[n]? = some v ∧ a = Int32.ofNat n

/-- An address keeps its word while the stack and the heap grow. -/
theorem Has.mono {st st' heap heap' : List Int32} {a v : Int32} (h : w.Has st heap a v)
    (hst : st <:+ st') (hheap : heap <+: heap') : w.Has st' heap' a v := by
  rcases h with ⟨below, hbelow, ha⟩ | ⟨n, hn, ha⟩
  · exact .inl ⟨below, hbelow.trans hst, ha⟩
  · obtain ⟨more, rfl⟩ := hheap
    refine .inr ⟨n, ?_, ha⟩
    rw [List.getElem?_append_left (List.getElem?_eq_some_iff.mp hn).1]
    exact hn

/-- The top of the stack is found at its slot. -/
theorem Has.top (w : Platform) (st heap : List Int32) (v : Int32) :
    w.Has (v :: st) heap (w.slot st.length) v :=
  .inl ⟨st, List.suffix_refl _, rfl⟩

/-! ### Memory -/

theorem zero_eq_ofNat : (0 : Int32) = Int32.ofNat 0 := rfl

theorem one_eq_ofNat : (1 : Int32) = Int32.ofNat 1 := rfl

theorem not_neg_ofNat {n : Nat} (h : n < 2 ^ 31) : ¬Int32.ofNat n < 0 := by
  rw [Int32.not_lt, zero_eq_ofNat, Int32.ofNat_le_iff_le (by decide) h]
  exact Nat.zero_le n

/-- Addresses are read as numbers. -/
theorem cell?_ofNat {m : Memory} {n : Nat} (h : n < 2 ^ 31) :
    m.cell? (Int32.ofNat n) = m.get? n := by
  rw [Memory.cell?, if_neg (not_neg_ofNat h), Int32.toNatClampNeg_ofNat_of_lt h]

/-- Slots are counted from the end of memory. -/
theorem slot_eq {n : Nat} (h : n < w.size) : w.slot n = Int32.ofNat (w.size - 1 - n) := by
  rw [slot, Int32.ofNat_sub _ _ (by omega), Int32.ofNat_sub _ _ (by omega)]
  rfl

/-- The memory shows the cells of the configuration. -/
theorem Rep.cell? (h : w.Rep c s) {a v : Int32} (hv : w.Has c.stack c.heap a v) :
    s.memory.cell? a = some v := by
  have hsize := w.size_lt
  have hapart := h.apart
  rcases hv with ⟨below, ⟨pre, hpre⟩, rfl⟩ | ⟨n, hn, rfl⟩
  · have hlength : c.stack.length = pre.length + (below.length + 1) := by
      rw [← hpre, List.length_append, List.length_cons]
    have hget : c.stack[pre.length]? = some v := by
      rw [← hpre, List.getElem?_append_right (Nat.le_refl _), Nat.sub_self, List.getElem?_cons_zero]
    have hmem := h.stack _ _ hget
    have haddress : w.size - c.stack.length + pre.length = w.size - 1 - below.length := by omega
    rw [slot_eq (by omega), cell?_ofNat (by omega), ← haddress]
    exact hmem
  · have hlt : n < c.heap.length := (List.getElem?_eq_some_iff.mp hn).1
    rw [cell?_ofNat (by omega)]
    exact h.heap _ _ hn

/-- While there is room, a push puts its word on top of the stack. -/
theorem Rep.push_of_lt (h : w.Rep c s) (hroom : c.heap.length + c.stack.length < w.size) (ip : Nat)
    (v : Int32) :
    ∃ s', s.push ip v = .ok s' ∧ w.Rep { c with stack := v :: c.stack } s' ∧ s.Keeps s' := by
  have hsize := w.size_lt
  have hsp : s.sp - 1 = Int32.ofNat (w.size - (c.stack.length + 1)) := by
    rw [h.sp, Nat.sub_add_eq, Int32.ofNat_sub (w.size - c.stack.length) 1 (by omega)]
    rfl
  have hcond : ¬(s.sp ≤ s.hp ∨ s.sp ≤ 0) := by
    rw [h.sp, h.hp, zero_eq_ofNat, Int32.ofNat_le_iff_le (by omega) (by omega),
      Int32.ofNat_le_iff_le (by omega) (by decide)]
    omega
  have hplace : (s.sp - 1).toNatClampNeg = w.size - (c.stack.length + 1) := by
    rw [hsp, Int32.toNatClampNeg_ofNat_of_lt (by omega)]
  have hget : ∀ a, a ≠ w.size - (c.stack.length + 1) →
      (s.memory.set (s.sp - 1).toNatClampNeg v).get? a = s.memory.get? a := by
    intro a ha
    rw [Memory.get?_set, hplace, if_neg (fun hc => ha hc.1.symm)]
  refine ⟨_, if_neg hcond, ⟨h.ip, ?_, ?_, hsp, h.hp, ?_, ?_, ?_, h.fp, h.ra, h.tm, h.output⟩, ?_,
    ?_, ?_⟩
  · rw [Memory.size_set]
    exact h.size
  · simp only [List.length_cons]
    omega
  · intro i x hi
    rw [List.length_cons]
    cases i with
    | zero =>
      rw [List.getElem?_cons_zero] at hi
      obtain rfl := Option.some.inj hi
      rw [Memory.get?_set, hplace, if_pos ⟨by omega, by rw [h.size]; omega⟩]
    | succ i =>
      rw [List.getElem?_cons_succ] at hi
      have hlt : i < c.stack.length := (List.getElem?_eq_some_iff.mp hi).1
      rw [hget _ (by omega), ← h.stack i x hi]
      congr 1
      omega
  · intro i x hi
    have hlt : i < c.heap.length := (List.getElem?_eq_some_iff.mp hi).1
    rw [hget _ (by omega)]
    exact h.heap i x hi
  · intro x hx hlt
    rw [List.length_cons] at hlt
    rw [hget _ (by omega)]
    exact h.spare x hx hroom
  · rw [h.hp]
    exact Int32.not_lt.mp (not_neg_ofNat (by omega))
  · exact Int32.le_refl _
  · intro a ha
    rw [h.hp, Int32.toNatClampNeg_ofNat_of_lt (by omega)] at ha
    exact hget _ (by omega)

/-- A push overflows only if stack and heap meet; otherwise it keeps all cells. -/
theorem Rep.push (h : w.Rep c s) (ip : Nat) (v : Int32) :
    (s.sp ≤ s.hp ∧ s.push ip v = .error (.stackOverflow ip)) ∨
      ∃ s', s.push ip v = .ok s' ∧ w.Rep { c with stack := v :: c.stack } s' ∧ s.Keeps s' := by
  have hsize := w.size_lt
  rcases Nat.lt_or_eq_of_le h.apart with hroom | hfull
  · exact .inr (h.push_of_lt hroom ip v)
  · have hmeet : s.sp ≤ s.hp := by
      rw [h.sp, h.hp, Int32.ofNat_le_iff_le (by omega) (by omega)]
      omega
    exact .inl ⟨hmeet, if_pos (.inl hmeet)⟩

theorem Rep.top {v : Int32} {st : List Int32} (h : w.Rep c s) (hst : c.stack = v :: st) :
    s.memory.cell? s.sp = some v := by
  have hsize := w.size_lt
  have hapart := h.apart
  rw [h.sp, cell?_ofNat (by omega)]
  exact h.stack 0 v (by rw [hst, List.getElem?_cons_zero])

theorem Rep.peek {v : Int32} {st : List Int32} (h : w.Rep c s) (hst : c.stack = v :: st)
    (ip : Nat) :
    s.peek ip = .ok v := by
  rw [State.peek, h.top hst]

/-- A pop takes the top of the stack and leaves it in memory. -/
theorem Rep.pop {v : Int32} {st : List Int32} (h : w.Rep c s) (hst : c.stack = v :: st) (ip : Nat) :
    s.pop ip = .ok (v, { s with sp := s.sp + 1 }) ∧
      w.Rep { c with stack := st, spare := none } { s with sp := s.sp + 1 } := by
  have hsize := w.size_lt
  have hapart := h.apart
  have hlength : c.stack.length = st.length + 1 := by rw [hst, List.length_cons]
  refine ⟨?_, h.ip, h.size, ?_, ?_, h.hp, ?_, h.heap, nofun, h.fp, h.ra, h.tm, h.output⟩
  · rw [State.pop, h.peek hst]
    rfl
  · simp only
    omega
  · rw [h.sp, hlength, one_eq_ofNat, ← Int32.ofNat_add]
    exact congrArg Int32.ofNat (show w.size - (st.length + 1) + 1 = w.size - st.length by omega)
  · intro i x hi
    rw [← h.stack (i + 1) x (by rw [hst, List.getElem?_cons_succ]; exact hi), hlength]
    congr 1
    simp only
    omega

/-- Two pops give the operands in the order they were pushed. -/
theorem Rep.popTwo {l r : Int32} {st : List Int32} (h : w.Rep c s) (hst : c.stack = r :: l :: st)
    (ip : Nat) :
    s.popTwo ip = .ok (l, r, { s with sp := s.sp + 1 + 1 }) ∧
      w.Rep { c with stack := st, spare := none } { s with sp := s.sp + 1 + 1 } := by
  obtain ⟨hpop, hrep⟩ := h.pop hst ip
  obtain ⟨hpop', hrep'⟩ := hrep.pop rfl ip
  refine ⟨?_, hrep'⟩
  rw [State.popTwo, hpop]
  change (State.pop _ ip >>= _) = _
  rw [hpop']
  rfl

/-! ### Operations -/

theorem Rep.fetched (h : w.Rep c s) : w.Rep { c with ip := c.ip + 1 } { s with ip := s.ip + 1 } :=
  { h with ip := congrArg (· + 1) h.ip }

theorem Rep.registers (h : w.Rep c s) (fp ra tm : Int32) :
    w.Rep { c with fp := fp, ra := ra, tm := tm } { s with fp := fp, ra := ra, tm := tm } :=
  ⟨h.ip, h.size, h.apart, h.sp, h.hp, h.stack, h.heap, h.spare, rfl, rfl, rfl, h.output⟩

theorem Rep.keeps (h : w.Rep c s) {s' : State} (hhp : s'.hp = s.hp) (hmem : s'.memory = s.memory) :
    s.Keeps s' := by
  have hsize := w.size_lt
  have hapart := h.apart
  refine ⟨?_, hhp ▸ Int32.le_refl _, fun a _ => by rw [hmem]⟩
  rw [h.hp]
  exact Int32.not_lt.mp (not_neg_ofNat (by omega))

/-- From each state that shows the first configuration, `k` steps lead to one that shows the
second. -/
def Reach (w : Platform) (k : Nat) (c c' : Config) : Prop :=
  ∀ s, w.Rep c s → s.Runs w.image k (w.Rep c')

theorem Reach.refl (w : Platform) (c : Config) : w.Reach 0 c c := fun _ h => h

/-- Steps add up. -/
theorem Reach.trans {j k : Nat} {c₁ c₂ c₃ : Config} (h : w.Reach j c₁ c₂) (h' : w.Reach k c₂ c₃) :
    w.Reach (j + k) c₁ c₃ :=
  fun s hs => (h s hs).bind h'

/-- Stack and heap of a configuration that is shown are apart. -/
theorem Reach.of_apart {k : Nat} {c' : Config}
    (h : c.heap.length + c.stack.length ≤ w.size → w.Reach k c c') :
    w.Reach k c c' :=
  fun s hs => h hs.apart s hs

/-- The free cells are those that neither list takes. -/
theorem Rep.room (h : w.Rep c s) : s.room = w.size - (c.heap.length + c.stack.length : Nat) := by
  have hsize := w.size_lt
  have hapart := h.apart
  rw [State.room, h.sp, h.hp, Int32.toInt_ofNat_of_lt (by omega),
    Int32.toInt_ofNat_of_lt (by omega)]
  omega

/-- A step performs the operation at the instruction pointer, with the pointer already past it. -/
theorem Rep.step_eq (h : w.Rep c s) {op : Op} (hop : w.image.ops[c.ip]? = some op) :
    s.step w.image = { s with ip := s.ip + 1 }.perform w.image.ops.size s.ip op := by
  rw [← h.ip] at hop
  rw [State.step, hop]

theorem Rep.clean (h : w.Rep c s) {c' : Config} {s' : State} (h' : w.Rep c' s')
    (hkeeps : State.Keeps { s with ip := s.ip + 1 } s')
    (hroom : c'.heap.length + c'.stack.length ≤ c.heap.length + c.stack.length + 1) :
    s.Clean s' := by
  refine ⟨⟨hkeeps.nonneg, hkeeps.grows, hkeeps.kept⟩, ?_⟩
  rw [h.room, h'.room]
  omega

/-- One step, given what its operation does. The operation may overflow if stack and heap meet. -/
theorem Reach.of_perform {c' : Config} {op : Op} (hop : w.image.ops[c.ip]? = some op)
    (hroom : c'.heap.length + c'.stack.length ≤ c.heap.length + c.stack.length + 1)
    (h : ∀ s, w.Rep { c with ip := c.ip + 1 } s → ∀ ip,
      (s.sp ≤ s.hp ∧ s.perform w.image.ops.size ip op = .error (.stackOverflow ip)) ∨
        ∃ s', s.perform w.image.ops.size ip op = .ok (.running s') ∧ w.Rep c' s' ∧ s.Keeps s') :
    w.Reach 1 c c' := by
  intro s hs
  have hstep := hs.step_eq hop
  rcases h _ hs.fetched s.ip with ⟨hmeet, herror⟩ | ⟨s', hok, hrep, hkeeps⟩
  · exact .inl ⟨hmeet, .inl (hstep.trans herror)⟩
  · exact .inr ⟨s', hstep.trans hok, hs.clean hrep hkeeps hroom, hrep⟩

/-- One step leads from each state that shows the first configuration to one that shows the second,
whether stack and heap meet or not. -/
def Moves (w : Platform) (c c' : Config) : Prop :=
  ∀ s, w.Rep c s → ∃ s', s.step w.image = .ok (.running s') ∧ s.Clean s' ∧ w.Rep c' s'

/-- A move is a step. -/
theorem Moves.reach {c' : Config} (h : w.Moves c c') : w.Reach 1 c c' := fun s hs => .inr (h s hs)

/-- A move is known from what its instruction does to every state that is represented. -/
theorem Moves.of_perform {c' : Config} {op : Op} (hop : w.image.ops[c.ip]? = some op)
    (hroom : c'.heap.length + c'.stack.length ≤ c.heap.length + c.stack.length + 1)
    (h : ∀ s, w.Rep { c with ip := c.ip + 1 } s → ∀ ip,
      ∃ s', s.perform w.image.ops.size ip op = .ok (.running s') ∧ w.Rep c' s' ∧ s.Keeps s') :
    w.Moves c c' := by
  intro s hs
  obtain ⟨s', hok, hrep, hkeeps⟩ := h _ hs.fetched s.ip
  exact ⟨s', (hs.step_eq hop).trans hok, hs.clean hrep hkeeps hroom, hrep⟩

/-- Exactly `k` steps lead from each state that shows the first configuration to one that shows the
second. -/
def Advances (w : Platform) (k : Nat) (c c' : Config) : Prop :=
  ∀ s, w.Rep c s → ∃ s', s.after w.image k = some s' ∧ w.Rep c' s'

theorem Advances.refl (w : Platform) (c : Config) : w.Advances 0 c c := fun s hs => ⟨s, rfl, hs⟩

/-- Exact numbers of steps add up as well. -/
theorem Advances.trans {j k : Nat} {c₁ c₂ c₃ : Config} (h : w.Advances j c₁ c₂)
    (h' : w.Advances k c₂ c₃) :
    w.Advances (j + k) c₁ c₃ := by
  intro s hs
  obtain ⟨s', hafter, hs'⟩ := h s hs
  obtain ⟨s'', hafter', hs''⟩ := h' s' hs'
  exact ⟨s'', (State.after_add hafter).trans hafter', hs''⟩

theorem Moves.advances {c' : Config} (h : w.Moves c c') : w.Advances 1 c c' := by
  intro s hs
  obtain ⟨s', hstep, -, hs'⟩ := h s hs
  exact ⟨s', State.after_of_step hstep 0, hs'⟩

/-- So many moves lead from one configuration to another. -/
inductive Passes (w : Platform) : Nat → Config → Config → Prop where
  | refl (c : Config) : Passes w 0 c c
  | snoc {k : Nat} {c₁ c₂ c₃ : Config} (h : Passes w k c₁ c₂) (hlast : w.Moves c₂ c₃) :
      Passes w (k + 1) c₁ c₃

theorem Moves.passes {c' : Config} (h : w.Moves c c') : w.Passes 1 c c' := .snoc (.refl c) h

namespace Passes

variable {k : Nat} {c₁ c₂ c₃ : Config}

theorem trans {j : Nat} (h : w.Passes j c₁ c₂) (h' : w.Passes k c₂ c₃) :
    w.Passes (j + k) c₁ c₃ := by
  induction h' with
  | refl => exact h
  | snoc _ hlast ih => exact .snoc (ih h) hlast

theorem reach (h : w.Passes k c₁ c₂) : w.Reach k c₁ c₂ := by
  induction h with
  | refl c => exact .refl w c
  | snoc _ hlast ih => exact ih.trans hlast.reach

theorem advances (h : w.Passes k c₁ c₂) : w.Advances k c₁ c₂ := by
  induction h with
  | refl c => exact .refl w c
  | snoc _ hlast ih => exact ih.trans hlast.advances

end Passes

section Ops

variable {pc : Nat} {st heap : List Int32} {fp ra tm : Int32} {out : Array Int32} {o : Option Int32}

/-- Operations that push one value. -/
theorem reach_of_push {op : Op} {v : Int32} (hop : w.image.ops[pc]? = some op)
    (hperform : ∀ s, w.Rep ⟨pc + 1, st, heap, fp, ra, tm, out, o⟩ s → ∀ n ip,
      s.perform n ip op = (s.push ip v >>= fun s => pure (.running s))) :
    w.Reach 1 ⟨pc, st, heap, fp, ra, tm, out, o⟩ ⟨pc + 1, v :: st, heap, fp, ra, tm, out, o⟩ := by
  refine .of_perform hop (by grind) fun s hs ip => ?_
  rw [hperform s hs]
  rcases hs.push ip v with ⟨hmeet, hpush⟩ | ⟨s', hpush, hrep, hkeeps⟩
  · rw [hpush]
    exact .inl ⟨hmeet, rfl⟩
  · rw [hpush]
    exact .inr ⟨s', rfl, hrep, hkeeps⟩

/-- All instructions that push do so in the same way. -/
theorem moves_of_push {op : Op} {v : Int32} (hop : w.image.ops[pc]? = some op)
    (hperform : ∀ s, w.Rep ⟨pc + 1, st, heap, fp, ra, tm, out, o⟩ s → ∀ n ip,
      s.perform n ip op = (s.push ip v >>= fun s => pure (.running s)))
    (hroom : heap.length + st.length < w.size) :
    w.Moves ⟨pc, st, heap, fp, ra, tm, out, o⟩ ⟨pc + 1, v :: st, heap, fp, ra, tm, out, o⟩ := by
  refine .of_perform hop (by grind) fun s hs ip => ?_
  obtain ⟨s', hpush, hrep, hkeeps⟩ := hs.push_of_lt hroom ip v
  refine ⟨s', ?_, hrep, hkeeps⟩
  rw [hperform s hs, hpush]
  rfl

theorem moves_push {v : Int32} (hop : w.image.ops[pc]? = some (.push v))
    (hroom : heap.length + st.length < w.size) :
    w.Moves ⟨pc, st, heap, fp, ra, tm, out, o⟩ ⟨pc + 1, v :: st, heap, fp, ra, tm, out, o⟩ :=
  moves_of_push hop (fun _ _ _ _ => rfl) hroom

theorem moves_lra (hop : w.image.ops[pc]? = some (.bare .lra))
    (hroom : heap.length + st.length < w.size) :
    w.Moves ⟨pc, st, heap, fp, ra, tm, out, o⟩ ⟨pc + 1, ra :: st, heap, fp, ra, tm, out, o⟩ :=
  moves_of_push hop (fun s hs _ _ => by rw [← show s.ra = ra from hs.ra]; rfl) hroom

theorem moves_ltm (hop : w.image.ops[pc]? = some (.bare .ltm))
    (hroom : heap.length + st.length < w.size) :
    w.Moves ⟨pc, st, heap, fp, ra, tm, out, o⟩ ⟨pc + 1, tm :: st, heap, fp, ra, tm, out, o⟩ :=
  moves_of_push hop (fun s hs _ _ => by rw [← show s.tm = tm from hs.tm]; rfl) hroom

theorem moves_lhp (hop : w.image.ops[pc]? = some (.bare .lhp))
    (hroom : heap.length + st.length < w.size) :
    w.Moves ⟨pc, st, heap, fp, ra, tm, out, o⟩
      ⟨pc + 1, Int32.ofNat heap.length :: st, heap, fp, ra, tm, out, o⟩ :=
  moves_of_push hop (fun s hs _ _ => by rw [← show s.hp = _ from hs.hp]; rfl) hroom

theorem reach_push {v : Int32} (hop : w.image.ops[pc]? = some (.push v)) :
    w.Reach 1 ⟨pc, st, heap, fp, ra, tm, out, o⟩ ⟨pc + 1, v :: st, heap, fp, ra, tm, out, o⟩ :=
  reach_of_push hop fun _ _ _ _ => rfl

theorem reach_lfp (hop : w.image.ops[pc]? = some (.bare .lfp)) :
    w.Reach 1 ⟨pc, st, heap, fp, ra, tm, out, o⟩ ⟨pc + 1, fp :: st, heap, fp, ra, tm, out, o⟩ :=
  reach_of_push hop fun s hs _ _ => by rw [← show s.fp = fp from hs.fp]; rfl

theorem reach_lra (hop : w.image.ops[pc]? = some (.bare .lra)) :
    w.Reach 1 ⟨pc, st, heap, fp, ra, tm, out, o⟩ ⟨pc + 1, ra :: st, heap, fp, ra, tm, out, o⟩ :=
  reach_of_push hop fun s hs _ _ => by rw [← show s.ra = ra from hs.ra]; rfl

theorem reach_ltm (hop : w.image.ops[pc]? = some (.bare .ltm)) :
    w.Reach 1 ⟨pc, st, heap, fp, ra, tm, out, o⟩ ⟨pc + 1, tm :: st, heap, fp, ra, tm, out, o⟩ :=
  reach_of_push hop fun s hs _ _ => by rw [← show s.tm = tm from hs.tm]; rfl

theorem reach_lhp (hop : w.image.ops[pc]? = some (.bare .lhp)) :
    w.Reach 1 ⟨pc, st, heap, fp, ra, tm, out, o⟩
      ⟨pc + 1, Int32.ofNat heap.length :: st, heap, fp, ra, tm, out, o⟩ :=
  reach_of_push hop fun s hs _ _ => by rw [← show s.hp = _ from hs.hp]; rfl

/-- The operation pops one value and sets registers, perhaps to that value. -/
def Pops (op : Op) (v fp ra tm fp' ra' tm' : Int32) : Prop :=
  ∀ (s : State) (n ip : Nat), s.fp = fp → s.ra = ra → s.tm = tm →
    s.pop ip = .ok (v, { s with sp := s.sp + 1 }) →
    s.perform n ip op = .ok (.running { s with sp := s.sp + 1, fp := fp', ra := ra', tm := tm' })

theorem pops_pop {v : Int32} : Pops (.bare .pop) v fp ra tm fp ra tm := by
  rintro s n ip rfl rfl rfl hpop
  simp only [State.perform, hpop]
  rfl

theorem pops_stm {v : Int32} : Pops (.bare .stm) v fp ra tm fp ra v := by
  rintro s n ip rfl rfl - hpop
  simp only [State.perform, hpop]
  rfl

theorem pops_sra {v : Int32} : Pops (.bare .sra) v fp ra tm fp v tm := by
  rintro s n ip rfl - rfl hpop
  simp only [State.perform, hpop]
  rfl

theorem pops_sfp {v : Int32} : Pops (.bare .sfp) v fp ra tm v ra tm := by
  rintro s n ip - rfl rfl hpop
  simp only [State.perform, hpop]
  rfl

/-- All instructions that pop do so in the same way. -/
theorem moves_of_pop {op : Op} {v fp' ra' tm' : Int32} (hop : w.image.ops[pc]? = some op)
    (hpops : Pops op v fp ra tm fp' ra' tm') :
    w.Moves ⟨pc, v :: st, heap, fp, ra, tm, out, o⟩
      ⟨pc + 1, st, heap, fp', ra', tm', out, none⟩ := by
  refine .of_perform hop (by grind) fun s hs ip => ?_
  obtain ⟨hpop, hrep⟩ := hs.pop rfl ip
  exact ⟨_, hpops s _ _ hs.fp hs.ra hs.tm hpop, hrep.registers fp' ra' tm', hs.keeps rfl rfl⟩

/-- Where the stack does not reach the spare cell, popping leaves it alone. -/
theorem moves_of_pop_keeping {op : Op} {v fp' ra' tm' : Int32} (hop : w.image.ops[pc]? = some op)
    (hpops : Pops op v fp ra tm fp' ra' tm') (hroom : heap.length + (v :: st).length < w.size) :
    w.Moves ⟨pc, v :: st, heap, fp, ra, tm, out, o⟩ ⟨pc + 1, st, heap, fp', ra', tm', out, o⟩ := by
  refine .of_perform hop (by grind) fun s hs ip => ?_
  obtain ⟨hpop, hrep⟩ := hs.pop rfl ip
  have hrep' : w.Rep ⟨pc + 1, st, heap, fp, ra, tm, out, o⟩ { s with sp := s.sp + 1 } :=
    { hrep with spare := fun x hx _ => hs.spare x hx hroom }
  exact ⟨_, hpops s _ _ hs.fp hs.ra hs.tm hpop, hrep'.registers fp' ra' tm', hs.keeps rfl rfl⟩

theorem reach_stm {v : Int32} (hop : w.image.ops[pc]? = some (.bare .stm)) :
    w.Reach 1 ⟨pc, v :: st, heap, fp, ra, tm, out, o⟩ ⟨pc + 1, st, heap, fp, ra, v, out, none⟩ :=
  (moves_of_pop hop pops_stm).reach

theorem reach_cfp {v : Int32} (hop : w.image.ops[pc]? = some (.bare .cfp)) :
    w.Reach 1 ⟨pc, v :: st, heap, fp, ra, tm, out, o⟩
      ⟨pc + 1, v :: st, heap, w.slot st.length, ra, tm, out, o⟩ := by
  refine .of_perform hop (by grind) fun s hs ip => .inr ⟨_, rfl, ?_, hs.keeps rfl rfl⟩
  have hlength : st.length + 1 ≤ w.size := Nat.le_trans (Nat.le_add_left _ _) hs.apart
  have hsp : s.sp = w.slot st.length := by
    rw [slot_eq (Nat.lt_of_succ_le hlength)]
    exact hs.sp.trans
      (congrArg Int32.ofNat (show w.size - (st.length + 1) = w.size - 1 - st.length by omega))
  exact ⟨hs.ip, hs.size, hs.apart, hs.sp, hs.hp, hs.stack, hs.heap, hs.spare, hsp, hs.ra, hs.tm,
    hs.output⟩

/-- Operations that replace the two topmost values by one. -/
theorem moves_of_binary {op : Op} {l r x : Int32} {f : Nat → Int32 → Int32 → Except Fault Int32}
    (hop : w.image.ops[pc]? = some op)
    (hperform : ∀ (s : State) n ip, s.perform n ip op = (s.binary ip (f ip) >>= fun s =>
      pure (.running s)))
    (hf : ∀ ip, f ip l r = .ok x) :
    w.Moves ⟨pc, r :: l :: st, heap, fp, ra, tm, out, o⟩
      ⟨pc + 1, x :: st, heap, fp, ra, tm, out, none⟩ := by
  refine .of_perform hop (by grind) fun s hs ip => ?_
  obtain ⟨htwo, hrep⟩ := hs.popTwo rfl ip
  have hroom : heap.length + st.length < w.size := by
    have happart : heap.length + (st.length + 1 + 1) ≤ w.size := hs.apart
    omega
  obtain ⟨s', hpush, hrep', hkeeps⟩ := hrep.push_of_lt hroom ip x
  refine ⟨s', ?_, hrep', ⟨hkeeps.nonneg, hkeeps.grows, hkeeps.kept⟩⟩
  rw [hperform, State.binary, htwo]
  change ((f ip l r >>= _) >>= _) = _
  rw [hf ip]
  change (State.push _ ip x >>= _) = _
  rw [hpush]
  rfl

theorem moves_add {l r : Int32} (hop : w.image.ops[pc]? = some (.bare .add)) :
    w.Moves ⟨pc, r :: l :: st, heap, fp, ra, tm, out, o⟩
      ⟨pc + 1, (l + r) :: st, heap, fp, ra, tm, out, none⟩ :=
  moves_of_binary hop (fun _ _ _ => rfl) fun _ => rfl

theorem reach_add {l r : Int32} (hop : w.image.ops[pc]? = some (.bare .add)) :
    w.Reach 1 ⟨pc, r :: l :: st, heap, fp, ra, tm, out, o⟩
      ⟨pc + 1, (l + r) :: st, heap, fp, ra, tm, out, none⟩ :=
  (moves_add hop).reach

theorem moves_sub {l r : Int32} (hop : w.image.ops[pc]? = some (.bare .sub)) :
    w.Moves ⟨pc, r :: l :: st, heap, fp, ra, tm, out, o⟩
      ⟨pc + 1, (l - r) :: st, heap, fp, ra, tm, out, none⟩ :=
  moves_of_binary hop (fun _ _ _ => rfl) fun _ => rfl

theorem moves_mult {l r : Int32} (hop : w.image.ops[pc]? = some (.bare .mult)) :
    w.Moves ⟨pc, r :: l :: st, heap, fp, ra, tm, out, o⟩
      ⟨pc + 1, (l * r) :: st, heap, fp, ra, tm, out, none⟩ :=
  moves_of_binary hop (fun _ _ _ => rfl) fun _ => rfl

theorem moves_div {l r : Int32} (hop : w.image.ops[pc]? = some (.bare .div)) (hr : r ≠ 0) :
    w.Moves ⟨pc, r :: l :: st, heap, fp, ra, tm, out, o⟩
      ⟨pc + 1, (l / r) :: st, heap, fp, ra, tm, out, none⟩ :=
  moves_of_binary hop (fun _ _ _ => rfl) fun _ => if_neg hr

/-- A load replaces an address by its word. -/
theorem moves_of_load {a v : Int32} (hop : w.image.ops[pc]? = some (.bare .lw))
    (hload : ∀ s, w.Rep ⟨pc + 1, a :: st, heap, fp, ra, tm, out, o⟩ s → s.memory.cell? a = some v) :
    w.Moves ⟨pc, a :: st, heap, fp, ra, tm, out, o⟩
      ⟨pc + 1, v :: st, heap, fp, ra, tm, out, none⟩ := by
  refine .of_perform hop (by grind) fun s hs ip => ?_
  obtain ⟨hpop, hrep⟩ := hs.pop rfl ip
  have hroom : heap.length + st.length < w.size := by
    have happart : heap.length + (st.length + 1) ≤ w.size := hs.apart
    omega
  obtain ⟨s', hpush, hrep', hkeeps⟩ := hrep.push_of_lt hroom ip v
  refine ⟨s', ?_, hrep', ⟨hkeeps.nonneg, hkeeps.grows, hkeeps.kept⟩⟩
  have hcell : State.load { s with sp := s.sp + 1 } ip a = .ok v := by
    rw [State.load, hload s hs]
  simp only [State.perform, hpop, bind, Except.bind, hcell, hpush]
  rfl

/-- A load from the stack or the heap. -/
theorem moves_lw {a v : Int32} (hop : w.image.ops[pc]? = some (.bare .lw))
    (hv : w.Has st heap a v) :
    w.Moves ⟨pc, a :: st, heap, fp, ra, tm, out, o⟩
      ⟨pc + 1, v :: st, heap, fp, ra, tm, out, none⟩ :=
  moves_of_load hop fun _ hs => hs.cell? (hv.mono (List.suffix_cons a st) (List.prefix_refl heap))

theorem reach_lw {a v : Int32} (hop : w.image.ops[pc]? = some (.bare .lw))
    (hv : w.Has st heap a v) :
    w.Reach 1 ⟨pc, a :: st, heap, fp, ra, tm, out, o⟩
      ⟨pc + 1, v :: st, heap, fp, ra, tm, out, none⟩ :=
  (moves_lw hop hv).reach

/-- A print leaves its word on the stack. -/
theorem moves_print {v : Int32} (hop : w.image.ops[pc]? = some (.bare .print)) :
    w.Moves ⟨pc, v :: st, heap, fp, ra, tm, out, o⟩
      ⟨pc + 1, v :: st, heap, fp, ra, tm, out.push v, o⟩ := by
  refine .of_perform hop (by grind) fun s hs ip => ?_
  refine ⟨{ s with output := s.output.push v }, ?_, ?_, hs.keeps rfl rfl⟩
  · simp only [State.perform, hs.peek rfl, bind, Except.bind]
    rfl
  · exact ⟨hs.ip, hs.size, hs.apart, hs.sp, hs.hp, hs.stack, hs.heap, hs.spare, hs.fp, hs.ra, hs.tm,
      congrArg (·.push v) hs.output⟩

theorem reach_print {v : Int32} (hop : w.image.ops[pc]? = some (.bare .print)) :
    w.Reach 1 ⟨pc, v :: st, heap, fp, ra, tm, out, o⟩
      ⟨pc + 1, v :: st, heap, fp, ra, tm, out.push v, o⟩ :=
  (moves_print hop).reach

theorem Rep.moved (h : w.Rep c s) (ip : Nat) : w.Rep { c with ip := ip } { s with ip := ip } :=
  { h with ip := rfl }

theorem moves_jump {target : Nat} (hop : w.image.ops[pc]? = some (.jump .always target)) :
    w.Moves ⟨pc, st, heap, fp, ra, tm, out, o⟩ ⟨target, st, heap, fp, ra, tm, out, o⟩ :=
  .of_perform hop (by grind) fun _ hs _ => ⟨_, rfl, hs.moved target, hs.keeps rfl rfl⟩

theorem reach_jump {target : Nat} (hop : w.image.ops[pc]? = some (.jump .always target)) :
    w.Reach 1 ⟨pc, st, heap, fp, ra, tm, out, o⟩ ⟨target, st, heap, fp, ra, tm, out, o⟩ :=
  (moves_jump hop).reach

/-- Jumps that compare the two topmost values. -/
theorem moves_of_compare {kind : Jump} {target : Nat} {l r : Int32} {p : Prop} [Decidable p]
    (hop : w.image.ops[pc]? = some (.jump kind target))
    (hjump : ∀ (s : State) s' ip, s.popTwo ip = .ok (l, r, s') →
      s.jump ip kind target = .ok (if p then { s' with ip := target } else s')) :
    w.Moves ⟨pc, r :: l :: st, heap, fp, ra, tm, out, o⟩
      ⟨if p then target else pc + 1, st, heap, fp, ra, tm, out, none⟩ := by
  refine .of_perform hop (by grind) fun s hs ip => ?_
  obtain ⟨htwo, hrep⟩ := hs.popTwo rfl ip
  refine ⟨if p then { s with sp := s.sp + 1 + 1, ip := target } else { s with sp := s.sp + 1 + 1 },
    ?_, ?_, ?_⟩
  · simp only [State.perform, hjump s _ ip htwo, bind, Except.bind]
    rfl
  · split
    · exact hrep.moved target
    · exact hrep
  · split
    · exact hs.keeps rfl rfl
    · exact hs.keeps rfl rfl

theorem moves_equal {target : Nat} {l r : Int32}
    (hop : w.image.ops[pc]? = some (.jump .equal target)) :
    w.Moves ⟨pc, r :: l :: st, heap, fp, ra, tm, out, o⟩
      ⟨if l = r then target else pc + 1, st, heap, fp, ra, tm, out, none⟩ :=
  moves_of_compare hop fun s s' ip h => by
    simp only [State.jump, h, bind, Except.bind]
    rfl

theorem moves_lessEqual {target : Nat} {l r : Int32}
    (hop : w.image.ops[pc]? = some (.jump .lessEqual target)) :
    w.Moves ⟨pc, r :: l :: st, heap, fp, ra, tm, out, o⟩
      ⟨if l ≤ r then target else pc + 1, st, heap, fp, ra, tm, out, none⟩ :=
  moves_of_compare hop fun s s' ip h => by
    simp only [State.jump, h, bind, Except.bind]
    rfl

/-- A jump to a subroutine leaves the address behind it in the return register. -/
theorem moves_js {target : Int32} {place : Nat} (hop : w.image.ops[pc]? = some (.bare .js))
    (htarget : w.image.Points target place) :
    w.Moves ⟨pc, target :: st, heap, fp, ra, tm, out, o⟩
      ⟨place, st, heap, fp, Int32.ofNat (pc + 1), tm, out, none⟩ := by
  refine .of_perform hop (by grind) fun s hs ip => ?_
  obtain ⟨hpop, hrep⟩ := hs.pop rfl ip
  obtain ⟨hnonneg, rfl, hlt⟩ := htarget
  have hcond : ¬(target < 0 ∨ w.image.ops.size ≤ target.toNatClampNeg) :=
    not_or.mpr ⟨hnonneg, Nat.not_le.mpr hlt⟩
  refine ⟨{ s with sp := s.sp + 1, ra := Int32.ofNat (pc + 1), ip := target.toNatClampNeg }, ?_, ?_,
    hs.keeps rfl rfl⟩
  · have hjs : s.jumpSubroutine w.image.ops.size ip =
        .ok { s with sp := s.sp + 1, ra := Int32.ofNat (pc + 1), ip := target.toNatClampNeg } := by
      rw [State.jumpSubroutine, hpop]
      refine (if_neg hcond).trans ?_
      rw [show s.ip = pc + 1 from hs.ip]
      rfl
    simp only [State.perform, hjs, bind, Except.bind]
    rfl
  · exact ⟨rfl, hrep.size, hrep.apart, hrep.sp, hrep.hp, hrep.stack, hrep.heap, hrep.spare,
      hrep.fp, rfl, hrep.tm, hrep.output⟩

end Ops

end Platform

namespace World

variable {w : World} {pc target : Nat} {st heap : List Int32} {fp ra tm : Int32} {out : Array Int32}
  {o : Option Int32}

/-- Addresses of operations fit in a cell. -/
theorem points (w : World) (hlt : target < w.image.ops.size) :
    w.image.Points (Int32.ofNat target) target := by
  have hlt' : target < 2 ^ 31 := Nat.lt_of_lt_of_le hlt w.code_le
  exact ⟨Platform.not_neg_ofNat hlt', Int32.toNatClampNeg_ofNat_of_lt hlt', hlt⟩

theorem reach_js (hop : w.image.ops[pc]? = some (.bare .js)) (hlt : target < w.image.ops.size) :
    w.Reach 1 ⟨pc, Int32.ofNat target :: st, heap, fp, ra, tm, out, o⟩
      ⟨target, st, heap, fp, Int32.ofNat (pc + 1), tm, out, none⟩ :=
  (Platform.moves_js hop (w.points hlt)).reach

end World

end Stackling
