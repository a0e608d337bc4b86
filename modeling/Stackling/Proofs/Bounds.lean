import Mathlib.Algebra.Group.Int.Defs
import Stackling.Proofs.Machine.Runs

/-!
# The machine stays inside its memory

A memory answers for every address, so the machine itself does not show whether the guards before
its accesses to the stack are strong enough. Here a second machine has the same guards and takes the
cells behind them for granted: a push is guarded by the heap pointer and by zero, a peek by the
configured size, and an access that misses the memory ends the run with no fault of the machine. The
stack pointer is between zero and the size of the memory in every state, whatever the code does to
the other registers, so the unchecked machine does what the machine does.
-/

namespace Stackling

/-- The operation at which a fault arose. -/
def Fault.ip? : Fault → Option Nat
  | stackOverflow ip | stackUnderflow ip | invalidAddress _ ip | invalidCodeAddress _ ip
      | divisionByZero ip => some ip
  | stepLimitExceeded _ => none

def Progress.state : Progress → State
  | running s | halted s => s

/-! ### Unchecked accesses -/

/-- Why a machine with unchecked accesses stops. -/
inductive Trap where
  | fault (fault : Fault)
  /-- An access missed the memory, or the stack pointer went beyond the machine's words. -/
  | crash

namespace Unchecked

/-- The faults of the machine are faults of the unchecked one. -/
def lift {α : Type} (x : Except Fault α) : Except Trap α := x.mapError .fault

/-- The index of the cell at an address. -/
def index (m : Memory) (a : Int32) : Except Trap Nat :=
  if 0 ≤ a.toInt ∧ a.toInt < m.size then .ok a.toInt.toNat else .error .crash

/-- Moves the stack pointer. -/
def shift (a : Int32) (d : Int) : Except Trap Int32 :=
  if -2 ^ 31 ≤ a.toInt + d ∧ a.toInt + d < 2 ^ 31 then .ok (.ofInt (a.toInt + d)) else .error .crash

/-- The guard is the configured size, which may be negative. -/
def peek (memorySize : Int32) (s : State) (ip : Nat) : Except Trap Int32 :=
  if s.sp < 0 ∨ memorySize ≤ s.sp then .error (.fault (.stackUnderflow ip))
  else do
    let i ← index s.memory s.sp
    return (s.memory.get? i).getD 0

/-- The guard knows nothing of the size of the memory. -/
def push (s : State) (ip : Nat) (value : Int32) : Except Trap State :=
  if s.sp ≤ s.hp ∨ s.sp ≤ 0 then .error (.fault (.stackOverflow ip))
  else do
    let sp ← shift s.sp (-1)
    let i ← index s.memory sp
    return { s with sp, memory := s.memory.set i value }

def pop (memorySize : Int32) (s : State) (ip : Nat) : Except Trap (Int32 × State) := do
  let value ← peek memorySize s ip
  let sp ← shift s.sp 1
  return (value, { s with sp })

def popTwo (memorySize : Int32) (s : State) (ip : Nat) : Except Trap (Int32 × Int32 × State) := do
  let (right, s) ← pop memorySize s ip
  let (left, s) ← pop memorySize s ip
  return (left, right, s)

def binary (memorySize : Int32) (s : State) (ip : Nat)
    (apply : Int32 → Int32 → Except Fault Int32) :
    Except Trap State := do
  let (left, right, s) ← popTwo memorySize s ip
  push s ip (← lift (apply left right))

/-- Pops a value for a register. -/
def popInto (memorySize : Int32) (s : State) (ip : Nat) (set : State → Int32 → State) :
    Except Trap Progress := do
  let (value, s) ← pop memorySize s ip
  return .running (set s value)

def jumpSubroutine (memorySize : Int32) (s : State) (codeSize ip : Nat) : Except Trap State := do
  let (address, s) ← pop memorySize s ip
  if address < 0 ∨ codeSize ≤ address.toNatClampNeg then
    .error (.fault (.invalidCodeAddress address.toInt ip))
  else return { s with ra := Int32.ofNat s.ip, ip := address.toNatClampNeg }

def jump (memorySize : Int32) (s : State) (ip : Nat) (kind : Jump) (target : Nat) :
    Except Trap State :=
  match kind with
  | .always => .ok { s with ip := target }
  | .equal => do
    let (left, right, s) ← popTwo memorySize s ip
    return if left = right then { s with ip := target } else s
  | .lessEqual => do
    let (left, right, s) ← popTwo memorySize s ip
    return if left ≤ right then { s with ip := target } else s

def perform (memorySize : Int32) (s : State) (codeSize ip : Nat) : Op → Except Trap Progress
  | .push value => return .running (← push s ip value)
  | .jump kind target => return .running (← jump memorySize s ip kind target)
  | .bare op =>
    match op with
    | .pop => popInto memorySize s ip fun s _ => s
    | .add => return .running (← binary memorySize s ip fun l r => .ok (l + r))
    | .sub => return .running (← binary memorySize s ip fun l r => .ok (l - r))
    | .mult => return .running (← binary memorySize s ip fun l r => .ok (l * r))
    | .div => return .running (← binary memorySize s ip (State.divide ip))
    | .sw => do
      let (address, s) ← pop memorySize s ip
      let (value, s) ← pop memorySize s ip
      return .running (← lift (s.store ip address value))
    | .lw => do
      let (address, s) ← pop memorySize s ip
      let value ← lift (s.load ip address)
      return .running (← push s ip value)
    | .js => return .running (← jumpSubroutine memorySize s codeSize ip)
    | .lra => return .running (← push s ip s.ra)
    | .sra => popInto memorySize s ip fun s ra => { s with ra }
    | .ltm => return .running (← push s ip s.tm)
    | .stm => popInto memorySize s ip fun s tm => { s with tm }
    | .lfp => return .running (← push s ip s.fp)
    | .sfp => popInto memorySize s ip fun s fp => { s with fp }
    | .cfp => return .running { s with fp := s.sp }
    | .lhp => return .running (← push s ip s.hp)
    | .shp => popInto memorySize s ip fun s hp => { s with hp }
    | .print => do
      let value ← peek memorySize s ip
      return .running { s with output := s.output.push value }
    | .halt => return .halted s

def step (memorySize : Int32) (image : Image) (s : State) : Except Trap Progress :=
  match image.ops[s.ip]? with
  | none => .error (.fault (.invalidCodeAddress s.ip s.ip))
  | some op => perform memorySize { s with ip := s.ip + 1 } image.ops.size s.ip op

def run (memorySize : Int32) (image : Image) : (budget done : Nat) → State → Except Trap Outcome
  | 0, done, _ => .error (.fault (.stepLimitExceeded done))
  | budget + 1, done, s =>
    match step memorySize image s with
    | .error trap => .error trap
    | .ok (.running s) => run memorySize image budget (done + 1) s
    | .ok (.halted s) => .ok ⟨s.memory.cell? s.sp, s.output, done + 1⟩

end Unchecked

/-! ### Agreement -/

/-- An unchecked computation does what the one of the machine does. Faults name the operation, and
results have a property. -/
structure Follows {α : Type} (ip : Nat) (unchecked : Except Trap α) (x : Except Fault α)
    (post : α → Prop) : Prop where
  eq : unchecked = Unchecked.lift x
  fault : ∀ f, x = .error f → f.ip? = some ip
  result : ∀ a, x = .ok a → post a

namespace Follows

variable {α β : Type} {ip : Nat} {y : Except Trap α} {x : Except Fault α} {post : α → Prop}

theorem pure {a : α} (h : post a) : Follows ip (.ok a) (.ok a) post where
  eq := rfl
  fault := nofun
  result := by
    rintro _ ⟨⟩
    exact h

theorem error {f : Fault} (h : f.ip? = some ip) :
    Follows ip (.error (.fault f)) (.error f) post where
  eq := rfl
  fault := by
    rintro _ ⟨⟩
    exact h
  result := nofun

theorem lift (hfault : ∀ f, x = .error f → f.ip? = some ip) (hresult : ∀ a, x = .ok a → post a) :
    Follows ip (Unchecked.lift x) x post := ⟨rfl, hfault, hresult⟩

theorem bind {post' : β → Prop} {g : α → Except Trap β} {f : α → Except Fault β}
    (h : Follows ip y x post) (h' : ∀ a, post a → Follows ip (g a) (f a) post') :
    Follows ip (y >>= g) (x >>= f) post' := by
  rw [h.eq]
  cases hx : x with
  | error e => exact error (h.fault e hx)
  | ok a => exact h' a (h.result a hx)

end Follows

/-- The memory has the configured size, and the stack pointer stays in it or at its end. -/
structure State.Within (memorySize : Int32) (s : State) : Prop where
  size : (s.memory.size : Int) = max 0 memorySize.toInt
  nonneg : 0 ≤ s.sp.toInt
  le : s.sp.toInt ≤ max 0 memorySize.toInt

/-- A step changes no cell but the new top of the stack, and that one only if it is not on the
heap. -/
def State.Spares (s t : State) : Prop :=
  ∀ a : Nat, t.memory.get? a ≠ s.memory.get? a → (a : Int) = t.sp.toInt ∧ s.hp.toInt ≤ a

/-- Values are taken off the stack, and nothing else that the guards look at changes. -/
structure State.Popped (memorySize : Int32) (s t : State) : Prop extends Within memorySize t where
  memory : t.memory = s.memory
  hp : t.hp = s.hp

namespace State

variable {memorySize : Int32} {s t u : State}

theorem spares_of_memory (h : t.memory = s.memory) : s.Spares t := fun a ha => absurd (by rw [h]) ha

theorem Popped.of_within (h : s.Within memorySize) : s.Popped memorySize s := ⟨h, rfl, rfl⟩

theorem Popped.trans (h : s.Popped memorySize t) (h' : t.Popped memorySize u) :
    s.Popped memorySize u :=
  ⟨h'.toWithin, h'.memory.trans h.memory, h'.hp.trans h.hp⟩

theorem Popped.spares (h : s.Popped memorySize t) (h' : t.Spares u) : s.Spares u := by
  rw [Spares, ← h.memory, ← h.hp]
  exact h'

end State

namespace Unchecked

variable {memorySize : Int32} {s : State} {ip : Nat}

theorem toInt_add_one {a : Int32} (h : a.toInt < 2 ^ 31 - 1) : (a + 1).toInt = a.toInt + 1 := by
  have hlow := a.le_toInt
  rw [Int32.toInt_add]
  exact Int.bmod_eq_of_le (by simp; omega) (by simp; omega)

theorem toInt_sub_one {a : Int32} (h : -2 ^ 31 < a.toInt) : (a - 1).toInt = a.toInt - 1 := by
  have hhigh := a.toInt_lt
  rw [Int32.toInt_sub]
  exact Int.bmod_eq_of_le (by simp; omega) (by simp; omega)

theorem shift_eq {a b : Int32} {d : Int} (h : b.toInt = a.toInt + d) : shift a d = .ok b := by
  have hlow := b.le_toInt
  have hhigh := b.toInt_lt
  rw [shift, if_pos (by omega), ← h, Int32.ofInt_toInt]

theorem index_eq {m : Memory} {a : Int32} (hnonneg : 0 ≤ a.toInt) (hlt : a.toInt < m.size) :
    index m a = .ok a.toNatClampNeg := if_pos ⟨hnonneg, hlt⟩

/-- If the guard lets a peek pass, the cell is there, and the stack pointer can go up. -/
theorem peek_follows (h : s.Within memorySize) (ip : Nat) :
    Follows ip (peek memorySize s ip) (s.peek ip) fun _ => s.sp.toInt < max 0 memorySize.toInt := by
  have hnonneg := h.nonneg
  have hle := h.le
  have hsize := h.size
  have hneg : ¬s.sp < 0 := Int32.not_lt.mpr (Int32.le_iff_toInt_le.mpr hnonneg)
  rw [peek, State.peek, Memory.cell?, if_neg hneg]
  by_cases hin : s.sp.toInt < max 0 memorySize.toInt
  · have hguard : ¬(s.sp < 0 ∨ memorySize ≤ s.sp) := by
      rw [Int32.le_iff_toInt_le]
      exact not_or.mpr ⟨hneg, by omega⟩
    rw [if_neg hguard, index_eq hnonneg (by omega)]
    cases hcell : s.memory.get? s.sp.toNatClampNeg with
    | none =>
      rw [Memory.get?_eq_none_iff, ← Int32.toNat_toInt] at hcell
      omega
    | some value =>
      change Follows ip (.ok ((s.memory.get? s.sp.toNatClampNeg).getD 0)) _ _
      rw [hcell]
      exact .pure hin
  · have hguard : s.sp < 0 ∨ memorySize ≤ s.sp := .inr (Int32.le_iff_toInt_le.mpr (by omega))
    rw [if_pos hguard, (Memory.get?_eq_none_iff _ _).mpr (by rw [← Int32.toNat_toInt]; omega)]
    exact .error rfl

/-- A push writes the one cell below the stack pointer, which is not on the heap. -/
theorem spares_push {t : State} {value : Int32} (h : s.push ip value = .ok t) :
    t.sp.toInt = s.sp.toInt - 1 ∧ s.Spares t := by
  unfold State.push at h
  split at h
  · cases h
  · next hguard =>
    rw [Int32.le_iff_toInt_le, Int32.le_iff_toInt_le, show (0 : Int32).toInt = 0 from rfl] at hguard
    cases h
    have hsub : (s.sp - 1).toInt = s.sp.toInt - 1 := toInt_sub_one (by omega)
    refine ⟨hsub, fun a ha => ?_⟩
    rw [Memory.get?_set] at ha
    split at ha
    · next hplace =>
      rw [← Int32.toNat_toInt] at hplace
      simp only
      omega
    · exact absurd rfl ha

/-- If the guard lets a push pass, there is a cell below the stack pointer, whatever the heap
pointer is. -/
theorem push_follows (h : s.Within memorySize) (ip : Nat) (value : Int32) :
    Follows ip (push s ip value) (s.push ip value) fun t => t.Within memorySize ∧ s.Spares t := by
  have hle := h.le
  have hsize := h.size
  by_cases hguard : s.sp ≤ s.hp ∨ s.sp ≤ 0
  · rw [push, State.push, if_pos hguard, if_pos hguard]
    exact .error rfl
  · have hpush : s.push ip value = .ok _ := if_neg hguard
    obtain ⟨hsp, hspares⟩ := spares_push hpush
    rw [hpush, push, if_neg hguard, shift_eq hsp]
    rw [Int32.le_iff_toInt_le, Int32.le_iff_toInt_le, show (0 : Int32).toInt = 0 from rfl] at hguard
    simp only at hsp
    change Follows ip (index s.memory (s.sp - 1) >>= _) _ _
    rw [index_eq (by omega) (by omega)]
    refine .pure ⟨⟨?_, by simp only; omega, by simp only; omega⟩, hspares⟩
    rw [Memory.size_set]
    exact hsize

theorem pop_follows (h : s.Within memorySize) (ip : Nat) :
    Follows ip (pop memorySize s ip) (s.pop ip) fun r => s.Popped memorySize r.2 := by
  refine (peek_follows h ip).bind fun value hlt => ?_
  have hhigh := memorySize.toInt_lt
  have hnonneg := h.nonneg
  have hadd : (s.sp + 1).toInt = s.sp.toInt + 1 := toInt_add_one (by omega)
  rw [shift_eq hadd]
  exact .pure ⟨⟨h.size, by simp only; omega, by simp only; omega⟩, rfl, rfl⟩

theorem popTwo_follows (h : s.Within memorySize) (ip : Nat) :
    Follows ip (popTwo memorySize s ip) (s.popTwo ip) fun r => s.Popped memorySize r.2.2 :=
  (pop_follows h ip).bind fun _ hfirst => (pop_follows hfirst.toWithin ip).bind fun _ hsecond =>
    .pure (hfirst.trans hsecond)

theorem binary_follows (h : s.Within memorySize) (ip : Nat)
    {apply : Int32 → Int32 → Except Fault Int32}
    (hfault : ∀ l r f, apply l r = .error f → f.ip? = some ip) :
    Follows ip (binary memorySize s ip apply) (s.binary ip apply) fun t =>
      t.Within memorySize ∧ s.Spares t := by
  refine (popTwo_follows h ip).bind fun ⟨l, r, s'⟩ hpopped => ?_
  refine (Follows.lift (hfault l r) fun _ _ => trivial).bind fun value (_ : True) => ?_
  have hpush := push_follows hpopped.toWithin ip value
  exact ⟨hpush.eq, hpush.fault, fun t ht =>
    ⟨(hpush.result t ht).1, hpopped.spares (hpush.result t ht).2⟩⟩

/-! ### Steps and runs -/

/-- What an operation leaves behind. A store goes where the code says; all other operations write to
the top of the stack only. -/
def Leaves (memorySize : Int32) (s : State) (op : Op) (t : State) : Prop :=
  t.Within memorySize ∧ (op ≠ .bare .sw → s.Spares t)

/-- Operations that write by a push. -/
theorem running_follows {y : Except Trap State} {x : Except Fault State}
    (h : Follows ip y x fun t => t.Within memorySize ∧ s.Spares t) (op : Op) :
    Follows ip (y >>= fun t => .ok (.running t)) (x >>= fun t => .ok (.running t))
      (Leaves memorySize s op ∘ Progress.state) :=
  h.bind fun _ ht => .pure ⟨ht.1, fun _ => ht.2⟩

/-- Operations that pop a value and may put it in a register. -/
theorem popInto_follows (h : s.Within memorySize) (op : Op) (set : State → Int32 → State)
    (hset : ∀ t v, (set t v).sp = t.sp ∧ (set t v).memory = t.memory) :
    Follows ip (popInto memorySize s ip set) (s.pop ip >>= fun (v, t) => .ok (.running (set t v)))
      (Leaves memorySize s op ∘ Progress.state) := by
  refine (pop_follows h ip).bind fun ⟨v, t⟩ ht => ?_
  obtain ⟨hsp, hmemory⟩ := hset t v
  refine .pure ⟨⟨?_, ?_, ?_⟩, fun _ => State.spares_of_memory (hmemory.trans ht.memory)⟩
  · rw [Progress.state, hmemory]
    exact ht.size
  · rw [Progress.state, hsp]
    exact ht.nonneg
  · rw [Progress.state, hsp]
    exact ht.le

theorem jump_follows (h : s.Within memorySize) (kind : Jump) (target : Nat) :
    Follows ip (jump memorySize s ip kind target) (s.jump ip kind target)
      fun t => t.Within memorySize ∧ s.Spares t := by
  have hpopped {t : State} (ht : s.Popped memorySize t) : t.Within memorySize ∧ s.Spares t :=
    ⟨ht.toWithin, State.spares_of_memory ht.memory⟩
  have hjumped {t : State} (ht : s.Popped memorySize t) : s.Popped memorySize
      { t with ip := target } :=
    ⟨⟨ht.size, ht.nonneg, ht.le⟩, ht.memory, ht.hp⟩
  cases kind with
  | always => exact .pure (hpopped (hjumped (.of_within h)))
  | equal =>
    refine (popTwo_follows h ip).bind fun ⟨l, r, t⟩ ht => .pure ?_
    split
    · exact hpopped (hjumped ht)
    · exact hpopped ht
  | lessEqual =>
    refine (popTwo_follows h ip).bind fun ⟨l, r, t⟩ ht => .pure ?_
    split
    · exact hpopped (hjumped ht)
    · exact hpopped ht

theorem store_follows (h : s.Within memorySize) (address value : Int32) :
    Follows ip (lift (s.store ip address value)) (s.store ip address value)
      (State.Within memorySize) := by
  rw [State.store]
  split
  · refine .pure ⟨?_, h.nonneg, h.le⟩
    rw [Memory.size_set]
    exact h.size
  · exact .error rfl

theorem load_follows (address : Int32) :
    Follows ip (lift (s.load ip address)) (s.load ip address) fun _ => True := by
  rw [State.load]
  split
  · exact .pure trivial
  · exact .error rfl

theorem jumpSubroutine_follows (h : s.Within memorySize) (codeSize : Nat) :
    Follows ip (jumpSubroutine memorySize s codeSize ip) (s.jumpSubroutine codeSize ip)
      fun t => t.Within memorySize ∧ s.Spares t := by
  refine (pop_follows h ip).bind fun ⟨address, t⟩ ht => ?_
  dsimp only
  split
  · exact .error rfl
  · exact .pure ⟨⟨ht.size, ht.nonneg, ht.le⟩, State.spares_of_memory ht.memory⟩

theorem divide_fault {l r : Int32} {f : Fault} (h : State.divide ip l r = .error f) :
    f.ip? = some ip := by
  unfold State.divide at h
  split at h
  · cases h
    rfl
  · cases h

/-- An operation finds all cells that it takes for granted. -/
theorem perform_follows (h : s.Within memorySize) (codeSize ip : Nat) (op : Op) :
    Follows ip (perform memorySize s codeSize ip op) (s.perform codeSize ip op)
      (Leaves memorySize s op ∘ Progress.state) := by
  have hself : s.Spares s := State.spares_of_memory rfl
  have htotal {f : Int32 → Int32 → Int32} (l r : Int32) (e : Fault)
      (he : Except.ok (f l r) = .error e) :
      e.ip? = some ip := nomatch he
  cases op with
  | push value => exact running_follows (push_follows h ip value) _
  | jump kind target => exact running_follows (jump_follows h kind target) _
  | bare op =>
    cases op with
    | pop => exact popInto_follows h _ (fun s _ => s) fun _ _ => ⟨rfl, rfl⟩
    | add => exact running_follows (binary_follows h ip htotal) _
    | sub => exact running_follows (binary_follows h ip htotal) _
    | mult => exact running_follows (binary_follows h ip htotal) _
    | div => exact running_follows (binary_follows h ip fun _ _ _ => divide_fault) _
    | sw =>
      refine (pop_follows h ip).bind fun ⟨address, t⟩ ht =>
        (pop_follows ht.toWithin ip).bind fun ⟨value, u⟩ hu => ?_
      exact (store_follows hu.toWithin address value).bind fun _ hv =>
        .pure ⟨hv, fun hne => absurd rfl hne⟩
    | lw =>
      refine (pop_follows h ip).bind fun ⟨address, t⟩ ht =>
        (load_follows address).bind fun value _ => ?_
      exact (push_follows ht.toWithin ip value).bind fun _ hu =>
        .pure ⟨hu.1, fun _ => ht.spares hu.2⟩
    | js => exact running_follows (jumpSubroutine_follows h codeSize) _
    | lra => exact running_follows (push_follows h ip s.ra) _
    | sra => exact popInto_follows h _ (fun s ra => { s with ra }) fun _ _ => ⟨rfl, rfl⟩
    | ltm => exact running_follows (push_follows h ip s.tm) _
    | stm => exact popInto_follows h _ (fun s tm => { s with tm }) fun _ _ => ⟨rfl, rfl⟩
    | lfp => exact running_follows (push_follows h ip s.fp) _
    | sfp => exact popInto_follows h _ (fun s fp => { s with fp }) fun _ _ => ⟨rfl, rfl⟩
    | cfp => exact .pure ⟨⟨h.size, h.nonneg, h.le⟩, fun _ => hself⟩
    | lhp => exact running_follows (push_follows h ip s.hp) _
    | shp => exact popInto_follows h _ (fun s hp => { s with hp }) fun _ _ => ⟨rfl, rfl⟩
    | print =>
      exact (peek_follows h ip).bind fun _ _ => .pure ⟨⟨h.size, h.nonneg, h.le⟩, fun _ => hself⟩
    | halt => exact .pure ⟨h, fun _ => hself⟩

theorem step_follows (h : s.Within memorySize) (image : Image) :
    Follows s.ip (step memorySize image s) (s.step image) fun progress =>
      progress.state.Within memorySize ∧
      (image.ops[s.ip]? ≠ some (.bare .sw) → s.Spares progress.state) := by
  unfold step State.step
  cases image.ops[s.ip]? with
  | none => exact .error rfl
  | some op =>
    have hfetched : State.Within memorySize { s with ip := s.ip + 1 } := ⟨h.size, h.nonneg, h.le⟩
    have hperform := perform_follows hfetched image.ops.size s.ip op
    refine ⟨hperform.eq, hperform.fault, fun progress hprogress => ?_⟩
    obtain ⟨hwithin, hspares⟩ := hperform.result progress hprogress
    exact ⟨hwithin, fun hne => hspares fun hop => hne (congrArg some hop)⟩

theorem run_eq (h : s.Within memorySize) (image : Image) (budget done : Nat) :
    run memorySize image budget done s = lift (s.run image budget done) := by
  induction budget generalizing done s with
  | zero => rfl
  | succ budget ih =>
    have hstep := step_follows h image
    rw [run, State.run, hstep.eq]
    cases hs : s.step image with
    | error f => rfl
    | ok progress =>
      cases progress with
      | running t => exact ih (hstep.result _ hs).1 (done + 1)
      | halted t => rfl

end Unchecked

namespace State

theorem within_initial (memorySize : Int32) : (initial memorySize).Within memorySize := by
  have hmax : (max 0 memorySize : Int32).toInt = max 0 memorySize.toInt := by
    by_cases hnonneg : 0 ≤ memorySize
    · rw [show max 0 memorySize = memorySize from if_pos hnonneg]
      exact (Int.max_eq_right (Int32.le_iff_toInt_le.mp hnonneg)).symm
    · rw [show max 0 memorySize = 0 from if_neg hnonneg]
      exact (Int.max_eq_left
        (Int.le_of_lt (Int32.lt_iff_toInt_lt.mp (Int32.not_le.mp hnonneg)))).symm
  refine ⟨?_, ?_, ?_⟩
  · rw [initial, Memory.size_zeros, ← Int32.toNat_toInt, hmax]
    omega
  · rw [initial, hmax]
    omega
  · exact Int.le_of_eq hmax

/-- The stack pointer never leaves the memory. -/
theorem within_after {memorySize : Int32} {image : Image} {n : Nat} {s : State}
    (h : (initial memorySize).after image n = some s) : s.Within memorySize := by
  induction n generalizing s with
  | zero =>
    cases h
    exact within_initial memorySize
  | succ n ih =>
    obtain ⟨t, ht, hstep⟩ := after_succ.mp h
    exact ((Unchecked.step_follows (ih ht) image).result _ hstep).1

end State

namespace Image

/-- In every state that a run reaches, the memory has the configured number of cells, none if that
is negative, and the stack pointer is one of them or the end. So no unchecked access misses the
memory, and an operation that fails does so with a fault that names it. A push keeps the cells from
the stack pointer on and those below the heap pointer. -/
theorem run_stays_within (image : Image) (memorySize : Int32) :
    (∀ n s, (State.initial memorySize).after image n = some s →
      s.memory.size = max 0 memorySize.toInt ∧ 0 ≤ s.sp.toInt ∧
      s.sp.toInt ≤ max 0 memorySize.toInt ∧
      Unchecked.step memorySize image s = Unchecked.lift (s.step image) ∧
      (∀ fault, s.step image = .error fault → fault.ip? = some s.ip) ∧
      ∀ t, s.step image = .ok (.running t) → image.ops[s.ip]? ≠ some (.bare .sw) → s.Spares t) ∧
    (∀ (s t : State) (ip : Nat) (value : Int32), s.push ip value = .ok t →
      ∀ a : Nat, s.sp.toInt ≤ a ∨ a < s.hp.toInt → t.memory.get? a = s.memory.get? a) ∧
    ∀ maxSteps, Unchecked.run memorySize image maxSteps 0 (State.initial memorySize) =
      Unchecked.lift (image.run { memorySize, maxSteps }) := by
  refine ⟨fun n s hs => ?_, fun s t ip value hpush a ha => ?_, fun maxSteps => ?_⟩
  · have hwithin := State.within_after hs
    have hstep := Unchecked.step_follows hwithin image
    exact ⟨hwithin.size, hwithin.nonneg, hwithin.le, hstep.eq, hstep.fault, fun t ht =>
      (hstep.result _ ht).2⟩
  · obtain ⟨hsp, hspares⟩ := Unchecked.spares_push hpush
    refine Decidable.of_not_not fun hne => ?_
    have hchanged := hspares a hne
    omega
  · exact Unchecked.run_eq (State.within_initial memorySize) image maxSteps 0

/-- Moves the heap pointer below the memory and fills the stack. -/
def sunken : Image := ⟨#[.push (-7), .bare .shp, .push 5, .push 6, .push 1, .bare .halt]⟩

theorem run_stays_within_sunken :
    (∃ s, (State.initial 2).after sunken 4 = some s ∧ s.hp = -7 ∧ s.sp = 0 ∧
      s.memory.size = max 0 (2 : Int32).toInt ∧
      Unchecked.step 2 sunken s = .error (.fault (.stackOverflow 4))) ∧
    Unchecked.run (-3) sunken 9 0 (State.initial (-3)) = .error (.fault (.stackOverflow 0)) := by
  have hsome : ((State.initial 2).after sunken 4).isSome = true := by decide +kernel
  have hs := (Option.some_get hsome).symm
  obtain ⟨hsize, -, -, hstep, -⟩ := (run_stays_within sunken 2).1 4 _ hs
  exact ⟨⟨_, hs, rfl, rfl, hsize, hstep.trans rfl⟩,
    ((run_stays_within sunken (-3)).2.2 9).trans rfl⟩

end Image

end Stackling
