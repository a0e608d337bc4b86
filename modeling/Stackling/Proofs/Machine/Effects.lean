import Stackling.Machine.State
import Stackling.Proofs.Typing.Inference

/-!
# What operations do to the pointers

An operation takes some cells from the stack and puts some there, as many as its kind says. It
leaves the address of the next operation as it is, unless it jumps, calls or returns. Both are read
off the machine at once, by one walk over all operations.
-/

namespace Stackling

/-! ### Stack effects -/

/-- The cells that an operation takes from the stack. -/
@[simp] def Bare.pops : Bare → Nat
  | .add | .sub | .mult | .div | .sw => 2
  | .pop | .lw | .js | .sra | .stm | .sfp | .shp | .print => 1
  | .lra | .ltm | .lfp | .cfp | .lhp | .halt => 0

/-- The cells that it puts there afterwards. -/
@[simp] def Bare.pushes : Bare → Nat
  | .add | .sub | .mult | .div | .lw | .print | .lra | .ltm | .lfp | .lhp => 1
  | .pop | .sw | .js | .sra | .stm | .sfp | .shp | .cfp | .halt => 0

/-- A jump takes the cells that it compares. -/
@[simp] def Jump.pops : Jump → Nat
  | .always => 0
  | .equal | .lessEqual => 2

namespace Op

/-- The cells that an operation takes from the stack. -/
def pops : Op → Nat
  | .bare op => op.pops
  | .jump kind _ => kind.pops
  | .push _ => 0

/-- The cells that it puts there afterwards. -/
def pushes : Op → Nat
  | .bare op => op.pushes
  | .push _ => 1
  | .jump _ _ => 0

end Op

namespace State

/-- From one state to another, some cells are taken from the stack and some are put there, and the
address of the next operation stays as it is. -/
structure Shifts (pops pushes : Nat) (s t : State) : Prop where
  sp : t.sp + Int32.ofNat pushes = s.sp + Int32.ofNat pops
  ip : t.ip = s.ip

variable {s t u : State} {ip n : Nat} {v : Int32} {a b c d : Nat}

/-- Cells taken and put there add up. -/
theorem Shifts.trans (h : Shifts a b s t) (h' : Shifts c d t u) : Shifts (a + c) (b + d) s u where
  sp :=
    calc u.sp + Int32.ofNat (b + d)
      _ = u.sp + Int32.ofNat d + Int32.ofNat b := by
        rw [Nat.add_comm, Int32.ofNat_add, Int32.add_assoc]
      _ = t.sp + Int32.ofNat c + Int32.ofNat b := by rw [h'.sp]
      _ = t.sp + Int32.ofNat b + Int32.ofNat c := by
        rw [Int32.add_assoc, Int32.add_comm (Int32.ofNat c), ← Int32.add_assoc]
      _ = s.sp + Int32.ofNat (a + c) := by rw [h.sp, Int32.ofNat_add, Int32.add_assoc]
  ip := h'.ip.trans h.ip

theorem shifts_push (h : s.push ip v = .ok t) : Shifts 0 1 s t := by
  unfold push at h
  split at h
  · cases h
  · cases h
    exact ⟨(Int32.sub_add_cancel _ _).trans (Int32.add_zero _).symm, rfl⟩

theorem shifts_pop (h : s.pop ip = .ok (v, t)) : Shifts 1 0 s t := by
  obtain ⟨_, -, ⟨⟩⟩ := Except.bind_eq_ok.mp h
  exact ⟨Int32.add_zero _, rfl⟩

theorem shifts_popTwo {l r : Int32} (h : s.popTwo ip = .ok (l, r, t)) : Shifts 2 0 s t := by
  obtain ⟨⟨_, t₁⟩, h₁, h⟩ := Except.bind_eq_ok.mp h
  obtain ⟨⟨_, t₂⟩, h₂, ⟨⟩⟩ := Except.bind_eq_ok.mp h
  exact (shifts_pop h₁).trans (shifts_pop h₂)

theorem shifts_binary {f : Int32 → Int32 → Except Fault Int32} (h : s.binary ip f = .ok t) :
    Shifts 2 1 s t := by
  obtain ⟨⟨_, _, t₁⟩, h₁, h⟩ := Except.bind_eq_ok.mp h
  obtain ⟨_, -, h⟩ := Except.bind_eq_ok.mp h
  exact (shifts_popTwo h₁).trans (shifts_push h)

theorem shifts_store {address : Int32} (h : s.store ip address v = .ok t) : Shifts 0 0 s t := by
  unfold store at h
  split at h
  · cases h
    exact ⟨rfl, rfl⟩
  · cases h

/-! ### Operations -/

/-- What an operation does to the pointers. Calls and returns take their target from the stack. -/
structure Effect (s : State) (op : Op) (t : State) : Prop where
  sp : t.sp + Int32.ofNat op.pushes = s.sp + Int32.ofNat op.pops
  ip : op ≠ .bare .js → t.ip = s.ip ∨ ∃ kind, op = .jump kind t.ip

theorem Effect.of_shifts {op : Op} (h : Shifts op.pops op.pushes s t) : s.Effect op t :=
  ⟨h.sp, fun _ => .inl h.ip⟩

theorem jump_effect {kind : Jump} {target : Nat} (h : s.jump ip kind target = .ok t) :
    s.Effect (.jump kind target) t := by
  cases kind with
  | always =>
    cases h
    exact ⟨rfl, fun _ => .inr ⟨_, rfl⟩⟩
  | equal | lessEqual =>
    obtain ⟨⟨_, _, t₁⟩, h₁, ⟨⟩⟩ := Except.bind_eq_ok.mp h
    have hshifts := shifts_popTwo h₁
    split
    · exact ⟨hshifts.sp, fun _ => .inr ⟨_, rfl⟩⟩
    · exact .of_shifts hshifts

theorem jumpSubroutine_effect (h : s.jumpSubroutine n ip = .ok t) : s.Effect (.bare .js) t := by
  obtain ⟨⟨_, t₁⟩, h₁, h⟩ := Except.bind_eq_ok.mp h
  dsimp only at h
  split at h
  · cases h
  · cases h
    exact ⟨(shifts_pop h₁).sp, fun hne => absurd rfl hne⟩

/-- The walk over all operations. -/
theorem perform_effect {op : Op} (h : s.perform n ip op = .ok (.running t)) : s.Effect op t := by
  cases op with
  | push v =>
    obtain ⟨_, h, ⟨⟩⟩ := Except.bind_eq_ok.mp h
    exact .of_shifts (shifts_push h)
  | jump kind target =>
    obtain ⟨_, h, ⟨⟩⟩ := Except.bind_eq_ok.mp h
    exact jump_effect h
  | bare op =>
    cases op with
    | lra | ltm | lfp | lhp =>
      obtain ⟨_, h, ⟨⟩⟩ := Except.bind_eq_ok.mp h
      exact .of_shifts (shifts_push h)
    | add | sub | mult | div =>
      obtain ⟨_, h, ⟨⟩⟩ := Except.bind_eq_ok.mp h
      exact .of_shifts (shifts_binary h)
    | pop | sra | stm | sfp | shp =>
      obtain ⟨⟨_, t₁⟩, hpop, hrest⟩ := Except.bind_eq_ok.mp h
      have hshifts := shifts_pop hpop
      cases hrest
      exact ⟨hshifts.sp, fun _ => .inl hshifts.ip⟩
    | js =>
      obtain ⟨_, h, ⟨⟩⟩ := Except.bind_eq_ok.mp h
      exact jumpSubroutine_effect h
    | sw =>
      obtain ⟨⟨_, t₁⟩, h₁, h⟩ := Except.bind_eq_ok.mp h
      obtain ⟨⟨_, t₂⟩, h₂, h⟩ := Except.bind_eq_ok.mp h
      obtain ⟨_, h, ⟨⟩⟩ := Except.bind_eq_ok.mp h
      exact .of_shifts (((shifts_pop h₁).trans (shifts_pop h₂)).trans (shifts_store h))
    | lw =>
      obtain ⟨⟨_, t₁⟩, h₁, h⟩ := Except.bind_eq_ok.mp h
      obtain ⟨_, -, h⟩ := Except.bind_eq_ok.mp h
      obtain ⟨_, h, ⟨⟩⟩ := Except.bind_eq_ok.mp h
      exact .of_shifts ((shifts_pop h₁).trans (shifts_push h))
    | print =>
      obtain ⟨_, -, ⟨⟩⟩ := Except.bind_eq_ok.mp h
      exact ⟨rfl, fun _ => .inl rfl⟩
    | cfp =>
      cases h
      exact ⟨rfl, fun _ => .inl rfl⟩
    | halt => cases h

end State

end Stackling
