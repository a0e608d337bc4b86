import Mathlib.Algebra.Group.Int.Defs
import Mathlib.Data.List.Forall2
import Stackling.Compiler
import Stackling.Proofs.Code.Coupling
import Stackling.Proofs.Nodes

/-!
# Code for memories of different sizes

The size of the memory gets into the code only as the address of the global frame, and there are two
ways for it: a method that uses something global cannot follow the frames, which lead to its object,
and a new object takes its dispatch pointer from the place of its class. Code for one size is
therefore the code for another with such addresses moved. No label, no offset within a frame and no
choice on the way depends on the size, so generation also fails for all sizes alike.
-/

namespace Stackling

open Lowering (Coupled)

/-! ### Moved code -/

/-- The same instruction twice, or addresses at one of these offsets from two frames. -/
inductive Instr.Moves (offsets : Int32 → Prop) (m m' : Int32) : Instr → Instr → Prop
  | same (i : Instr) : Moves offsets m m' i i
  | address {o : Int32} (ho : offsets o) : Moves offsets m m' (.push (m + o)) (.push (m' + o))

/-- Two codes whose instructions differ in such addresses only. -/
def Code.Moves (offsets : Int32 → Prop) (m m' : Int32) : List Instr → List Instr → Prop :=
  List.Forall₂ (Instr.Moves offsets m m')

structure Fragment.Moves (offsets : Int32 → Prop) (m m' : Int32) (f f' : Fragment) : Prop where
  code : Code.Moves offsets m m' f.code f'.code
  bodies : Code.Moves offsets m m' f.bodies f'.bodies

structure Routine.Moves (offsets : Int32 → Prop) (m m' : Int32) (r r' : Routine) : Prop where
  entry : r.entry = r'.entry
  bodies : Code.Moves offsets m m' r.bodies r'.bodies

variable {offsets : Int32 → Prop} {m m' : Int32}

namespace Code.Moves

variable {is is' js js' : List Instr}

theorem same (is : List Instr) : Code.Moves offsets m m' is is :=
  List.forall₂_same.mpr fun i _ => .same i

theorem append (h : Code.Moves offsets m m' is is') (h' : Code.Moves offsets m m' js js') :
    Code.Moves offsets m m' (is ++ js) (is' ++ js') := List.rel_append h h'

theorem cons (i : Instr) (h : Code.Moves offsets m m' is is') :
    Code.Moves offsets m m' (i :: is) (i :: is') :=
  List.Forall₂.cons (.same i) h

/-- Where no offset is allowed, nothing is moved. -/
theorem eq_of_none (hnone : ∀ o, ¬offsets o) (h : Code.Moves offsets m m' is is') : is = is' := by
  induction h with
  | nil => rfl
  | cons hi _ ih =>
    cases hi with
    | same => rw [ih]
    | address ho => exact absurd ho (hnone _)

theorem getElem? {k : Nat} {i i' : Instr} (h : Code.Moves offsets m m' is is')
    (hi : is[k]? = some i) (hi' : is'[k]? = some i') : i.Moves offsets m m' i' := by
  obtain ⟨hk, rfl⟩ := List.getElem?_eq_some_iff.mp hi
  obtain ⟨hk', rfl⟩ := List.getElem?_eq_some_iff.mp hi'
  exact h.get hk hk'

/-- New objects differ in the address of their dispatch pointer. -/
theorem makeObject (cells : Nat) {o : Int32} (ho : offsets o) :
    Code.Moves offsets m m' (Code.makeObject cells (m + o)) (Code.makeObject cells (m' + o)) :=
  (append (same _) (List.Forall₂.cons (.address ho) (same _))).append (same _)

end Code.Moves

/-! ### Absolute addresses of a program -/

def Node.isNew : Node → Bool
  | .use _ (.new _ _ _ _) => true
  | _ => false

/-- The node makes an object whose class has its place at this offset from the global frame. -/
def Node.Slot (r : Resolution) (o : Int32) : Node → Prop
  | .use id (.new _ _ _ _) => ∃ b c, r.uses[id]? = some b ∧ b.entry.ty = .cls c ∧ b.entry.offset = o
  | _ => False

theorem Node.Slot.isNew {r : Resolution} {o : Int32} {n : Node} (h : n.Slot r o) :
    n.isNew = true := by
  unfold Node.Slot at h
  split at h
  · rfl
  · exact h.elim

/-- The offsets are all that the code of these nodes needs: zero for what stands in a class, and the
places of the classes of which objects are made. -/
structure Covers (r : Resolution) (offsets : Int32 → Prop) (nodes : List Node) : Prop where
  cls : ∀ c, Node.cls c ∈ nodes → offsets 0
  slot : ∀ n ∈ nodes, ∀ o, n.Slot r o → offsets o

theorem Covers.of_subset {r : Resolution} {ns ns' : List Node} (h : Covers r offsets ns)
    (hsub : ns' ⊆ ns) :
    Covers r offsets ns' :=
  ⟨fun c hc => h.cls c (hsub hc), fun n hn => h.slot n (hsub hn)⟩

theorem Covers.append {r : Resolution} {ns ns' : List Node} (h : Covers r offsets (ns ++ ns')) :
    Covers r offsets ns ∧ Covers r offsets ns' :=
  ⟨h.of_subset (List.subset_append_left _ _), h.of_subset (List.subset_append_right _ _)⟩

/-! ### Expressions -/

variable {g : CodeContext}

namespace CodeContext

/-- The same context with another address of the global frame. -/
def withFrame (g : CodeContext) (m : Int32) : CodeContext := { g with globalFrame := m }

theorem moves_frameAccess (hclass : g.inClass = true → offsets 0) (b : Binding) :
    Code.Moves offsets m m' ((g.withFrame m).frameAccess b) ((g.withFrame m').frameAccess b) := by
  unfold frameAccess
  change Code.Moves offsets m m' (if b.entry.depth = 0 && g.inClass then _ else _)
    (if b.entry.depth = 0 && g.inClass then _ else _)
  split
  next hglobal =>
    have hzero : offsets 0 := hclass (Bool.and_eq_true_iff.mp hglobal).2
    have hpush : Instr.Moves offsets m m' (.push (m + 0)) (.push (m' + 0)) := .address hzero
    rw [Int32.add_zero, Int32.add_zero] at hpush
    exact List.Forall₂.cons hpush .nil
  next => exact .same _

/-- What is known of a use does not depend on the frame. -/
theorem coupled_useOf (g : CodeContext) (id : NodeId) (name : String) (pos : SourcePos) :
    Coupled Eq Eq (fun b b' => b = b' ∧ g.resolution.uses[id]? = some b) (g.useOf id name pos)
      (g.useOf id name pos) := by
  unfold useOf
  cases g.resolution.uses[id]? with
  | none => exact .throw rfl
  | some b => exact .pure ⟨rfl, rfl⟩

end CodeContext

theorem moves_compareCode (kind : Jump) {x x' y y' : LabelM (List Instr)}
    (hx : Coupled Eq Eq (Code.Moves offsets m m') x x')
    (hy : Coupled Eq Eq (Code.Moves offsets m m') y y') :
    Coupled Eq Eq (Code.Moves offsets m m') (compareCode kind x y) (compareCode kind x' y') :=
  coupled_freshBranch.bind_eq fun _ => coupled_freshBranch.bind_eq fun _ =>
    hx.bind fun _ _ ha => hy.bind fun _ _ hb => .pure ((ha.append hb).append (.same _))

mutual

theorem Expr.moves_code (hclass : g.inClass = true → offsets 0) :
    ∀ e : Expr, Covers g.resolution offsets e.nodes →
    Coupled Eq Eq (Code.Moves offsets m m') (e.code (g.withFrame m)) (e.code (g.withFrame m'))
  | .int value _, _ | .bool value _, _ => by
    rw [Expr.code, Expr.code]
    exact .pure (.same _)
  | .null _, _ => by
    rw [Expr.code, Expr.code]
    exact .pure (.same _)
  | .name id name pos, _ => by
    rw [Expr.code, Expr.code]
    refine (Coupled.refl (fun _ => rfl) (g.useOf id name pos)).bind_eq fun b => ?_
    exact .pure ((CodeContext.moves_frameAccess hclass b).append (.same _))
  | .binary op left right _, h => by
    obtain ⟨hl, hr⟩ := h.append
    have hleft := Expr.moves_code hclass left hl
    have hright := Expr.moves_code hclass right hr
    cases op <;> rw [Expr.code, Expr.code]
    case add | sub | div | mul | and =>
      exact hleft.bind fun _ _ ha => hright.bind fun _ _ hb =>
        .pure ((ha.append hb).append (.same _))
    case or =>
      refine coupled_freshBranch.bind_eq fun _ => coupled_freshBranch.bind_eq fun _ => ?_
      refine hleft.bind fun _ _ ha => hright.bind fun _ _ hb => .pure ?_
      exact ((ha.append (.same _)).append hb).append (.same _)
    case equal => exact moves_compareCode .equal hleft hright
    case lessEqual => exact moves_compareCode .lessEqual hleft hright
    case greaterEqual => exact moves_compareCode .lessEqual hright hleft
  | .not operand _, h => by
    rw [Expr.code, Expr.code]
    exact (Expr.moves_code hclass operand h).bind fun _ _ ha =>
      .pure (.cons _ (ha.append (.same _)))
  | .ite cond yes no _, h => by
    obtain ⟨hcy, hn⟩ := h.append
    obtain ⟨hc, hy⟩ := hcy.append
    rw [Expr.code, Expr.code]
    refine coupled_freshBranch.bind_eq fun _ => coupled_freshBranch.bind_eq fun _ => ?_
    refine (Expr.moves_code hclass cond hc).bind fun _ _ hcond =>
      (Expr.moves_code hclass no hn).bind fun _ _ hno => ?_
    refine (Expr.moves_code hclass yes hy).bind fun _ _ hyes => .pure ?_
    exact ((((hcond.append (.same _)).append hno).append (.same _)).append hyes).append (.same _)
  | .print value _, h => by
    rw [Expr.code, Expr.code]
    exact (Expr.moves_code hclass value h).bind fun _ _ ha => .pure (ha.append (.same _))
  | .call id callee args pos, h => by
    rw [Expr.code, Expr.code]
    refine (Coupled.refl (fun _ => rfl) (g.useOf id callee pos)).bind_eq fun b => ?_
    refine (moves_argumentCode hclass args (h.of_subset (List.subset_cons_self _ _))).bind
      fun _ _ ha => .pure ?_
    exact .cons _ ((ha.append (CodeContext.moves_frameAccess hclass b)).append (.same _))
  | .send id receiver method args pos, h => by
    rw [Expr.code, Expr.code]
    refine (Coupled.refl (fun _ => rfl) (g.sendOf id method pos)).bind_eq fun d => ?_
    refine (moves_argumentCode hclass args (h.of_subset (List.subset_cons_self _ _))).bind
      fun _ _ ha => .pure ?_
    exact .cons _
      (((ha.append (CodeContext.moves_frameAccess hclass d.receiver)).append (.same _)).append
        (.same _))
  | .new id cls args pos, h => by
    rw [Expr.code, Expr.code]
    refine (CodeContext.coupled_useOf g id cls pos).bind ?_
    rintro b _ ⟨rfl, huse⟩
    cases hty : b.entry.ty with
    | cls c =>
      have hslot : offsets b.entry.offset := h.slot _ List.mem_cons_self _ ⟨b, c, huse, hty, rfl⟩
      refine (moves_valueCode hclass args (h.of_subset (List.subset_cons_self _ _))).bind
        fun _ _ ha => .pure ?_
      exact ha.append (.makeObject _ hslot)
    | int | bool | null | ref | arrow | method => exact .throw rfl

theorem moves_argumentCode (hclass : g.inClass = true → offsets 0) : ∀ es : List Expr,
    Covers g.resolution offsets (argNodes es) →
    Coupled Eq Eq (Code.Moves offsets m m') (argumentCode (g.withFrame m) es)
      (argumentCode (g.withFrame m') es)
  | [], _ => by
    rw [argumentCode, argumentCode]
    exact .pure (.same _)
  | e :: es, h => by
    obtain ⟨he, hes⟩ := h.append
    rw [argumentCode, argumentCode]
    refine (moves_argumentCode hclass es hes).bind fun _ _ ha =>
      (Expr.moves_code hclass e he).bind fun _ _ hb => ?_
    exact .pure (ha.append hb)

theorem moves_valueCode (hclass : g.inClass = true → offsets 0) : ∀ es : List Expr,
    Covers g.resolution offsets (argNodes es) →
    Coupled Eq Eq (Code.Moves offsets m m') (valueCode (g.withFrame m) es)
      (valueCode (g.withFrame m') es)
  | [], _ => by
    rw [valueCode, valueCode]
    exact .pure (.same _)
  | e :: es, h => by
    obtain ⟨he, hes⟩ := h.append
    rw [valueCode, valueCode]
    refine (Expr.moves_code hclass e he).bind fun _ _ ha =>
      (moves_valueCode hclass es hes).bind fun _ _ hb => ?_
    exact .pure (ha.append hb)

end

/-! ### Declarations -/

theorem moves_lift {x x' : LabelM (List Instr)}
    (hx : Coupled Eq Eq (Code.Moves offsets m m') x x') :
    Coupled Eq Eq (Code.Moves offsets m m') x.lift x'.lift :=
  hx.lift (fun hs => congrArg CodeState.labels hs) fun labels hs => by rw [hs]

mutual

theorem Decl.moves_code {g : CodeContext} (hclass : g.inClass = true → offsets 0) : ∀ d : Decl,
    Covers g.resolution offsets d.nodes →
    Coupled Eq Eq (Fragment.Moves offsets m m') (d.code (g.withFrame m)) (d.code (g.withFrame m'))
  | .var d, h => by
    have hinit : Covers g.resolution offsets d.init.nodes := h.of_subset (List.subset_cons_self _ _)
    rw [Decl.code, Decl.code]
    exact (moves_lift (Expr.moves_code hclass d.init hinit)).bind fun _ _ ha => .pure ⟨ha, .same _⟩
  | .fn f, h => by
    rw [Decl.code, Decl.code]
    refine (FunDecl.moves_code hclass f h).bind fun routine routine' hr => .pure ⟨?_, hr.bodies⟩
    rw [hr.entry]
    exact .same _
  | .cls ⟨id, name, superclass, fields, methods, pos⟩, h => by
    rw [Decl.nodes_cls] at h
    obtain ⟨hown, hmethods⟩ := h.append
    have hzero : offsets 0 := hown.cls _ List.mem_cons_self
    rw [Decl.code, Decl.code]
    refine (Coupled.refl (fun _ => rfl) (g.recordOf id name pos)).bind_eq fun record => ?_
    refine Coupled.get.bind_eq fun s => ?_
    refine (moves_methodCode (g := { g with inClass := true }) (fun _ => hzero) methods hmethods
      _).bind ?_
    rintro ⟨table, bodies⟩ ⟨_, bodies'⟩ ⟨rfl, hbodies⟩
    exact (Coupled.refl (fun _ => rfl) _).bind_eq fun _ => .pure ⟨.same _, hbodies⟩

theorem FunDecl.moves_code {g : CodeContext} (hclass : g.inClass = true → offsets 0) :
    ∀ f : FunDecl, Covers g.resolution offsets f.nodes →
    Coupled Eq Eq (Routine.Moves offsets m m') (f.code (g.withFrame m)) (f.code (g.withFrame m'))
  | ⟨id, name, params, result, decls, body, pos⟩, h => by
    rw [FunDecl.nodes] at h
    obtain ⟨hhead, hbody⟩ := h.append
    rw [FunDecl.code, FunDecl.code]
    refine (Coupled.refl (fun _ => rfl) freshFunction).bind_eq fun entry => ?_
    refine (moves_declCode hclass decls hhead.append.2).bind fun locals locals' hlocals => ?_
    refine (moves_lift (Expr.moves_code hclass body hbody)).bind fun value value' hvalue =>
      .pure ⟨rfl, ?_⟩
    exact ((Code.Moves.same []).append hlocals.bodies).append
      (((Code.Moves.same _).append hlocals.code).append (hvalue.append (.same _)))

theorem moves_declCode {g : CodeContext} (hclass : g.inClass = true → offsets 0) : ∀ ds : List Decl,
    Covers g.resolution offsets (declNodes ds) →
    Coupled Eq Eq (Fragment.Moves offsets m m') (declCode (g.withFrame m) ds)
      (declCode (g.withFrame m') ds)
  | [], _ => by
    rw [declCode, declCode]
    exact .pure ⟨.same _, .same _⟩
  | d :: ds, h => by
    obtain ⟨hd, hds⟩ := h.append
    rw [declCode, declCode]
    refine (Decl.moves_code hclass d hd).bind fun _ _ ha =>
      (moves_declCode hclass ds hds).bind fun _ _ hb => ?_
    exact .pure ⟨ha.code.append hb.code, ha.bodies.append hb.bodies⟩

theorem moves_methodCode {g : CodeContext} (hclass : g.inClass = true → offsets 0) :
    ∀ ms : List FunDecl, Covers g.resolution offsets (methodNodes ms) → ∀ table : List Label,
    Coupled Eq Eq (fun q q' => q.1 = q'.1 ∧ Code.Moves offsets m m' q.2 q'.2)
      (methodCode (g.withFrame m) table ms) (methodCode (g.withFrame m') table ms)
  | [], _, table => by
    rw [methodCode, methodCode]
    exact .pure ⟨rfl, .same _⟩
  | method :: ms, h, table => by
    obtain ⟨hm, hms⟩ := h.append
    rw [methodCode, methodCode]
    refine (Coupled.refl (fun _ => rfl) (g.entryOf method.id method.name method.pos)).bind_eq
      fun entry => ?_
    refine (FunDecl.moves_code hclass method hm).bind fun routine routine' hr => ?_
    rw [hr.entry]
    refine (moves_methodCode hclass ms hms _).bind ?_
    rintro ⟨table, bodies⟩ ⟨_, bodies'⟩ ⟨rfl, hbodies⟩
    exact .pure ⟨rfl, hr.bodies.append hbodies⟩

end

namespace Program

theorem moves_code {p : Program} (hclass : g.inClass = true → offsets 0)
    (h : Covers g.resolution offsets p.nodes) :
    Coupled Eq Eq (fun l l' => Code.Moves offsets m m' l.instrs l'.instrs) (p.code (g.withFrame m))
      (p.code (g.withFrame m')) := by
  obtain ⟨hdecls, hbody⟩ := h.append
  rw [Program.code, Program.code]
  refine (moves_declCode hclass p.decls hdecls).bind fun locals locals' hlocals => ?_
  refine (moves_lift (Expr.moves_code hclass p.body hbody)).bind fun value value' hvalue => .pure ?_
  exact (((Code.Moves.same _).append hlocals.code).append (hvalue.append (.same _))).append
    ((Code.Moves.same []).append hlocals.bodies)

/-- The same failure, or code that is moved. -/
theorem moves_generate {p : Program} {r : Resolution} (h : Covers r offsets p.nodes)
    (m m' : Int32) :
    Lowering.Related Eq (fun l l' => Code.Moves offsets m m' l.instrs l'.instrs) (p.generate r m)
      (p.generate r m') :=
  (moves_code (g := { resolution := r, globalFrame := 0 }) nofun h).run' rfl

/-! ### Two sizes -/

/-- The place of a class of which the program makes objects, as an offset from the global frame. -/
def ClassSlot (p : Program) (r : Resolution) (o : Int32) : Prop := ∃ n ∈ p.nodes, n.Slot r o

/-- The places of the classes have addresses in a memory of this size. -/
def SlotsFit (p : Program) (r : Resolution) (memorySize : Int32) : Prop :=
  ∀ o, p.ClassSlot r o → -2 ^ 31 ≤ memorySize.toInt + o.toInt ∧ memorySize.toInt + o.toInt < 2 ^ 31

/-- The offsets from the global frame that get into the code. -/
def Absolute (p : Program) (r : Resolution) (o : Int32) : Prop :=
  o = 0 ∧ ¬p.ClassFree ∨ p.ClassSlot r o

theorem covers_absolute (p : Program) (r : Resolution) : Covers r (p.Absolute r) p.nodes where
  cls c hc := .inl ⟨rfl, fun hfree => hfree c hc⟩
  slot n hn _ ho := .inr ⟨n, hn, ho⟩

/-- What the code pushes is as far from the end of the memory as the offset says. -/
theorem SlotsFit.distance_eq {p : Program} {r : Resolution} {memorySize o : Int32}
    (hfit : p.SlotsFit r memorySize) (ho : p.Absolute r o) :
    (memorySize + o).toInt - memorySize.toInt = o.toInt := by
  rcases ho with ⟨rfl, -⟩ | hslot
  · rw [Int32.add_zero]
    exact Int.sub_self _
  · obtain ⟨hlow, hhigh⟩ := hfit o hslot
    have hadd : (memorySize + o).toInt = memorySize.toInt + o.toInt := by
      rw [Int32.toInt_add]
      exact Int.bmod_eq_of_le (by omega) (by omega)
    omega

/-- Code for one size of memory is the code for another with addresses moved. Generation fails for
both sizes with one error or gives equally long code for both. Instructions in one place are the
same, or push addresses as far from the ends of the two memories: the end itself, or the place of a
class. With no class and no object to make, all are the same. -/
theorem generate_relocates {p : Program} {r : Resolution} {c c' : Settings}
    (hfit : p.SlotsFit r c.memorySize) (hfit' : p.SlotsFit r c'.memorySize) :
    (∀ e, p.generate r c.globalFrame = .error e ↔ p.generate r c'.globalFrame = .error e) ∧
    ((∃ l, p.generate r c.globalFrame = .ok l) ↔ ∃ l', p.generate r c'.globalFrame = .ok l') ∧
    ∀ l l', p.generate r c.globalFrame = .ok l → p.generate r c'.globalFrame = .ok l' →
      l.instrs.length = l'.instrs.length ∧
      (∀ (k : Nat) (i i' : Instr), l.instrs[k]? = some i → l'.instrs[k]? = some i' → i = i' ∨
        ∃ v v', i = .push v ∧ i' = .push v' ∧
          v.toInt - c.memorySize.toInt = v'.toInt - c'.memorySize.toInt ∧
          (v.toInt - c.memorySize.toInt = 0 ∨ ∃ o, p.ClassSlot r o ∧
            v.toInt - c.memorySize.toInt = o.toInt)) ∧
      (p.ClassFree → (∀ n ∈ p.nodes, n.isNew = false) → l = l') := by
  have hrelated := moves_generate (p.covers_absolute r) c.globalFrame c'.globalFrame
  generalize p.generate r c.globalFrame = x, p.generate r c'.globalFrame = x' at hrelated
  cases hrelated with
  | error he =>
    subst he
    exact ⟨fun _ => Iff.rfl, by simp, nofun⟩
  | @ok l l' hmoves =>
    refine ⟨by simp, by simp, ?_⟩
    rintro _ _ ⟨⟩ ⟨⟩
    refine ⟨hmoves.length_eq, fun k i i' hi hi' => ?_, fun hfree hnew => ?_⟩
    · cases hmoves.getElem? hi hi' with
      | same => exact .inl rfl
      | @address o ho =>
        have hv : (c.globalFrame + o).toInt - c.memorySize.toInt = o.toInt := hfit.distance_eq ho
        have hv' : (c'.globalFrame + o).toInt - c'.memorySize.toInt = o.toInt :=
          hfit'.distance_eq ho
        refine .inr ⟨_, _, rfl, rfl, hv.trans hv'.symm, ?_⟩
        rcases ho with ⟨rfl, -⟩ | hslot
        · exact .inl hv
        · exact .inr ⟨o, hslot, hv⟩
    · have hnone : ∀ o, ¬p.Absolute r o := by
        rintro o (⟨-, hclass⟩ | ⟨n, hn, hslot⟩)
        · exact hclass hfree
        · cases (hnew n hn).symm.trans hslot.isNew
      exact congrArg Listing.mk (hmoves.eq_of_none hnone)

/-- An object that uses a global variable from its method. -/
def globalReader : Program where
  decls := [
    .var ⟨0, "g", .int, .int 9 default, default⟩,
    .cls {
      id := 1
      name := "A"
      superclass := none
      fields := []
      methods := [⟨2, "m", [], .int, [], .name 3 "g" default, default⟩]
      pos := default },
    .var ⟨4, "x", .ref "A", .new 5 "A" [] default, default⟩]
  body := .send 6 "x" "m" [] default
  pos := default

theorem classSlot_globalReader {o : Int32} (h : globalReader.ClassSlot globalReader.resolve o) :
    o = -3 := by
  obtain ⟨n, hn, hslot⟩ := h
  have hmem : n ∈ globalReader.nodes.filter Node.isNew := List.mem_filter.mpr ⟨hn, hslot.isNew⟩
  obtain rfl := List.mem_singleton.mp (show n ∈ [Node.use 5 (.new 5 "A" [] default)] from hmem)
  obtain ⟨b, c, hb, -, rfl⟩ := hslot
  have hoffset : globalReader.resolve.uses[5]?.map (·.entry.offset) =
      some (-3 : Int32) := by decide +kernel
  rw [hb] at hoffset
  exact Option.some.inj hoffset

theorem generate_relocates_globalReader :
    globalReader.SlotsFit globalReader.resolve 500 ∧
    globalReader.SlotsFit globalReader.resolve 10000 ∧
      ∃ l l', globalReader.generate globalReader.resolve 500 = .ok l ∧
        globalReader.generate globalReader.resolve 10000 = .ok l' ∧
        l.instrs.length = l'.instrs.length ∧
        [l.instrs[10]?, l.instrs[36]?] = [some (.push 497), some (.push 500)] ∧
        [l'.instrs[10]?, l'.instrs[36]?] = [some (.push 9997), some (.push 10000)] := by
  have hfit : globalReader.SlotsFit globalReader.resolve 500 := by
    intro o ho
    rw [classSlot_globalReader ho]
    decide
  have hfit' : globalReader.SlotsFit globalReader.resolve 10000 := by
    intro o ho
    rw [classSlot_globalReader ho]
    decide
  obtain ⟨-, hsucceeds, hcode⟩ :=
    @generate_relocates globalReader globalReader.resolve { memorySize := 500 }
      { memorySize := 10000 } hfit hfit'
  have hat : (globalReader.generate globalReader.resolve 500).toOption.map
      (fun l => [l.instrs[10]?, l.instrs[36]?]) = some [some (.push 497), some (.push 500)] := by
      decide +kernel
  have hat' : (globalReader.generate globalReader.resolve 10000).toOption.map
      (fun l => [l.instrs[10]?, l.instrs[36]?]) = some [some (.push 9997), some (.push 10000)] := by
      decide +kernel
  cases hl : globalReader.generate globalReader.resolve 500 with
  | error e =>
    rw [hl] at hat
    cases hat
  | ok l =>
    obtain ⟨l', hl'⟩ := hsucceeds.mp ⟨l, hl⟩
    rw [hl] at hat
    rw [show globalReader.generate globalReader.resolve 10000 = .ok l' from hl'] at hat'
    exact ⟨hfit, hfit', l, l', rfl, hl', (hcode l l' hl hl').1, Option.some.inj hat,
      Option.some.inj hat'⟩

end Program

end Stackling
