import Stackling.Proofs.Classes.Layout
import Stackling.Proofs.Code.Emission
import Stackling.Proofs.Machine.Sequences
import Stackling.Proofs.Semantics.Values

/-!
# Bindings in frames

How the bindings of an evaluation lie in the memory of a machine. A variable is a cell of its frame,
a function is two cells, a class is the address of its dispatch table; a frame holds the address of
the frame around it, and the frame of a method holds the address of its object.

All statements are about a family of machines that run the code of one program in memories of
different sizes. They run in lockstep: addresses on the stack differ from one to the other, but
values, addresses on the heap and numbers of steps do not.
-/

namespace Stackling

namespace Platform

/-- What the code of a platform is made from. -/
def context (w : Platform) (r : Resolution) (inClass : Bool) : CodeContext where
  resolution := r
  globalFrame := Int32.ofNat w.size
  inClass := inClass

theorem context_resolution (w : Platform) (r : Resolution) (b : Bool) :
    (w.context r b).resolution = r := rfl

/-- The code of a function is in the image, and its entry is at an address. -/
def Placed (w : Platform) (r : Resolution) (inClass : Bool) (f : FunDecl) (a : Nat) : Prop :=
  ∃ q routine q' pc, f.code (w.context r inClass) q = .ok (routine, q') ∧
    w.image.CodeAt w.address pc routine.bodies ∧ w.address routine.entry = a

theorem Chain.mono {w : Platform} {st st' heap heap' : List Int32} {n : Nat} {a b : Int32}
    (h : w.Chain st heap n a b) (hst : st <:+ st') (hheap : heap <+: heap') :
    w.Chain st' heap' n a b := by
  induction n generalizing a with
  | zero => exact h
  | succ n ih =>
    obtain ⟨a', ha, hrest⟩ := h
    exact ⟨a', ha.mono hst hheap, ih hrest⟩

end Platform

variable {ι : Type}

/-- The addresses of the global frames. -/
def globalFrame (w : ι → World) (i : ι) : Int32 := Int32.ofNat (w i).size

/-- In all machines, the cell at an address holds a word. -/
def Shows (w : ι → World) (st hp : ι → List Int32) (a v : ι → Int32) : Prop :=
  ∀ i, (w i).Has (st i) (hp i) (a i) (v i)

theorem Shows.mono {w : ι → World} {st st' hp hp' : ι → List Int32} {a v : ι → Int32}
    (h : Shows w st hp a v) (hst : ∀ i, st i <:+ st' i) (hhp : ∀ i, hp i <+: hp' i) :
    Shows w st' hp' a v :=
  fun i => (h i).mono (hst i) (hhp i)

/-- The bindings `ρ` of an environment lie in the frame `F` and the frames around it. -/
inductive Scoped (r : Resolution) (w : ι → World) (σ : Store) (st hp : ι → List Int32) :
    (inClass : Bool) → Env → Bindings → (F : ι → Int32) → Prop
  | global : Scoped r w σ st hp false .global [] (globalFrame w)
  | value {b : Bool} {env : Env} {ρ : Bindings} {F : ι → Int32} {x : String} {v : Value}
      {entry : Entry} {scopes : Scopes} {frame : Frame} (hrest : Scoped r w σ st hp b env ρ F)
      (hdeclare : env.scopes.declare? x entry = some scopes)
      (hdepth : entry.depth = env.scopes.depth) (hty : v.HasTy r.hierarchy σ entry.ty)
      (hcell : Shows w st hp (fun i => F i + entry.offset) fun _ => v.word) :
      Scoped r w σ st hp b { env with scopes, frame } ((x, .value v) :: ρ) F
  | function {b : Bool} {env : Env} {ρ : Bindings} {F : ι → Int32} {f : FunDecl} {entry : Entry}
      {scopes : Scopes} {frame : Frame} {a : ι → Nat} (hrest : Scoped r w σ st hp b env ρ F)
      (hdeclare : env.scopes.declare? f.name entry = some scopes)
      (hdepth : entry.depth = env.scopes.depth) (hty : entry.ty = .arrow f.signature)
      (hfun : f.Typed r { env with scopes, frame })
      (hframe : Shows w st hp (fun i => F i + entry.offset) F)
      (hcode : Shows w st hp (fun i => F i + (entry.offset - 1)) fun i => Int32.ofNat (a i))
      (hplaced : ∀ i, (w i).Placed r b f (a i)) :
      Scoped r w σ st hp b { env with scopes, frame } ((f.name, .function f) :: ρ) F
  | cls {env : Env} {ρ : Bindings} {F : ι → Int32} {c : ClassDecl} {l : ObjectLayout}
      {scopes : Scopes} {k : Nat} {cls : Class} (hrest : Scoped r w σ st hp false env ρ F)
      (hdepth : env.scopes.depth = 0)
      (hdeclare : env.scopes.declare? c.name (env.classEntry l) = some scopes)
      (hrecord : r.class? c.name = some (env.classRecord c l)) (hclass : σ.classes[k]? = some cls)
      (hname : cls.name = c.name) (hcell : Shows w st hp (fun i => F i + env.frame.nextLocal)
        fun _ => Int32.ofNat cls.table) :
      Scoped r w σ st hp false (env.afterClass c l scopes) ((c.name, .cls k) :: ρ) F
  | body {b : Bool} {env : Env} {ρ : Bindings} {F F' : ι → Int32}
      (hrest : Scoped r w σ st hp b env ρ F) (hlink : Shows w st hp F' F) : Scoped r w σ st hp b
      env.enterBody ρ F'
  | members {env : Env} {ρ : Bindings} {fields : List (String × Ty)}
      {methods : List (String × Signature)} {a : Nat} {c : String} {record : ClassRecord}
      (hrest : Scoped r w σ st hp false env ρ (globalFrame w)) (hdepth : env.scopes.depth = 0)
      (hobject : (Value.object a).HasTy r.hierarchy σ (.ref c)) (hrecord : r.class? c = some record)
      (hlists : record.layout.Lists fields methods)
      (hfields : ∀ (j : Nat) (x : String) (t : Ty), fields[j]? = some (x, t) → ∃ v : Value,
        σ.field? a j = some v ∧ v.HasTy r.hierarchy σ t ∧
        Shows w st hp (fun _ => Int32.ofNat a + (-(Int32.ofNat j) - 1)) fun _ => v.word) :
      Scoped r w σ st hp true (env.enterClass record.layout)
        (memberScope (fields.map Prod.fst) (methods.map Prod.fst) a ++ ρ) (fun _ => Int32.ofNat a)

namespace Scoped

variable {r : Resolution} {w : ι → World} {σ σ' : Store} {st st' hp hp' : ι → List Int32} {b : Bool}
  {env : Env} {ρ : Bindings} {F : ι → Int32}

theorem mono (h : Scoped r w σ st hp b env ρ F) (hσ : σ.Extends σ') (hst : ∀ i, st i <:+ st' i)
    (hhp : ∀ i, hp i <+: hp' i) : Scoped r w σ' st' hp' b env ρ F := by
  induction h with
  | global => exact .global
  | value _ hdeclare hdepth hty hcell ih =>
    exact .value ih hdeclare hdepth (hty.mono hσ) (hcell.mono hst hhp)
  | function _ hdeclare hdepth hty hfun hframe hcode hplaced ih =>
    exact .function ih hdeclare hdepth hty hfun (hframe.mono hst hhp) (hcode.mono hst hhp) hplaced
  | cls _ hdepth hdeclare hrecord hclass hname hcell ih =>
    exact .cls ih hdepth hdeclare hrecord (getElem?_extend hσ.classes hclass) hname
      (hcell.mono hst hhp)
  | body _ hlink ih => exact .body ih (hlink.mono hst hhp)
  | members _ hdepth hobject hrecord hlists hfields ih =>
    refine .members ih hdepth (hobject.mono hσ) hrecord hlists fun j x t hj => ?_
    obtain ⟨v, hv, hty, hcell⟩ := hfields j x t hj
    exact ⟨v, hσ.field? hv, hty.mono hσ, hcell.mono hst hhp⟩

theorem stack_ne_nil (h : Scoped r w σ st hp b env ρ F) : env.scopes.stack ≠ [] := by
  induction h with
  | global | body | members => exact List.cons_ne_nil _ _
  | value _ hdeclare | function _ hdeclare | cls _ _ hdeclare =>
    exact Scopes.stack_declare? hdeclare

/-- In a method no binding is in the global scope. -/
theorem depth_ne_zero (h : Scoped r w σ st hp b env ρ F) : b = true → env.scopes.depth ≠ 0 := by
  induction h with
  | global => nofun
  | value _ hdeclare _ _ _ ih | function _ hdeclare _ _ _ _ _ _ ih =>
    rw [Scopes.depth_declare? hdeclare]
    exact ih
  | cls => nofun
  | body hrest =>
    intro _
    rw [Env.enterBody, Scopes.depth_push hrest.stack_ne_nil]
    exact Nat.succ_ne_zero _
  | members hrest =>
    intro _
    rw [Env.enterClass, Scopes.depth_push hrest.stack_ne_nil]
    exact Nat.succ_ne_zero _

/-- The global scope has the global frame. -/
theorem eq_globalFrame (h : Scoped r w σ st hp b env ρ F) :
    env.scopes.depth = 0 → F = globalFrame w := by
  induction h with
  | global => exact fun _ => rfl
  | value _ hdeclare _ _ _ ih | function _ hdeclare _ _ _ _ _ _ ih =>
    rw [Scopes.depth_declare? hdeclare]
    exact ih
  | cls _ hdepth _ _ _ _ _ ih => exact fun _ => ih hdepth
  | body hrest =>
    rw [Env.enterBody, Scopes.depth_push hrest.stack_ne_nil]
    exact fun h => absurd h (Nat.succ_ne_zero _)
  | members hrest =>
    rw [Env.enterClass, Scopes.depth_push hrest.stack_ne_nil]
    exact fun h => absurd h (Nat.succ_ne_zero _)

end Scoped

/-! ### Looking up names -/

/-- How the frame `F'` of an entry is reached from the frame `F` of its use: the global frame is
known in a method, and all others are at the end of a chain. -/
def Access (w : ι → World) (st hp : ι → List Int32) (b : Bool) (depth : Nat) (entry : Entry)
    (F F' : ι → Int32) :
    Prop :=
  if entry.depth = 0 && b then F' = globalFrame w
  else entry.depth ≤ depth ∧ ∀ i, (w i).Chain (st i) (hp i) (depth - entry.depth) (F i) (F' i)

/-- What a name stands for, by its entry and in its frame. -/
inductive Means (r : Resolution) (w : ι → World) (σ : Store) (st hp : ι → List Int32) (x : String) :
    Slot → Entry → Bindings → (F : ι → Int32) → Prop
  | value {slot : Slot} {entry : Entry} {ρ : Bindings} {F : ι → Int32} {v : Value}
      (hread : slot.read? σ = some v) (hty : v.HasTy r.hierarchy σ entry.ty)
      (hcell : Shows w st hp (fun i => F i + entry.offset) fun _ => v.word) :
      Means r w σ st hp x slot entry ρ F
  | function {b : Bool} {env : Env} {f : FunDecl} {entry : Entry} {ρ : Bindings} {F : ι → Int32}
      {a : ι → Nat} (hscoped : Scoped r w σ st hp b env ρ F) (hfun : f.Typed r env)
      (hty : entry.ty = .arrow f.signature) (hframe : Shows w st hp (fun i => F i + entry.offset) F)
      (hcode : Shows w st hp (fun i => F i + (entry.offset - 1)) fun i => Int32.ofNat (a i))
      (hplaced : ∀ i, (w i).Placed r b f (a i)) : Means r w σ st hp x (.function f) entry ρ F
  | method {a j : Nat} {c : String} {record : ClassRecord} {fields : List (String × Ty)}
      {methods : List (String × Signature)} {sig : Signature} {ρ : Bindings}
      (hobject : (Value.object a).HasTy r.hierarchy σ (.ref c)) (hrecord : r.class? c = some record)
      (hlists : record.layout.Lists fields methods) (hmethod : methods[j]? = some (x, sig)) :
      Means r w σ st hp x (.method a) (ObjectLayout.methodMember j sig).entry ρ
        fun _ => Int32.ofNat a
  | cls {k : Nat} {entry : Entry} {c : ClassTy} {ρ : Bindings} {F : ι → Int32}
      (hty : entry.ty = .cls c) :
      Means r w σ st hp x (.cls k) entry ρ F

theorem find?_append {x : String} {ρ ρ' : Bindings} (h : x ∉ ρ.map Prod.fst) :
    find? x (ρ ++ ρ') = find? x ρ' := by
  induction ρ with
  | nil => rfl
  | cons p ρ ih =>
    rw [List.map_cons, List.mem_cons, not_or] at h
    rw [List.cons_append, find?, if_neg (Ne.symm h.1)]
    exact ih h.2

theorem map_fst_mapIdx (names : List String) (slot : Nat → Slot) :
    (names.mapIdx fun i y => (y, slot i)).map Prod.fst = names := by
  refine List.ext_getElem? fun i => ?_
  rw [List.getElem?_map, List.getElem?_mapIdx]
  cases names[i]? <;> rfl

/-- A name is found at its only place in a list of names. -/
theorem find?_mapIdx {x : String} {names : List String} (hnodup : names.Nodup) {j : Nat}
    (hj : names[j]? = some x) (slot : Nat → Slot) (ρ : Bindings) :
    ∃ ρ', find? x (names.mapIdx (fun i y => (y, slot i)) ++ ρ) = some (slot j, ρ') := by
  induction names generalizing j slot with
  | nil => cases hj
  | cons y names ih =>
    rw [List.nodup_cons] at hnodup
    rw [List.mapIdx_cons, List.cons_append, find?]
    cases j with
    | zero =>
      cases hj
      exact ⟨_, if_pos rfl⟩
    | succ j =>
      have hne : y ≠ x := by
        rintro rfl
        exact hnodup.1 (List.mem_of_getElem? hj)
      rw [if_neg hne]
      exact ih hnodup.2 hj fun i => slot (i + 1)

theorem find?_memberScope_field {x : String} {fields : List String} (hnodup : fields.Nodup)
    {j : Nat} (hj : fields[j]? = some x) (methods : List String) (a : Nat) (ρ : Bindings) :
    ∃ ρ', find? x (memberScope fields methods a ++ ρ) = some (.field a j, ρ') := by
  rw [memberScope, List.append_assoc]
  exact find?_mapIdx hnodup hj (.field a) _

theorem find?_memberScope_method {x : String} {fields methods : List String} (hfields : x ∉ fields)
    (hmethods : x ∈ methods) (a : Nat) (ρ : Bindings) :
    ∃ ρ', find? x (memberScope fields methods a ++ ρ) = some (.method a, ρ') := by
  have hfst : x ∉ (fields.mapIdx fun i y => (y, Slot.field a i)).map Prod.fst := by
    rw [map_fst_mapIdx]
    exact hfields
  rw [memberScope, List.append_assoc, find?_append hfst]
  clear hfst
  induction methods with
  | nil => cases hmethods
  | cons y methods ih =>
    rw [List.map_cons, List.cons_append, find?]
    by_cases hyx : y = x
    · exact ⟨_, if_pos hyx⟩
    · rw [if_neg hyx]
      exact ih ((List.mem_cons.mp hmethods).resolve_left (Ne.symm hyx))

theorem map_fst_memberScope (fields methods : List String) (a : Nat) :
    (memberScope fields methods a).map Prod.fst = fields ++ methods := by
  rw [memberScope, List.map_append, map_fst_mapIdx, List.map_map]
  exact congrArg (fields ++ ·) (List.map_id methods)

section Lookup

variable {r : Resolution} {w : ι → World} {σ : Store} {st hp : ι → List Int32} {b : Bool}
  {env : Env} {ρ : Bindings} {F : ι → Int32} {x : String} {entry : Entry}

/-- The evaluation finds a name, and the machine reaches what it stands for. -/
def Found (r : Resolution) (w : ι → World) (σ : Store) (st hp : ι → List Int32) (b : Bool)
    (depth : Nat) (ρ : Bindings) (F : ι → Int32) (x : String) (entry : Entry) : Prop :=
  ∃ slot ρ' F', find? x ρ = some (slot, ρ') ∧ Access w st hp b depth entry F F' ∧
    Means r w σ st hp x slot entry ρ' F'

/-- After a declaration, a name is the declared one or is found further out. -/
theorem Found.declared (hrest : Scoped r w σ st hp b env ρ F) {scopes : Scopes} {y : String}
    {slot : Slot} {e : Entry} (hdeclare : env.scopes.declare? y e = some scopes)
    (hdepth : e.depth = env.scopes.depth) (hmeans : Means r w σ st hp y slot e ((y, slot) :: ρ) F)
    (ih : env.scopes.lookup? x = some entry → Found r w σ st hp b env.scopes.depth ρ F x entry)
    (hx : scopes.lookup? x = some entry) :
    Found r w σ st hp b scopes.depth ((y, slot) :: ρ) F x entry := by
  rw [Scopes.lookup?_declare? hdeclare] at hx
  rw [Found, find?, Scopes.depth_declare? hdeclare]
  by_cases hxy : x = y
  · subst hxy
    rw [if_pos rfl] at hx
    cases hx
    refine ⟨slot, _, F, if_pos rfl, ?_, hmeans⟩
    have hnot : ¬((entry.depth = 0 && b) = true) := by
      rw [Bool.and_eq_true, decide_eq_true_eq, hdepth]
      exact fun hc => hrest.depth_ne_zero hc.2 hc.1
    rw [Access, if_neg hnot, hdepth, Nat.sub_self]
    exact ⟨Nat.le_refl _, fun _ => rfl⟩
  · rw [if_neg hxy] at hx
    rw [if_neg (Ne.symm hxy)]
    exact ih hx

/-- From a body, what is around it is one link further away. -/
theorem Access.link {depth : Nat} {F' F'' : ι → Int32} (h : Access w st hp b depth entry F F'')
    (hlink : Shows w st hp F' F) : Access w st hp b (depth + 1) entry F' F'' := by
  unfold Access at h ⊢
  split
  next hglobal =>
    rw [if_pos hglobal] at h
    exact h
  next hlocal =>
    rw [if_neg hlocal] at h
    refine ⟨Nat.le_succ_of_le h.1, fun i => ?_⟩
    rw [Nat.succ_sub h.1]
    exact ⟨F i, hlink i, h.2 i⟩

/-- A name in a class is that of a member or is found in the global scope. -/
theorem Found.member {record : ClassRecord} {fields : List (String × Ty)}
    {methods : List (String × Signature)} {a : Nat} {c : String}
    (hobject : (Value.object a).HasTy r.hierarchy σ (.ref c)) (hrecord : r.class? c = some record)
    (hlists : record.layout.Lists fields methods)
    (hfields : ∀ (j : Nat) (x : String) (t : Ty), fields[j]? = some (x, t) → ∃ v : Value,
      σ.field? a j = some v ∧ v.HasTy r.hierarchy σ t ∧
      Shows w st hp (fun _ => Int32.ofNat a + (-(Int32.ofNat j) - 1)) fun _ => v.word)
    {member : Member} (hx : record.layout.members[x]? = some member) :
    Found r w σ st hp true 1 (memberScope (fields.map Prod.fst) (methods.map Prod.fst) a ++ ρ)
      (fun _ => Int32.ofNat a) x member.entry := by
  have haccess : ∀ e : Entry, e.depth = 1 →
      Access w st hp true 1 e (fun _ => Int32.ofNat a) fun _ => Int32.ofNat a := by
    intro e he
    simp [Access, he, Platform.Chain]
  have hmem := (hlists.member x member).mp hx
  rcases hmem with ⟨j, t, hj, rfl⟩ | ⟨j, sig, hj, rfl⟩
  · obtain ⟨v, hread, hty, hcell⟩ := hfields j x t hj
    have hname : (fields.map Prod.fst)[j]? = some x := by rw [List.getElem?_map, hj]; rfl
    obtain ⟨ρ', hfind⟩ :=
      find?_memberScope_field hlists.fields_nodup hname (methods.map Prod.fst) a ρ
    exact ⟨_, ρ', _, hfind, haccess _ rfl, .value hread hty hcell⟩
  · have hnot : x ∉ fields.map Prod.fst := by
      intro hin
      obtain ⟨m, hm, hkind⟩ := hlists.exists_field hin
      rw [← Option.some.inj (hx.symm.trans hm)] at hkind
      cases hkind
    have hname : x ∈ methods.map Prod.fst := List.mem_map_of_mem (List.mem_of_getElem? hj)
    obtain ⟨ρ', hfind⟩ := find?_memberScope_method hnot hname a ρ
    exact ⟨_, ρ', _, hfind, haccess _ rfl, .method hobject hrecord hlists hj⟩

/-- What resolution knows of a name is what the evaluation finds under it. -/
theorem Scoped.lookup (h : Scoped r w σ st hp b env ρ F) (hx : env.scopes.lookup? x = some entry) :
    Found r w σ st hp b env.scopes.depth ρ F x entry := by
  induction h with
  | global => simp [Env.global, Scopes.lookup?, Scopes.push] at hx
  | value hrest hdeclare hdepth hty hcell ih =>
    exact .declared hrest hdeclare hdepth (.value rfl hty hcell) ih hx
  | function hrest hdeclare hdepth hty hfun hframe hcode hplaced ih =>
    refine .declared hrest hdeclare hdepth (.function ?_ hfun hty hframe hcode hplaced) ih hx
    exact .function hrest hdeclare hdepth hty hfun hframe hcode hplaced
  | cls hrest hdepth hdeclare hrecord hclass hname hcell ih =>
    exact .declared hrest hdeclare hdepth.symm (.cls rfl) ih hx
  | body hrest hlink ih =>
    rw [Env.enterBody, Scopes.lookup?_push] at hx
    obtain ⟨slot, ρ', F', hfind, haccess, hmeans⟩ := ih (by simpa using hx)
    refine ⟨slot, ρ', F', hfind, ?_, hmeans⟩
    rw [Env.enterBody, Scopes.depth_push hrest.stack_ne_nil]
    exact haccess.link hlink
  | @members env ρ fields methods a c record hrest hdepth hobject hrecord hlists hfields ih =>
    rw [Env.enterClass, Scopes.lookup?_push, ObjectLayout.scope, Std.TreeMap.getElem?_map] at hx
    rw [Env.enterClass, Scopes.depth_push hrest.stack_ne_nil, hdepth]
    cases hmember : record.layout.members[x]? with
    | some member =>
      rw [hmember] at hx
      cases hx
      exact .member hobject hrecord hlists hfields hmember
    | none =>
      rw [hmember] at hx
      obtain ⟨slot, ρ', F', hfind, haccess, hmeans⟩ := ih hx
      refine ⟨slot, ρ', F', ?_, ?_, hmeans⟩
      · rw [find?_append, hfind]
        rw [map_fst_memberScope, List.mem_append, not_or]
        refine ⟨fun hin => ?_, fun hin => ?_⟩
        · obtain ⟨m, hm, -⟩ := hlists.exists_field hin
          exact Option.some_ne_none m (hm.symm.trans hmember)
        · obtain ⟨m, hm, -⟩ := hlists.exists_method hin
          exact Option.some_ne_none m (hm.symm.trans hmember)
      · have hlocal : ¬((entry.depth = 0 && false) = true) := by simp
        rw [Access, if_neg hlocal, hdepth] at haccess
        obtain ⟨hle, hchain⟩ := haccess
        have hzero : entry.depth = 0 := Nat.le_zero.mp hle
        have hglobal : (entry.depth = 0 && true) = true := by simp [hzero]
        rw [Access, if_pos hglobal]
        rw [hzero] at hchain
        exact funext fun i => (hchain i).symm

theorem findClass?_append {ρ ρ' : Bindings} (h : ∀ p ∈ ρ, ∀ k, p.2 ≠ .cls k) :
    findClass? x (ρ ++ ρ') = findClass? x ρ' := by
  induction ρ with
  | nil => rfl
  | cons p ρ ih =>
    rw [List.forall_mem_cons] at h
    obtain ⟨y, slot⟩ := p
    cases slot with
    | cls k => exact absurd rfl (h.1 k)
    | value | field | function | method => exact ih h.2

theorem memberScope_ne_cls (fields methods : List String) (a : Nat) :
    ∀ p ∈ memberScope fields methods a, ∀ k, p.2 ≠ .cls k := by
  intro p hp k
  rw [memberScope, List.mem_append, List.mem_mapIdx, List.mem_map] at hp
  rcases hp with ⟨i, _, rfl⟩ | ⟨y, -, rfl⟩
  · nofun
  · nofun

/-- A class that resolution knows is found, and its dispatch table is in its cell of the global
frame. -/
theorem Scoped.findClass? (h : Scoped r w σ st hp b env ρ F) {record : ClassRecord}
    (hx : env.classes.records[x]? = some record) :
    ∃ k cls, Stackling.findClass? x ρ = some k ∧ σ.classes[k]? = some cls ∧ cls.name = x ∧
      record.name = x ∧ r.class? x = some record ∧ record.entry.ty = .cls record.layout.classTy ∧
      Shows w st hp (fun i => globalFrame w i + record.entry.offset) fun _ =>
        Int32.ofNat cls.table := by
  induction h with
  | global => simp [Env.global] at hx
  | value _ _ _ _ _ ih => exact ih hx
  | function _ _ _ _ _ _ _ _ ih => exact ih hx
  | @cls env ρ F c l scopes k cls hrest hdepth hdeclare hrecord hclass hname hcell ih =>
    rw [Env.afterClass, ClassTable.getElem?_add] at hx
    rw [Stackling.findClass?]
    split at hx
    next hcx =>
      obtain rfl : c.name = x := hcx
      cases hx
      rw [hrest.eq_globalFrame hdepth] at hcell
      exact ⟨k, cls, if_pos rfl, hclass, hname, rfl, hrecord, rfl, hcell⟩
    next hcx =>
      rw [if_neg (show ¬c.name = x from hcx)]
      exact ih hx
  | body _ _ ih => exact ih hx
  | members _ _ _ _ _ _ ih =>
    rw [findClass?_append (memberScope_ne_cls _ _ _)]
    exact ih hx

end Lookup

end Stackling
