import Stackling.Proofs.Simulation.Expressions

/-!
# Code of calls and objects

A call pushes the arguments and the frame in which the function is declared, and jumps to its code;
a method is found through the dispatch table of its object. `Expr.simulated` puts the forms of
expressions together: given that calls are simulated, every expression is.
-/

namespace Stackling

variable {ι : Type} {r : Resolution} {w : ι → World} {n : Nat} {call : Call} {s : Site ι}
  {σ : Store} {pc : ι → Nat} {temps : ι → List Int32} {c : ι → Config} {a t : Ty} {pos : SourcePos}

/-! ### Calls -/

/-- The machines evaluate the arguments of a call. -/
def ArgsSimulated (r : Resolution) (w : ι → World) (n : Nat) (call : Call) (s : Site ι)
    (es : List Expr) (ts : List Ty) : Prop :=
  ∀ ⦃σ : Store⦄ ⦃pc : ι → Nat⦄ ⦃temps : ι → List Int32⦄ ⦃c : ι → Config⦄ ⦃code : ι → List Instr⦄,
    (∀ i, ∃ q q', argumentCode ((w i).context r s.inClass) es q = .ok (code i, q')) →
    (∀ i, (w i).Carries (pc i) (code i)) → At r w s σ pc temps c →
    Sim r w n (evalArgs call s.bindings es σ) c fun vs σ' c' =>
      List.Forall₂ (Value.HasTy r.hierarchy σ') vs ts ∧ σ.Grows σ' ∧
        At r w s σ' (fun i => pc i + Code.size (code i)) (fun i => vs.map Value.word ++ temps i) c'

theorem forall₂_hasTy_mono {h : Hierarchy} {σ σ' : Store} {vs : List Value} {ts : List Ty}
    (hvs : List.Forall₂ (Value.HasTy h σ) vs ts) (hσ : σ.Extends σ') :
    List.Forall₂ (Value.HasTy h σ') vs ts :=
  hvs.imp fun _ _ hv => hv.mono hσ

theorem argsSimulated_nil : ArgsSimulated r w n call s [] [] := by
  intro σ pc temps c code hcoded hcarries hat
  choose q q' hcode using hcoded
  simp only [argumentCode_nil] at hcode
  simp only [← (hcode _).1]
  rw [evalArgs]
  exact ⟨0, c, fun i => .refl (w i) _, .nil, .refl σ, hat⟩

theorem argsSimulated_cons {e : Expr} {es : List Expr} {ts : List Ty}
    (he : e.Simulated r w n call s a) (hsub : r.hierarchy.isSubtype a t)
    (hes : ArgsSimulated r w n call s es ts) :
    ArgsSimulated r w n call s (e :: es) (t :: ts) := by
  intro σ pc temps c code hcoded hcarries hat
  choose q q' hcode using hcoded
  simp only [argumentCode_cons] at hcode
  choose code₁ s₁ code₂ hcode₁ hcode₂ hcode using hcode
  simp only [← hcode, Platform.carries_append, Code.size_append, ← Nat.add_assoc] at hcarries ⊢
  rw [evalArgs]
  refine (hes (fun i => ⟨_, _, hcode₁ i⟩) (fun i => (hcarries i).1) hat).bind ?_
  rintro vs σ₁ c₁ ⟨hvs, hgrow₁, hat₁⟩
  refine (he (fun i => ⟨_, _, hcode₂ i⟩) (fun i => (hcarries i).2) hat₁).bind ?_
  rintro v σ₂ c₂ ⟨hv, hgrow₂, hat₂⟩
  exact ⟨0, c₂, fun i => .refl (w i) _, .cons (hv.sub hsub) (forall₂_hasTy_mono hvs hgrow₂.extends),
    hgrow₁.trans hgrow₂, hat₂⟩

/-- A call from a site comes back to it with the result. -/
theorem CallSim.yields (hcall : CallSim r w n call) {hp : ι → List Int32} (hm : Matches r w s σ hp)
    {f : FunDecl} {b : Bool} {env : Env} {ρ : Bindings} {F fp tm : ι → Int32} {args : List Value}
    {entry target : ι → Nat} (hfun : f.Typed r env) (hscoped : Scoped r w σ s.base hp b env ρ F)
    (hargs : List.Forall₂ (Value.HasTy r.hierarchy σ) args f.signature.params)
    (hplaced : ∀ i, (w i).Placed r b f (entry i)) (htarget : ∀ i, target i < (w i).image.ops.size)
    (hresult : Ty.Sub r.hierarchy f.result.ty t) :
    Sim r w n (call f ρ args σ)
      (fun i => ⟨entry i, F i :: (args.map Value.word ++ s.frame i :: (temps i ++ s.base i)), hp i,
        fp i, Int32.ofNat (target i), tm i, σ.output, none⟩)
      (Yields r w s σ t target temps) := by
  have hup : ∀ i, s.base i <:+ temps i ++ s.base i := fun i => List.suffix_append _ _
  have hsame : ∀ i, hp i <+: hp i := fun i => List.prefix_refl _
  refine (hcall hfun (hscoped.mono (.refl σ) hup hsame) hm.heap
    (hm.classes.mono (.refl σ) hup hsame) hargs hplaced htarget).mono ?_
  rintro v σ' c' - ⟨hv, hgrow, hp', ra', tm', hhp, hheap, rfl⟩
  exact ⟨hresult σ' v hv, hgrow, hp', ra', tm', hm.grow hgrow hhp hheap, rfl⟩

theorem Platform.Placed.lt {w : Platform} {b : Bool} {f : FunDecl} {a : Nat}
    (h : w.Placed r b f a) :
    a < w.image.ops.size := by
  obtain ⟨q, routine, q', pc, hcode, hcodeAt, rfl⟩ := h
  obtain ⟨locals, q₁, value, s', -, -, -, rfl⟩ := FunDecl.code_eq_ok.mp hcode
  obtain ⟨-, hroutine⟩ := Image.codeAt_append.mp hcodeAt
  obtain ⟨hentry, hcfp, -⟩ := hroutine
  rw [hentry]
  exact (Array.getElem?_eq_some_iff.mp hcfp).1

theorem forall₂_hasTy_sub {h : Hierarchy} {vs : List Value} {ps qs : List Ty}
    (hsub : List.Forall₂ (fun p q => Ty.Sub h q p) ps qs)
    (hvs : List.Forall₂ (Value.HasTy h σ) vs qs) :
    List.Forall₂ (Value.HasTy h σ) vs ps := by
  induction hsub generalizing vs with
  | nil => exact hvs
  | cons hp _ ih =>
    cases hvs with
    | cons hv hvs => exact .cons (hp σ _ hv) (ih hvs)

/-- Calls a method of an object by its place in the dispatch table. -/
theorem sim_invoke (hcall : CallSim r w n call) {hp : ι → List Int32} (hm : Matches r w s σ hp)
    {object j : Nat} {cls x : String} {record : ClassRecord} {fields : List (String × Ty)}
    {methods : List (String × Signature)} {sig : Signature} {args : List Value} {ra tm : ι → Int32}
    (hobject : (Value.object object).HasTy r.hierarchy σ (.ref cls))
    (hrecord : r.class? cls = some record) (hlists : record.layout.Lists fields methods)
    (hj : methods[j]? = some (x, sig))
    (hargs : List.Forall₂ (Value.HasTy r.hierarchy σ) args sig.params)
    (hcarries : ∀ i, (w i).Carries (pc i) (Code.dispatch (Int32.ofNat j))) :
    Sim r w n (invoke call object x args σ)
      (fun i => ⟨pc i, Int32.ofNat object ::
        (args.map Value.word ++ s.frame i :: (temps i ++ s.base i)), hp i, s.frame i,
        ra i, tm i, σ.output, none⟩)
      (Yields r w s σ sig.result (fun i => pc i + 8) temps) := by
  obtain ⟨m, own, entry, hmethod, hown, hfits, hsub, hplaced, hheader, htable⟩ :=
    hm.heap.dispatch hm.classes hobject hrecord hlists hj
  have heval : invoke call object x args σ = call m.decl (m.scope object) args σ := by
    rw [invoke, EvalM.get_bind, EvalM.some_bind hmethod]
  rw [heval]
  obtain ⟨hscoped, hdepth, hbelow, hrecord', hlists', hfields, hmethods, hfun⟩ := hfits
  have hobject' := Value.HasTy.object hown hbelow
  have hscope := Scoped.members hscoped hdepth hobject' hrecord' hlists'
    fun j x t hj => hm.heap.field hm.classes hobject' hrecord' hlists' hj
  rw [← hfields, ← hmethods] at hscope
  have hup : ∀ i, s.base i <:+ args.map Value.word ++ s.frame i :: (temps i ++ s.base i) := fun i =>
    ((List.suffix_append _ _).trans (List.suffix_cons _ _)).trans (List.suffix_append _ _)
  refine .after
    (fun i => World.reach_dispatch (hcarries i).1 ((hheader i).mono (hup i) (List.prefix_refl _))
      ((htable i).mono (hup i) (List.prefix_refl _)) (hplaced i).lt) ?_
  refine hcall.yields hm hfun hscope ?_ hplaced (fun i => (hcarries i).2) ?_
  · rcases hsub with rfl | hsub
    · exact hargs
    · exact forall₂_hasTy_sub hsub.1 hargs
  · rcases hsub with rfl | hsub
    · exact fun _ _ hv => hv
    · exact hsub.2

theorem Value.HasTy.signature? {h : Hierarchy} {v : Value} (hv : v.HasTy h σ t) :
    t.signature? = none := by
  cases hv <;> rfl

theorem Expr.simulated_call (hcall : CallSim r w n call) {id : NodeId} {callee : String}
    {args : List Expr} {entry : Entry} {sig : Signature}
    (hlookup : s.env.scopes.lookup? callee = some entry)
    (huse : r.uses[id]? = some ⟨entry, s.env.scopes.depth⟩) (hsig : entry.ty.signature? = some sig)
    (hargs : ArgsSimulated r w n call s args sig.params) :
    (Expr.call id callee args pos).Simulated r w n call s sig.result := by
  intro σ pc temps c code hcoded hcarries hat
  choose q q' hcode using hcoded
  simp only [Expr.code_call, Platform.context_resolution, huse, Option.some.injEq, exists_and_left,
    exists_eq_left'] at hcode
  choose code₁ hcode₁ hcode using hcode
  simp only [← hcode, Platform.carries_append, List.cons_append, Platform.carries_bare,
    Code.size_append, Code.size_bare, ← Nat.add_assoc] at hcarries ⊢
  rw [Expr.eval]
  obtain ⟨c₁, hreach, hat₁⟩ := hat.stackStep _ (fun i => s.frame i :: temps i)
    fun i _ _ _ => Platform.reach_lfp (hcarries i).1
  refine .after hreach ?_
  refine (hargs (fun i => ⟨_, _, hcode₁ i⟩) (fun i => (hcarries i).2.1.1) hat₁).bind ?_
  rintro vs σ₁ c₂ ⟨hvs, hgrow, hp, ra, tm, hm, rfl⟩
  obtain ⟨slot, ρ', F', hfind, haccess, hmeans⟩ := hm.scope.lookup hlookup
  rw [EvalM.some_bind hfind]
  have hup : ∀ i, s.base i <:+ vs.map Value.word ++ s.frame i :: (temps i ++ s.base i) := fun i =>
    ((List.suffix_append _ _).trans (List.suffix_cons _ _)).trans (List.suffix_append _ _)
  simp only [List.append_assoc, List.cons_append]
  obtain ⟨k, haccess'⟩ := Access.reach (haccess.mono hup) fun i => (hcarries i).2.1.2.1
  refine .after haccess' (Sim.since ?_ hgrow)
  cases hmeans with
  | value _ hty =>
    rw [hty.signature?] at hsig
    cases hsig
  | cls hty =>
    rw [hty] at hsig
    cases hsig
  | method hobject hrecord hlists hj =>
    cases hsig
    exact sim_invoke hcall hm hobject hrecord hlists hj hvs fun i => (hcarries i).2.2
  | function hscoped hfun hty hframe hcode hplaced =>
    rw [hty] at hsig
    cases hsig
    simp only [hty, Ty.isMethod, Bool.false_eq_true, if_false, Platform.carries_append,
      Platform.carries_bare] at hcarries ⊢
    refine .after (fun i => (Platform.reach_loadClosure (hcarries i).2.2.1.1
      ((hframe i).mono (hup i) (List.prefix_refl _))
      ((hcode i).mono (hup i) (List.prefix_refl _))).trans
        (World.reach_js (hcarries i).2.2.2.1 (hplaced i).lt)) ?_
    exact hcall.yields hm hfun hscoped hvs hplaced
      (fun i => Platform.carries_nil.mp (hcarries i).2.2.2.2)
      fun _ _ hv => hv

/-- A method in the record of a class that resolution knows. -/
theorem Matches.exists_method {hp : ι → List Int32} (hm : Matches r w s σ hp) {cls x : String}
    {record : ClassRecord} {member : Member} (hrecord : s.env.classes.records[cls]? = some record)
    (hmethod : record.layout.method? x = some member) :
    ∃ fields methods j sig, r.class? cls = some record ∧ record.layout.Lists fields methods ∧
      methods[j]? = some (x, sig) ∧ member = ObjectLayout.methodMember j sig := by
  obtain ⟨k, own, -, hk, rfl, -, hrecord', -⟩ := hm.scope.findClass? hrecord
  obtain ⟨record', fields, hfits⟩ := hm.classes k own hk
  obtain rfl : record = record' := Option.some.inj (hrecord'.symm.trans hfits.recorded)
  obtain ⟨hmember, hkind⟩ := Option.filter_eq_some_iff.mp hmethod
  rcases (hfits.lists.member x member).mp hmember with hfield | ⟨j, sig, hj, hmember⟩
  · rw [hfits.lists.isMethod_field hfield] at hkind
    cases hkind
  · exact ⟨_, _, j, sig, hrecord', hfits.lists, hj, hmember⟩

theorem Expr.simulated_send (hcall : CallSim r w n call) {id : NodeId}
    {receiver method cls : String} {args : List Expr} {entry : Entry} {record : ClassRecord}
    {member : Member} {sig : Signature} (hlookup : s.env.scopes.lookup? receiver = some entry)
    (hty : entry.ty = .ref cls) (hrecord : s.env.classes.records[cls]? = some record)
    (hmethod : record.layout.method? method = some member)
    (hsend : r.sends[id]? = some ⟨⟨entry, s.env.scopes.depth⟩, cls, member.entry⟩)
    (hsig : member.entry.ty.signature? = some sig)
    (hargs : ArgsSimulated r w n call s args sig.params) :
    (Expr.send id receiver method args pos).Simulated r w n call s sig.result := by
  intro σ pc temps c code hcoded hcarries hat
  choose q q' hcode using hcoded
  simp only [Expr.code_send, Platform.context_resolution, hsend, Option.some.injEq, exists_and_left,
    exists_eq_left'] at hcode
  choose code₁ hcode₁ hcode using hcode
  simp only [← hcode, Platform.carries_append, List.cons_append, Platform.carries_bare,
    Code.size_append, Code.size_bare, ← Nat.add_assoc] at hcarries ⊢
  rw [Expr.eval]
  obtain ⟨c₁, hreach, hat₁⟩ := hat.stackStep _ (fun i => s.frame i :: temps i)
    fun i _ _ _ => Platform.reach_lfp (hcarries i).1
  refine .after hreach ?_
  refine (hargs (fun i => ⟨_, _, hcode₁ i⟩) (fun i => (hcarries i).2.1.1.1) hat₁).bind ?_
  rintro vs σ₁ c₂ ⟨hvs, hgrow, hp, ra, tm, hm, rfl⟩
  obtain ⟨fields, methods, j, sig', hclass, hlists, hj, rfl⟩ := hm.exists_method hrecord hmethod
  cases hsig
  obtain ⟨slot, ρ', F', hfind, haccess, hmeans⟩ := hm.scope.lookup hlookup
  rw [EvalM.some_bind hfind]
  cases hmeans with
  | cls hty' =>
    rw [hty] at hty'
    cases hty'
  | method => cases hty
  | function _ _ hty' =>
    rw [hty] at hty'
    cases hty'
  | @value _ _ _ _ v hread hv hcell =>
    obtain ⟨k, hload⟩ := Found.load haccess hcell fun i =>
      Image.codeAt_append.mpr ⟨(hcarries i).2.1.1.2.1, (hcarries i).2.1.2.1⟩
    refine .after hload (Sim.since ?_ hgrow)
    simp only [List.append_assoc, List.cons_append, Code.size_append, ← Nat.add_assoc]
    rw [EvalM.get_bind, EvalM.some_bind hread]
    rw [hty] at hv
    cases v with
    | int | bool => cases hv
    | null => exact ⟨⟨_, _, hclass⟩, 3, fun i => Platform.fails_dispatch (hcarries i).2.2.1⟩
    | object a => exact sim_invoke hcall hm hv hclass hlists hj hvs fun i => (hcarries i).2.2

/-! ### Objects -/

/-- The machines evaluate the field values of an object. -/
def FieldsSimulated (r : Resolution) (w : ι → World) (n : Nat) (call : Call) (s : Site ι)
    (es : List Expr) (ts : List Ty) : Prop :=
  ∀ ⦃σ : Store⦄ ⦃pc : ι → Nat⦄ ⦃temps : ι → List Int32⦄ ⦃c : ι → Config⦄ ⦃code : ι → List Instr⦄,
    (∀ i, ∃ q q', valueCode ((w i).context r s.inClass) es q = .ok (code i, q')) →
    (∀ i, (w i).Carries (pc i) (code i)) → At r w s σ pc temps c →
    Sim r w n (evalFields call s.bindings es σ) c fun vs σ' c' =>
      List.Forall₂ (Value.HasTy r.hierarchy σ') vs ts ∧ σ.Grows σ' ∧
        At r w s σ' (fun i => pc i + Code.size (code i))
        (fun i => vs.reverse.map Value.word ++ temps i) c'

theorem fieldsSimulated_nil : FieldsSimulated r w n call s [] [] := by
  intro σ pc temps c code hcoded hcarries hat
  choose q q' hcode using hcoded
  simp only [valueCode_nil] at hcode
  simp only [← (hcode _).1]
  rw [evalFields]
  exact ⟨0, c, fun i => .refl (w i) _, .nil, .refl σ, hat⟩

theorem fieldsSimulated_cons {e : Expr} {es : List Expr} {ts : List Ty}
    (he : e.Simulated r w n call s a) (hsub : r.hierarchy.isSubtype a t)
    (hes : FieldsSimulated r w n call s es ts) :
    FieldsSimulated r w n call s (e :: es) (t :: ts) := by
  intro σ pc temps c code hcoded hcarries hat
  choose q q' hcode using hcoded
  simp only [valueCode_cons] at hcode
  choose code₁ s₁ code₂ hcode₁ hcode₂ hcode using hcode
  simp only [← hcode, Platform.carries_append, Code.size_append, ← Nat.add_assoc] at hcarries ⊢
  rw [evalFields]
  refine (he (fun i => ⟨_, _, hcode₁ i⟩) (fun i => (hcarries i).1) hat).bind ?_
  rintro v σ₁ c₁ ⟨hv, hgrow₁, hat₁⟩
  refine (hes (fun i => ⟨_, _, hcode₂ i⟩) (fun i => (hcarries i).2) hat₁).bind ?_
  rintro vs σ₂ c₂ ⟨hvs, hgrow₂, hat₂⟩
  refine ⟨0, c₂, fun i => .refl (w i) _, .cons ((hv.sub hsub).mono hgrow₂.extends) hvs,
    hgrow₁.trans hgrow₂, ?_⟩
  simpa using hat₂

/-- The store with a new object. -/
def Store.withObject (σ : Store) (k : Nat) (vs : List Value) : Store :=
  { σ with heap := σ.heap ++ vs.reverse.map Cell.value ++ [Cell.object k] }

theorem Store.grows_withObject (σ : Store) (k : Nat) (vs : List Value) :
    σ.Grows (σ.withObject k vs) :=
  ⟨by simp [withObject, List.append_assoc], rfl⟩

/-- The field at a place of a new object. -/
theorem Store.getElem?_withObject (σ : Store) (k : Nat) {vs : List Value} {j : Nat} {v : Value}
    (hj : vs[j]? = some v) :
    j < σ.heap.length + vs.length ∧
      (σ.withObject k vs).heap[σ.heap.length + vs.length - 1 - j]? = some (.value v) := by
  obtain ⟨hlt, hv⟩ := List.getElem?_eq_some_iff.mp hj
  refine ⟨by omega, ?_⟩
  rw [withObject, List.append_assoc, List.getElem?_append_right (by omega),
    show σ.heap.length + vs.length - 1 - j - σ.heap.length = vs.length - 1 - j by omega,
    List.getElem?_append_left (by rw [List.length_map, List.length_reverse]; omega),
    List.getElem?_map, List.getElem?_reverse (by omega), show vs.length - 1 - (vs.length - 1 - j) =
    j by omega, hj]
  rfl

theorem HeapFits.withObject {hp : ι → List Int32} (h : HeapFits r w σ hp) {k : Nat} {cls : Class}
    (hk : σ.classes[k]? = some cls) {record : ClassRecord}
    (hrecord : r.class? cls.name = some record) {vs : List Value}
    (hvs : List.Forall₂ (Value.HasTy r.hierarchy σ) vs record.layout.classTy.fields) :
    HeapFits r w (σ.withObject k vs) fun i => hp i ++ vs.reverse.map Value.word ++
      [Int32.ofNat cls.table] := by
  let σ₁ : Store := { σ with heap := σ.heap ++ vs.reverse.map Cell.value }
  have hσ₁ : σ.Extends σ₁ := ⟨List.prefix_append _ _, List.prefix_refl _⟩
  have hσ₂ : σ₁.Extends (σ.withObject k vs) := ⟨List.prefix_append _ _, List.prefix_refl _⟩
  have hvalues : HeapFits r w σ₁ fun i => hp i ++ vs.reverse.map Value.word := by
    refine h.append hσ₁ _ (fun i => vs.reverse.map Value.word) rfl (fun i => by simp)
      fun j cell hj => ?_
    rw [List.getElem?_map, Option.map_eq_some_iff] at hj
    obtain ⟨v, hv, rfl⟩ := hj
    exact ⟨_, .value, fun i => by rw [List.getElem?_map, hv]; rfl⟩
  refine hvalues.append hσ₂ [Cell.object k] (fun i => [Int32.ofNat cls.table]) rfl (fun i => rfl)
    fun j cell hj => ?_
  obtain ⟨rfl, rfl⟩ : j = 0 ∧ Cell.object k = cell := by
    cases j with
    | zero =>
      cases hj
      exact ⟨rfl, rfl⟩
    | succ j => cases hj
  refine ⟨_, .object hk hrecord fun j t hj => ?_, fun i => rfl⟩
  obtain ⟨v, hv, hty⟩ := forall₂_getElem? hvs hj
  have hplace := σ.getElem?_withObject k hv
  have hlength : (σ.heap ++ vs.reverse.map Cell.value).length + 0 =
      σ.heap.length + vs.length := by simp
  rw [hlength]
  exact ⟨hplace.1, v, hplace.2, hty.mono (σ.grows_withObject k vs).extends⟩

theorem ObjectLayout.Lists.cells_eq {l : ObjectLayout} {fields : List (String × Ty)}
    {methods : List (String × Signature)} (h : l.Lists fields methods) :
    l.classTy.cells = l.classTy.fields.length := by
  have hcells : ∀ ts : List Ty, (∀ t ∈ ts, t.Plain ∧ t.isMethod = false) →
      totalCells Ty.cells ts = ts.length := by
    intro ts hts
    induction ts with
    | nil => rfl
    | cons t ts ih =>
      rw [List.forall_mem_cons] at hts
      have ht : t.cells = 1 := by
        cases t with
        | arrow => exact hts.1.1.elim
        | int | bool | null | ref _ | method _ | cls _ => rfl
      rw [totalCells_cons, ih hts.2, ht, List.length_cons, Nat.add_comm]
  exact hcells _ h.fields_plain

theorem Expr.simulated_new {id : NodeId} {cls : String} {args : List Expr} {record : ClassRecord}
    {members : ClassTy} (hrecord : s.env.classes.records[cls]? = some record)
    (huse : r.uses[id]? = some ⟨record.entry, s.env.scopes.depth⟩)
    (hty : record.entry.ty = .cls members)
    (hargs : FieldsSimulated r w n call s args members.fields) :
    (Expr.new id cls args pos).Simulated r w n call s (.ref cls) := by
  intro σ pc temps c code hcoded hcarries hat
  choose q q' hcode using hcoded
  simp only [Expr.code_new, Platform.context_resolution, huse, Option.some.injEq, exists_and_left,
    exists_eq_left', hty, Ty.cls.injEq] at hcode
  choose code₁ hcode₁ hcode using hcode
  simp only [← hcode, Platform.carries_append, Code.size_append, ← Nat.add_assoc] at hcarries ⊢
  rw [Expr.eval]
  refine (hargs (fun i => ⟨_, _, hcode₁ i⟩) (fun i => (hcarries i).1) hat).bind ?_
  rintro vs σ₁ c₁ ⟨hvs, hgrow, hp, ra, tm, hm, rfl⟩
  obtain ⟨k, own, hfind, hk, rfl, -, hclass, hlayout, hcell⟩ := hm.scope.findClass? hrecord
  obtain rfl : members = record.layout.classTy := Ty.cls.inj (hty.symm.trans hlayout)
  rw [EvalM.some_bind hfind]
  obtain ⟨record', fields, hfits⟩ := hm.classes k own hk
  obtain rfl : record = record' := Option.some.inj (hclass.symm.trans hfits.recorded)
  have hcells : record.layout.classTy.cells = (vs.reverse.map Value.word).length := by
    rw [hfits.lists.cells_eq, List.length_map, List.length_reverse, hvs.length_eq]
  have hgrow' := σ₁.grows_withObject k vs
  have hheap := hm.heap.withObject hk hclass hvs
  have hhp : ∀ i, hp i <+: hp i ++ vs.reverse.map Value.word ++ [Int32.ofNat own.table] := fun i =>
    (List.prefix_append _ _).trans (List.prefix_append _ _)
  have heval : construct k vs σ₁ = .ok (.object (σ₁.heap.length + vs.length), σ₁.withObject k vs) :=
    rfl
  have hword : ∀ i, (hp i).length + (vs.reverse.map Value.word).length =
      σ₁.heap.length + vs.length := by
    simp [hm.heap.length]
  simp only [hcells] at hcarries ⊢
  rw [heval]
  simp only [List.append_assoc, Code.size_makeObject]
  refine ⟨_, _, fun i => Platform.reach_makeObject (hcarries i).2.1
    ((hcell i).mono (List.suffix_append _ _) (List.prefix_append _ _)), ?_, hgrow.trans hgrow', _,
    ra, tm, hm.grow hgrow' hhp hheap, ?_⟩
  · refine .object (Store.class?_eq_some.mpr ⟨k, ?_, hk⟩) .refl
    simp [Store.withObject]
  · simp only [hword]
    rfl

/-! ### All expressions -/

theorem ParamsTyped.isArrow {env env' : Env} {ps : List TypedName} (h : ParamsTyped env ps env') :
    ∀ t ∈ ps.map (·.declared.ty), t.isArrow = false := by
  induction h with
  | nil => nofun
  | cons hplain _ _ ih =>
    rw [List.map_cons, List.forall_mem_cons]
    exact ⟨(WrittenTy.isArrow_ty _).trans hplain, ih⟩

theorem ObjectLayout.Lists.isArrow_signature {l : ObjectLayout} {fields : List (String × Ty)}
    {methods : List (String × Signature)} (h : l.Lists fields methods) {j : Nat} {x : String}
    {sig : Signature} (hj : methods[j]? = some (x, sig)) :
    (∀ t ∈ sig.params, t.isArrow = false) ∧ sig.result.isArrow = false := by
  refine h.methods_plain sig ?_
  rw [h.methods_ty]
  exact List.mem_map_of_mem (List.mem_of_getElem? hj)

/-- What is called neither takes nor gives functions. -/
theorem Matches.isArrow_signature {hp : ι → List Int32} (hm : Matches r w s σ hp) {callee : String}
    {entry : Entry} {sig : Signature} (hlookup : s.env.scopes.lookup? callee = some entry)
    (hsig : entry.ty.signature? = some sig) :
    (∀ t ∈ sig.params, t.isArrow = false) ∧ sig.result.isArrow = false := by
  obtain ⟨slot, ρ', F', -, -, hmeans⟩ := hm.scope.lookup hlookup
  cases hmeans with
  | value _ hty =>
    rw [hty.signature?] at hsig
    cases hsig
  | cls hty =>
    rw [hty] at hsig
    cases hsig
  | function _ hfun hty =>
    rw [hty] at hsig
    cases hsig
    cases hfun with
    | mk hplain hparams => exact ⟨hparams.isArrow, (WrittenTy.isArrow_ty _).trans hplain⟩
  | method _ _ hlists hj =>
    cases hsig
    exact hlists.isArrow_signature hj

theorem Matches.isArrow_fields {hp : ι → List Int32} (hm : Matches r w s σ hp) {cls : String}
    {record : ClassRecord} {members : ClassTy} (hrecord : s.env.classes.records[cls]? = some record)
    (hty : record.entry.ty = .cls members) :
    ∀ t ∈ members.fields, t.isArrow = false := by
  obtain ⟨k, own, -, hk, rfl, -, hclass, hlayout, -⟩ := hm.scope.findClass? hrecord
  obtain rfl : members = record.layout.classTy := Ty.cls.inj (hty.symm.trans hlayout)
  obtain ⟨record', fields, hfits⟩ := hm.classes k own hk
  obtain rfl : record = record' := Option.some.inj (hclass.symm.trans hfits.recorded)
  intro t ht
  cases t with
  | arrow => exact (hfits.lists.fields_plain _ ht).1.elim
  | int | bool | null | ref _ | method _ | cls _ => rfl

mutual

/-- Every typed expression that is no function is simulated. -/
theorem Expr.simulated {hp : ι → List Int32} (hm : Matches r w s σ hp)
    (hcall : CallSim r w n call) :
    (e : Expr) → {t : Ty} → e.Typed r s.env t → t.isArrow = false → e.Simulated r w n call s t
  | .int .., _, .int, _ => Expr.simulated_iff.mpr Setting.simulated_int
  | .bool .., _, .bool, _ => Expr.simulated_iff.mpr Setting.simulated_bool
  | .null .., _, .null, _ => Expr.simulated_iff.mpr Setting.simulated_null
  | .name .., _, .name hlookup huse hvalue, ht => Expr.simulated_name hlookup huse hvalue ht
  | .binary _ left right _, _, .binary hleft hright hop, _ => by
    obtain ⟨ha, hb⟩ := BinOp.isArrow_operands hop
    have hleft := Expr.simulated_iff.mp (Expr.simulated hm hcall left hleft ha)
    have hright := Expr.simulated_iff.mp (Expr.simulated hm hcall right hright hb)
    exact Expr.simulated_iff.mpr (Setting.simulated_binary hleft hright hop)
  | .not e _, _, .not he hbool, _ => by
    have he := Expr.simulated hm hcall e he (Hierarchy.isArrow_of_isSubtype hbool rfl)
    exact Expr.simulated_iff.mpr (Setting.simulated_not (Expr.simulated_iff.mp he) hbool)
  | .ite cond yes no _, _, .ite hcond hbool hyes hno hjoin, ht => by
    obtain ⟨ha, hb⟩ := Hierarchy.isArrow_of_join? hjoin ht
    have hcond := Expr.simulated_iff.mp
      (Expr.simulated hm hcall cond hcond (Hierarchy.isArrow_of_isSubtype hbool rfl))
    have hyes := Expr.simulated_iff.mp (Expr.simulated hm hcall yes hyes ha)
    have hno := Expr.simulated_iff.mp (Expr.simulated hm hcall no hno hb)
    exact Expr.simulated_iff.mpr (Setting.simulated_ite hcond hbool hyes hno hjoin)
  | .print e _, _, .print he, ht => by
    have he := Expr.simulated_iff.mp (Expr.simulated hm hcall e he ht)
    exact Expr.simulated_iff.mpr (Setting.simulated_print he)
  | .call _ _ args _, _, .call hlookup huse hsig hargs, _ =>
    Expr.simulated_call hcall hlookup huse hsig
      (args_simulated hm hcall args hargs (hm.isArrow_signature hlookup hsig).1).1
  | .send _ _ _ args _, _, .send hlookup hty hrecord hmethod hsend hsig hargs, _ => by
    obtain ⟨fields, methods, j, sig', hclass, hlists, hj, rfl⟩ := hm.exists_method hrecord hmethod
    cases hsig
    exact Expr.simulated_send hcall hlookup hty hrecord hmethod hsend rfl
      (args_simulated hm hcall args hargs (hlists.isArrow_signature hj).1).1
  | .new _ _ args _, _, .new hrecord huse hty hargs, _ =>
    Expr.simulated_new hrecord huse hty
      (args_simulated hm hcall args hargs (hm.isArrow_fields hrecord hty)).2

theorem args_simulated {hp : ι → List Int32} (hm : Matches r w s σ hp)
    (hcall : CallSim r w n call) :
    (es : List Expr) → {ts : List Ty} → ArgsTyped r s.env es ts → (∀ t ∈ ts, t.isArrow = false) →
    ArgsSimulated r w n call s es ts ∧ FieldsSimulated r w n call s es ts
  | [], _, .nil, _ => ⟨argsSimulated_nil, fieldsSimulated_nil⟩
  | e :: es, _, .cons he hsub hes, hplain => by
    rw [List.forall_mem_cons] at hplain
    have he := Expr.simulated hm hcall e he (Hierarchy.isArrow_of_isSubtype hsub hplain.1)
    have hes := args_simulated hm hcall es hes hplain.2
    exact ⟨argsSimulated_cons he hsub hes.1, fieldsSimulated_cons he hsub hes.2⟩

end

end Stackling
