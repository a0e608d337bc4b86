import Stackling.Proofs.Resolution.Holds
import Stackling.Proofs.Typing.Rules

/-!
# Accepted expressions are typed

Inference reads the tables of resolution, while the typing rules speak of the environment in which
resolution has met an expression. If the findings in the expression hold, the two agree: what is
inferred is derivable, and nothing is refused for being unbound.
-/

namespace Stackling

/-- A computation that has an answer has one at each of its steps. -/
theorem Except.bind_eq_ok {ε α β : Type} {x : Except ε α} {f : α → Except ε β} {b : β} :
    (x >>= f) = .ok b ↔ ∃ a, x = .ok a ∧ f a = .ok b := by
  cases x <;> simp [bind, Except.bind]

/-! ### Expressions -/

namespace Env

variable {r : Resolution} {env : Env} {id : NodeId} {pos : SourcePos}

/-- If the finding for a name holds, the name is in scope and the table has its entry and depth. -/
theorem useName_holds {kind : NameKind} {x : String} (h : r.Holds (env.useName kind id x pos)) :
    ∃ entry, env.scopes.lookup? x = some entry ∧ r.uses[id]? = some ⟨entry, env.scopes.depth⟩ := by
  have hfree : ErrorFree [env.useName kind id x pos] :=
    Resolution.HoldsAll.errorFree (List.forall_mem_singleton.mpr h)
  obtain ⟨b, hb, heq⟩ := useName_errorFree hfree
  rw [heq] at h
  obtain ⟨entry, hentry, rfl⟩ := Option.map_eq_some_iff.mp hb
  exact ⟨entry, hentry, h⟩

/-- If the finding for a class name holds, the class is declared and the table has its entry. -/
theorem useClass_holds {cls : String} (h : r.Holds (env.useClass id cls pos)) :
    ∃ record, env.classes.records[cls]? = some record ∧
      r.uses[id]? = some ⟨record.entry, env.scopes.depth⟩ := by
  have hfree : ErrorFree [env.useClass id cls pos] :=
    Resolution.HoldsAll.errorFree (List.forall_mem_singleton.mpr h)
  obtain ⟨record, hrecord, heq⟩ := useClass_errorFree hfree
  rw [heq] at h
  exact ⟨record, hrecord, h⟩

/-- If the finding for a method call holds, the receiver is an object of a class that has the
method, and the table has all of that. -/
theorem useMethod_holds {receiver method : String}
    (h : r.Holds (env.useMethod id receiver method pos)) :
    ∃ entry cls record member, env.scopes.lookup? receiver = some entry ∧ entry.ty = .ref cls ∧
      env.classes.records[cls]? = some record ∧ record.layout.method? method = some member ∧
      r.sends[id]? = some ⟨⟨entry, env.scopes.depth⟩, cls, member.entry⟩ := by
  have hfree : ErrorFree [env.useMethod id receiver method pos] :=
    Resolution.HoldsAll.errorFree (List.forall_mem_singleton.mpr h)
  obtain ⟨b, cls, record, member, hb, hty, hrecord, hmember, heq⟩ := useMethod_errorFree hfree
  rw [heq] at h
  obtain ⟨entry, hentry, rfl⟩ := Option.map_eq_some_iff.mp hb
  exact ⟨entry, cls, record, member, hentry, hty, hrecord, hmember, h⟩

end Env

/-- A use is found exactly if the table has it. -/
theorem Resolution.useOf_eq_ok {r : Resolution} {id : NodeId} {b : Binding} :
    r.useOf id = .ok b ↔ r.uses[id]? = some b := by
  unfold useOf
  cases r.uses[id]? <;> simp

/-- A method call is found exactly if the table has it. -/
theorem Resolution.sendOf_eq_ok {r : Resolution} {id : NodeId} {d : Dispatch} :
    r.sendOf id = .ok d ↔ r.sends[id]? = some d := by
  unfold sendOf
  cases r.sends[id]? <;> simp

/-- A type can be called with a number of arguments exactly if it has a signature with as many
parameters. -/
theorem Ty.asCallee_eq_ok {t : Ty} {name : String} {n : Nat} {pos : SourcePos} {sig : Signature} :
    t.asCallee name n pos = .ok sig ↔ t.signature? = some sig ∧ sig.params.length = n := by
  unfold asCallee
  cases t.signature? with
  | none => simp
  | some s =>
    by_cases hn : s.arity = n
    · simp only [hn, if_true, Except.ok.injEq, Option.some.injEq]
      exact ⟨fun h => ⟨h, h ▸ hn⟩, fun h => h.1⟩
    · simp only [hn, if_false, Option.some.injEq, reduceCtorEq, false_iff, not_and]
      rintro rfl
      exact hn

/-- A type can be constructed from a number of values exactly if it is a class with as many
fields. -/
theorem Ty.asClass_eq_ok {t : Ty} {name : String} {n : Nat} {pos : SourcePos} {c : ClassTy} :
    t.asClass name n pos = .ok c ↔ t = .cls c ∧ c.fields.length = n := by
  unfold asClass
  cases t with
  | cls c' =>
    by_cases hn : c'.fields.length = n
    · simp only [hn, if_true, Except.ok.injEq, Ty.cls.injEq]
      exact ⟨fun h => ⟨h, h ▸ hn⟩, fun h => h.1⟩
    · simp only [hn, if_false, Ty.cls.injEq, reduceCtorEq, false_iff, not_and]
      rintro rfl
      exact hn
  | int | bool | null | ref _ | arrow _ | method _ => simp

mutual

/-- What is inferred for an expression is derivable where resolution has met it, if its findings
hold. -/
theorem Expr.typed_of_infer {r : Resolution} {env : Env} : ∀ {e : Expr} {t : Ty},
    r.HoldsAll (e.resolve env) → e.infer r = .ok t → e.Typed r env t
  | .int _ _, t, _, h | .bool _ _, t, _, h | .null _, t, _, h => by
    rw [Expr.infer] at h
    cases h
    constructor
  | .name id x pos, t, hold, h => by
    obtain ⟨entry, hlookup, huse⟩ := Env.useName_holds (hold _ List.mem_cons_self)
    simp only [Expr.infer, Except.bind_eq_ok, Resolution.useOf_eq_ok, huse] at h
    obtain ⟨_, ⟨⟩, hvalue⟩ := h
    exact .name hlookup huse hvalue
  | .binary op left right pos, t, hold, h => by
    rw [Expr.resolve, Resolution.HoldsAll.append] at hold
    simp only [Expr.infer, Except.bind_eq_ok] at h
    obtain ⟨a, ha, b, hb, hop⟩ := h
    exact .binary (Expr.typed_of_infer hold.1 ha) (Expr.typed_of_infer hold.2 hb) hop
  | .not e pos, t, hold, h => by
    rw [Expr.infer, Except.bind_eq_ok] at h
    obtain ⟨a, ha, h⟩ := h
    split at h
    next hbool =>
      cases h
      exact .not (Expr.typed_of_infer hold ha) hbool
    next => cases h
  | .ite c y n pos, t, hold, h => by
    rw [Expr.resolve, Resolution.HoldsAll.append, Resolution.HoldsAll.append] at hold
    rw [Expr.infer, Except.bind_eq_ok] at h
    obtain ⟨a, ha, h⟩ := h
    split at h
    next hbool =>
      simp only [Except.bind_eq_ok] at h
      obtain ⟨b, hb, b', hb', h⟩ := h
      split at h
      next hjoin =>
        cases h
        exact .ite (Expr.typed_of_infer hold.1.1 ha) hbool (Expr.typed_of_infer hold.1.2 hb)
          (Expr.typed_of_infer hold.2 hb') hjoin
      next => cases h
    next => cases h
  | .print e pos, t, hold, h => .print (Expr.typed_of_infer hold h)
  | .call id callee args pos, t, hold, h => by
    rw [Expr.resolve, Resolution.HoldsAll.cons] at hold
    obtain ⟨entry, hlookup, huse⟩ := Env.useName_holds hold.1
    simp only [Expr.infer, Except.bind_eq_ok, Resolution.useOf_eq_ok, Ty.asCallee_eq_ok, huse] at h
    obtain ⟨_, ⟨⟩, sig, ⟨hsig, hlength⟩, _, hcheck, ⟨⟩⟩ := h
    exact .call hlookup huse hsig (argsTyped_of_checkArgs hold.2 hcheck hlength.symm)
  | .send id receiver method args pos, t, hold, h => by
    rw [Expr.resolve, Resolution.HoldsAll.cons] at hold
    obtain ⟨entry, cls, record, member, hlookup, hty, hrecord, hmember, hsend⟩ :=
      Env.useMethod_holds hold.1
    simp only [Expr.infer, Except.bind_eq_ok, Resolution.sendOf_eq_ok, Ty.asCallee_eq_ok, hsend]
      at h
    obtain ⟨_, ⟨⟩, sig, ⟨hsig, hlength⟩, _, hcheck, ⟨⟩⟩ := h
    exact .send hlookup hty hrecord hmember hsend hsig
      (argsTyped_of_checkArgs hold.2 hcheck hlength.symm)
  | .new id cls args pos, t, hold, h => by
    rw [Expr.resolve, Resolution.HoldsAll.cons] at hold
    obtain ⟨record, hrecord, huse⟩ := Env.useClass_holds hold.1
    simp only [Expr.infer, Except.bind_eq_ok, Resolution.useOf_eq_ok, Ty.asClass_eq_ok, huse] at h
    obtain ⟨_, ⟨⟩, c, ⟨hty, hlength⟩, _, hcheck, ⟨⟩⟩ := h
    exact .new hrecord huse hty (argsTyped_of_checkArgs hold.2 hcheck hlength.symm)

/-- Arguments that pass the check are typed against the parameters. The check stops with the shorter
list, so the lengths are asked for too. -/
theorem argsTyped_of_checkArgs {r : Resolution} {env : Env} {wrong : Nat → TypingError} :
    ∀ {es : List Expr} {ts : List Ty} {n : Nat}, r.HoldsAll (resolveArgs env es) →
      checkArgs r wrong n es ts = .ok () → es.length = ts.length → ArgsTyped r env es ts
  | [], [], n, _, _, _ => .nil
  | e :: es, t :: ts, n, hold, h, hlength => by
    rw [resolveArgs, Resolution.HoldsAll.append] at hold
    rw [checkArgs, Except.bind_eq_ok] at h
    obtain ⟨a, ha, h⟩ := h
    split at h
    next hsub =>
      exact .cons (Expr.typed_of_infer hold.1 ha) hsub
        (argsTyped_of_checkArgs hold.2 h (Nat.succ.inj hlength))
    next => cases h

end

/-- A computation fails in its first step or, after that one has an answer, in the rest. -/
theorem Except.bind_eq_error {ε α β : Type} {x : Except ε α} {f : α → Except ε β} {e : ε} :
    (x >>= f) = .error e ↔ x = .error e ∨ ∃ a, x = .ok a ∧ f a = .error e := by
  cases x <;> simp [bind, Except.bind]

/-- An operator refuses its operands for their types only. -/
theorem BinOp.infer_ne_unresolved {h : Hierarchy} {op : BinOp} {a b : Ty} {pos : SourcePos} :
    op.infer h a b pos ≠ .error .unresolved := by
  unfold BinOp.infer
  repeat' split
  all_goals nofun

/-- A name that is bound is refused as a value for its type only. -/
theorem Ty.asValue_ne_unresolved {t : Ty} {x : String} {pos : SourcePos} :
    t.asValue x pos ≠ .error .unresolved := by
  cases t <;> nofun

/-- A name that is bound is refused as a callee for its type or its arity only. -/
theorem Ty.asCallee_ne_unresolved {t : Ty} {x : String} {n : Nat} {pos : SourcePos} :
    t.asCallee x n pos ≠ .error .unresolved := by
  unfold Ty.asCallee
  repeat' split
  all_goals nofun

/-- A name that is bound is refused as a class for its type or its number of fields only. -/
theorem Ty.asClass_ne_unresolved {t : Ty} {x : String} {n : Nat} {pos : SourcePos} :
    t.asClass x n pos ≠ .error .unresolved := by
  unfold Ty.asClass
  repeat' split
  all_goals
    intro h
    cases h

/-- Findings that hold serve the nodes of an expression. -/
theorem Expr.served_of_holds {r : Resolution} {env : Env} (hvalid : env.classes.Valid) {e : Expr}
    (hold : r.HoldsAll (e.resolve env)) : AllServed r e.nodes := by
  intro n hn
  obtain ⟨f, hf, hdec⟩ := (e.decorated hvalid hold.errorFree).covers n hn
  have hholds := hold f hf
  cases hdec with
  | name | call | send | fn => exact ⟨_, hholds⟩
  | new hty => exact ⟨_, _, hholds, hty⟩
  | typed | var => trivial
  | cls => exact absurd hn (e.cls_notMem_nodes _)

mutual

/-- What resolution serves is not refused for being unbound. -/
theorem Expr.infer_ne_unresolved {r : Resolution} :
    ∀ e : Expr, AllServed r e.nodes → e.infer r ≠ .error .unresolved
  | .int _ _, _ | .bool _ _, _ | .null _, _ => by
    rw [Expr.infer]
    nofun
  | .name id x pos, hserved => by
    obtain ⟨b, huse⟩ := hserved _ List.mem_cons_self
    rw [Expr.infer, Resolution.useOf_eq_ok.mpr huse]
    exact Ty.asValue_ne_unresolved
  | .binary op left right pos, hserved => by
    rw [Expr.nodes, AllServed.append] at hserved
    simp only [Expr.infer, ne_eq, Except.bind_eq_error, not_or, not_exists, not_and]
    exact ⟨left.infer_ne_unresolved hserved.1, fun a _ =>
      ⟨right.infer_ne_unresolved hserved.2, fun b _ => BinOp.infer_ne_unresolved⟩⟩
  | .not e pos, hserved => by
    simp only [Expr.infer, ne_eq, Except.bind_eq_error, not_or, not_exists, not_and]
    refine ⟨e.infer_ne_unresolved hserved, fun a _ => ?_⟩
    split <;> nofun
  | .ite c y n pos, hserved => by
    rw [Expr.nodes, AllServed.append, AllServed.append] at hserved
    simp only [Expr.infer, ne_eq, Except.bind_eq_error, not_or, not_exists, not_and]
    refine ⟨c.infer_ne_unresolved hserved.1.1, fun a _ => ?_⟩
    split
    · simp only [Except.bind_eq_error, not_or, not_exists, not_and]
      refine ⟨y.infer_ne_unresolved hserved.1.2, fun b _ =>
        ⟨n.infer_ne_unresolved hserved.2, fun b' _ => ?_⟩⟩
      split <;> nofun
    · nofun
  | .print e pos, hserved => by
    rw [Expr.infer]
    exact e.infer_ne_unresolved hserved
  | .call id callee args pos, hserved => by
    rw [Expr.nodes, AllServed.cons] at hserved
    obtain ⟨b, huse⟩ := hserved.1
    simp only [Expr.infer, ne_eq, Except.bind_eq_error, not_or, not_exists, not_and]
    rw [Resolution.useOf_eq_ok.mpr huse]
    exact ⟨nofun, fun b _ =>
      ⟨Ty.asCallee_ne_unresolved, fun sig _ => ⟨checkArgs_ne_unresolved args hserved.2, nofun⟩⟩⟩
  | .send id receiver method args pos, hserved => by
    rw [Expr.nodes, AllServed.cons] at hserved
    obtain ⟨d, hsend⟩ := hserved.1
    simp only [Expr.infer, ne_eq, Except.bind_eq_error, not_or, not_exists, not_and]
    rw [Resolution.sendOf_eq_ok.mpr hsend]
    exact ⟨nofun, fun b _ =>
      ⟨Ty.asCallee_ne_unresolved, fun sig _ => ⟨checkArgs_ne_unresolved args hserved.2, nofun⟩⟩⟩
  | .new id cls args pos, hserved => by
    rw [Expr.nodes, AllServed.cons] at hserved
    obtain ⟨b, c, huse, -⟩ := hserved.1
    simp only [Expr.infer, ne_eq, Except.bind_eq_error, not_or, not_exists, not_and]
    rw [Resolution.useOf_eq_ok.mpr huse]
    exact ⟨nofun, fun b _ =>
      ⟨Ty.asClass_ne_unresolved, fun sig _ => ⟨checkArgs_ne_unresolved args hserved.2, nofun⟩⟩⟩

/-- Arguments that are served are not refused for being unbound either. -/
theorem checkArgs_ne_unresolved {r : Resolution} {wrong : Nat → TypingError} :
    ∀ (es : List Expr) {ts : List Ty} {n : Nat}, AllServed r (argNodes es) →
      checkArgs r wrong n es ts ≠ .error .unresolved
  | [], _, _, _ => by
    rw [checkArgs]
    · nofun
    · nofun
  | _ :: _, [], _, _ => by
    rw [checkArgs]
    · nofun
    · nofun
  | e :: es, t :: ts, n, hserved => by
    rw [argNodes, AllServed.append] at hserved
    simp only [checkArgs, ne_eq, Except.bind_eq_error, not_or, not_exists, not_and]
    refine ⟨e.infer_ne_unresolved hserved.1, fun a _ => ?_⟩
    split
    · exact checkArgs_ne_unresolved es hserved.2
    · nofun

end

/-- Of an expression that is served, nothing is let pass without a type that fits. -/
theorem Expr.expect_eq_nil_iff {r : Resolution} {e : Expr} {t : Ty} {mismatch : TypingError}
    (hserved : AllServed r e.nodes) :
    e.expect r t mismatch = [] ↔ ∃ a, e.infer r = .ok a ∧ r.hierarchy.isSubtype a t = true := by
  unfold Expr.expect
  cases hinfer : e.infer r with
  | ok a => simp
  | error refusal =>
    cases refusal with
    | violation => simp [Refusal.violations]
    | unresolved => exact absurd hinfer (e.infer_ne_unresolved hserved)

/-- An expression about which the checker has nothing to say fits the type that is expected. -/
theorem Expr.fits_of_expect {r : Resolution} {env : Env} {e : Expr} {t : Ty}
    {mismatch : TypingError} (hvalid : env.classes.Valid) (hold : r.HoldsAll (e.resolve env))
    (h : e.expect r t mismatch = []) : e.Fits r env t := by
  obtain ⟨a, hinfer, hsub⟩ := (Expr.expect_eq_nil_iff (Expr.served_of_holds hvalid hold)).mp h
  exact ⟨a, Expr.typed_of_infer hold hinfer, hsub⟩

end Stackling
