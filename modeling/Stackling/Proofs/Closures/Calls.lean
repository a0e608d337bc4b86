import Stackling.Proofs.Closures.Expressions

/-!
# Code of calls with function values

A call pushes the arguments and the frame in which the function is declared, be it named or the
value of a variable, and jumps to its code. What the code there does is a premise here (`CallSim`),
for calls that are nested less deep.
-/

namespace Stackling.Lexical

variable {r : Resolution} {w : World} {escapes : Prop} {n m : Nat} {call : Call} {s : Site}
  {σ : Tally} {pc : Nat} {temps : List Int32} {c : Config} {φ φ' : Frames} {a t : Ty}
  {pos : SourcePos}

/-! ### Arguments -/

/-- Arguments of given types as they lie on the stack, the first one on top. -/
inductive ArgsLaid (r : Resolution) (w : World) (escapes : Prop) (φ : Frames) (n : Nat) :
    List Datum → List Ty → List Int32 → Prop
  | nil : ArgsLaid r w escapes φ n [] [] []
  | cons {d : Datum} {ds : List Datum} {t : Ty} {ts : List Ty} {words more : List Int32}
      (hd : Laid r w escapes φ n (.value d t words)) (hds : ArgsLaid r w escapes φ n ds ts more) :
      ArgsLaid r w escapes φ n (d :: ds) (t :: ts) (words ++ more)

namespace ArgsLaid

variable {ds : List Datum} {ts ts' : List Ty} {words : List Int32}

theorem later (h : ArgsLaid r w escapes φ n ds ts words) (hlater : Later escapes φ n φ' m) :
    ArgsLaid r w escapes φ' m ds ts words := by
  induction h with
  | nil => exact .nil
  | cons hd _ ih => exact .cons (hd.later hlater) ih

theorem widen (h : ArgsLaid r w escapes φ n ds ts words)
    (hwidens : List.Forall₂ (fun t' t => Widens r.hierarchy t t') ts' ts) :
    ArgsLaid r w escapes φ n ds ts' words := by
  induction h generalizing ts' with
  | nil =>
    cases hwidens
    exact .nil
  | cons hd _ ih =>
    cases hwidens with
    | cons ht hts => exact .cons (hd.widen ht) (ih hts)

theorem length_eq (h : ArgsLaid r w escapes φ n ds ts words) : ds.length = ts.length := by
  induction h with
  | nil => rfl
  | cons _ _ ih => exact congrArg (· + 1) ih

theorem length_words (h : ArgsLaid r w escapes φ n ds ts words) :
    words.length = totalCells Ty.cells ts := by
  induction h with
  | nil => rfl
  | cons hd _ ih => rw [List.length_append, hd.length_eq_cells, ih, totalCells_cons]

end ArgsLaid

/-- The machine evaluates the arguments of a call. -/
def ArgsSimulated (r : Resolution) (w : World) (escapes : Prop) (n : Nat) (call : Call) (s : Site)
    (es : List Expr) (ts : List Ty) : Prop :=
  ∀ ⦃σ : Tally⦄ ⦃pc : Nat⦄ ⦃temps : List Int32⦄ ⦃c : Config⦄ ⦃code : List Instr⦄,
    (∃ q q', argumentCode (w.context r false) es q = .ok (code, q')) → w.Carries pc code →
    At r w escapes s σ pc temps c →
    Sim w escapes n (evalArgs call (some s.live) s.scope es σ) c fun ds σ' c' =>
      ∃ words, σ.next ≤ σ'.next ∧ ArgsLaid r w escapes s.frames σ'.next ds ts words ∧
        At r w escapes s σ' (pc + Code.size code) (words ++ temps) c'

theorem argsSimulated_nil : ArgsSimulated r w escapes n call s [] [] := by
  rintro σ pc temps c code ⟨q, q', hcode⟩ hcarries hat
  obtain ⟨rfl, -⟩ := argumentCode_nil.mp hcode
  rw [evalArgs]
  exact ⟨0, c, .refl w _, [], Nat.le_refl _, .nil, hat⟩

theorem argsSimulated_cons {e : Expr} {es : List Expr} {ts : List Ty}
    (he : Simulated r w escapes n call s e a) (hsub : r.hierarchy.isSubtype a t)
    (hes : ArgsSimulated r w escapes n call s es ts) :
    ArgsSimulated r w escapes n call s (e :: es) (t :: ts) := by
  rintro σ pc temps c code ⟨q, q', hcode⟩ hcarries hat
  obtain ⟨code₁, s₁, code₂, hcode₁, hcode₂, rfl⟩ := argumentCode_cons.mp hcode
  simp only [Platform.carries_append, Code.size_append, ← Nat.add_assoc] at hcarries ⊢
  rw [evalArgs]
  refine (hes ⟨_, _, hcode₁⟩ hcarries.1 hat).bind ?_
  rintro ds σ₁ c₁ ⟨more, hle₁, hds, hat₁⟩
  refine (he ⟨_, _, hcode₂⟩ hcarries.2 hat₁).bind ?_
  rintro d σ₂ c₂ ⟨words, hle₂, hd, hat₂⟩
  rw [← List.append_assoc] at hat₂
  exact ⟨0, c₂, .refl w _, _, Nat.le_trans hle₁ hle₂,
    .cons (hd.widen (.sub hsub)) (hds.later (.of_le hle₂)), hat₂⟩

/-! ### Calls -/

/-- Calls are simulated from the entry of a function to its return. -/
def CallSim (r : Resolution) (w : World) (escapes : Prop) (n : Nat) (call : Call) : Prop :=
  ∀ ⦃f : FunDecl⦄ ⦃env : Env⦄ ⦃b : Bound⦄ ⦃ρ : Scope⦄ ⦃F : Int32⦄ ⦃φ : Frames⦄ ⦃ids : List Nat⦄
    ⦃σ : Tally⦄ ⦃args : List Datum⦄ ⦃words st : List Int32⦄ ⦃entry target : Nat⦄
    ⦃back fp tm : Int32⦄ ⦃out : Array Int32⦄, f.Formed r escapes env →
    Laid r w escapes φ σ.next (.scope env (b :: ρ) b.owner F) →
    (∀ id, id ∈ ids ↔ (φ id).isSome) → (∀ id st', φ id = some st' → st' <:+ st) →
    (∀ id, (φ id).isSome → id < σ.next) →
    ArgsLaid r w escapes φ σ.next args f.signature.params words → w.Placed r false f entry →
    target < w.image.ops.size → Printed σ.output out →
    Sim w escapes n (call (some ids) f (b :: ρ) args σ)
      ⟨entry, F :: (words ++ back :: st), [], fp, Int32.ofNat target, tm, out, none⟩ fun d σ' c' =>
        ∃ result ra' tm' out', σ.next ≤ σ'.next ∧
          Laid r w escapes φ σ'.next (.value d f.result.ty result) ∧
          Printed σ'.output out' ∧ c' = ⟨target, result ++ st, [], back, ra', tm', out', none⟩

theorem simulated_call (hcall : CallSim r w escapes n call) {id : NodeId} {callee : String}
    {args : List Expr} {entry : Entry} {sig : Signature}
    (hlookup : s.env.scopes.lookup? callee = some entry)
    (huse : r.uses[id]? = some ⟨entry, s.env.scopes.depth⟩) (hsig : entry.ty.signature? = some sig)
    (hargs : ArgsSimulated r w escapes n call s args sig.params) :
    Simulated r w escapes n call s (.call id callee args pos) sig.result := by
  rintro σ pc temps c code ⟨q, q', hcode⟩ hcarries hat
  obtain ⟨b, code₁, hb, hcode₁, rfl⟩ := Expr.code_call.mp hcode
  rw [Platform.context_resolution, huse] at hb
  cases hb
  simp only [Platform.carries_append, List.cons_append, Platform.carries_bare, Code.size_append,
    Code.size_bare, ← Nat.add_assoc] at hcarries ⊢
  rw [eval]
  obtain ⟨c₁, hreach, hat₁⟩ :=
    hat.step _ (s.frame :: temps) fun _ tm _ => ⟨tm, Platform.reach_lfp hcarries.1⟩
  refine .after hreach ((hargs ⟨_, _, hcode₁⟩ hcarries.2.1.1 hat₁).bind ?_)
  rintro ds σ₁ c₂ ⟨words, hle, hds, ra, tm, out, hm, hout, rfl⟩
  rcases hm.scope.lookup hm.live hm.below hm.mem_live hlookup with
    ⟨hescapes, hstale⟩ | ⟨d, cells, F', hfind, hd, -, hchain, hcells⟩
  · rw [hstale]
    exact hescapes
  · rw [hfind]
    obtain ⟨f, env, b, ρ, a, F, rfl, rfl, hty, hscope, hfun, hplaced, hwidens⟩ :=
      hd.exists_closure hsig
    simp only [hty, Ty.isMethod, Bool.false_eq_true, if_false, Platform.carries_append,
      Platform.carries_bare] at hcarries ⊢
    have hup : s.base <:+ words ++ s.frame :: temps ++ s.base := List.suffix_append _ _
    have hcells := (hcells.mono hup).pair
    refine .after (reach_frameAccess hcarries.2.1.2.1 (hchain.mono hup (List.prefix_refl _))) ?_
    refine .after ((Platform.reach_loadClosure hcarries.2.2.1.1 hcells.1 hcells.2).trans
      (World.reach_js hcarries.2.2.2.1 hplaced.lt)) ?_
    have hstack : words ++ s.frame :: temps ++ s.base = words ++ s.frame :: (temps ++ s.base) := by
      simp
    have htemps := fun id st' (hst : s.frames id = some st') =>
      (hm.below id st' hst).trans (List.suffix_append temps _)
    rw [hstack]
    refine (hcall hfun hscope hm.live htemps hm.fresh (hds.widen hwidens.1) hplaced
      (Platform.carries_nil.mp hcarries.2.2.2.2) hout).mono ?_
    rintro d σ₂ c₃ - ⟨result, ra', tm', out', hle', hresult, hout', rfl⟩
    exact ⟨result, Nat.le_trans hle hle', hresult.widen hwidens.2, ra', tm', out', hm.of_le hle',
      hout', by rw [List.append_assoc]; rfl⟩

/-! ### All expressions -/

mutual

/-- Every typed expression is simulated. -/
theorem simulated (hfree : s.env.ClassFree) (hcall : CallSim r w escapes n call) :
    (e : Expr) → {t : Ty} → e.Typed r s.env t → Simulated r w escapes n call s e t
  | .int .., _, .int => simulated_iff.mpr Setting.simulated_int
  | .bool .., _, .bool => simulated_iff.mpr Setting.simulated_bool
  | .null .., _, .null => simulated_iff.mpr Setting.simulated_null
  | .name .., _, .name hlookup huse hvalue => simulated_name hlookup huse hvalue
  | .binary _ left right _, _, .binary hleft hright hop => by
    have hleft := simulated_iff.mp (simulated hfree hcall left hleft)
    have hright := simulated_iff.mp (simulated hfree hcall right hright)
    exact simulated_iff.mpr (Setting.simulated_binary hleft hright hop)
  | .not e _, _, .not he hbool => by
    have he := simulated_iff.mp (simulated hfree hcall e he)
    exact simulated_iff.mpr (Setting.simulated_not he hbool)
  | .ite cond yes no _, _, .ite hcond hbool hyes hno hjoin => by
    have hcond := simulated_iff.mp (simulated hfree hcall cond hcond)
    have hyes := simulated_iff.mp (simulated hfree hcall yes hyes)
    have hno := simulated_iff.mp (simulated hfree hcall no hno)
    exact simulated_iff.mpr (Setting.simulated_ite hcond hbool hyes hno hjoin)
  | .print e _, _, .print he => by
    have he := simulated_iff.mp (simulated hfree hcall e he)
    exact simulated_iff.mpr (Setting.simulated_print he)
  | .call _ _ args _, _, .call hlookup huse hsig hargs =>
    simulated_call hcall hlookup huse hsig (argsSimulated hfree hcall args hargs)
  | .send .., _, .send _ _ hrecord _ _ _ _ | .new .., _, .new hrecord _ _ _ => by
    rw [hfree] at hrecord
    cases hrecord

theorem argsSimulated (hfree : s.env.ClassFree) (hcall : CallSim r w escapes n call) :
    (es : List Expr) → {ts : List Ty} → ArgsTyped r s.env es ts →
    ArgsSimulated r w escapes n call s es ts
  | [], _, .nil => argsSimulated_nil
  | e :: es, _, .cons he hsub hes =>
    argsSimulated_cons (simulated hfree hcall e he) hsub (argsSimulated hfree hcall es hes)

end

end Stackling.Lexical
