import Stackling.Proofs.Closures.Expressions
import Stackling.Proofs.Correctness

/-!
# The two evaluators agree

One reference evaluator has classes, the other one has function values. On programs that have
neither, both give the same meaning: if the first one has a value, the second one has it too, under
the same bound on nested calls and with the same output, and if the first one stops, the second one
stops for the same reason.

Only where the first evaluator is stuck they may differ. The name of a function is a value for the
second one alone.
-/

namespace Stackling.Lexical

variable {α β γ δ : Type} {R : α → β → Prop} {R' : γ → δ → Prop}

/-! ### Computations -/

/-- The second result is the same as the first one, with answers that are related and the same
output, unless the first one is stuck. -/
def Agree (R : α → β → Prop) : Except Stop (α × Store) → Except Halt (β × Tally) → Prop
  | .ok (a, σ), y => ∃ b τ, y = .ok (b, τ) ∧ R a b ∧ τ.output = σ.output.map some
  | .error stop, y => stop = .stuck ∨ y = .error (.stop stop)

def Agrees (R : α → β → Prop) (x : Stackling.EvalM α) (y : EvalM β) : Prop :=
  ∀ σ τ, τ.output = σ.output.map some → Agree R (x σ) (y τ)

namespace Agrees

theorem pure {a : α} {b : β} (h : R a b) : Agrees R (pure a) (pure b) :=
  fun _ τ houtput => ⟨b, τ, rfl, h, houtput⟩

theorem stop (stop : Stop) : Agrees R (throw stop) (throw (.stop stop)) := fun _ _ _ => .inr rfl

theorem stuck (y : EvalM β) : Agrees R (throw .stuck) y := fun _ _ _ => .inl rfl

theorem bind {x : Stackling.EvalM α} {y : EvalM β} {f : α → Stackling.EvalM γ} {g : β → EvalM δ}
    (h : Agrees R x y) (hnext : ∀ a b, R a b → Agrees R' (f a) (g b)) :
    Agrees R' (x >>= f) (y >>= g) := by
  intro σ τ houtput
  have h := h σ τ houtput
  change Agree R' (x σ >>= fun p => f p.1 p.2) (y τ >>= fun p => g p.1 p.2)
  rcases hx : x σ with stop | ⟨a, σ'⟩
  all_goals rw [hx] at h
  · rcases h with hstuck | hstop
    · exact .inl hstuck
    · rw [hstop]
      exact .inr rfl
  · obtain ⟨b, τ', hy, hab, houtput'⟩ := h
    rw [hy]
    exact hnext a b hab σ' τ' houtput'

/-- A number that is drawn does not matter. -/
theorem invocation {x : Stackling.EvalM α} {g : Nat → EvalM β} (h : ∀ id, Agrees R x (g id)) :
    Agrees R x (invocation >>= g) :=
  fun σ τ houtput => h τ.next σ { τ with next := τ.next + 1 } houtput

end Agrees

/-- The value is the same one. -/
def IsBase (v : Value) (d : Datum) : Prop := d = .base v

theorem Agrees.operate (op : BinOp) (x y : Value) :
    Agrees IsBase (op.apply x y) (operate op (.base x) (.base y)) := by
  intro σ τ houtput
  have hstore := BinOp.apply_eq op x y σ
  rcases happly : op.apply x y {} with stop | ⟨v, σ₀⟩
  · rw [happly] at hstore
    rw [hstore]
    exact .inr (operate_error τ happly)
  · rw [happly] at hstore
    rw [hstore]
    exact ⟨.base v, τ, operate_ok τ happly, rfl, houtput⟩

/-! ### Bindings -/

/-- A name stands for the same value, or for the same function. -/
inductive Binds (r : Resolution) : String × Slot → Bound → Prop
  | value {x : String} {owner : Nat} {v : Value} : Binds r (x, .value v) (.value x owner (.base v))
  | function {f : FunDecl} {owner : Nat} {env : Env} (htyped : f.Typed r env)
      (hfree : env.ClassFree) : Binds r (f.name, .function f) (.function f owner)

variable {r : Resolution} {ρ : Bindings} {s : Scope}

theorem Binds.name_eq {b : String × Slot} {b' : Bound} (h : Binds r b b') : b'.name = b.1 := by
  cases h <;> rfl

/-- A name is found in both bindings or in neither. -/
theorem find_binds (h : List.Forall₂ (Binds r) ρ s) (x : String) :
    find? x ρ = none ∨ ∃ slot ρ' b s', find? x ρ = some (slot, (x, slot) :: ρ') ∧
      find none x s = .ok (b.datum s') ∧ Binds r (x, slot) b ∧ List.Forall₂ (Binds r) ρ' s' := by
  induction h with
  | nil => exact .inl rfl
  | @cons b b' ρ s hb hrest ih =>
    have hallows : Watch.Allows none b'.owner := by simp [Watch.Allows]
    rw [find?, find, if_pos hallows, hb.name_eq]
    by_cases hx : b.1 = x
    · subst hx
      rw [if_pos rfl, if_pos rfl]
      exact .inr ⟨b.2, ρ, b', s, rfl, rfl, hb, hrest⟩
    · rw [if_neg hx, if_neg hx]
      exact ih

theorem binds_bindParams (id : Nat) {ps : List TypedName} {vs : List Value}
    (h : List.Forall₂ (Binds r) ρ s) :
    List.Forall₂ (Binds r) (Stackling.bindParams ps vs ρ)
      (bindParams id ps (vs.map .base) s) := by
  induction ps generalizing ρ s vs with
  | nil => exact h
  | cons p ps ih =>
    cases vs with
    | nil => exact h
    | cons v vs => exact ih (.cons .value h)

/-! ### Expressions -/

/-- Calls of the same function with the same values. -/
def CallAgrees (r : Resolution) (call : Stackling.Call) (call' : Call) : Prop :=
  ∀ ⦃f : FunDecl⦄ ⦃env : Env⦄ ⦃ρ : Bindings⦄ ⦃s : Scope⦄ (vs : List Value), f.Typed r env →
    env.ClassFree → List.Forall₂ (Binds r) ρ s →
    Agrees IsBase (call f ρ vs) (call' none f s (vs.map .base))

variable {call : Stackling.Call} {call' : Call} {env : Env}

/-- Operators take the values of their operands in the same order. Only a disjunction may leave its
right operand alone. -/
theorem binary_agrees {op : BinOp} {left right : Expr} {pos : SourcePos}
    (hleft : Agrees IsBase (left.eval call ρ) (eval call' none s left))
    (hright : Agrees IsBase (right.eval call ρ) (eval call' none s right)) :
    Agrees IsBase ((Expr.binary op left right pos).eval call ρ)
      (eval call' none s (.binary op left right pos)) := by
  have hor (v : Value) : Agrees IsBase (right.eval call ρ >>= fun v' => BinOp.apply .or v v')
      (eval call' none s right >>= fun d => operate .or (.base v) d) := by
    refine .bind hright ?_
    rintro v' _ rfl
    exact .operate .or v v'
  cases op with
  | or =>
    simp only [Expr.eval, eval]
    refine .bind hleft ?_
    rintro v _ rfl
    cases v with
    | bool p =>
      cases p with
      | true => exact .pure rfl
      | false => exact hor (.bool false)
    | int | null | object => exact hor _
  | greaterEqual =>
    simp only [Expr.eval, eval]
    refine .bind hright ?_
    rintro v' _ rfl
    refine .bind hleft ?_
    rintro v _ rfl
    exact .operate .greaterEqual v v'
  | add | sub | mul | div | and | equal | lessEqual =>
    simp only [Expr.eval, eval]
    refine .bind hleft ?_
    rintro v _ rfl
    refine .bind hright ?_
    rintro v' _ rfl
    exact .operate _ v v'

mutual

/-- Both evaluators agree on every typed expression where there are no classes. -/
theorem eval_agrees (hcall : CallAgrees r call call') (hfree : env.ClassFree)
    (hs : List.Forall₂ (Binds r) ρ s) : (e : Expr) → {t : Ty} → e.Typed r env t →
    Agrees IsBase (e.eval call ρ) (eval call' none s e)
  | .int .., _, _ | .bool .., _, _ | .null .., _, _ => by
    simp only [Expr.eval, eval]
    exact .pure rfl
  | .name _ x _, _, _ => by
    simp only [Expr.eval, eval]
    rcases find_binds hs x with hnone | ⟨slot, ρ', b, s', hfind, hfind', hb, -⟩
    · rw [hnone]
      exact .stuck _
    · rw [hfind, hfind']
      cases hb with
      | value => exact .pure rfl
      | function => exact .stuck _
  | .binary op left right pos, _, .binary hleft hright _ =>
    binary_agrees (eval_agrees hcall hfree hs left hleft) (eval_agrees hcall hfree hs right hright)
  | .not e _, _, .not he _ => by
    simp only [Expr.eval, eval]
    refine .bind (eval_agrees hcall hfree hs e he) ?_
    rintro v _ rfl
    cases v with
    | bool p => exact .pure rfl
    | int | null | object => exact .stuck _
  | .ite cond yes no _, _, .ite hcond _ hyes hno _ => by
    have hyes := eval_agrees hcall hfree hs yes hyes
    have hno := eval_agrees hcall hfree hs no hno
    simp only [Expr.eval, eval]
    refine .bind (eval_agrees hcall hfree hs cond hcond) ?_
    rintro v _ rfl
    cases v with
    | bool p =>
      cases p with
      | true => exact hyes
      | false => exact hno
    | int | null | object => exact .stuck _
  | .print e _, _, .print he => by
    simp only [Expr.eval, eval]
    refine .bind (eval_agrees hcall hfree hs e he) ?_
    rintro v _ rfl σ τ houtput
    refine ⟨.base v, { τ with output := τ.output.push (some v.word) }, rfl, rfl, ?_⟩
    rw [houtput, Array.map_push]
  | .call _ callee args _, _, .call _ _ _ hargs => by
    simp only [Expr.eval, eval]
    refine .bind (evalArgs_agrees hcall hfree hs args hargs) ?_
    rintro vs _ rfl
    rcases find_binds hs callee with hnone | ⟨slot, ρ', b, s', hfind, hfind', hb, hs'⟩
    · rw [hnone]
      exact .stuck _
    · rw [hfind, hfind']
      cases hb with
      | value => exact .stuck _
      | function htyped hfree' => exact hcall vs htyped hfree' (.cons (.function htyped hfree') hs')
  | .send .., _, .send _ _ hrecord _ _ _ _ | .new .., _, .new hrecord _ _ _ => by
    rw [hfree] at hrecord
    cases hrecord

theorem evalArgs_agrees (hcall : CallAgrees r call call') (hfree : env.ClassFree)
    (hs : List.Forall₂ (Binds r) ρ s) : (es : List Expr) → {ts : List Ty} → ArgsTyped r env es ts →
    Agrees (fun vs ds => ds = vs.map .base) (Stackling.evalArgs call ρ es)
      (evalArgs call' none s es)
  | [], _, _ => by
    simp only [Stackling.evalArgs, evalArgs]
    exact .pure rfl
  | e :: es, _, .cons he _ hes => by
    simp only [Stackling.evalArgs, evalArgs]
    refine .bind (evalArgs_agrees hcall hfree hs es hes) ?_
    rintro vs _ rfl
    refine .bind (eval_agrees hcall hfree hs e he) ?_
    rintro v _ rfl
    exact .pure rfl

end

/-! ### Declarations and calls -/

theorem evalDecls_agrees (hcall : CallAgrees r call call') (hr : r.ClassFree) (id : Nat)
    {ds : List Decl} {env env' : Env} {ρ : Bindings} {s : Scope} (hfree : env.ClassFree)
    (hs : List.Forall₂ (Binds r) ρ s) (htyped : DeclsTyped r env ds env') :
    Agrees (List.Forall₂ (Binds r)) (Stackling.evalDecls call ρ ds)
      (evalDecls call' none id s ds) ∧ env'.ClassFree := by
  induction ds generalizing env ρ s with
  | nil =>
    cases htyped
    exact ⟨.pure hs, hfree⟩
  | cons d ds ih =>
    cases htyped with
    | @var _ _ d _ scopes _ hinit _ hrest =>
      obtain ⟨t, hinit, -⟩ := hinit
      have hrest {v : Value} :=
        @ih (env.afterLocal scopes 1) ((d.name, .value v) :: ρ) (.value d.name id (.base v) :: s)
          hfree (.cons .value hs) hrest
      refine ⟨.bind (eval_agrees hcall hfree hs d.init hinit) ?_, (@hrest .null).2⟩
      rintro v _ rfl
      exact hrest.1
    | @fn _ _ f _ scopes _ hfun hrest =>
      exact @ih (env.afterLocal scopes 2) _ _ hfree (.cons (.function hfun hfree) hs) hrest
    | cls hclass =>
      have hrecord := hclass.record
      rw [hr] at hrecord
      cases hrecord

theorem callAt_agrees (hr : r.ClassFree) (depth : Nat) :
    CallAgrees r (Stackling.callAt depth) (callAt depth) := by
  induction depth with
  | zero =>
    intro f env ρ s vs _ _ _
    exact .stop .tooDeep
  | succ depth ih =>
    intro f env ρ s vs htyped hfree hs
    cases htyped with
    | @mk _ inner last _ _ hparams hdecls hbody =>
      obtain ⟨t, hbody, -⟩ := hbody
      have hinner : inner.ClassFree := fun name => hparams.classes ▸ hfree name
      simp only [Stackling.callAt, callAt, List.length_map]
      split
      · refine .invocation fun id => ?_
        obtain ⟨hagrees, hlast⟩ :=
          evalDecls_agrees ih hr id hinner (binds_bindParams id hs) hdecls
        exact .bind hagrees fun ρ' s' hs' => eval_agrees ih hlast hs' f.body hbody
      · exact .stop .stuck

end Lexical

namespace Program

open Lexical (Agree IsBase)

variable {p : Program} {t : Ty}

/-- Both evaluators agree on a typed program without classes, unless the first one is stuck. -/
theorem Typed.agree {r : Resolution} (h : p.Typed r t) (hr : r.ClassFree) (depth : Nat) :
    Agree IsBase (p.eval depth) (p.lexical depth none) := by
  obtain ⟨env, hdecls, hbody⟩ := h
  have hcall := Lexical.callAt_agrees hr depth
  obtain ⟨hagrees, hfree⟩ := Lexical.evalDecls_agrees hcall hr 0 Env.classFree_global .nil hdecls
  have hprogram := hagrees.bind fun ρ s hs => Lexical.eval_agrees hcall hfree hs p.body hbody
  exact hprogram {} {} Array.map_empty.symm

/-- The evaluation of an accepted program is never stuck. -/
theorem Accepted.eval_ne_stuck (h : p.Accepted) (hbuilt : p.Built) (htyped : p.Typed p.resolve t)
    (harrow : t.isArrow = false) (depth : Nat) : p.eval depth ≠ .error .stuck := by
  intro heval
  obtain ⟨w, hw⟩ := h.exists_worlds hbuilt
  have hsim := simulated (linked p) htyped harrow (fun i => (hw i).1) (n := depth)
  rw [heval] at hsim
  exact hsim

/-- A program without classes and function values has one meaning: both evaluators give it the
same value and the same output, both find that it divides by zero, or for both its calls are nested
too deep for the bound. -/
theorem denotes_iff_evaluates (hdistinct : p.Distinct) (hclasses : p.ClassFree)
    (hplain : p.FirstOrder) (haccepted : p.Accepted)
    (hresult : (p.check p.resolve).result = some t) (harrow : t.isArrow = false) :
    (∀ d trace, p.Denotes d trace ↔
      ∃ v out, d = .base v ∧ trace = out.map some ∧ p.Evaluates v out) ∧
    (∀ depth stop, p.lexical depth none = .error (.stop stop) ↔ p.eval depth = .error stop) := by
  have htyped := haccepted.typed_of_result hdistinct hplain hresult
  have hagree := htyped.agree (hclasses.resolve haccepted.1)
  have hstuck := haccepted.eval_ne_stuck hdistinct.built htyped harrow
  constructor
  · intro d trace
    constructor
    · rintro ⟨depth, τ, hlexical, rfl⟩
      have hagree := hagree depth
      rcases heval : p.eval depth with stop | ⟨v, σ⟩
      all_goals rw [heval] at hagree
      · rcases hagree with rfl | hstop
        · exact absurd heval (hstuck depth)
        · rw [hlexical] at hstop
          cases hstop
      · obtain ⟨_, τ', hlexical', rfl, houtput⟩ := hagree
        rw [hlexical] at hlexical'
        cases hlexical'
        exact ⟨v, σ.output, rfl, houtput, depth, σ, heval, rfl⟩
    · rintro ⟨v, _, rfl, rfl, depth, σ, heval, rfl⟩
      have hagree := hagree depth
      rw [heval] at hagree
      obtain ⟨_, τ, hlexical, rfl, houtput⟩ := hagree
      exact ⟨depth, τ, hlexical, houtput⟩
  · intro depth stop
    have hagree := hagree depth
    rcases heval : p.eval depth with stop' | ⟨v, σ⟩
    all_goals rw [heval] at hagree
    · rcases hagree with rfl | hstop
      · exact absurd heval (hstuck depth)
      · rw [hstop]
        simp [eq_comm]
    · obtain ⟨_, τ, hlexical, rfl, -⟩ := hagree
      simp [hlexical]

end Program

end Stackling
