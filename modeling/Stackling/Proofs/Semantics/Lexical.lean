import Stackling.Proofs.Semantics.Eval

/-!
# Functions as values

A reference evaluator for programs without classes in which functions are values. A function value
comes with the bindings in force where the function is declared, and a call of it sees them,
wherever the value has got to.

Bindings are marked with the invocation that has made them. An evaluation can be watched: it then
stops as soon as a name is looked for among the bindings of an invocation that has ended, or behind
them. Nothing else is different, so a watched evaluation that does not stop there is the lexical
one.
-/

namespace Stackling.Lexical

mutual

inductive Datum where
  | base (v : Value)
  | closure (f : FunDecl) (scope : List Bound)

/-- A name with what it stands for. Its owner is the number of the invocation that has declared
it. -/
inductive Bound where
  | value (name : String) (owner : Nat) (d : Datum)
  | function (f : FunDecl) (owner : Nat)

end

/-- The bindings in force, the latest first. -/
abbrev Scope := List Bound

namespace Bound

def name : Bound → String
  | value name _ _ => name
  | function f _ => f.name

def owner : Bound → Nat
  | value _ owner _ => owner
  | function _ owner => owner

/-- The value of the name. A function sees its own name and those before it. -/
def datum : Bound → Scope → Datum
  | value _ _ d, _ => d
  | function f owner, ρ => .closure f (function f owner :: ρ)

end Bound

def Datum.base? : Datum → Option Value
  | base v => some v
  | closure _ _ => none

/-- What is printed for a value. That of a function is left open. -/
def Datum.word? (d : Datum) : Option Int32 := d.base?.map Value.word

/-- Why an evaluation has no value. -/
inductive Halt where
  | stop (reason : Stop)
  /-- The bindings of an invocation are used after its end. -/
  | stale
  deriving DecidableEq, Repr

structure Tally where
  /-- The number of the next invocation. -/
  next : Nat := 1
  output : Array (Option Int32) := #[]

abbrev EvalM := StateT Tally (Except Halt)

/-- The invocations that have not ended, in a watched evaluation. -/
abbrev Watch := Option (List Nat)

/-- The bindings of the invocation may be used. -/
def Watch.Allows (live : Watch) (owner : Nat) : Prop := ∀ ids, live = some ids → owner ∈ ids

instance (live : Watch) (owner : Nat) : Decidable (live.Allows owner) :=
  match live with
  | none => .isTrue nofun
  | some ids => decidable_of_iff (owner ∈ ids) (by simp [Watch.Allows])

def Watch.enter (live : Watch) (id : Nat) : Watch := live.map (id :: ·)

/-- The value of a name. -/
def find (live : Watch) (x : String) : Scope → Except Halt Datum
  | [] => .error (.stop .stuck)
  | b :: ρ =>
    if live.Allows b.owner then if b.name = x then .ok (b.datum ρ) else find live x ρ
    else .error .stale

/-- The operators on values that are no functions. -/
def operate (op : BinOp) : Datum → Datum → EvalM Datum
  | .base l, .base r => StateT.lift (((op.apply l r).run' {}).mapError Halt.stop |>.map Datum.base)
  | _, _ => throw (.stop .stuck)

/-- How a function is called. -/
abbrev Call := Watch → FunDecl → Scope → List Datum → EvalM Datum

mutual

def eval (call : Call) (live : Watch) (ρ : Scope) : Expr → EvalM Datum
  | .int n _ => return .base (.int n)
  | .bool b _ => return .base (.bool b)
  | .null _ => return .base .null
  | .name _ x _ => StateT.lift (find live x ρ)
  | .binary op left right _ =>
    match op with
    | .or => do
      match ← eval call live ρ left with
      | .base (.bool true) => return .base (.bool true)
      | a => operate op a (← eval call live ρ right)
    | .greaterEqual => do
      let b ← eval call live ρ right
      let a ← eval call live ρ left
      operate op a b
    | _ => do
      let a ← eval call live ρ left
      let b ← eval call live ρ right
      operate op a b
  | .not operand _ => do
    match ← eval call live ρ operand with
    | .base (.bool b) => return .base (.bool (!b))
    | _ => throw (.stop .stuck)
  | .ite cond yes no _ => do
    match ← eval call live ρ cond with
    | .base (.bool true) => eval call live ρ yes
    | .base (.bool false) => eval call live ρ no
    | _ => throw (.stop .stuck)
  | .print value _ => do
    let d ← eval call live ρ value
    modify fun σ => { σ with output := σ.output.push d.word? }
    return d
  | .call _ callee args _ => do
    let ds ← evalArgs call live ρ args
    match ← StateT.lift (find live callee ρ) with
    | .closure f ρ => call live f ρ ds
    | .base _ => throw (.stop .stuck)
  | .send .. | .new .. => throw (.stop .stuck)

/-- The arguments of a call, the last one first. -/
def evalArgs (call : Call) (live : Watch) (ρ : Scope) : List Expr → EvalM (List Datum)
  | [] => return []
  | e :: es => do
    let ds ← evalArgs call live ρ es
    return (← eval call live ρ e) :: ds

end

/-- The bindings after some declarations of an invocation. -/
def evalDecls (call : Call) (live : Watch) (id : Nat) (ρ : Scope) : List Decl → EvalM Scope
  | [] => return ρ
  | .var d :: ds => do
    let v ← eval call live ρ d.init
    evalDecls call live id (.value d.name id v :: ρ) ds
  | .fn f :: ds => evalDecls call live id (.function f id :: ρ) ds
  | .cls _ :: _ => throw (.stop .stuck)

def bindParams (id : Nat) : List TypedName → List Datum → Scope → Scope
  | p :: ps, d :: ds, ρ => bindParams id ps ds (.value p.name id d :: ρ)
  | _, _, ρ => ρ

/-- The number of a new invocation. -/
def invocation : EvalM Nat := modifyGet fun σ => (σ.next, { σ with next := σ.next + 1 })

/-- Calls that are nested at most `depth` deep. -/
def callAt : (depth : Nat) → Call
  | 0, _, _, _, _ => throw (.stop .tooDeep)
  | depth + 1, live, f, ρ, args =>
    if f.params.length = args.length then do
      let id ← invocation
      let ρ ← evalDecls (callAt depth) (live.enter id) id (bindParams id f.params args ρ) f.decls
      eval (callAt depth) (live.enter id) ρ f.body
    else throw (.stop .stuck)

/-! ### Watching -/

/-- The first computation gives up, in some way, or else it does what the second one does. -/
def Within (quits : Halt → Prop) {α : Type} (x y : EvalM α) : Prop :=
  ∀ σ, (∃ halt, quits halt ∧ x σ = .error halt) ∨ y σ = x σ

namespace Within

variable {quits : Halt → Prop} {α β : Type}

theorem refl (x : EvalM α) : Within quits x x := fun _ => .inr rfl

theorem bind {x y : EvalM α} {f g : α → EvalM β} (h : Within quits x y)
    (hf : ∀ a, Within quits (f a) (g a)) :
    Within quits (x >>= f) (y >>= g) := by
  intro σ
  change (∃ halt, quits halt ∧ (x σ >>= fun p => f p.1 p.2) = .error halt) ∨
    (y σ >>= fun p => g p.1 p.2) = (x σ >>= fun p => f p.1 p.2)
  rcases h σ with ⟨halt, hquits, hx⟩ | hx
  · rw [hx]
    exact .inl ⟨halt, hquits, rfl⟩
  · rw [hx]
    cases x σ with
    | error halt => exact .inr rfl
    | ok p => exact hf p.1 p.2

end Within

/-- The evaluations are watched alike, or the second one is not watched and the first one may give
up for that. -/
def Watch.Laxer (quits : Halt → Prop) (live live' : Watch) : Prop :=
  live' = live ∨ live' = none ∧ quits .stale

variable {quits : Halt → Prop} {live live' : Watch} {call call' : Call}

theorem Watch.Laxer.enter (h : Watch.Laxer quits live live') (id : Nat) :
    Watch.Laxer quits (live.enter id) (live'.enter id) := by
  rcases h with rfl | ⟨rfl, hquits⟩
  · exact .inl rfl
  · exact .inr ⟨rfl, hquits⟩

theorem find_none (live : Watch) (x : String) (ρ : Scope) :
    find live x ρ = .error .stale ∨ find none x ρ = find live x ρ := by
  induction ρ with
  | nil => exact .inr rfl
  | cons b ρ ih =>
    have hallows : Watch.Allows none b.owner := nofun
    rw [find, find, if_pos hallows]
    split
    · split
      · exact .inr rfl
      · exact ih
    · exact .inl rfl

theorem find_within (hlive : Watch.Laxer quits live live') (x : String) (ρ : Scope) :
    Within quits (StateT.lift (find live x ρ)) (StateT.lift (find live' x ρ)) := by
  rcases hlive with rfl | ⟨rfl, hquits⟩
  · exact .refl _
  · intro σ
    rcases find_none live x ρ with hfind | hfind
    · rw [hfind]
      exact .inl ⟨.stale, hquits, rfl⟩
    · rw [hfind]
      exact .inr rfl

def Call.Within (quits : Halt → Prop) (call call' : Call) : Prop :=
  ∀ ⦃live live' : Watch⦄, Watch.Laxer quits live live' →
    ∀ f ρ args, Lexical.Within quits (call live f ρ args) (call' live' f ρ args)

mutual

theorem eval_within (h : Call.Within quits call call') (hlive : Watch.Laxer quits live live')
    (ρ : Scope) :
    (e : Expr) → Within quits (eval call live ρ e) (eval call' live' ρ e)
  | .int .. | .bool .. | .null .. | .send .. | .new .. => by
    simp only [eval]
    exact .refl _
  | .name _ x _ => by
    simp only [eval]
    exact find_within hlive x ρ
  | .binary op left right _ => by
    have hleft := eval_within h hlive ρ left
    have hright := eval_within h hlive ρ right
    simp only [eval]
    split
    · refine .bind hleft fun a => ?_
      split
      · exact .refl _
      · exact .bind hright fun _ => .refl _
    · exact .bind hright fun _ => .bind hleft fun _ => .refl _
    · exact .bind hleft fun _ => .bind hright fun _ => .refl _
  | .not operand _ => by
    simp only [eval]
    exact .bind (eval_within h hlive ρ operand) fun _ => .refl _
  | .ite cond yes no _ => by
    simp only [eval]
    refine .bind (eval_within h hlive ρ cond) fun a => ?_
    split
    · exact eval_within h hlive ρ yes
    · exact eval_within h hlive ρ no
    · exact .refl _
  | .print value _ => by
    simp only [eval]
    exact .bind (eval_within h hlive ρ value) fun _ => .refl _
  | .call _ callee args _ => by
    simp only [eval]
    refine .bind (evalArgs_within h hlive ρ args) fun ds =>
      .bind (find_within hlive callee ρ) fun d => ?_
    split
    · exact h hlive _ _ _
    · exact .refl _

theorem evalArgs_within (h : Call.Within quits call call') (hlive : Watch.Laxer quits live live')
    (ρ : Scope) :
    (es : List Expr) → Within quits (evalArgs call live ρ es) (evalArgs call' live' ρ es)
  | [] => by
    simp only [evalArgs]
    exact .refl _
  | e :: es => by
    simp only [evalArgs]
    exact .bind (evalArgs_within h hlive ρ es) fun _ => .bind (eval_within h hlive ρ e) fun _ =>
      .refl _

end

theorem evalDecls_within (h : Call.Within quits call call') (hlive : Watch.Laxer quits live live')
    (id : Nat) (ρ : Scope) (ds : List Decl) :
    Within quits (evalDecls call live id ρ ds) (evalDecls call' live' id ρ ds) := by
  induction ds generalizing ρ with
  | nil => exact .refl _
  | cons d ds ih =>
    cases d with
    | var d => exact .bind (eval_within h hlive ρ d.init) fun _ => ih _
    | fn f => exact ih _
    | cls c => exact .refl _

theorem callAt_within (hquits : quits (.stop .tooDeep)) {depth depth' : Nat}
    (hle : depth ≤ depth') :
    Call.Within quits (callAt depth) (callAt depth') := by
  induction depth generalizing depth' with
  | zero => exact fun _ _ _ _ _ _ _ => .inl ⟨_, hquits, rfl⟩
  | succ depth ih =>
    obtain ⟨depth', rfl⟩ : ∃ d, depth' = d + 1 := ⟨depth' - 1, by omega⟩
    have hcall := ih (Nat.le_of_succ_le_succ hle)
    intro live live' hlive f ρ args
    simp only [callAt]
    split
    · refine .bind (.refl _) fun id => ?_
      exact .bind (evalDecls_within hcall (hlive.enter id) id _ _) fun ρ =>
        eval_within hcall (hlive.enter id) ρ _
    · exact .refl _

end Lexical

open Lexical (Datum Halt Tally Watch)

namespace Program

/-- Evaluates a program with calls that are nested at most `depth` deep. The program itself is the
invocation 0. -/
def lexical (depth : Nat) (live : Watch) (p : Program) : Except Halt (Datum × Tally) :=
  (do
    let ρ ← Lexical.evalDecls (Lexical.callAt depth) live 0 [] p.decls
    Lexical.eval (Lexical.callAt depth) live ρ p.body) {}

/-- The lexical value of the program, and what it prints. -/
def Denotes (p : Program) (d : Datum) (trace : Array (Option Int32)) : Prop :=
  ∃ depth σ, p.lexical depth none = .ok (d, σ) ∧ σ.output = trace

/-- The program uses the bindings of an invocation after its end. -/
def Stale (p : Program) : Prop := ∃ depth, p.lexical depth (some [0]) = .error .stale

variable {p : Program} {depth depth' : Nat}

theorem lexical_within (quits : Halt → Prop) (hquits : quits (.stop .tooDeep))
    (hle : depth ≤ depth') {live live' : Watch} (hlive : Watch.Laxer quits live live') :
    (∃ halt, quits halt ∧ p.lexical depth live = .error halt) ∨
    p.lexical depth' live' = p.lexical depth live :=
  Lexical.Within.bind (Lexical.evalDecls_within (Lexical.callAt_within hquits hle) hlive 0 _ _)
    (fun ρ => Lexical.eval_within (Lexical.callAt_within hquits hle) hlive ρ p.body) {}

/-- An evaluation that does not run out of depth is the same under every larger bound. -/
theorem lexical_of_le {live : Watch} (hle : depth ≤ depth')
    (hne : p.lexical depth live ≠ .error (.stop .tooDeep)) :
    p.lexical depth' live = p.lexical depth live := by
  rcases lexical_within (p := p) (· = .stop .tooDeep) rfl hle (.inl rfl) with
    ⟨halt, rfl, hdeep⟩ | heq
  · exact absurd hdeep hne
  · exact heq

theorem lexical_unique {live : Watch} (h : p.lexical depth live ≠ .error (.stop .tooDeep))
    (h' : p.lexical depth' live ≠ .error (.stop .tooDeep)) :
    p.lexical depth live = p.lexical depth' live := by
  rcases Nat.le_total depth depth' with hle | hle
  · exact (lexical_of_le hle h).symm
  · exact lexical_of_le hle h'

/-- An evaluation can be computed: only what it prints and a base value are compared. -/
theorem exists_lexical_base {live : Watch} {v : Value} {trace : Array (Option Int32)}
    (h : (p.lexical depth live).map (fun x => (x.1.base?, x.2.output)) = .ok (some v, trace)) :
    ∃ σ, p.lexical depth live = .ok (.base v, σ) ∧ σ.output = trace := by
  rcases heval : p.lexical depth live with halt | ⟨_ | _, σ⟩
  all_goals rw [heval] at h
  all_goals cases h
  exact ⟨σ, rfl, rfl⟩

/-- A watched evaluation that has a value has the lexical one. -/
theorem denotes_of_watched {d : Datum} {σ : Tally} (h : p.lexical depth (some [0]) = .ok (d, σ)) :
    p.Denotes d σ.output := by
  rcases lexical_within (p := p) (fun _ => True) trivial (Nat.le_refl depth)
    (.inr ⟨rfl, trivial⟩) with
    ⟨halt, -, hhalt⟩ | heq
  · rw [h] at hhalt
    cases hhalt
  · exact ⟨depth, σ, heq.trans h, rfl⟩

theorem not_stale_of_watched {x : Datum × Tally} (h : p.lexical depth (some [0]) = .ok x) :
    ¬p.Stale := by
  rintro ⟨depth', hstale⟩
  have heq : p.lexical depth (some [0]) = p.lexical depth' (some [0]) :=
    lexical_unique (h ▸ nofun) (hstale ▸ nofun)
  rw [h, hstale] at heq
  cases heq

/-- All lexical evaluations that have a value have the same one. -/
theorem Denotes.iff {d d' : Datum} {trace trace' : Array (Option Int32)} (h : p.Denotes d trace) :
    p.Denotes d' trace' ↔ d' = d ∧ trace' = trace := by
  obtain ⟨depth, σ, heval, rfl⟩ := h
  constructor
  · rintro ⟨depth', σ', heval', rfl⟩
    have heq : p.lexical depth' none = p.lexical depth none :=
      lexical_unique (heval' ▸ nofun) (heval ▸ nofun)
    rw [heval, heval'] at heq
    obtain ⟨rfl, rfl⟩ := Prod.mk.inj (Except.ok.inj heq)
    exact ⟨rfl, rfl⟩
  · rintro ⟨rfl, rfl⟩
    exact ⟨depth, σ, heval, rfl⟩

end Program

end Stackling
