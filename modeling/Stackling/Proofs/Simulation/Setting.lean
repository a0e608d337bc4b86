import Stackling.Proofs.Simulation.Scopes
import Stackling.Proofs.Typing.Inference

/-!
# Code of operators

Constants, operators, branches and `print` have the same code in every program, and what it does
depends on little else: on numbers and truth values, on the words on top of a stack, and on where
the code is. A `Setting` is an evaluator together with machines that follow it, with what the
argument needs of them stated as laws. From the laws alone there is one lemma for each of these
forms of expression, which takes the simulation of the parts as given.

The laws leave open what other values there are and how they are shown, how the machines stop, how
many of them there are, and whether they may run out of memory.
-/

namespace Stackling

/-! ### Following an evaluation -/

/-- How machines go on from one configuration to another, and how they stop. -/
structure Follower (E C : Type) where
  /-- A number of steps leads from one configuration to another. -/
  Leads : Nat → C → C → Prop
  /-- What becomes of the machines if the evaluation has no value for some reason. -/
  Stops : E → C → Prop
  leads_refl (c : C) : Leads 0 c c
  leads_trans {j k : Nat} {c₁ c₂ c₃ : C} : Leads j c₁ c₂ → Leads k c₂ c₃ → Leads (j + k) c₁ c₃
  stops_after {k : Nat} {e : E} {c c' : C} : Leads k c c' → Stops e c' → Stops e c

namespace Follower

variable {E C S α β : Type} {X : Follower E C}

/-- What the machines do, given the result of the evaluation. -/
def Follows (X : Follower E C) (result : Except E (α × S)) (c : C) (post : α → S → C → Prop) :
    Prop :=
  match result with
  | .ok (a, σ) => ∃ k c', X.Leads k c c' ∧ post a σ c'
  | .error e => X.Stops e c

namespace Follows

variable {c c' : C} {result : Except E (α × S)} {post post' : α → S → C → Prop}

/-- The machines may take some steps after the evaluation has its value. -/
theorem followed (h : X.Follows result c post) (hpost : ∀ a σ c', result = .ok (a, σ) →
    post a σ c' → ∃ k c'', X.Leads k c' c'' ∧ post' a σ c'') : X.Follows result c post' := by
  rcases result with e | ⟨a, σ⟩
  · exact h
  · obtain ⟨j, c', hleads, hc'⟩ := h
    obtain ⟨k, c'', hleads', hc''⟩ := hpost a σ c' rfl hc'
    exact ⟨j + k, c'', X.leads_trans hleads hleads', hc''⟩

theorem mono (h : X.Follows result c post)
    (hpost : ∀ a σ c', result = .ok (a, σ) → post a σ c' → post' a σ c') :
    X.Follows result c post' :=
  h.followed fun a σ c' hresult hc' => ⟨0, c', X.leads_refl c', hpost a σ c' hresult hc'⟩

/-- The machines may take some steps first. -/
theorem after {k : Nat} (hleads : X.Leads k c c') (h : X.Follows result c' post) :
    X.Follows result c post := by
  rcases result with e | ⟨a, σ⟩
  · exact X.stops_after hleads h
  · obtain ⟨j, c'', hleads', hpost⟩ := h
    exact ⟨k + j, c'', X.leads_trans hleads hleads', hpost⟩

/-- Machines that follow two evaluations follow the one after the other. -/
theorem bind {x : StateT S (Except E) α} {f : α → StateT S (Except E) β} {σ : S}
    {post' : β → S → C → Prop} (hx : X.Follows (x σ) c post)
    (hf : ∀ a σ' c', post a σ' c' → X.Follows (f a σ') c' post') :
    X.Follows ((x >>= f) σ) c post' := by
  change X.Follows (x σ >>= fun p => f p.1 p.2) c post'
  rcases hresult : x σ with e | ⟨a, σ'⟩
  · rw [hresult] at hx
    exact hx
  · rw [hresult] at hx
    obtain ⟨k, c', hleads, hpost⟩ := hx
    exact after hleads (hf a σ' c' hpost)

end Follows

end Follower

/-! ### Code at a place -/

/-- The image has a piece of code at an address, and something behind it. -/
def Platform.Carries (w : Platform) (pc : Nat) (code : List Instr) : Prop :=
  w.image.CodeAt w.address pc code ∧ pc + Code.size code < w.image.ops.size

theorem Code.size_bare (op : Bare) (is : List Instr) : size (.bare op :: is) = 1 + size is :=
  size_cons _ _

theorem Code.size_push (v : Int32) (is : List Instr) : size (.push v :: is) = 1 + size is :=
  size_cons _ _

theorem Code.size_truthValue (kind : Jump) (yes done : Label) :
    Code.size (Code.truthValue kind yes done) = 4 :=
  rfl

namespace Platform

variable {w : Platform} {pc : Nat} {is js : List Instr}

theorem carries_append :
    w.Carries pc (is ++ js) ↔ w.Carries pc is ∧ w.Carries (pc + Code.size is) js := by
  simp only [Carries, Image.codeAt_append, Code.size_append]
  constructor
  · rintro ⟨⟨his, hjs⟩, hlt⟩
    exact ⟨⟨his, by omega⟩, hjs, by omega⟩
  · rintro ⟨⟨his, -⟩, hjs, hlt⟩
    exact ⟨⟨his, hjs⟩, by omega⟩

theorem carries_nil : w.Carries pc [] ↔ pc < w.image.ops.size := by
  simp [Carries]

theorem carries_bare {op : Bare} :
    w.Carries pc (.bare op :: is) ↔
      w.image.ops[pc]? = some (.bare op) ∧ w.Carries (pc + 1) is := by
  simp [Carries, Instr.defined?, and_assoc, Nat.add_assoc]

theorem carries_push {v : Int32} :
    w.Carries pc (.push v :: is) ↔ w.image.ops[pc]? = some (.push v) ∧ w.Carries (pc + 1) is := by
  simp [Carries, Instr.defined?, and_assoc, Nat.add_assoc]

theorem carries_pushLabel {l : Label} :
    w.Carries pc (.pushLabel l :: is) ↔
      w.image.ops[pc]? = some (.push (Int32.ofNat (w.address l))) ∧ w.Carries (pc + 1) is := by
  simp [Carries, Instr.defined?, and_assoc, Nat.add_assoc]

theorem carries_jump {kind : Jump} {l : Label} :
    w.Carries pc (.jump kind l :: is) ↔
      w.image.ops[pc]? = some (.jump kind (w.address l)) ∧ w.Carries (pc + 1) is := by
  simp [Carries, Instr.defined?, and_assoc, Nat.add_assoc]

theorem carries_label {l : Label} :
    w.Carries pc (.label l :: is) ↔ w.address l = pc ∧ w.Carries pc is := by
  simp [Carries, Instr.defined?, and_assoc]

end Platform

/-- The code of an expression on a platform. -/
def Expr.Coded (r : Resolution) (w : Platform) (b : Bool) (e : Expr) (code : List Instr) : Prop :=
  ∃ q q', e.code (w.context r b) q = .ok (code, q')

/-! ### Operands -/

namespace BinOp

variable {h : Hierarchy} {op : BinOp} {a b t : Ty} {pos : SourcePos} {x y : Value} {σ σ' : Store}

/-- The operands of an operator are no functions. -/
theorem isArrow_operands (hop : op.infer h a b pos = .ok t) :
    a.isArrow = false ∧ b.isArrow = false := by
  unfold BinOp.infer at hop
  split at hop
  · split at hop
    next hsub =>
      rw [Bool.and_eq_true] at hsub
      exact ⟨Hierarchy.isArrow_of_isSubtype hsub.1 rfl, Hierarchy.isArrow_of_isSubtype hsub.2 rfl⟩
    next => cases hop
  · split at hop
    next hsub =>
      rw [Bool.and_eq_true] at hsub
      exact ⟨Hierarchy.isArrow_of_isSubtype hsub.1 rfl, Hierarchy.isArrow_of_isSubtype hsub.2 rfl⟩
    next => cases hop
  · split at hop
    next => cases hop
    next hsig =>
      rw [Bool.not_eq_true, Bool.or_eq_false_iff] at hsig
      constructor
      · cases a <;> first | rfl | simp [Ty.signature?] at hsig
      · cases b <;> first | rfl | simp [Ty.signature?] at hsig

/-- Operands of arithmetic are numbers. -/
theorem infer_arithmetic (hfamily : op.family = .arithmetic) (hinfer : op.infer h a b pos = .ok t)
    (hx : x.HasTy h σ a) (hy : y.HasTy h σ' b) :
    t = .int ∧ x.number? = some x.word ∧ y.number? = some y.word := by
  simp only [BinOp.infer, hfamily] at hinfer
  split at hinfer
  next hsub =>
    cases hinfer
    rw [Bool.and_eq_true] at hsub
    exact ⟨rfl, (hx.sub hsub.1).number?, (hy.sub hsub.2).number?⟩
  next => cases hinfer

theorem infer_logical (hfamily : op.family = .logical) (hinfer : op.infer h a b pos = .ok t) :
    t = .bool ∧ h.isSubtype a .bool ∧ h.isSubtype b .bool := by
  simp only [BinOp.infer, hfamily] at hinfer
  split at hinfer
  next hsub =>
    cases hinfer
    rw [Bool.and_eq_true] at hsub
    exact ⟨rfl, hsub⟩
  next => cases hinfer

theorem infer_comparison (hfamily : op.family = .comparison)
    (hinfer : op.infer h a b pos = .ok t) : t = .bool := by
  simp only [BinOp.infer, hfamily] at hinfer
  split at hinfer
  next => cases hinfer
  next =>
    split at hinfer
    next =>
      cases hinfer
      rfl
    next => cases hinfer

theorem apply_div (hx : x.number? = some x.word) (hy : y.number? = some y.word) :
    BinOp.apply .div x y σ = (if y.word = 0 then throw .divisionByZero
      else return .int (x.word / y.word) : EvalM Value) σ := by
  rw [BinOp.apply, hx, hy]
  rfl

end BinOp

theorem Value.word_and (p q : Bool) :
    (Value.bool (p && q)).word = (Value.bool p).word * (Value.bool q).word := by
  cases p <;> cases q <;> rfl

theorem Value.word_not (p : Bool) : (Value.bool (!p)).word = 1 - (Value.bool p).word := by
  cases p <;> rfl

theorem Value.word_bool_eq_one {p : Bool} : (Value.bool p).word = 1 ↔ p = true := by
  cases p <;> decide

/-! ### The nodes of an expression -/

mutual

/-- The number of nodes of an expression. -/
def Expr.size : Expr → Nat
  | .int _ _ | .bool _ _ | .null _ | .name _ _ _ => 1
  | .binary _ left right _ => left.size + right.size + 1
  | .not operand _ => operand.size + 1
  | .ite cond yes no _ => cond.size + yes.size + no.size + 1
  | .call _ _ args _ | .send _ _ _ args _ | .new _ _ args _ => argSize args + 1
  | .print value _ => value.size + 1

def argSize : List Expr → Nat
  | [] => 0
  | e :: es => e.size + argSize es

end

theorem Expr.size_pos (e : Expr) : 0 < e.size := by
  cases e <;> simp [Expr.size]

/-! ### Settings -/

/-- A computation goes on in one of two ways, as the truth value that comes first says. -/
def Branches {S E D : Type} (base : Value → D) (whole test yes no : StateT S (Except E) D) : Prop :=
  ∃ next, whole = test >>= next ∧ next (base (.bool true)) = yes ∧ next (base (.bool false)) = no

/-- An evaluator of expressions. Its values include those of programs in which functions are not
values, and on these its operators are the known ones. -/
structure Evaluator (S E D : Type) where
  base : Value → D
  halt : Stop → E
  eval : Expr → StateT S (Except E) D
  operate : BinOp → D → D → StateT S (Except E) D
  /-- The state after a value is printed. -/
  written : D → S → S
  eval_int (n : Int32) (pos : SourcePos) : eval (.int n pos) = pure (base (.int n))
  eval_bool (b : Bool) (pos : SourcePos) : eval (.bool b pos) = pure (base (.bool b))
  eval_null (pos : SourcePos) : eval (.null pos) = pure (base .null)
  eval_binary {op : BinOp} (left right : Expr) (pos : SourcePos) : op ≠ .or → op ≠ .greaterEqual →
    eval (.binary op left right pos) = eval left >>= fun x => eval right >>= fun y => operate op x y
  eval_greaterEqual (left right : Expr) (pos : SourcePos) :
    eval (.binary .greaterEqual left right pos) =
      eval right >>= fun y => eval left >>= fun x => operate .greaterEqual x y
  eval_or (left right : Expr) (pos : SourcePos) :
    Branches base (eval (.binary .or left right pos)) (eval left) (pure (base (.bool true)))
      (eval right >>= fun y => operate .or (base (.bool false)) y)
  eval_not (e : Expr) (pos : SourcePos) :
    Branches base (eval (.not e pos)) (eval e) (pure (base (.bool false)))
    (pure (base (.bool true)))
  eval_ite (cond yes no : Expr) (pos : SourcePos) :
    Branches base (eval (.ite cond yes no pos)) (eval cond) (eval yes) (eval no)
  eval_print (e : Expr) (pos : SourcePos) :
    eval (.print e pos) = eval e >>= fun d => modify (written d) >>= fun _ => pure d
  operate_ok {op : BinOp} {x y v : Value} {σ₀ : Store} (σ : S) :
    op.apply x y {} = .ok (v, σ₀) → operate op (base x) (base y) σ = .ok (base v, σ)
  operate_error {op : BinOp} {x y : Value} {stop : Stop} (σ : S) :
    op.apply x y {} = .error stop → operate op (base x) (base y) σ = .error (halt stop)

/-- Machines that follow an evaluator. The evaluation of an expression leaves its value, in some
words, on top of the stacks. -/
structure Setting (ι S E D C : Type) extends Evaluator S E D, Follower E C where
  resolution : Resolution
  machine : ι → Platform
  inClass : Bool
  /-- The machines are at some places of their code, with some words on top of their stacks. -/
  At : S → (ι → Nat) → (ι → List Int32) → C → Prop
  /-- There is room for a number of cells on top of the words. -/
  Room : (ι → List Int32) → Nat → Prop
  /-- A state comes after another one. -/
  Since : S → S → Prop
  /-- A value of a type is shown by some words. -/
  Shows : S → D → Ty → List Int32 → Prop
  since_refl (σ : S) : Since σ σ
  since_trans {σ₁ σ₂ σ₃ : S} : Since σ₁ σ₂ → Since σ₂ σ₃ → Since σ₁ σ₃
  room_mono {temps : ι → List Int32} {m n : Nat} : Room temps n → m ≤ n → Room temps m
  room_cons {temps : ι → List Int32} {n : Nat} (v : Int32) :
    Room temps (n + 1) → Room (fun i => v :: temps i) n
  shows_base {σ : S} {v : Value} {t : Ty} :
    v.HasTy resolution.hierarchy {} t → Shows σ (base v) t [v.word]
  exists_base {σ : S} {d : D} {t : Ty} {words : List Int32} : Shows σ d t words →
    t.isArrow = false →
    ∃ v σ₀, d = base v ∧ words = [v.word] ∧ v.HasTy resolution.hierarchy σ₀ t
  shows_join {σ : S} {d : D} {a b t : Ty} {words : List Int32} :
    resolution.hierarchy.join? a b = some t → Shows σ d a words ∨ Shows σ d b words →
    Shows σ d t words
  /-- A constant is pushed, if there is room for it. -/
  push {σ : S} {pc : ι → Nat} {temps : ι → List Int32} {c : C} {v : Int32} : At σ pc temps c →
    Room temps 1 → (∀ i, (machine i).image.ops[pc i]? = some (.push v)) →
    ∃ k c', Leads k c c' ∧ At σ (fun i => pc i + 1) (fun i => v :: temps i) c'
  /-- An operation moves on in the code and touches only the words on top. -/
  move {σ : S} {pc pc' : ι → Nat} {temps : ι → List Int32} {c : C} (temps' : ι → List Int32) :
    At σ pc temps c → (∀ i, pc i < pc' i) →
    (∀ i st heap fp ra tm out, (machine i).Moves ⟨pc i, temps i ++ st, heap, fp, ra, tm, out, none⟩
      ⟨pc' i, temps' i ++ st, heap, fp, ra, tm, out, none⟩) →
    ∃ k c', Leads k c c' ∧ At σ pc' temps' c'
  divide {σ : S} {pc : ι → Nat} {temps : ι → List Int32} {c : C} {l : Int32} :
    At σ pc (fun i => 0 :: l :: temps i) c →
    (∀ i, (machine i).image.ops[pc i]? = some (.bare .div)) → Stops (halt .divisionByZero) c
  print {σ : S} {pc : ι → Nat} {temps : ι → List Int32} {c : C} {d : D} {t : Ty}
    {words : List Int32} : At σ pc (fun i => words ++ temps i) c → Shows σ d t words →
    (∀ i, (machine i).image.ops[pc i]? = some (.bare .print)) →
    ∃ k c', Leads k c c' ∧ At (written d σ) (fun i => pc i + 1) (fun i => words ++ temps i) c' ∧
      Shows (written d σ) d t words ∧ Since σ (written d σ)

namespace Setting

variable {ι S E D C : Type} {X : Setting ι S E D C} {σ σ' : S} {pc : ι → Nat}
  {temps : ι → List Int32} {c c' : C} {a b t : Ty} {pos : SourcePos} {d : D} {x y v : Value}

/-- What the machines show after the evaluation of an expression. -/
def Yields (X : Setting ι S E D C) (σ : S) (t : Ty) (pc : ι → Nat) (temps : ι → List Int32) (d : D)
    (σ' : S) (c : C) : Prop :=
  ∃ words, X.Since σ σ' ∧ X.Shows σ' d t words ∧ X.At σ' pc (fun i => words ++ temps i) c

/-- The machines evaluate an expression as the evaluator does, if there is a free cell for each of
its nodes. -/
def Simulated (X : Setting ι S E D C) (e : Expr) (t : Ty) : Prop :=
  ∀ ⦃σ : S⦄ ⦃pc : ι → Nat⦄ ⦃temps : ι → List Int32⦄ ⦃c : C⦄ ⦃code : ι → List Instr⦄,
    (∀ i, e.Coded X.resolution (X.machine i) X.inClass (code i)) →
    (∀ i, (X.machine i).Carries (pc i) (code i)) → X.Room temps e.size → X.At σ pc temps c →
    X.Follows (X.eval e σ) c (X.Yields σ t (fun i => pc i + Code.size (code i)) temps)

/-- A value that is no function is in one word. -/
theorem Yields.base (h : X.Yields σ t pc temps d σ' c) (ht : t.isArrow = false) :
    ∃ v σ₀, d = X.base v ∧ v.HasTy X.resolution.hierarchy σ₀ t ∧ X.Since σ σ' ∧
      X.At σ' pc (fun i => v.word :: temps i) c := by
  obtain ⟨words, hsince, hd, hat⟩ := h
  obtain ⟨v, σ₀, rfl, rfl, hv⟩ := X.exists_base hd ht
  exact ⟨v, σ₀, rfl, hv, hsince, hat⟩

theorem Yields.truth (h : X.Yields σ t pc temps d σ' c)
    (hbool : X.resolution.hierarchy.isSubtype t .bool) :
    ∃ p, d = X.base (.bool p) ∧ X.Since σ σ' ∧
      X.At σ' pc (fun i => (Value.bool p).word :: temps i) c := by
  obtain ⟨v, σ₀, rfl, hv, hsince, hat⟩ := h.base (Hierarchy.isArrow_of_isSubtype hbool rfl)
  obtain ⟨p, rfl⟩ := (hv.sub hbool).exists_bool
  exact ⟨p, rfl, hsince, hat⟩

/-- What is so since a later state is so since an earlier one. -/
theorem follows_since {result : Except E (D × S)}
    (h : X.Follows result c (X.Yields σ' t pc temps)) (hsince : X.Since σ σ') :
    X.Follows result c (X.Yields σ t pc temps) :=
  h.mono fun _ _ _ _ ⟨words, hsince', hd, hat⟩ => ⟨words, X.since_trans hsince hsince', hd, hat⟩

/-- The end of an evaluation: its value is on the stack. -/
theorem follows_value {k : Nat} (hleads : X.Leads k c c')
    (hv : v.HasTy X.resolution.hierarchy {} t) (hat : X.At σ pc (fun i => v.word :: temps i) c') :
    X.Follows (.ok (X.base v, σ)) c (X.Yields σ t pc temps) :=
  ⟨k, c', hleads, [v.word], X.since_refl σ, X.shows_base hv, hat⟩

/-! ### Constants -/

theorem simulated_constant {e : Expr} (hv : v.HasTy X.resolution.hierarchy {} t)
    (heval : X.eval e = pure (X.base v))
    (hcode : ∀ i code, e.Coded X.resolution (X.machine i) X.inClass code → [.push v.word] = code) :
    X.Simulated e t := by
  intro σ pc temps c code hcoded hcarries hroom hat
  simp only [← hcode _ _ (hcoded _), Platform.carries_push] at hcarries ⊢
  obtain ⟨k, c', hleads, hat'⟩ :=
    X.push hat (X.room_mono hroom e.size_pos) fun i => (hcarries i).1
  rw [heval]
  exact follows_value hleads hv hat'

theorem simulated_int {n : Int32} : X.Simulated (.int n pos) .int :=
  simulated_constant .int (X.eval_int n pos) fun _ _ ⟨_, _, hcode⟩ => (Expr.code_int.mp hcode).1

theorem simulated_bool {p : Bool} : X.Simulated (.bool p pos) .bool :=
  simulated_constant .bool (X.eval_bool p pos) fun _ _ ⟨_, _, hcode⟩ => (Expr.code_bool.mp hcode).1

theorem simulated_null : X.Simulated (.null pos) .null :=
  simulated_constant .null (X.eval_null pos) fun _ _ ⟨_, _, hcode⟩ => (Expr.code_null.mp hcode).1

/-! ### Operators on both operands -/

/-- One operation computes the value from the words on top. -/
theorem follows_move {pc' : ι → Nat} {temps' : ι → List Int32} (hat : X.At σ pc temps' c)
    (hlt : ∀ i, pc i < pc' i) (hv : v.HasTy X.resolution.hierarchy {} t)
    (hmoves : ∀ i st heap fp ra tm out, (X.machine i).Moves
      ⟨pc i, temps' i ++ st, heap, fp, ra, tm, out, none⟩
      ⟨pc' i, v.word :: (temps i ++ st), heap, fp, ra, tm, out, none⟩) :
    X.Follows (.ok (X.base v, σ)) c (X.Yields σ t pc' temps) := by
  obtain ⟨k, c', hleads, hat'⟩ := X.move (fun i => v.word :: temps i) hat hlt hmoves
  exact follows_value hleads hv hat'

/-- An arithmetic operator is one operation of the machine, which fails only if it divides by
zero. -/
theorem follows_arithmetic {op : BinOp} {o : Bare} (hop : op.bare? = some o)
    (hfamily : op.family = .arithmetic) (hx : x.number? = some x.word)
    (hy : y.number? = some y.word) (hat : X.At σ pc (fun i => y.word :: x.word :: temps i) c)
    (hcode : ∀ i, (X.machine i).image.ops[pc i]? = some (.bare o)) :
    X.Follows (X.operate op (X.base x) (X.base y) σ) c
      (X.Yields σ .int (fun i => pc i + 1) temps) := by
  have hlt : ∀ i, pc i < pc i + 1 := fun i => Nat.lt_succ_self _
  cases op with
  | add =>
    cases hop
    rw [X.operate_ok (v := .int (x.word + y.word)) σ (by rw [BinOp.apply, hx, hy]; rfl)]
    exact follows_move hat hlt .int fun i _ _ _ _ _ _ => Platform.moves_add (hcode i)
  | sub =>
    cases hop
    rw [X.operate_ok (v := .int (x.word - y.word)) σ (by rw [BinOp.apply, hx, hy]; rfl)]
    exact follows_move hat hlt .int fun i _ _ _ _ _ _ => Platform.moves_sub (hcode i)
  | mul =>
    cases hop
    rw [X.operate_ok (v := .int (x.word * y.word)) σ (by rw [BinOp.apply, hx, hy]; rfl)]
    exact follows_move hat hlt .int fun i _ _ _ _ _ _ => Platform.moves_mult (hcode i)
  | div =>
    cases hop
    have happly := @BinOp.apply_div _ _ {} hx hy
    by_cases hzero : y.word = 0
    · rw [if_pos hzero] at happly
      rw [X.operate_error σ happly]
      rw [hzero] at hat
      exact X.divide hat hcode
    · rw [if_neg hzero] at happly
      rw [X.operate_ok σ happly]
      exact follows_move hat hlt .int fun i _ _ _ _ _ _ => Platform.moves_div (hcode i) hzero
  | and | or | equal | lessEqual | greaterEqual => cases hfamily

/-- An expression whose operands are both evaluated before it is computed by some last piece of
code. -/
theorem simulated_operands {e first second : Expr} {f : D → D → StateT S (Except E) D}
    (Last : List Instr → Prop) (hfirst : X.Simulated first a) (ha : a.isArrow = false)
    (hsecond : X.Simulated second b) (hb : b.isArrow = false)
    (hsize : e.size = first.size + second.size + 1)
    (heval : X.eval e = X.eval first >>= fun x => X.eval second >>= fun y => f x y)
    (hcode : ∀ i code, e.Coded X.resolution (X.machine i) X.inClass code →
      ∃ code₁ code₂ last, first.Coded X.resolution (X.machine i) X.inClass code₁ ∧
        second.Coded X.resolution (X.machine i) X.inClass code₂ ∧ Last last ∧
        code₁ ++ code₂ ++ last = code)
    (hlast : ∀ ⦃σ : S⦄ ⦃pc : ι → Nat⦄ ⦃temps : ι → List Int32⦄ ⦃c : C⦄ ⦃last : ι → List Instr⦄
      ⦃x y : Value⦄ ⦃σ₁ σ₂ : Store⦄, x.HasTy X.resolution.hierarchy σ₁ a →
      y.HasTy X.resolution.hierarchy σ₂ b →
      X.At σ pc (fun i => y.word :: x.word :: temps i) c → X.Room temps 1 → (∀ i, Last (last i)) →
      (∀ i, (X.machine i).Carries (pc i) (last i)) →
      X.Follows (f (X.base x) (X.base y) σ) c
        (X.Yields σ t (fun i => pc i + Code.size (last i)) temps)) :
    X.Simulated e t := by
  intro σ pc temps c code hcoded hcarries hroom hat
  choose code₁ code₂ last hcode₁ hcode₂ hkind hcode using fun i => hcode i (code i) (hcoded i)
  simp only [← hcode, Platform.carries_append, Code.size_append, ← Nat.add_assoc] at hcarries ⊢
  rw [hsize] at hroom
  rw [heval]
  refine (hfirst hcode₁ (fun i => (hcarries i).1.1) (X.room_mono hroom (by omega)) hat).bind ?_
  intro d₁ τ₁ c₁ hd₁
  obtain ⟨x, σ₁, rfl, hx, hsince₁, hat₁⟩ := hd₁.base ha
  have hroom' := X.room_cons (n := second.size) x.word (X.room_mono hroom (by omega))
  refine (hsecond hcode₂ (fun i => (hcarries i).1.2) hroom' hat₁).bind ?_
  intro d₂ τ₂ c₂ hd₂
  obtain ⟨y, σ₂, rfl, hy, hsince₂, hat₂⟩ := hd₂.base hb
  refine follows_since ?_ (X.since_trans hsince₁ hsince₂)
  exact hlast hx hy hat₂ (X.room_mono hroom (by omega)) hkind fun i => (hcarries i).2

/-- Operators that are one operation. -/
theorem simulated_bare {op : BinOp} {o : Bare} (hop : op.bare? = some o) {left right : Expr}
    (hleft : X.Simulated left a) (hright : X.Simulated right b)
    (hinfer : op.infer X.resolution.hierarchy a b pos = .ok t) :
    X.Simulated (.binary op left right pos) t := by
  have hor : op ≠ .or := by rintro rfl; cases hop
  have hge : op ≠ .greaterEqual := by rintro rfl; cases hop
  obtain ⟨ha, hb⟩ := BinOp.isArrow_operands hinfer
  refine simulated_operands (· = [.bare o]) hleft ha hright hb (by rw [Expr.size])
    (X.eval_binary left right pos hor hge) ?_ ?_
  · rintro i code ⟨q, q', hcode⟩
    obtain ⟨code₁, s₁, code₂, hleft, hright, hcode⟩ := (Expr.code_bare hop).mp hcode
    exact ⟨code₁, code₂, _, ⟨_, _, hleft⟩, ⟨_, _, hright⟩, rfl, hcode⟩
  · intro σ pc temps c last x y σ₁ σ₂ hx hy hat _ hlast hcarries
    simp only [hlast, Platform.carries_bare] at hcarries ⊢
    have hcode := fun i => (hcarries i).1
    cases hfamily : op.family with
    | arithmetic =>
      obtain ⟨rfl, hx, hy⟩ := BinOp.infer_arithmetic hfamily hinfer hx hy
      exact follows_arithmetic hop hfamily hx hy hat hcode
    | logical =>
      obtain ⟨rfl, ha, hb⟩ := BinOp.infer_logical hfamily hinfer
      obtain ⟨p, rfl⟩ := (hx.sub ha).exists_bool
      obtain ⟨q, rfl⟩ := (hy.sub hb).exists_bool
      obtain ⟨rfl, rfl⟩ : op = .and ∧ o = .mult := by
        cases op <;> cases hop <;> cases hfamily
        exact ⟨rfl, rfl⟩
      rw [X.operate_ok (v := .bool (p && q)) σ rfl]
      refine follows_move hat (fun i => Nat.lt_succ_self _) .bool fun i _ _ _ _ _ _ => ?_
      rw [Value.word_and]
      exact Platform.moves_mult (hcode i)
    | comparison => cases op <;> cases hop <;> cases hfamily

/-! ### Comparisons -/

/-- A comparison of two words by a jump. -/
theorem follows_truthValue {kind : Jump} {p : Prop} [Decidable p] {l m : Int32}
    {last : ι → List Instr} (hlast : ∀ i, ∃ yes done, last i = Code.truthValue kind yes done)
    (hjump : ∀ i {pc target : Nat} {st heap fp ra tm out},
      (X.machine i).image.ops[pc]? = some (.jump kind target) →
      (X.machine i).Moves ⟨pc, m :: l :: st, heap, fp, ra, tm, out, none⟩
        ⟨if p then target else pc + 1, st, heap, fp, ra, tm, out, none⟩)
    (hat : X.At σ pc (fun i => m :: l :: temps i) c) (hroom : X.Room temps 1)
    (hcarries : ∀ i, (X.machine i).Carries (pc i) (last i)) :
    X.Follows (.ok (X.base (.bool p), σ)) c
      (X.Yields σ .bool (fun i => pc i + Code.size (last i)) temps) := by
  choose yes done hlast using hlast
  simp only [hlast, Code.truthValue, Platform.carries_jump, Platform.carries_push,
    Platform.carries_label] at hcarries
  simp only [hlast, Code.size_truthValue]
  have hyes : ∀ i, (X.machine i).address (yes i) = pc i + 1 + 1 + 1 :=
    fun i => (hcarries i).2.2.2.1
  have hdone : ∀ i, (X.machine i).address (done i) = pc i + 1 + 1 + 1 + 1 :=
    fun i => (hcarries i).2.2.2.2.2.1
  have hplace : ∀ i, pc i < if p then (X.machine i).address (yes i) else pc i + 1 := by
    intro i
    rw [hyes]
    split <;> omega
  obtain ⟨k, c₁, hleads, hat₁⟩ :=
    X.move temps hat hplace fun i _ _ _ _ _ _ => hjump i (hcarries i).1
  refine .after hleads ?_
  by_cases hp : p
  · simp only [if_pos hp, hyes] at hat₁
    obtain ⟨k', c₂, hleads', hat₂⟩ := X.push hat₁ hroom fun i => (hcarries i).2.2.2.2.1
    have hword : (Value.bool (decide p)).word = 1 := by simp [Value.word, hp]
    rw [← hword] at hat₂
    exact follows_value hleads' .bool hat₂
  · simp only [if_neg hp] at hat₁
    obtain ⟨k', c₂, hleads', hat₂⟩ := X.push hat₁ hroom fun i => (hcarries i).2.1
    refine .after hleads' (follows_move hat₂ (fun i => by omega) .bool fun i _ _ _ _ _ _ => ?_)
    have hword : (Value.bool (decide p)).word = 0 := by simp [Value.word, hp]
    rw [hword, ← hdone]
    exact Platform.moves_jump (hcarries i).2.2.1

/-- Comparisons take their operands in one order or the other. -/
theorem simulated_compare {e first second : Expr} {kind : Jump} {f : Value → Value → Prop}
    [∀ x y, Decidable (f x y)] {g : D → D → StateT S (Except E) D} (hfirst : X.Simulated first a)
    (ha : a.isArrow = false) (hsecond : X.Simulated second b) (hb : b.isArrow = false)
    (hsize : e.size = first.size + second.size + 1)
    (heval : X.eval e = X.eval first >>= fun x => X.eval second >>= fun y => g x y)
    (hg : ∀ x y σ, g (X.base x) (X.base y) σ = .ok (X.base (.bool (f x y)), σ))
    (hcode : ∀ g q, e.code g q = compareCode kind (first.code g) (second.code g) q)
    (hjump : ∀ (x y : Value) (w : Platform) {pc target : Nat} {st heap fp ra tm out},
      w.image.ops[pc]? = some (.jump kind target) →
      w.Moves ⟨pc, y.word :: x.word :: st, heap, fp, ra, tm, out, none⟩
        ⟨if f x y then target else pc + 1, st, heap, fp, ra, tm, out, none⟩) :
    X.Simulated e .bool := by
  refine simulated_operands (fun last => ∃ yes done, last = Code.truthValue kind yes done) hfirst ha
    hsecond hb hsize heval ?_ ?_
  · rintro i code ⟨q, q', hcoded⟩
    rw [hcode] at hcoded
    obtain ⟨code₁, s₁, code₂, hcode₁, hcode₂, hcode⟩ := Expr.compareCode_eq_ok.mp hcoded
    exact ⟨code₁, code₂, _, ⟨_, _, hcode₁⟩, ⟨_, _, hcode₂⟩, ⟨_, _, rfl⟩, hcode⟩
  · intro σ pc temps c last x y _ _ _ _ hat hroom hlast hcarries
    rw [hg]
    exact follows_truthValue hlast (fun i => hjump x y (X.machine i)) hat hroom hcarries

/-! ### Branches -/

/-- A jump on a truth value. -/
theorem test {p : Bool} {l : ι → Label}
    (hat : X.At σ pc (fun i => (Value.bool p).word :: temps i) c) (hroom : X.Room temps 2)
    (hpush : ∀ i, (X.machine i).image.ops[pc i]? = some (.push 1))
    (hjump : ∀ i, (X.machine i).image.ops[pc i + 1]? =
      some (.jump .equal ((X.machine i).address (l i))))
    (hplace : ∀ i, pc i + 1 < (X.machine i).address (l i)) :
    ∃ k c', X.Leads k c c' ∧
      X.At σ (fun i => if p then (X.machine i).address (l i) else pc i + 1 + 1) temps c' := by
  obtain ⟨k, c₁, hleads, hat₁⟩ := X.push hat (X.room_cons _ hroom) hpush
  have hlt : ∀ i, pc i + 1 < if p then (X.machine i).address (l i) else pc i + 1 + 1 := by
    intro i
    have := hplace i
    split <;> omega
  obtain ⟨k', c₂, hleads', hat₂⟩ := X.move temps hat₁ hlt fun i _ _ _ _ _ _ => by
    simp only [← Value.word_bool_eq_one]
    exact Platform.moves_equal (hjump i)
  exact ⟨k + k', c₂, X.leads_trans hleads hleads', hat₂⟩

/-- A condition is evaluated and tested, and one of two evaluations follows. -/
theorem follows_test {cond : Expr} {whole yes no : StateT S (Except E) D} {code : ι → List Instr}
    {l : ι → Label} {post : D → S → C → Prop} (hcond : X.Simulated cond a)
    (hbool : X.resolution.hierarchy.isSubtype a .bool)
    (hwhole : Branches X.base whole (X.eval cond) yes no)
    (hcode : ∀ i, cond.Coded X.resolution (X.machine i) X.inClass (code i))
    (hcarries : ∀ i, (X.machine i).Carries (pc i) (code i ++ [.push 1, .jump .equal (l i)]))
    (hplace : ∀ i, pc i + Code.size (code i) + 1 < (X.machine i).address (l i))
    (hsize : X.Room temps cond.size) (hroom : X.Room temps 2) (hat : X.At σ pc temps c)
    (hyes : ∀ σ' c', X.Since σ σ' → X.At σ' (fun i => (X.machine i).address (l i)) temps c' →
      X.Follows (yes σ') c' post)
    (hno : ∀ σ' c', X.Since σ σ' → X.At σ' (fun i => pc i + Code.size (code i) + 1 + 1) temps c' →
      X.Follows (no σ') c' post) :
    X.Follows (whole σ) c post := by
  simp only [Platform.carries_append, Platform.carries_push, Platform.carries_jump] at hcarries
  obtain ⟨next, rfl, rfl, rfl⟩ := hwhole
  refine (hcond hcode (fun i => (hcarries i).1) hsize hat).bind ?_
  intro d σ₁ c₁ hd
  obtain ⟨p, rfl, hsince, hat₁⟩ := hd.truth hbool
  obtain ⟨k, c₂, hleads, hat₂⟩ :=
    test hat₁ hroom (fun i => (hcarries i).2.1) (fun i => (hcarries i).2.2.1) hplace
  refine .after hleads ?_
  cases p with
  | true => exact hyes σ₁ c₂ hsince hat₂
  | false => exact hno σ₁ c₂ hsince hat₂

theorem simulated_or {left right : Expr} (hleft : X.Simulated left a) (hright : X.Simulated right b)
    (hinfer : BinOp.infer X.resolution.hierarchy .or a b pos = .ok t) :
    X.Simulated (.binary .or left right pos) t := by
  intro σ pc temps c code hcoded hcarries hroom hat
  obtain ⟨rfl, ha, hb⟩ := BinOp.infer_logical rfl hinfer
  choose q q' hcode using hcoded
  simp only [Expr.code_or] at hcode
  choose code₁ s₁ code₂ hcode₁ hcode₂ hcode using hcode
  simp only [← hcode] at hcarries ⊢
  have htest := fun i => (Platform.carries_append.mp (Platform.carries_append.mp (hcarries i)).1).1
  simp only [Platform.carries_append, Platform.carries_push, Platform.carries_jump,
    Code.size_append, Code.size_push, ← Nat.add_assoc] at hcarries ⊢
  -- The jump leads into the code for the truth value, to the place where it pushes 1.
  have hinto := fun i => (hcarries i).2.2
  simp only [Code.truthValue, Platform.carries_jump, Platform.carries_push,
    Platform.carries_label] at hinto
  have hyes := fun i => (hinto i).2.2.2.1
  rw [Expr.size] at hroom
  have hpos := left.size_pos
  refine follows_test hleft ha (X.eval_or left right pos) (fun i => ⟨_, _, hcode₁ i⟩) htest
    (fun i => ?_) (X.room_mono hroom (by omega)) (X.room_mono hroom (by omega)) hat ?_ ?_
  · rw [hyes]
    omega
  · intro σ₁ c₁ hsince hat₁
    simp only [hyes] at hat₁
    obtain ⟨k, c₂, hleads, hat₂⟩ :=
      X.push hat₁ (X.room_mono hroom (by omega)) fun i => (hinto i).2.2.2.2.1
    exact follows_since (follows_value hleads .bool hat₂) hsince
  · intro σ₁ c₁ hsince₁ hat₁
    refine (hright (fun i => ⟨_, _, hcode₂ i⟩) (fun i => (hcarries i).1.2)
      (X.room_mono hroom (by omega)) hat₁).bind ?_
    intro d σ₂ c₂ hd
    obtain ⟨p, rfl, hsince₂, hat₂⟩ := hd.truth hb
    obtain ⟨k, c₃, hleads, hat₃⟩ :=
      X.push hat₂ (X.room_cons _ (X.room_mono hroom (by omega))) fun i => (hcarries i).2.1
    have hvalue : X.operate .or (X.base (.bool false)) (X.base (.bool p)) σ₂ =
        .ok (X.base (.bool ((Value.bool p).word = 1)), σ₂) := by
      cases p <;> exact X.operate_ok σ₂ rfl
    rw [hvalue]
    refine .after hleads (follows_since ?_ (X.since_trans hsince₁ hsince₂))
    exact follows_truthValue (fun i => ⟨_, _, rfl⟩) (fun i => Platform.moves_equal) hat₃
      (X.room_mono hroom (by omega)) fun i => (hcarries i).2.2

theorem simulated_not {e : Expr} (he : X.Simulated e a)
    (hbool : X.resolution.hierarchy.isSubtype a .bool) : X.Simulated (.not e pos) .bool := by
  intro σ pc temps c code hcoded hcarries hroom hat
  choose q q' hcode using hcoded
  simp only [Expr.code_not] at hcode
  choose code₁ hcode₁ hcode using hcode
  simp only [← hcode, Platform.carries_append, List.cons_append, Platform.carries_push,
    Platform.carries_bare, Code.size_append, Code.size_push, ← Nat.add_assoc] at hcarries ⊢
  rw [Expr.size] at hroom
  obtain ⟨next, heval, hyes, hno⟩ := X.eval_not e pos
  obtain ⟨k, c₁, hleads, hat₁⟩ :=
    X.push hat (X.room_mono hroom (by omega)) fun i => (hcarries i).1
  rw [heval]
  refine .after hleads ((he (fun i => ⟨_, _, hcode₁ i⟩) (fun i => (hcarries i).2.1)
    (X.room_cons _ hroom) hat₁).bind ?_)
  intro d σ₁ c₂ hd
  obtain ⟨p, rfl, hsince, hat₂⟩ := hd.truth hbool
  have hnext : next (X.base (.bool p)) σ₁ = .ok (X.base (.bool (!p)), σ₁) := by
    cases p with
    | true => rw [hyes]; rfl
    | false => rw [hno]; rfl
  rw [hnext]
  refine follows_since (follows_move hat₂ (fun i => Nat.lt_succ_self _) .bool ?_) hsince
  intro i st heap fp ra tm out
  rw [Value.word_not]
  exact Platform.moves_sub (hcarries i).2.2.1

theorem simulated_ite {cond yes no : Expr} {g : Ty} (hcond : X.Simulated cond g)
    (hbool : X.resolution.hierarchy.isSubtype g .bool) (hyes : X.Simulated yes a)
    (hno : X.Simulated no b) (hjoin : X.resolution.hierarchy.join? a b = some t) :
    X.Simulated (.ite cond yes no pos) t := by
  intro σ pc temps c code hcoded hcarries hroom hat
  choose q q' hcode using hcoded
  simp only [Expr.code_ite] at hcode
  choose code₁ s₁ code₂ s₂ code₃ hcode₁ hcode₂ hcode₃ hcode using hcode
  simp only [← hcode] at hcarries ⊢
  have htest := fun i => (Platform.carries_append.mp (Platform.carries_append.mp
    (Platform.carries_append.mp (Platform.carries_append.mp (hcarries i)).1).1).1).1
  simp only [Platform.carries_append, Platform.carries_push, Platform.carries_jump,
    Platform.carries_label, Code.size_append, ← Nat.add_assoc] at hcarries ⊢
  rw [Expr.size] at hroom
  have hpos := cond.size_pos
  have hpos' := yes.size_pos
  refine follows_test hcond hbool (X.eval_ite cond yes no pos) (fun i => ⟨_, _, hcode₁ i⟩) htest
    (fun i => ?_) (X.room_mono hroom (by omega)) (X.room_mono hroom (by omega)) hat ?_ ?_
  · rw [(hcarries i).1.1.2.2.1]
    have htest : Code.size [.push 1, .jump .equal (.branch (q i).branches)] = 2 := rfl
    omega
  · intro σ₁ c₁ hsince hat₁
    simp only [fun i => (hcarries i).1.1.2.2.1] at hat₁
    refine follows_since ?_ hsince
    refine (hyes (fun i => ⟨_, _, hcode₃ i⟩) (fun i => (hcarries i).1.2)
      (X.room_mono hroom (by omega)) hat₁).mono ?_
    rintro d σ₂ c₂ - ⟨words, hsince', hd, hat₂⟩
    exact ⟨words, hsince', X.shows_join hjoin (.inl hd), hat₂⟩
  · intro σ₁ c₁ hsince hat₁
    refine follows_since ?_ hsince
    refine (hno (fun i => ⟨_, _, hcode₂ i⟩) (fun i => (hcarries i).1.1.1.2)
      (X.room_mono hroom (by omega)) hat₁).followed ?_
    rintro d σ₂ c₂ - ⟨words, hsince', hd, hat₂⟩
    have hlt : ∀ i, pc i + Code.size (code₁ i) + 1 + 1 + Code.size (code₂ i) <
        (X.machine i).address (.branch ((q i).branches + 1)) := by
      intro i
      have hjump : Code.size [.jump .always (.branch ((q i).branches + 1)),
        .label (.branch (q i).branches)] = 1 := rfl
      have htest : Code.size [.push 1, .jump .equal (.branch (q i).branches)] = 2 := rfl
      rw [(hcarries i).2.1]
      omega
    obtain ⟨k, c₃, hleads, hat₃⟩ := X.move (fun i => words ++ temps i) hat₂ hlt
      fun i _ _ _ _ _ _ => Platform.moves_jump (hcarries i).1.1.2.1
    simp only [fun i => (hcarries i).2.1] at hat₃
    exact ⟨k, c₃, hleads, words, hsince', X.shows_join hjoin (.inr hd), hat₃⟩

/-! ### Printing -/

theorem simulated_print {e : Expr} (he : X.Simulated e t) : X.Simulated (.print e pos) t := by
  intro σ pc temps c code hcoded hcarries hroom hat
  choose q q' hcode using hcoded
  simp only [Expr.code_print] at hcode
  choose code₁ hcode₁ hcode using hcode
  simp only [← hcode, Platform.carries_append, Platform.carries_bare, Code.size_append,
    ← Nat.add_assoc] at hcarries ⊢
  rw [Expr.size] at hroom
  rw [X.eval_print]
  refine (he (fun i => ⟨_, _, hcode₁ i⟩) (fun i => (hcarries i).1)
    (X.room_mono hroom (by omega)) hat).bind ?_
  rintro d σ₁ c₁ ⟨words, hsince, hd, hat₁⟩
  obtain ⟨k, c₂, hleads, hat₂, hd', hsince'⟩ := X.print hat₁ hd fun i => (hcarries i).2.1
  exact ⟨k, c₂, hleads, words, X.since_trans hsince hsince', hd', hat₂⟩

/-! ### All operators -/

theorem simulated_binary {op : BinOp} {left right : Expr} (hleft : X.Simulated left a)
    (hright : X.Simulated right b) (hinfer : op.infer X.resolution.hierarchy a b pos = .ok t) :
    X.Simulated (.binary op left right pos) t := by
  obtain ⟨ha, hb⟩ := BinOp.isArrow_operands hinfer
  cases op with
  | add | sub | mul | div | and => exact simulated_bare rfl hleft hright hinfer
  | or => exact simulated_or hleft hright hinfer
  | equal =>
    obtain rfl := BinOp.infer_comparison rfl hinfer
    exact simulated_compare hleft ha hright hb (by rw [Expr.size])
      (X.eval_binary left right pos (by decide) (by decide)) (fun _ _ σ => X.operate_ok σ rfl)
      (fun g q => by rw [Expr.code]) fun _ _ _ => Platform.moves_equal
  | lessEqual =>
    obtain rfl := BinOp.infer_comparison rfl hinfer
    exact simulated_compare hleft ha hright hb (by rw [Expr.size])
      (X.eval_binary left right pos (by decide) (by decide)) (fun _ _ σ => X.operate_ok σ rfl)
      (fun g q => by rw [Expr.code]) fun _ _ _ => Platform.moves_lessEqual
  | greaterEqual =>
    obtain rfl := BinOp.infer_comparison rfl hinfer
    exact simulated_compare (g := fun y x => X.operate .greaterEqual x y) hright hb hleft ha
      (by rw [Expr.size, Nat.add_comm left.size]) (X.eval_greaterEqual left right pos)
      (fun _ _ σ => X.operate_ok σ rfl) (fun g q => by rw [Expr.code])
      fun _ _ _ => Platform.moves_lessEqual

end Setting

end Stackling
