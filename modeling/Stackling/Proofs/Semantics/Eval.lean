import Stackling.Tree.Basic

/-!
# What programs mean

A reference evaluator for programs in which functions are not values. Evaluation is by value and
scoping is lexical: a function runs in the bindings that were in force where it is declared, its own
included. Arithmetic is that of machine words. Operands are evaluated from left to right, but those
of `>=` and the arguments of a call from right to left; `&&` evaluates both sides, `||` only as far
as it must.

An object is known by its address, which the program can print and compare, so the heap is part of
the meaning: the fields of an object lie below its address, and a class puts its dispatch table on
the heap when it is declared.

Calls are nested at most so deep as a bound says. An evaluation that would go deeper stops with
`tooDeep`; a larger bound does not change an evaluation that ends.
-/

namespace Stackling

inductive Value where
  | int (n : Int32)
  | bool (b : Bool)
  | null
  | object (address : Nat)
  deriving DecidableEq, Repr, Inhabited

/-- A value as the machine shows it. -/
def Value.word : Value → Int32
  | int n => n
  | bool b => if b then 1 else 0
  | null => -1
  | object address => Int32.ofNat address

/-- A truth value counts as a number. -/
def Value.number? : Value → Option Int32
  | int n => some n
  | bool b => some (if b then 1 else 0)
  | _ => none

/-- Why an evaluation has no value. -/
inductive Stop where
  | divisionByZero
  /-- A method call on `null`. -/
  | nullReceiver
  /-- Calls are nested deeper than the bound. -/
  | tooDeep
  /-- The program has no meaning. -/
  | stuck
  deriving DecidableEq, Repr, Inhabited

/-! ### Bindings and the store -/

/-- What a name stands for. -/
inductive Slot where
  | value (v : Value)
  | field (object position : Nat)
  | function (f : FunDecl)
  /-- A method of the object that a method runs for. -/
  | method (object : Nat)
  | cls (index : Nat)

/-- Names in force, the latest first. -/
abbrev Bindings := List (String × Slot)

/-- What a name stands for, with the bindings up to its own. -/
def find? (name : String) : Bindings → Option (Slot × Bindings)
  | [] => none
  | b :: ρ => if b.1 = name then some (b.2, b :: ρ) else find? name ρ

/-- The class that has the name, whatever the name stands for nearby. -/
def findClass? (name : String) : Bindings → Option Nat
  | [] => none
  | (x, .cls i) :: ρ => if x = name then some i else findClass? name ρ
  | _ :: ρ => findClass? name ρ

/-- A method: the names of the members in force in its body, by place, and the bindings around its
class. -/
structure Method where
  decl : FunDecl
  fields : List String
  methods : List String
  globals : Bindings

/-- A class: where its dispatch table is, and its members by place. -/
structure Class where
  name : String
  table : Nat
  fields : List String
  methods : List (String × Method)

/-- A cell of the heap. -/
inductive Cell where
  | value (v : Value)
  | method (m : Method)
  /-- The cell by whose address an object of the class is known. -/
  | object (cls : Nat)

structure Store where
  heap : List Cell := []
  classes : List Class := []
  output : Array Int32 := #[]

namespace Store

def class? (σ : Store) (object : Nat) : Option Class :=
  match σ.heap[object]? with
  | some (.object i) => σ.classes[i]?
  | _ => none

def method? (σ : Store) (object : Nat) (name : String) : Option Method :=
  (σ.class? object).bind (·.methods.lookup name)

/-- The first field is nearest to the address of the object. -/
def field? (σ : Store) (object position : Nat) : Option Value :=
  match σ.heap[object - 1 - position]? with
  | some (.value v) => some v
  | _ => none

end Store

/-- The value of a name that stands for one. -/
def Slot.read? (σ : Store) : Slot → Option Value
  | .value v => some v
  | .field object position => σ.field? object position
  | _ => none

/-- The names of the members of an object. -/
def memberScope (fields methods : List String) (object : Nat) : Bindings :=
  fields.mapIdx (fun i x => (x, .field object i)) ++ methods.map (·, .method object)

/-- The bindings in which a method of an object runs, before its parameters. -/
def Method.scope (m : Method) (object : Nat) : Bindings :=
  memberScope m.fields m.methods object ++ m.globals

/-! ### Expressions -/

abbrev EvalM := StateT Store (Except Stop)

/-- How a function that is declared in some bindings is called. -/
abbrev Call := FunDecl → Bindings → List Value → EvalM Value

/-- Takes what a partial function has found. -/
def EvalM.some {α : Type} : Option α → EvalM α
  | .some a => pure a
  | none => throw .stuck

/-- The operators on the values of both operands. -/
def BinOp.apply (op : BinOp) (l r : Value) : EvalM Value :=
  match op with
  | .add => return .int ((← .some l.number?) + (← .some r.number?))
  | .sub => return .int ((← .some l.number?) - (← .some r.number?))
  | .mul => return .int ((← .some l.number?) * (← .some r.number?))
  | .div => do
    let m ← .some l.number?
    let n ← .some r.number?
    if n = 0 then throw .divisionByZero else return .int (m / n)
  | .and =>
    match l, r with
    | .bool a, .bool b => return .bool (a && b)
    | _, _ => throw .stuck
  | .or =>
    match l, r with
    | .bool a, .bool b => return .bool (a || b)
    | _, _ => throw .stuck
  | .equal => return .bool (l.word = r.word)
  | .lessEqual => return .bool (l.word ≤ r.word)
  | .greaterEqual => return .bool (r.word ≤ l.word)

/-- Calls a method as the class of the object has it. -/
def invoke (call : Call) (object : Nat) (name : String) (args : List Value) : EvalM Value := do
  let m ← .some ((← get).method? object name)
  call m.decl (m.scope object) args

/-- Makes an object of a class from the values of its fields. -/
def construct (cls : Nat) (fields : List Value) : EvalM Value := do
  let σ ← get
  set { σ with heap := σ.heap ++ fields.reverse.map Cell.value ++ [Cell.object cls] }
  return .object (σ.heap.length + fields.length)

mutual

def Expr.eval (call : Call) (ρ : Bindings) : Expr → EvalM Value
  | .int n _ => return .int n
  | .bool b _ => return .bool b
  | .null _ => return .null
  | .name _ x _ => do
    let (slot, _) ← .some (find? x ρ)
    .some (slot.read? (← get))
  | .binary op left right _ =>
    match op with
    | .or => do
      match ← left.eval call ρ with
      | .bool true => return .bool true
      | a => op.apply a (← right.eval call ρ)
    | .greaterEqual => do
      let b ← right.eval call ρ
      let a ← left.eval call ρ
      op.apply a b
    | _ => do
      let a ← left.eval call ρ
      let b ← right.eval call ρ
      op.apply a b
  | .not operand _ => do
    match ← operand.eval call ρ with
    | .bool b => return .bool (!b)
    | _ => throw .stuck
  | .ite cond yes no _ => do
    match ← cond.eval call ρ with
    | .bool true => yes.eval call ρ
    | .bool false => no.eval call ρ
    | _ => throw .stuck
  | .print value _ => do
    let v ← value.eval call ρ
    modify fun σ => { σ with output := σ.output.push v.word }
    return v
  | .call _ callee args _ => do
    let vs ← evalArgs call ρ args
    match ← .some (find? callee ρ) with
    | (.function f, ρ) => call f ρ vs
    | (.method object, _) => invoke call object callee vs
    | _ => throw .stuck
  | .send _ receiver method args _ => do
    let vs ← evalArgs call ρ args
    let (slot, _) ← .some (find? receiver ρ)
    match ← .some (slot.read? (← get)) with
    | .object object => invoke call object method vs
    | .null => throw .nullReceiver
    | _ => throw .stuck
  | .new _ cls args _ => do
    let vs ← evalFields call ρ args
    let i ← .some (findClass? cls ρ)
    construct i vs

/-- The arguments of a call, the last one first. -/
def evalArgs (call : Call) (ρ : Bindings) : List Expr → EvalM (List Value)
  | [] => return []
  | e :: es => do
    let vs ← evalArgs call ρ es
    return (← e.eval call ρ) :: vs

/-- The field values of an object, the first one first. -/
def evalFields (call : Call) (ρ : Bindings) : List Expr → EvalM (List Value)
  | [] => return []
  | e :: es => do
    let v ← e.eval call ρ
    return v :: (← evalFields call ρ es)

end

/-! ### Declarations and calls -/

/-- A list of names with another one behind it, unless it is there already. -/
def addName (names : List String) (name : String) : List String :=
  if name ∈ names then names else names ++ [name]

/-- Gives an item the place of the one that has its name, or a place behind all others. -/
def putNamed {α : Type} (items : List (String × α)) (name : String) (a : α) : List (String × α) :=
  if name ∈ items.map Prod.fst then items.map fun p => if p.1 = name then (name, a) else p
  else items ++ [(name, a)]

/-- A class that is declared in some bindings, as the class number `index` with a dispatch table at
an address. -/
def ClassDecl.toClass (c : ClassDecl) (parent : Option Class) (ρ : Bindings) (index table : Nat) :
    Class :=
  let fields := (c.fields.map (·.name)).foldl addName (parent.elim [] (·.fields))
  let inherited := parent.elim [] (·.methods)
  let names := (c.methods.map (·.name)).foldl addName (inherited.map Prod.fst)
  let method (f : FunDecl) : Method := ⟨f, fields, names, (c.name, .cls index) :: ρ⟩
  { name := c.name
    table := table
    fields := fields
    methods := c.methods.foldl (fun ms f => putNamed ms f.name (method f)) inherited }

/-- Declares a class and puts its dispatch table on the heap. -/
def defineClass (ρ : Bindings) (c : ClassDecl) : EvalM Nat := do
  let σ ← get
  let parent := (c.superclass.bind (findClass? · ρ)).bind (σ.classes[·]?)
  let cls := c.toClass parent ρ σ.classes.length σ.heap.length
  set { σ with
    heap := σ.heap ++ cls.methods.map (Cell.method ∘ Prod.snd)
    classes := σ.classes ++ [cls] }
  return σ.classes.length

/-- The bindings after some declarations. -/
def evalDecls (call : Call) (ρ : Bindings) : List Decl → EvalM Bindings
  | [] => return ρ
  | .var d :: ds => do
    let v ← d.init.eval call ρ
    evalDecls call ((d.name, .value v) :: ρ) ds
  | .fn f :: ds => evalDecls call ((f.name, .function f) :: ρ) ds
  | .cls c :: ds => do
    let i ← defineClass ρ c
    evalDecls call ((c.name, .cls i) :: ρ) ds

def bindParams : List TypedName → List Value → Bindings → Bindings
  | p :: ps, v :: vs, ρ => bindParams ps vs ((p.name, .value v) :: ρ)
  | _, _, ρ => ρ

/-- Calls that are nested at most `depth` deep. -/
def callAt : (depth : Nat) → Call
  | 0, _, _, _ => throw .tooDeep
  | depth + 1, f, ρ, args =>
    if f.params.length = args.length then do
      let ρ ← evalDecls (callAt depth) (bindParams f.params args ρ) f.decls
      f.body.eval (callAt depth) ρ
    else throw .stuck

/-- Evaluates a program with calls that are nested at most `depth` deep. -/
def Program.eval (depth : Nat) (p : Program) : Except Stop (Value × Store) :=
  (do
    let ρ ← evalDecls (callAt depth) [] p.decls
    p.body.eval (callAt depth) ρ) {}

end Stackling
