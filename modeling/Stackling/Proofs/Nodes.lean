import Mathlib.Data.List.Nodup
import Stackling.Tree.Basic

/-!
# Numbered nodes of a program

The nodes that carry a number are the uses of names and the declarations. What a program may look
like is said here through the list of its nodes: numbers are used for one node only, annotations
are free of function types, and so on.
-/

namespace Stackling

/-- A node with a number, together with everything below it. -/
inductive Node where
  /-- An expression that uses a name. -/
  | use (id : NodeId) (e : Expr)
  | typed (t : TypedName)
  | var (d : VarDecl)
  | fn (f : FunDecl)
  | cls (c : ClassDecl)

/-- The number of a node, by which the tables know it. -/
def Node.id : Node → NodeId
  | use id _ => id
  | typed t => t.id
  | var d => d.id
  | fn f => f.id
  | cls c => c.id

mutual

/-- The nodes of an expression, which are its uses of names. -/
def Expr.nodes : Expr → List Node
  | .int _ _ | .bool _ _ | .null _ => []
  | .name id name pos => [.use id (.name id name pos)]
  | .binary _ left right _ => left.nodes ++ right.nodes
  | .not operand _ => operand.nodes
  | .ite cond yes no _ => cond.nodes ++ yes.nodes ++ no.nodes
  | .call id callee args pos => .use id (.call id callee args pos) :: argNodes args
  | .send id receiver method args pos =>
    .use id (.send id receiver method args pos) :: argNodes args
  | .new id cls args pos => .use id (.new id cls args pos) :: argNodes args
  | .print value _ => value.nodes

/-- The nodes of the arguments of a call. -/
def argNodes : List Expr → List Node
  | [] => []
  | e :: es => e.nodes ++ argNodes es

end

mutual

/-- All nodes of an expression are uses. -/
theorem Expr.exists_use_of_mem {n : Node} : ∀ e : Expr, n ∈ e.nodes → ∃ id u, n = .use id u
  | .int _ _, h | .bool _ _, h | .null _, h => by simp [Expr.nodes] at h
  | .name _ _ _, h => ⟨_, _, List.mem_singleton.mp h⟩
  | .binary _ l r _, h => (List.mem_append.mp h).elim l.exists_use_of_mem r.exists_use_of_mem
  | .not e _, h | .print e _, h => e.exists_use_of_mem h
  | .ite c y e _, h => by
    rw [Expr.nodes, List.mem_append, List.mem_append] at h
    rcases h with (h | h) | h
    · exact c.exists_use_of_mem h
    · exact y.exists_use_of_mem h
    · exact e.exists_use_of_mem h
  | .call _ _ args _, h | .send _ _ _ args _, h | .new _ _ args _, h => by
    rcases List.mem_cons.mp h with rfl | h
    · exact ⟨_, _, rfl⟩
    · exact args_exists_use_of_mem args h

theorem args_exists_use_of_mem {n : Node} :
    ∀ es : List Expr, n ∈ argNodes es → ∃ id u, n = .use id u
  | [], h => by simp [argNodes] at h
  | e :: es, h => (List.mem_append.mp h).elim e.exists_use_of_mem (args_exists_use_of_mem es)

end

theorem Expr.cls_notMem_nodes (c : ClassDecl) (e : Expr) : .cls c ∉ e.nodes := by
  intro h
  obtain ⟨_, _, ⟨⟩⟩ := e.exists_use_of_mem h

theorem Expr.fn_notMem_nodes (f : FunDecl) (e : Expr) : .fn f ∉ e.nodes := by
  intro h
  obtain ⟨_, _, ⟨⟩⟩ := e.exists_use_of_mem h

mutual

/-- The nodes of a declaration, itself included. -/
def Decl.nodes : Decl → List Node
  | .var d => .var d :: d.init.nodes
  | .fn f => f.nodes
  | .cls ⟨id, name, superclass, fields, methods, pos⟩ =>
    .cls ⟨id, name, superclass, fields, methods, pos⟩ :: fields.map .typed ++ methodNodes methods

/-- The nodes of a function, itself included. -/
def FunDecl.nodes : FunDecl → List Node
  | ⟨id, name, params, result, decls, body, pos⟩ =>
    .fn ⟨id, name, params, result, decls, body, pos⟩ :: params.map .typed ++ declNodes decls ++
      body.nodes

/-- The nodes of several declarations. -/
def declNodes : List Decl → List Node
  | [] => []
  | d :: ds => d.nodes ++ declNodes ds

/-- The nodes of the methods of a class. -/
def methodNodes : List FunDecl → List Node
  | [] => []
  | m :: ms => m.nodes ++ methodNodes ms

end

/-- The nodes below a function. -/
def FunDecl.innerNodes (f : FunDecl) : List Node :=
  f.params.map .typed ++ declNodes f.decls ++ f.body.nodes

theorem FunDecl.nodes_eq (f : FunDecl) : f.nodes = .fn f :: f.innerNodes := by
  cases f
  rw [FunDecl.nodes]
  rfl

theorem methodNodes_eq (ms : List FunDecl) : methodNodes ms = ms.flatMap FunDecl.nodes := by
  induction ms with
  | nil => rfl
  | cons m ms ih => rw [methodNodes, ih, List.flatMap_cons]

theorem Decl.nodes_cls (c : ClassDecl) :
    (Decl.cls c).nodes = .cls c :: c.fields.map .typed ++ methodNodes c.methods := by
  cases c
  rw [Decl.nodes]

/-- The annotation at the node is no function type. -/
def Node.FirstOrder : Node → Prop
  | typed t => t.declared.isArrow = false
  | var d => d.declared.isArrow = false
  | fn f => f.result.isArrow = false
  | use _ _ | cls _ => True

instance : DecidablePred Node.FirstOrder
  | .typed _ => inferInstanceAs (Decidable (_ = _))
  | .var _ => inferInstanceAs (Decidable (_ = _))
  | .fn _ => inferInstanceAs (Decidable (_ = _))
  | .use _ _ => inferInstanceAs (Decidable True)
  | .cls _ => inferInstanceAs (Decidable True)

/-- Whether a node is the declaration of a class. -/
def Node.isClass : Node → Bool
  | cls _ => true
  | _ => false

namespace Program

/-- The nodes of a program. -/
def nodes (p : Program) : List Node := declNodes p.decls ++ p.body.nodes

/-- Different nodes have different numbers, though a node may stand in several places. -/
def Built (p : Program) : Prop := ∀ m ∈ p.nodes, ∀ n ∈ p.nodes, m.id = n.id → m = n

/-- No number occurs twice. -/
def Distinct (p : Program) : Prop := (p.nodes.map Node.id).Nodup

/-- No annotation is a function type. -/
def FirstOrder (p : Program) : Prop := ∀ n ∈ p.nodes, n.FirstOrder

/-- No class is declared. -/
def ClassFree (p : Program) : Prop := ∀ c, .cls c ∉ p.nodes

instance (p : Program) : Decidable p.Distinct := inferInstanceAs (Decidable (List.Nodup _))

instance (p : Program) : Decidable p.FirstOrder :=
  inferInstanceAs (Decidable (∀ n ∈ p.nodes, n.FirstOrder))

instance (p : Program) : Decidable p.ClassFree :=
  decidable_of_iff (∀ n ∈ p.nodes, n.isClass = false) (by
    constructor
    · exact fun h c hc => Bool.noConfusion (h _ hc)
    · intro h n hn
      cases n with
      | cls c => exact absurd hn (h c)
      | use | typed | var | fn => rfl)

/-- Where no number occurs twice, different nodes have different numbers. -/
theorem Distinct.built {p : Program} (h : p.Distinct) : p.Built := by
  intro m hm n hn hid
  exact List.inj_on_of_nodup_map h hm hn hid

end Program

end Stackling
