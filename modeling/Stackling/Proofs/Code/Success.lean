import Stackling.Proofs.Code.Emission
import Stackling.Proofs.Resolution.Tables

/-!
# Code generation succeeds

Code generation fails only at a node for which the resolution has nothing. So a resolution that
serves all nodes of a tree has code for the tree, whatever labels have been taken before.
-/

namespace Stackling

/-- A comparison has code if both of its operands have code from every supply of labels. -/
theorem exists_compareCode {kind : Jump} {x y : LabelM (List Instr)}
    (hx : ∀ s, ∃ a s', x s = .ok (a, s')) (hy : ∀ s, ∃ a s', y s = .ok (a, s')) (s : LabelSupply) :
    ∃ code s', compareCode kind x y s = .ok (code, s') := by
  obtain ⟨a, s₁, ha⟩ := hx s.pastTwo
  obtain ⟨b, s₂, hb⟩ := hy s₁
  exact ⟨_, s₂, Expr.compareCode_eq_ok.mpr ⟨a, s₁, b, ha, hb, rfl⟩⟩

mutual

/-- Every expression whose nodes are served has code, whatever labels have been taken before. -/
theorem Expr.exists_code {g : CodeContext} : ∀ (e : Expr), AllServed g.resolution e.nodes → ∀ s,
    ∃ code s', e.code g s = .ok (code, s')
  | .int _ _, _, s => ⟨_, s, Expr.code_int.mpr ⟨rfl, rfl⟩⟩
  | .bool _ _, _, s => ⟨_, s, Expr.code_bool.mpr ⟨rfl, rfl⟩⟩
  | .null _, _, s => ⟨_, s, Expr.code_null.mpr ⟨rfl, rfl⟩⟩
  | .name _ _ _, h, s => by
    rw [Expr.nodes, AllServed.cons] at h
    obtain ⟨b, hb⟩ := h.1
    exact ⟨_, s, Expr.code_name.mpr ⟨b, hb, rfl, rfl⟩⟩
  | .binary op l r _, h, s => by
    rw [Expr.nodes, AllServed.append] at h
    have hl : ∀ s, ∃ a s', l.code g s = .ok (a, s') := l.exists_code h.1
    have hr : ∀ s, ∃ a s', r.code g s = .ok (a, s') := r.exists_code h.2
    cases op with
    | add | sub | mul | div | and =>
      obtain ⟨a, s₁, ha⟩ := hl s
      obtain ⟨b, s₂, hb⟩ := hr s₁
      exact ⟨_, s₂, (Expr.code_bare rfl).mpr ⟨a, s₁, b, ha, hb, rfl⟩⟩
    | or =>
      obtain ⟨a, s₁, ha⟩ := hl s.pastTwo
      obtain ⟨b, s₂, hb⟩ := hr s₁
      exact ⟨_, s₂, Expr.code_or.mpr ⟨a, s₁, b, ha, hb, rfl⟩⟩
    | equal | lessEqual =>
      rw [Expr.code]
      exact exists_compareCode hl hr s
    | greaterEqual =>
      rw [Expr.code]
      exact exists_compareCode hr hl s
  | .not e _, h, s => by
    obtain ⟨a, s', ha⟩ := e.exists_code h s
    exact ⟨_, s', Expr.code_not.mpr ⟨a, ha, rfl⟩⟩
  | .ite c y n _, h, s => by
    rw [Expr.nodes, AllServed.append, AllServed.append] at h
    obtain ⟨cc, s₁, hc⟩ := c.exists_code h.1.1 s.pastTwo
    obtain ⟨cn, s₂, hn⟩ := n.exists_code h.2 s₁
    obtain ⟨cy, s₃, hy⟩ := y.exists_code h.1.2 s₂
    exact ⟨_, s₃, Expr.code_ite.mpr ⟨cc, s₁, cn, s₂, cy, hc, hn, hy, rfl⟩⟩
  | .print e _, h, s => by
    obtain ⟨a, s', ha⟩ := e.exists_code h s
    exact ⟨_, s', Expr.code_print.mpr ⟨a, ha, rfl⟩⟩
  | .call _ _ args _, h, s => by
    rw [Expr.nodes, AllServed.cons] at h
    obtain ⟨b, hb⟩ := h.1
    obtain ⟨a, s', ha⟩ := exists_argumentCode args h.2 s
    exact ⟨_, s', Expr.code_call.mpr ⟨b, a, hb, ha, rfl⟩⟩
  | .send _ _ _ args _, h, s => by
    rw [Expr.nodes, AllServed.cons] at h
    obtain ⟨d, hd⟩ := h.1
    obtain ⟨a, s', ha⟩ := exists_argumentCode args h.2 s
    exact ⟨_, s', Expr.code_send.mpr ⟨d, a, hd, ha, rfl⟩⟩
  | .new _ _ args _, h, s => by
    rw [Expr.nodes, AllServed.cons] at h
    obtain ⟨b, c, hb, hc⟩ := h.1
    obtain ⟨a, s', ha⟩ := exists_valueCode args h.2 s
    exact ⟨_, s', Expr.code_new.mpr ⟨b, c, a, hb, hc, ha, rfl⟩⟩

/-- The arguments of a call have code. The last one comes first, so its labels are taken first. -/
theorem exists_argumentCode {g : CodeContext} :
    ∀ (es : List Expr), AllServed g.resolution (argNodes es) →
    ∀ s, ∃ code s', argumentCode g es s = .ok (code, s')
  | [], _, s => ⟨_, s, argumentCode_nil.mpr ⟨rfl, rfl⟩⟩
  | e :: es, h, s => by
    rw [argNodes, AllServed.append] at h
    obtain ⟨a, s₁, ha⟩ := exists_argumentCode es h.2 s
    obtain ⟨b, s₂, hb⟩ := e.exists_code h.1 s₁
    exact ⟨_, s₂, argumentCode_cons.mpr ⟨a, s₁, b, ha, hb, rfl⟩⟩

/-- The field values of a new object have code, the first one first. -/
theorem exists_valueCode {g : CodeContext} :
    ∀ (es : List Expr), AllServed g.resolution (argNodes es) →
    ∀ s, ∃ code s', valueCode g es s = .ok (code, s')
  | [], _, s => ⟨_, s, valueCode_nil.mpr ⟨rfl, rfl⟩⟩
  | e :: es, h, s => by
    rw [argNodes, AllServed.append] at h
    obtain ⟨a, s₁, ha⟩ := e.exists_code h.1 s
    obtain ⟨b, s₂, hb⟩ := exists_valueCode es h.2 s₁
    exact ⟨_, s₂, valueCode_cons.mpr ⟨a, s₁, b, ha, hb, rfl⟩⟩

end

mutual

/-- Every declaration has code. A class has it from the table that it inherits, if its own entry and
its record are there. -/
theorem Decl.exists_code {g : CodeContext} : ∀ (d : Decl), AllServed g.resolution d.nodes → ∀ q,
    ∃ f q', d.code g q = .ok (f, q')
  | .var d, h, q => by
    rw [Decl.nodes, AllServed.cons] at h
    obtain ⟨a, s', ha⟩ := d.init.exists_code h.2 q.labels
    exact ⟨_, _, Decl.code_var.mpr ⟨a, s', ha, rfl, rfl⟩⟩
  | .fn f, h, q => by
    rw [Decl.nodes, FunDecl.nodes_eq, AllServed.cons] at h
    obtain ⟨r, q', hr⟩ := f.exists_code h.2 q
    exact ⟨_, q', Decl.code_fn.mpr ⟨r, hr, rfl⟩⟩
  | .cls ⟨id, name, superclass, fields, methods, pos⟩, h, q => by
    rw [Decl.nodes_cls, AllServed.append, AllServed.cons] at h
    obtain ⟨⟨⟨⟨entry, he⟩, record, hrecord⟩, -⟩, hm⟩ := h
    obtain ⟨⟨table, bodies⟩, q', hm⟩ :=
      exists_methodCode (g := { g with inClass := true }) methods hm
        (inheritedTable q.tables record) q
    exact ⟨_, _, Decl.code_cls.mpr ⟨entry, record, table, bodies, q', he, hrecord, hm, rfl, rfl⟩⟩

/-- A function has code if what is inside it is served. The entry of the function itself is not
asked for. -/
theorem FunDecl.exists_code {g : CodeContext} :
    ∀ (f : FunDecl), AllServed g.resolution f.innerNodes → ∀ q, ∃ r q', f.code g q = .ok (r, q')
  | ⟨id, name, params, result, decls, body, pos⟩, h, q => by
    rw [FunDecl.innerNodes, AllServed.append, AllServed.append] at h
    obtain ⟨locals, q₁, hlocals⟩ := exists_declCode decls h.1.2 q.pastFunction
    obtain ⟨value, s', hvalue⟩ := body.exists_code h.2 q₁.labels
    exact ⟨_, _, FunDecl.code_eq_ok.mpr ⟨locals, q₁, value, s', hlocals, hvalue, rfl, rfl⟩⟩

/-- A list of declarations has code: each one starts from the state that the one before has left. -/
theorem exists_declCode {g : CodeContext} :
    ∀ (ds : List Decl), AllServed g.resolution (declNodes ds) → ∀ q,
    ∃ f q', declCode g ds q = .ok (f, q')
  | [], _, q => ⟨_, q, declCode_nil.mpr ⟨rfl, rfl⟩⟩
  | d :: ds, h, q => by
    rw [declNodes, AllServed.append] at h
    obtain ⟨a, q₁, ha⟩ := d.exists_code h.1 q
    obtain ⟨b, q₂, hb⟩ := exists_declCode ds h.2 q₁
    exact ⟨_, q₂, declCode_cons.mpr ⟨a, q₁, b, ha, hb, rfl⟩⟩

/-- The methods of a class have code, from every table to put them into. Each one is looked up for
its place in the table. -/
theorem exists_methodCode {g : CodeContext} :
    ∀ (ms : List FunDecl), AllServed g.resolution (methodNodes ms) →
    ∀ table q, ∃ r q', methodCode g table ms q = .ok (r, q')
  | [], _, _, q => ⟨_, q, methodCode_nil.mpr ⟨rfl, rfl⟩⟩
  | m :: ms, h, table, q => by
    rw [methodNodes, FunDecl.nodes_eq, AllServed.append, AllServed.cons] at h
    obtain ⟨⟨⟨entry, he⟩, hm⟩, hms⟩ := h
    obtain ⟨routine, q₁, hroutine⟩ := m.exists_code hm q
    obtain ⟨rest, q₂, hrest⟩ :=
      exists_methodCode ms hms (placeMethod table entry.offset routine.entry) q₁
    exact ⟨_, q₂, methodCode_cons.mpr ⟨entry, routine, q₁, rest, he, hroutine, hrest, rfl⟩⟩

end

/-- A program has a listing as soon as a resolution serves all of its nodes, whether or not it
passes the checker. -/
theorem Program.exists_generate {p : Program} {r : Resolution} (h : AllServed r p.nodes)
    (globalFrame : Int32) :
    ∃ listing, p.generate r globalFrame = .ok listing := by
  rw [Program.nodes, AllServed.append] at h
  obtain ⟨locals, q, hlocals⟩ :=
    exists_declCode (g := { resolution := r, globalFrame }) p.decls h.1 {}
  obtain ⟨value, s', hvalue⟩ :=
    p.body.exists_code (g := { resolution := r, globalFrame }) h.2 q.labels
  exact ⟨_, Program.generate_eq_ok.mpr ⟨locals, q, value, s', hlocals, hvalue, rfl⟩⟩

end Stackling
