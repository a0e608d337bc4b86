import Stackling.Proofs.Cells
import Stackling.Proofs.Resolution.Holds
import Stackling.Proofs.Resolution.Records

/-!
# The numbering of frames

Resolution gives out the offsets of a frame while it walks over the declarations. A declaration
takes its own cells, and nothing that is in it takes any. So the parameters of a function have the
offsets from 1 upwards, and its declarations those from -2 downwards, without a gap.
-/

namespace Stackling

/-! ### What a declaration takes -/

theorem Env.frame_declare {env : Env} {kind : NameKind} {id : NodeId} {name : String}
    {pos : SourcePos} {entry : Entry} :
    (env.declare kind id name pos entry).1.frame = env.frame := by
  unfold declare
  cases env.scopes.declare? name entry <;> rfl

theorem Env.frame_declareLocal {env : Env} {kind : NameKind} {id : NodeId} {name : String}
    {pos : SourcePos} {ty : Ty} :
    (env.declareLocal kind id name pos ty).1.frame =
      (env.frame.allotLocal (Int32.ofNat ty.cells)).2 :=
  frame_declare

/-- A declaration takes its own cells from the frame, with errors or without, whatever is in it. A
class that is not global takes none. -/
theorem Decl.frame_resolve (env : Env) (d : Decl) :
    (d.resolve env).1.frame = (env.frame.allotLocal (Int32.ofNat d.cells)).2 ∨
      (∃ c, d = .cls c) ∧ env.scopes.depth ≠ 0 ∧ (d.resolve env).1.frame = env.frame := by
  cases d with
  | var d =>
    rw [Decl.resolve_var]
    refine .inl (Env.frame_declareLocal.trans ?_)
    rw [WrittenTy.cells_ty, Decl.cells]
  | fn f =>
    rw [Decl.resolve_fn]
    exact .inl Env.frame_declareLocal
  | cls c =>
    rw [Decl.resolve_cls]
    by_cases hdepth : env.scopes.depth = 0
    · rcases Env.classHeader_global hdepth c with ⟨scopes, -, heq⟩ | ⟨-, heq⟩
      · rw [heq]
        exact .inl rfl
      · rw [heq]
        exact .inl rfl
    · refine .inr ⟨⟨c, rfl⟩, hdepth, ?_⟩
      rw [Env.classHeader_eq, if_neg hdepth]

section

variable {r : Resolution} {env : Env}

/-- The entry of a declaration is that of the next free cell. -/
theorem Decl.exists_entry {d : Decl} (hold : r.HoldsAll (d.resolve env).2) :
    ∃ e, r.decls[d.id]? = some e ∧ e.offset = env.frame.nextLocal ∧ e.ty.cells = d.cells := by
  cases d with
  | var d =>
    rw [Decl.resolve_var, Resolution.HoldsAll.append] at hold
    obtain ⟨scopes, -, heq⟩ := Env.declareLocal_errorFree hold.2.errorFree
    rw [heq] at hold
    exact ⟨_, hold.2 _ List.mem_cons_self, rfl, d.declared.cells_ty⟩
  | fn f =>
    rw [Decl.resolve_fn, Resolution.HoldsAll.append] at hold
    obtain ⟨scopes, -, heq⟩ := Env.declareLocal_errorFree hold.1.errorFree
    rw [heq] at hold
    exact ⟨_, hold.1 _ List.mem_cons_self, rfl, rfl⟩
  | cls c =>
    rw [Decl.resolve_cls, Resolution.HoldsAll.append] at hold
    obtain ⟨-, -, -, scopes, -, heq⟩ := Env.classHeader_errorFree hold.1.errorFree
    rw [heq] at hold
    exact ⟨_, hold.1 _ (List.mem_append_right _ List.mem_cons_self), rfl, rfl⟩

/-- Where there are no errors, classes are global and take their cell. -/
theorem Decl.nextLocal_resolve {d : Decl} (h : ErrorFree (d.resolve env).2) :
    (d.resolve env).1.frame.nextLocal = env.frame.nextLocal - Int32.ofNat d.cells := by
  rcases d.frame_resolve env with hframe | ⟨⟨c, rfl⟩, hdepth, -⟩
  · rw [hframe]
    rfl
  · rw [Decl.resolve_cls, ErrorFree.append] at h
    exact absurd (Env.classHeader_errorFree h.1).1 hdepth

/-! ### Declarations -/

/-- The entries of declarations that stand in a frame one below the other, from an offset
downwards. -/
structure Resolution.Locals (r : Resolution) (first : Int) (ds : List Decl) (es : List Entry) :
    Prop where
  entries : ds.map (r.decls[·.id]?) = es.map some
  offset : ∀ (j : Nat) (e : Entry), es[j]? = some e →
    e.offset = Int32.ofInt (first - totalCells Decl.cells (ds.take j))
  tiles : Tiles (es.flatMap Entry.cells) first (totalCells Decl.cells ds)

namespace Resolution.Locals

variable {first : Int} {d : Decl} {ds : List Decl} {e : Entry} {es : List Entry}

theorem nil : r.Locals first [] [] := ⟨rfl, nofun, .of_eq rfl⟩

theorem cons (hentry : r.decls[d.id]? = some e) (hoffset : e.offset = Int32.ofInt first)
    (hcells : e.ty.cells = d.cells) (hrest : r.Locals (first - d.cells) ds es) :
    r.Locals first (d :: ds) (e :: es) where
  entries := by rw [List.map_cons, List.map_cons, hentry, hrest.entries]
  offset := by
    intro j e' hj
    cases j with
    | zero =>
      obtain rfl : e = e' := Option.some.inj hj
      rw [List.take_zero, totalCells_nil, Int.natCast_zero, Int.sub_zero, hoffset]
    | succ j =>
      rw [hrest.offset j e' hj, List.take_succ_cons, totalCells_cons, Int.natCast_add, Int.sub_sub]
  tiles := by
    refine .of_eq ?_
    rw [List.flatMap_cons, totalCells_cons, downFrom_add, Entry.cells_eq_downFrom hoffset, hcells,
      hrest.tiles.eq_downFrom]

/-- The entry that the table has for a declaration is the one in its place. -/
theorem offset_of_decl (h : r.Locals first ds es) {j : Nat} (hd : ds[j]? = some d)
    (he : r.decls[d.id]? = some e) :
    e.offset = Int32.ofInt (first - totalCells Decl.cells (ds.take j)) := by
  have hj := congrArg (·[j]?) h.entries
  simp only [List.getElem?_map, hd, Option.map_some, he] at hj
  obtain ⟨e', hes, heq⟩ := Option.map_eq_some_iff.mp hj.symm
  obtain rfl : e' = e := Option.some.inj heq
  exact h.offset j e' hes

end Resolution.Locals

theorem exists_locals {ds : List Decl} {first : Int} (hold : r.HoldsAll (resolveDecls env ds).2)
    (hfirst : env.frame.nextLocal = Int32.ofInt first) : ∃ es, r.Locals first ds es := by
  induction ds generalizing env first with
  | nil => exact ⟨[], .nil⟩
  | cons d ds ih =>
    rw [resolveDecls_cons, Resolution.HoldsAll.append] at hold
    obtain ⟨e, hentry, hoffset, hcells⟩ := Decl.exists_entry hold.1
    have hnext : (d.resolve env).1.frame.nextLocal = Int32.ofInt (first - d.cells) := by
      rw [Decl.nextLocal_resolve hold.1.errorFree, hfirst, Int32.ofInt_sub, Int32.ofInt_eq_ofNat]
    obtain ⟨es, hrest⟩ := ih hold.2 hnext
    exact ⟨e :: es, .cons hentry (hoffset.trans hfirst) hcells hrest⟩

/-! ### Parameters -/

/-- The entries of parameters that stand in a frame one above the other, with some cells below
them. -/
structure Resolution.Params (r : Resolution) (below : Int) (ps : List TypedName) (es : List Entry) :
    Prop where
  entries : ps.map (r.decls[·.id]?) = es.map some
  ty : es.map (·.ty) = ps.map (·.declared.ty)
  tiles : Tiles (es.reverse.flatMap Entry.cells) (below + totalCells (·.declared.cells) ps)
    (totalCells (·.declared.cells) ps)

namespace Resolution.Params

variable {below : Int} {p : TypedName} {ps : List TypedName} {e : Entry} {es : List Entry}

theorem nil : r.Params below [] [] := ⟨rfl, rfl, .of_eq rfl⟩

theorem cons (hentry : r.decls[p.id]? = some e) (hty : e.ty = p.declared.ty)
    (hoffset : e.offset = Int32.ofInt (below + p.declared.cells))
    (hrest : r.Params (below + p.declared.cells) ps es) :
    r.Params below (p :: ps) (e :: es) where
  entries := by rw [List.map_cons, List.map_cons, hentry, hrest.entries]
  ty := by rw [List.map_cons, List.map_cons, hty, hrest.ty]
  tiles := by
    have hcells : e.ty.cells = p.declared.cells := by rw [hty, WrittenTy.cells_ty]
    refine .of_eq ?_
    -- the last parameter is the highest one
    rw [List.reverse_cons, List.flatMap_append, List.flatMap_singleton, totalCells_cons,
      Nat.add_comm, downFrom_add, hrest.tiles.eq_downFrom, Entry.cells_eq_downFrom hoffset, hcells,
      Int.natCast_add]
    congr 2 <;> omega

end Resolution.Params

theorem Env.exists_params {ps : List TypedName} {below : Int}
    (hold : r.HoldsAll (env.declareParams ps).2)
    (hbelow : env.frame.nextParam = Int32.ofInt (below + 1)) :
    (∃ es, r.Params below ps es) ∧
    (env.declareParams ps).1.frame.nextLocal = env.frame.nextLocal := by
  induction ps generalizing env below with
  | nil => exact ⟨⟨[], .nil⟩, rfl⟩
  | cons p ps ih =>
    rw [Env.declareParams_cons] at hold ⊢
    rw [Resolution.HoldsAll.append] at hold
    obtain ⟨scopes, -, heq⟩ := Env.declareParam_errorFree hold.1.errorFree
    rw [heq] at hold ⊢
    have hoffset : (env.paramEntry p.declared.ty).offset =
        Int32.ofInt (below + p.declared.cells) := by
      change env.frame.nextParam + (Int32.ofNat p.declared.ty.cells - 1) = _
      rw [hbelow, WrittenTy.cells_ty, Int32.ofInt_add, Int32.ofInt_add, Int32.ofInt_eq_ofNat,
        Int32.add_assoc,
        show Int32.ofInt 1 = 1 from rfl, Int32.add_comm 1, Int32.sub_add_cancel]
    have hnext : (env.frame.allotParam (Int32.ofNat p.declared.ty.cells)).2.nextParam =
        Int32.ofInt (below + p.declared.cells + 1) := by
      rw [Int32.ofInt_add _ 1, ← hoffset]
      rfl
    obtain ⟨⟨es, hrest⟩, hlocal⟩ := ih hold.2 hnext
    exact ⟨⟨_, .cons (hold.1 _ List.mem_cons_self) rfl hoffset hrest⟩, hlocal⟩

/-! ### Functions -/

/-- The parameters of a function have the offsets from 1 upwards, its declarations those from -2
downwards. -/
structure FunDecl.Framed (r : Resolution) (f : FunDecl) : Prop where
  params : ∃ es, r.Params 0 f.params es
  locals : ∃ es, r.Locals (-2) f.decls es

theorem FunDecl.framed_of_holdsAll {f : FunDecl} (hold : r.HoldsAll (f.resolve env)) :
    f.Framed r := by
  rw [FunDecl.resolve_eq, Resolution.HoldsAll.append, Resolution.HoldsAll.append] at hold
  obtain ⟨hparams, hlocal⟩ := @Env.exists_params _ _ _ 0 hold.1.1 rfl
  exact ⟨hparams, exists_locals hold.1.2 hlocal⟩

end

namespace Program

variable {p : Program}

/-- All functions and methods of a program without errors have their cells without a gap. -/
theorem framed (hdistinct : p.Distinct) (h : p.resolve.errors = []) {f : FunDecl}
    (hf : .fn f ∈ p.nodes) :
    f.Framed p.resolve := by
  obtain ⟨env, hold⟩ := exists_holdsAll hdistinct h hf
  exact FunDecl.framed_of_holdsAll hold

/-- So have its global declarations. -/
theorem exists_globals (hdistinct : p.Distinct) (h : p.resolve.errors = []) :
    ∃ es, p.resolve.Locals (-2) p.decls es := by
  have hold := holdsAll hdistinct h
  rw [findings, Resolution.HoldsAll.append] at hold
  exact exists_locals hold.1 rfl

end Program

end Stackling
