import Stackling.Proofs.Classes.Arrangement
import Stackling.Proofs.Resolution.Holds
import Stackling.Proofs.Resolution.Occurrences
import Stackling.Proofs.Resolution.Records
import Stackling.Proofs.Typing.Rules

/-!
# Agreement of findings and occurrences

What it means that the findings at some nodes agree with the occurrences of names there, and that an
environment is what can be seen from a place. A use agrees in such an environment, and a declaration
leads to another one. Errors are not left out: a name that is declared twice stays what it was.
-/

namespace Stackling

/-! ### Agreement -/

/-- Errors about names that have no declaration, or two in one scope. Classes of which objects are
made or methods called are not looked up in scopes. -/
def ScopeError.isScoping : ScopeError → Bool
  | undeclared kind _ _ => kind ≠ .cls
  | redeclared _ _ _ => true
  | _ => false

/-- The node that a finding binds to a declaration. -/
def Finding.bound? : Finding → Option NodeId
  | use id _ | send id _ => some id
  | _ => none

def Occurrence.unbound? : Occurrence → Option NodeId
  | use u => if u.target?.isNone then some u.id else none
  | declaration _ _ _ _ => none

/-- The use is the one that the expression looks up. -/
def Expr.LooksUp : Expr → NameUse → Prop
  | .name id x pos, u =>
    u.id = id ∧ u.kind = .identifier ∧ u.name = x ∧ u.pos = pos ∧ u.method = none
  | .call id callee _ pos, u =>
    u.id = id ∧ u.kind = .function ∧ u.name = callee ∧ u.pos = pos ∧ u.method = none
  | .send id receiver method _ pos, u =>
    u.id = id ∧ u.kind = .identifier ∧ u.name = receiver ∧ u.pos = pos ∧ u.method = some method
  | _, _ => False

namespace NameUse

/-- A method call is refused for the type of its receiver. -/
def Refused (u : NameUse) (method : String) (ty : Ty) (e : ScopeError) : Prop :=
  e = .notAnObject u.name u.pos ∧ (∀ cls, ty ≠ .ref cls) ∨
    ∃ cls, ty = .ref cls ∧ (e = .undeclared .cls cls u.pos ∨ e = .undeclaredMethod cls method u.pos)

/-- The use has this binding. A receiver has it as a part of its method call, unless the call is
refused. -/
def Binds (r : Resolution) (errors : List ScopeError) (u : NameUse) (b : Binding) : Prop :=
  match u.method with
  | none => r.uses[u.id]? = some b
  | some method => (∃ cls entry, b.entry.ty = .ref cls ∧ r.sends[u.id]? = some ⟨b, cls, entry⟩) ∨
    ∃ e ∈ errors, u.Refused method b.entry.ty e

/-- The use is bound to the entry of its declaration, across as many depths as there are scopes
between. -/
def Resolved (r : Resolution) (errors : List ScopeError) (u : NameUse) : Prop :=
  ∀ hops d, u.target? = some (hops, d) →
    ∃ entry, r.decls[d]? = some entry ∧ entry.depth + hops = u.depth ∧
    u.Binds r errors ⟨entry, u.depth⟩

theorem Resolved.mono {r : Resolution} {errors more : List ScopeError} {u : NameUse}
    (h : u.Resolved r errors) (hsub : ∀ e ∈ errors, e ∈ more) : u.Resolved r more := by
  intro hops d htarget
  obtain ⟨entry, hentry, hdepth, hbinds⟩ := h hops d htarget
  refine ⟨entry, hentry, hdepth, ?_⟩
  unfold Binds at hbinds ⊢
  split
  next hmethod =>
    rw [hmethod] at hbinds
    exact hbinds
  next method hmethod =>
    rw [hmethod] at hbinds
    exact hbinds.imp_right fun ⟨e, he, hrefused⟩ => ⟨e, hsub e he, hrefused⟩

end NameUse

/-- What is found at some nodes agrees with the occurrences of names there. A node is bound or it is
a use without a declaration, but not both. -/
structure Agrees (r : Resolution) (occurrences : List Occurrence) (found : List Finding)
    (nodes : List Node) : Prop where
  errors : (found.filterMap Finding.error?).filter ScopeError.isScoping =
    occurrences.filterMap Occurrence.error?
  resolved : ∀ u, .use u ∈ occurrences → u.Resolved r (found.filterMap Finding.error?)
  single : ∀ id, (found.filterMap Finding.bound?).count id +
    (occurrences.filterMap Occurrence.unbound?).count id ≤ (nodes.map Node.id).count id
  covers : ∀ id e, .use id e ∈ nodes → (∃ cls args pos, e = .new id cls args pos) ∨
    ∃ u, .use u ∈ occurrences ∧ e.LooksUp u

namespace Agrees

variable {r : Resolution} {os os' : List Occurrence} {found found' : List Finding}
  {ns ns' : List Node}

theorem append (h : Agrees r os found ns) (h' : Agrees r os' found' ns') :
    Agrees r (os ++ os') (found ++ found') (ns ++ ns') := by
  constructor
  case errors =>
    rw [List.filterMap_append, List.filterMap_append, List.filter_append, h.errors, h'.errors]
  case resolved =>
    intro u hu
    rw [List.filterMap_append]
    rcases List.mem_append.mp hu with hu | hu
    · exact (h.resolved u hu).mono fun e he => List.mem_append_left _ he
    · exact (h'.resolved u hu).mono fun e he => List.mem_append_right _ he
  case single =>
    intro id
    rw [List.filterMap_append, List.filterMap_append, List.map_append, List.count_append,
      List.count_append, List.count_append]
    have hfirst := h.single id
    have hsecond := h'.single id
    omega
  case covers =>
    intro id e he
    rcases List.mem_append.mp he with he | he
    · exact (h.covers id e he).imp_right fun ⟨u, hu, hlooks⟩ =>
        ⟨u, List.mem_append_left _ hu, hlooks⟩
    · exact (h'.covers id e he).imp_right fun ⟨u, hu, hlooks⟩ =>
        ⟨u, List.mem_append_right _ hu, hlooks⟩

theorem perm (h : Agrees r os found ns) (hperm : ns.Perm ns') : Agrees r os found ns' := by
  refine ⟨h.errors, h.resolved, fun id => ?_, fun id e he => h.covers id e (hperm.mem_iff.mpr he)⟩
  rw [← (hperm.map Node.id).count_eq]
  exact h.single id

/-- Findings that concern no scope. -/
theorem silent (hbound : found.filterMap Finding.bound? = [])
    (herrors : (found.filterMap Finding.error?).filter ScopeError.isScoping = [])
    (hnodes : ∀ id e, .use id e ∉ ns) : Agrees r [] found ns := by
  refine ⟨herrors, nofun, fun id => ?_, fun id e he => absurd he (hnodes id e)⟩
  rw [hbound]
  exact Nat.zero_le _

theorem nil : Agrees r [] [] [] := silent rfl rfl nofun

/-- A use without a declaration. -/
theorem undeclared {u : NameUse} {e : Expr} (hlooks : e.LooksUp u) (hkind : u.kind ≠ .cls)
    (htarget : u.target? = none) :
    Agrees r [.use u] [.error (.undeclared u.kind u.name u.pos)] [.use u.id e] := by
  constructor
  case errors => simp [Finding.error?, Occurrence.error?, htarget, ScopeError.isScoping, hkind]
  case resolved =>
    intro u' hu' hops d hsome
    cases List.mem_singleton.mp hu'
    rw [htarget] at hsome
    cases hsome
  case single =>
    intro id
    have hnone : [Finding.error (.undeclared u.kind u.name u.pos)].filterMap Finding.bound? = [] :=
      rfl
    simp [hnone, Occurrence.unbound?, htarget, Node.id]
  case covers =>
    intro id e' he'
    cases List.mem_singleton.mp he'
    exact .inr ⟨u, List.mem_cons_self, hlooks⟩

/-- A use that is bound, or refused for another reason than scopes. -/
theorem declared {u : NameUse} {e : Expr} {f : Finding} (hlooks : e.LooksUp u) {hops : Nat}
    {d : NodeId} (htarget : u.target? = some (hops, d)) (hid : ∀ id, f.bound? = some id → id = u.id)
    (herror : ∀ e, f.error? = some e → e.isScoping = false)
    (hresolved : u.Resolved r ([f].filterMap Finding.error?)) :
    Agrees r [.use u] [f] [.use u.id e] := by
  constructor
  case errors =>
    cases hf : f.error? with
    | none => simp [hf, Occurrence.error?, htarget]
    | some e' => simp [hf, herror e' hf, Occurrence.error?, htarget]
  case resolved =>
    intro u' hu'
    cases List.mem_singleton.mp hu'
    exact hresolved
  case single =>
    intro id
    cases hf : f.bound? with
    | none => simp [hf, Occurrence.unbound?, htarget]
    | some id' =>
      obtain rfl := hid id' hf
      simp [hf, Occurrence.unbound?, htarget, Node.id]
  case covers =>
    intro id e' he'
    cases List.mem_singleton.mp he'
    exact .inr ⟨u, List.mem_cons_self, hlooks⟩

end Agrees

/-! ### Scopes -/

/-- The scope has the entries of the declarations, and they have its depth. -/
def Level.Mirrors (r : Resolution) (depth : Nat) (l : Level) (s : Scope) : Prop :=
  ∀ x, Option.Rel (fun d e => r.decls[d]? = some e ∧ e.depth = depth) (l.find? x) s[x]?

/-- Scopes and their declarations, one by one. -/
def levelsMirror (r : Resolution) : List Level → List Scope → Prop
  | [], [] => True
  | l :: ls, s :: ss => l.Mirrors r ss.length s ∧ levelsMirror r ls ss
  | _, _ => False

/-- The layout has the members of the table. -/
def MemberTable.Mirrors (r : Resolution) (t : MemberTable) (l : ObjectLayout) : Prop :=
  ∀ x, Option.Rel (fun (o : OwnMember) (m : Member) => r.decls[o.id]? = some m.entry ∧
    m.entry.ty = o.ty ∧ m.entry.depth = ObjectLayout.memberDepth) (t x) l.members[x]?

/-- An environment is what can be seen, in entries. -/
structure View.Mirrors (r : Resolution) (v : View) (env : Env) : Prop where
  levels : levelsMirror r v.levels env.scopes.stack
  classes : ∀ x, Option.Rel (MemberTable.Mirrors r) (v.classes x)
    (env.classes.records[x]?.map (·.layout))

namespace levelsMirror

variable {r : Resolution}

theorem length_eq :
    ∀ {ls : List Level} {ss : List Scope}, levelsMirror r ls ss → ls.length = ss.length
  | [], [], _ => rfl
  | _ :: _, _ :: _, h => congrArg (· + 1) (length_eq h.2)

/-- A name is found in the same scope. -/
theorem lookup : ∀ {ls : List Level} {ss : List Scope}, levelsMirror r ls ss → ∀ x,
    Option.Rel (fun t e => r.decls[t.2]? = some e ∧ e.depth + t.1 + 1 = ss.length)
      (declaration? ls x) (ss.findSome? (·[x]?))
  | [], [], _, _ => .none
  | l :: ls, s :: ss, h, x => by
    rw [declaration?, List.findSome?_cons]
    have hhere := h.1 x
    generalize l.find? x = found, s[x]? = entry at hhere
    cases hhere with
    | some hd => exact .some ⟨hd.1, congrArg (· + 1) hd.2⟩
    | none =>
      have hthere := lookup h.2 x
      generalize declaration? ls x = found, ss.findSome? (·[x]?) = entry at hthere
      cases hthere with
      | some hd =>
        refine .some ⟨hd.1, ?_⟩
        rw [List.length_cons, ← hd.2]
        rfl
      | none => exact .none

end levelsMirror

namespace View.Mirrors

variable {r : Resolution} {v : View} {env : Env}

theorem depth_eq (h : v.Mirrors r env) : v.levels.length - 1 = env.scopes.depth := by
  rw [h.levels.length_eq]
  rfl

/-- A use of a name that is in scope, and one of a name that is not. -/
theorem use? (h : v.Mirrors r env) (x : String) :
    (∃ hops d entry, declaration? v.levels x = some (hops, d) ∧ env.scopes.use? x = some ⟨entry,
      env.scopes.depth⟩ ∧ r.decls[d]? = some entry ∧ entry.depth + hops = v.levels.length - 1) ∨
    declaration? v.levels x = none ∧ env.scopes.use? x = none := by
  have hlookup := h.levels.lookup x
  unfold Scopes.use? Scopes.lookup?
  generalize declaration? v.levels x = found, env.scopes.stack.findSome? (·[x]?) = entry at hlookup
  cases hlookup with
  | some hd =>
    refine .inl ⟨_, _, _, rfl, rfl, hd.1, ?_⟩
    rw [h.levels.length_eq, ← hd.2]
    rfl
  | none => exact .inr ⟨rfl, rfl⟩

end View.Mirrors

/-! ### Expressions -/

section Uses

variable {r : Resolution} {v : View} {env : Env} {id : NodeId} {x : String} {pos : SourcePos}

theorem useName_agrees (h : v.Mirrors r env) {kind : NameKind}
    (hkeeps : r.Keeps [env.useName kind id x pos]) {e : Expr}
    (hlooks : e.LooksUp { id, kind, name := x, pos, levels := v.levels }) (hkind : kind ≠ .cls) :
    Agrees r [.use { id, kind, name := x, pos, levels := v.levels }] [env.useName kind id x pos]
      [.use id e] := by
  unfold Env.useName at hkeeps ⊢
  rcases h.use? x with ⟨hops, d, entry, htarget, huse, hentry, hdepth⟩ | ⟨htarget, huse⟩
  · rw [huse] at hkeeps ⊢
    refine Agrees.declared hlooks htarget (fun _ hid => (Option.some.inj hid).symm) nofun ?_
    intro hops' d' htarget'
    cases htarget.symm.trans htarget'
    refine ⟨entry, hentry, hdepth, ?_⟩
    have hheld : r.uses[id]? = some ⟨entry, env.scopes.depth⟩ := hkeeps _ List.mem_cons_self nofun
    rw [← h.depth_eq] at hheld
    exact hheld
  · rw [huse]
    exact Agrees.undeclared hlooks hkind htarget

/-- A receiver is looked up like any other name; what comes then depends on its type. -/
theorem useMethod_agrees (h : v.Mirrors r env) {method : String}
    (hkeeps : r.Keeps [env.useMethod id x method pos]) {args : List Expr} :
    Agrees r
      [.use { id, kind := .identifier, name := x, pos, method := some method, levels := v.levels }]
      [env.useMethod id x method pos] [.use id (.send id x method args pos)] := by
  have hlooks : (Expr.send id x method args pos).LooksUp
      { id, kind := .identifier, name := x, pos, method := some method, levels := v.levels } :=
      ⟨rfl, rfl, rfl, rfl, rfl⟩
  unfold Env.useMethod at hkeeps ⊢
  rcases h.use? x with ⟨hops, d, entry, htarget, huse, hentry, hdepth⟩ | ⟨htarget, huse⟩
  · rw [huse] at hkeeps ⊢
    dsimp only at hkeeps ⊢
    -- the name is bound by its scopes alone, also where the call is refused for its type
    have hrefuse : ∀ e : ScopeError, e.isScoping = false →
        NameUse.Refused
          { id, kind := .identifier, name := x, pos, method := some method, levels := v.levels }
          method entry.ty e →
        Agrees r
          [.use { id, kind := .identifier, name := x, pos, method := some method,
                  levels := v.levels }]
          [.error e] [.use id (.send id x method args pos)] := by
      intro e he hrefused
      refine Agrees.declared hlooks htarget nofun ?_ ?_
      · rintro _ ⟨⟩
        exact he
      · intro hops' d' htarget'
        cases htarget.symm.trans htarget'
        exact ⟨entry, hentry, hdepth, .inr ⟨e, List.mem_cons_self, hrefused⟩⟩
    cases hty : entry.ty with
    | ref cls =>
      rw [hty] at hkeeps
      dsimp only at hkeeps ⊢
      cases hrecord : env.classes.records[cls]? with
      | none => exact hrefuse _ rfl (.inr ⟨cls, hty, .inl rfl⟩)
      | some record =>
        rw [hrecord] at hkeeps
        dsimp only at hkeeps ⊢
        cases hmember : record.layout.method? method with
        | none => exact hrefuse _ rfl (.inr ⟨cls, hty, .inr rfl⟩)
        | some member =>
          rw [hmember] at hkeeps
          refine Agrees.declared hlooks htarget (fun _ hid => (Option.some.inj hid).symm) nofun ?_
          intro hops' d' htarget'
          cases htarget.symm.trans htarget'
          have hheld : r.sends[id]? = some ⟨⟨entry, env.scopes.depth⟩, cls, member.entry⟩ :=
            hkeeps _ List.mem_cons_self nofun
          rw [← h.depth_eq] at hheld
          exact ⟨entry, hentry, hdepth, .inl ⟨cls, member.entry, hty, hheld⟩⟩
    | int | bool | null | arrow | method | cls =>
      refine hrefuse _ rfl (.inl ⟨rfl, fun cls hcls => ?_⟩)
      cases hty.symm.trans hcls
  · rw [huse]
    exact Agrees.undeclared hlooks nofun htarget

/-- The class of an object that is made is not looked up in scopes. -/
theorem useClass_agrees {args : List Expr} :
    Agrees r [] [env.useClass id x pos] [.use id (.new id x args pos)] := by
  refine ⟨?_, nofun, fun id' => ?_, fun id' e he => ?_⟩
  · unfold Env.useClass
    split <;> rfl
  · unfold Env.useClass
    split
    · exact Nat.le_refl _
    · exact Nat.zero_le _
  · cases List.mem_singleton.mp he
    exact .inl ⟨x, args, pos, rfl⟩

end Uses

mutual

theorem Expr.agrees {r : Resolution} {v : View} {env : Env} (h : v.Mirrors r env) :
    ∀ e : Expr, r.Keeps (e.resolve env) → Agrees r (e.occurrences v.levels) (e.resolve env) e.nodes
  | .int _ _, _ | .bool _ _, _ | .null _, _ => .nil
  | .name id x pos, hkeeps => useName_agrees h hkeeps ⟨rfl, rfl, rfl, rfl, rfl⟩ nofun
  | .binary _ left right _, hkeeps => by
    rw [Expr.resolve, Resolution.Keeps.append] at hkeeps
    exact (left.agrees h hkeeps.1).append (right.agrees h hkeeps.2)
  | .not operand _, hkeeps => operand.agrees h hkeeps
  | .ite cond yes no _, hkeeps => by
    rw [Expr.resolve, Resolution.Keeps.append, Resolution.Keeps.append] at hkeeps
    exact ((cond.agrees h hkeeps.1.1).append (yes.agrees h hkeeps.1.2)).append
      (no.agrees h hkeeps.2)
  | .call id callee args pos, hkeeps => by
    rw [Expr.resolve, Resolution.Keeps.cons] at hkeeps
    have hcallee :=
      useName_agrees h hkeeps.1 (e := .call id callee args pos) ⟨rfl, rfl, rfl, rfl, rfl⟩ nofun
    exact hcallee.append (args_agree h args hkeeps.2)
  | .send id receiver method args pos, hkeeps => by
    rw [Expr.resolve, Resolution.Keeps.cons] at hkeeps
    exact (useMethod_agrees h hkeeps.1).append (args_agree h args hkeeps.2)
  | .new id cls args pos, hkeeps => by
    rw [Expr.resolve, Resolution.Keeps.cons] at hkeeps
    exact useClass_agrees.append (args_agree h args hkeeps.2)
  | .print value _, hkeeps => value.agrees h hkeeps

theorem args_agree {r : Resolution} {v : View} {env : Env} (h : v.Mirrors r env) :
    ∀ es : List Expr, r.Keeps (resolveArgs env es) →
      Agrees r (argOccurrences v.levels es) (resolveArgs env es) (argNodes es)
  | [], _ => .nil
  | e :: es, hkeeps => by
    rw [resolveArgs, Resolution.Keeps.append] at hkeeps
    exact (e.agrees h hkeeps.1).append (args_agree h es hkeeps.2)

end

/-! ### Declarations -/

/-- Names can be declared in the innermost scope. -/
def View.IsOpen (v : View) : Prop := ∃ ds outer, v.levels = .block ds :: outer

theorem View.IsOpen.declare {v : View} (h : v.IsOpen) (x : String) (d : NodeId) :
    (v.declare x d).IsOpen := by
  obtain ⟨ds, outer, hlevels⟩ := h
  exact ⟨ds ++ [(x, d)], outer, View.levels_declare_block hlevels x d⟩

namespace View.Mirrors

variable {r : Resolution} {v : View} {env : Env} {x : String} {d : NodeId}

theorem taken_eq (h : v.Mirrors r env) (hopen : v.IsOpen) (x : String) :
    env.scopes.taken x = declaredHere v.levels x := by
  obtain ⟨ds, outer, hlevels⟩ := hopen
  have hmirrors := h.levels
  rw [hlevels] at hmirrors
  cases hstack : env.scopes.stack with
  | nil =>
    rw [hstack] at hmirrors
    exact hmirrors.elim
  | cons s ss =>
    rw [hstack] at hmirrors
    have hhere := hmirrors.1 x
    simp only [Scopes.taken, declaredHere, hlevels, hstack, Std.TreeMap.contains_eq_isSome_getElem?]
    generalize (Level.block ds).find? x = found, s[x]? = entry at hhere
    cases hhere with
    | some => rfl
    | none => rfl

/-- A new name in the innermost scope. -/
theorem levels_declare (h : v.Mirrors r env) (hopen : v.IsOpen) {entry : Entry} {scopes : Scopes}
    (hs : env.scopes.declare? x entry = some scopes) (hentry : r.decls[d]? = some entry)
    (hdepth : entry.depth = env.scopes.depth) :
    levelsMirror r (v.declare x d).levels scopes.stack := by
  have hfree := (h.taken_eq hopen x).symm.trans (Scopes.taken_eq_false hs)
  obtain ⟨ds, outer, hlevels⟩ := hopen
  obtain ⟨s, ss, hstack, -, rfl⟩ := Scopes.declare?_eq_some.mp hs
  have hmirrors := h.levels
  rw [hlevels, hstack] at hmirrors
  rw [View.levels_declare_block hlevels]
  refine ⟨fun y => ?_, hmirrors.2⟩
  rw [Level.find?_block_append, Std.TreeMap.getElem?_insert]
  by_cases hxy : x = y
  · subst hxy
    rw [hlevels, declaredHere, Option.isSome_eq_false_iff, Option.isNone_iff_eq_none] at hfree
    rw [hfree, if_pos rfl, if_pos Std.ReflCmp.compare_self]
    refine .some ⟨hentry, hdepth.trans ?_⟩
    rw [Scopes.depth, hstack]
    rfl
  · rw [if_neg hxy, if_neg (fun hc => hxy (Std.compare_eq_iff_eq.mp hc)), Option.or_none]
    exact hmirrors.1 y

/-- A name that the scope has already keeps its declaration. -/
theorem levels_redeclare (h : v.Mirrors r env) (hopen : v.IsOpen)
    (htaken : env.scopes.taken x = true) (d : NodeId) :
    levelsMirror r (v.declare x d).levels env.scopes.stack := by
  rw [h.taken_eq hopen x] at htaken
  obtain ⟨ds, outer, hlevels⟩ := hopen
  rw [hlevels, declaredHere] at htaken
  have hmirrors := h.levels
  rw [hlevels] at hmirrors
  rw [View.levels_declare_block hlevels]
  cases hstack : env.scopes.stack with
  | nil =>
    rw [hstack] at hmirrors
    exact hmirrors
  | cons s ss =>
    rw [hstack] at hmirrors
    refine ⟨fun y => ?_, hmirrors.2⟩
    have hsame : (Level.block (ds ++ [(x, d)])).find? y = (Level.block ds).find? y := by
      rw [Level.find?_block_append]
      by_cases hxy : x = y
      · subst hxy
        obtain ⟨d', hd'⟩ := Option.isSome_iff_exists.mp htaken
        rw [hd', Option.some_or]
      · rw [if_neg hxy, Option.or_none]
    rw [hsame]
    exact hmirrors.1 y

theorem declare (h : v.Mirrors r env) (hopen : v.IsOpen) {kind : NameKind} {pos : SourcePos}
    {entry : Entry} (hdepth : entry.depth = env.scopes.depth)
    (hkeeps : r.Keeps (env.declare kind d x pos entry).2) :
    (v.declare x d).Mirrors r (env.declare kind d x pos entry).1 := by
  unfold Env.declare at hkeeps ⊢
  cases hs : env.scopes.declare? x entry with
  | some scopes =>
    rw [hs] at hkeeps
    have hentry : r.decls[d]? = some entry := hkeeps _ List.mem_cons_self nofun
    refine ⟨h.levels_declare hopen hs hentry hdepth, ?_⟩
    rw [View.classes_declare]
    exact h.classes
  | none =>
    refine ⟨h.levels_redeclare hopen (Scopes.declare?_eq_none.mp hs) d, ?_⟩
    rw [View.classes_declare]
    exact h.classes

end View.Mirrors

/-- A declaration is at fault if its name is taken. -/
theorem declaration_agrees {r : Resolution} {v : View} {kind : NameKind} {x : String}
    {pos : SourcePos} {found : List Finding} {n : Node}
    (hfound : if declaredHere v.levels x then
      found.filterMap Finding.error? = [.redeclared kind x pos]
      else found.filterMap Finding.error? = [])
    (hbound : found.filterMap Finding.bound? = []) (hn : ∀ id e, n ≠ .use id e) :
    Agrees r [.declaration kind x pos v.levels] found [n] := by
  refine ⟨?_, fun u hu => ?_, fun id => ?_, fun id e he =>
    absurd (List.mem_singleton.mp he).symm (hn id e)⟩
  · split at hfound
    next htaken => simp [hfound, Occurrence.error?, htaken, ScopeError.isScoping]
    next hfree => simp [hfound, Occurrence.error?, hfree]
  · cases List.mem_singleton.mp hu
  · rw [hbound]
    exact Nat.zero_le _

theorem View.Mirrors.declare_agrees {r : Resolution} {v : View} {env : Env} (h : v.Mirrors r env)
    (hopen : v.IsOpen) {kind : NameKind} {x : String} {d : NodeId} {pos : SourcePos} {entry : Entry}
    {n : Node} (hn : ∀ id e, n ≠ .use id e) :
    Agrees r [.declaration kind x pos v.levels] (env.declare kind d x pos entry).2 [n] := by
  have htaken := h.taken_eq hopen x
  unfold Env.declare
  cases hs : env.scopes.declare? x entry with
  | some scopes =>
    rw [Scopes.taken_eq_false hs] at htaken
    refine declaration_agrees ?_ rfl hn
    rw [← htaken]
    rfl
  | none =>
    rw [Scopes.declare?_eq_none.mp hs] at htaken
    refine declaration_agrees ?_ rfl hn
    rw [← htaken]
    rfl

/-- Parameters are declared one after the other. -/
theorem params_agree {r : Resolution} (ps : List TypedName) {v : View} {env : Env}
    (h : v.Mirrors r env) (hopen : v.IsOpen) (hkeeps : r.Keeps (env.declareParams ps).2) :
    (v.declareParams ps).1.Mirrors r (env.declareParams ps).1 ∧ (v.declareParams ps).1.IsOpen ∧
      Agrees r (v.declareParams ps).2 (env.declareParams ps).2 (ps.map .typed) := by
  induction ps generalizing v env with
  | nil => exact ⟨h, hopen, .nil⟩
  | cons p ps ih =>
    rw [Env.declareParams_cons, Resolution.Keeps.append] at hkeeps
    have hframe : v.Mirrors r
        { env with frame := (env.frame.allotParam (Int32.ofNat p.declared.ty.cells)).2 } :=
      ⟨h.levels, h.classes⟩
    have hfirst : (v.declare p.name p.id).Mirrors r (env.declareParam p).1 :=
      hframe.declare hopen rfl hkeeps.1
    obtain ⟨hmirrors, hopen', hagrees⟩ := ih hfirst (hopen.declare p.name p.id) hkeeps.2
    refine ⟨hmirrors, hopen', ?_⟩
    rw [View.declareParams_cons, Env.declareParams_cons, List.map_cons]
    exact (hframe.declare_agrees hopen (n := .typed p) nofun).append hagrees

/-! ### Classes -/

/-- The members of a class are no uses, and their faults are of another sort. -/
theorem ClassDraft.silent_addAll (d : ClassDraft) (cls : String) (ms : List OwnMember) :
    (d.addAll cls ms).findings.filterMap Finding.bound? = d.findings.filterMap Finding.bound? ∧
      ((d.addAll cls ms).findings.filterMap Finding.error?).filter ScopeError.isScoping =
        (d.findings.filterMap Finding.error?).filter ScopeError.isScoping := by
  induction ms generalizing d with
  | nil => exact ⟨rfl, rfl⟩
  | cons m ms ih =>
    obtain ⟨hbound, herrors⟩ := ih (d.addOwn cls m)
    refine ⟨hbound.trans ?_, herrors.trans ?_⟩
    · rcases d.addOwn_cases cls m with ⟨e, -, -, heq⟩ | ⟨-, -, heq⟩
      · rw [heq]
        simp [Finding.bound?]
      · rw [heq]
        simp [Finding.bound?]
    · rcases d.addOwn_cases cls m with ⟨e, -, ⟨kind, kind', rfl | rfl⟩, heq⟩ | ⟨-, -, heq⟩
      · rw [heq]
        simp [Finding.error?, ScopeError.isScoping]
      · rw [heq]
        simp [Finding.error?, ScopeError.isScoping]
      · rw [heq]
        simp [Finding.error?]

theorem Env.parentFindings_silent (env : Env) (c : ClassDecl) :
    (env.parentFindings c).filterMap Finding.bound? = [] ∧
      ((env.parentFindings c).filterMap Finding.error?).filter ScopeError.isScoping = [] := by
  unfold parentFindings
  split
  · split
    · exact ⟨rfl, rfl⟩
    · exact ⟨rfl, rfl⟩
  · exact ⟨rfl, rfl⟩

namespace View.Mirrors

variable {r : Resolution} {v : View} {env : Env} {c : ClassDecl}

theorem inherited (h : v.Mirrors r env) (c : ClassDecl) :
    MemberTable.Mirrors r ((c.superclass.bind v.classes).getD fun _ => none)
      (env.inheritedLayout c) := by
  have hempty : MemberTable.Mirrors r (fun _ => none) {} := by
    intro x
    rw [show ({} : ObjectLayout).members[x]? = none by simp]
    exact .none
  unfold Env.inheritedLayout Env.parent?
  cases c.superclass with
  | none => exact hempty
  | some s =>
    have hclass := h.classes s
    rw [Option.bind_some, Option.bind_some]
    generalize v.classes s = table, env.classes.records[s]?.map (·.layout) = layout at hclass
    cases hclass with
    | some hmirrors => exact hmirrors
    | none => exact hempty

/-- The table of a class says what its layout has. -/
theorem tableOf (h : v.Mirrors r env) (hkeeps : r.Keeps (env.draftOf c).findings) :
    (v.tableOf c).Mirrors r (env.draftOf c).layout := by
  intro x
  have hinherited := h.inherited c x
  have hextends := env.draftOf_extends c
  unfold View.tableOf ClassDecl.table
  generalize (c.superclass.bind v.classes).getD (fun _ => none) = table at hinherited
  cases hfind : c.ownMembers.find? (·.name = x) with
  | none =>
    rw [hextends.kept x (by simpa using hfind)]
    exact hinherited
  | some o =>
    have hfirst := hextends.first x o hfind
    generalize (env.inheritedLayout c).members[x]? = member, table x = declared at hinherited hfirst
    rcases hfirst with ⟨old, rfl, hsort, hmember⟩ | ⟨hsort, m, hmember, hplaced⟩
    · -- a member of the other sort is rejected, and the name keeps what it had
      rw [hmember]
      cases hinherited with
      | @some o' _ hold =>
        have hne : ¬o'.ty.isMethod = o.ty.isMethod := by
          rw [← hold.2.1]
          exact hsort
        dsimp only
        rw [if_neg hne]
        exact .some hold
    · have hentry : r.decls[o.id]? = some m.entry := hkeeps _ hplaced.decl nofun
      rw [hmember]
      cases hinherited with
      | @some o' old hold =>
        have heq : o'.ty.isMethod = o.ty.isMethod := by
          rw [← hold.2.1]
          exact hsort old rfl
        dsimp only
        rw [if_pos heq]
        exact .some ⟨hentry, hplaced.ty, hplaced.depth⟩
      | none => exact .some ⟨hentry, hplaced.ty, hplaced.depth⟩

theorem declareClass (h : v.Mirrors r env) (hopen : v.IsOpen) (hdepth : env.scopes.depth = 0)
    (hkeeps : r.Keeps (env.classHeader c).2.2) :
    (v.declareClass c).Mirrors r (env.classHeader c).1 ∧
    (v.tableOf c).Mirrors r (env.classHeader c).2.1 ∧
      Agrees r [.declaration .cls c.name c.pos v.levels] (env.classHeader c).2.2 [.cls c] := by
  have htaken := h.taken_eq hopen c.name
  have hdraft : Agrees r [] (env.parentFindings c ++ (env.draftOf c).findings) [] := by
    obtain ⟨hbound, herrors⟩ := env.parentFindings_silent c
    obtain ⟨hbound', herrors'⟩ :=
      ClassDraft.silent_addAll { layout := env.inheritedLayout c } c.name c.ownMembers
    rw [← ClassDecl.draft_eq] at hbound' herrors'
    have hparent : Agrees r [] (env.parentFindings c) [] :=
      .silent hbound herrors fun _ _ => List.not_mem_nil
    have hmembers : Agrees r [] (env.draftOf c).findings [] :=
      .silent hbound' herrors' fun _ _ => List.not_mem_nil
    exact hparent.append hmembers
  rcases Env.classHeader_global hdepth c with ⟨scopes, hs, heq⟩ | ⟨hold, heq⟩
  · rw [Scopes.taken_eq_false hs] at htaken
    rw [heq] at hkeeps ⊢
    rw [Resolution.Keeps.append, Resolution.Keeps.append] at hkeeps
    have hentry : r.decls[c.id]? = some (env.recordOf c).entry :=
      hkeeps.2 _ List.mem_cons_self nofun
    refine ⟨⟨h.levels_declare hopen hs hentry hdepth.symm, fun x => ?_⟩, h.tableOf hkeeps.1.2, ?_⟩
    · dsimp only [View.declareClass]
      rw [← htaken, if_neg Bool.false_ne_true, ClassTable.getElem?_add]
      by_cases hx : x = c.name
      · subst hx
        rw [if_pos rfl, if_pos (show (env.recordOf c).name = c.name from rfl)]
        exact .some (h.tableOf hkeeps.1.2)
      · have hx' : (env.recordOf c).name ≠ x := fun hname => hx hname.symm
        rw [if_neg hx, if_neg hx']
        exact h.classes x
    · refine hdraft.append (declaration_agrees ?_ rfl nofun)
      rw [← htaken]
      rfl
  · rw [hold] at htaken
    rw [heq] at hkeeps ⊢
    rw [Resolution.Keeps.append, Resolution.Keeps.append] at hkeeps
    refine ⟨⟨h.levels_redeclare hopen hold c.id, fun x => ?_⟩, h.tableOf hkeeps.1.2, ?_⟩
    · dsimp only [View.declareClass]
      rw [← htaken, if_pos rfl]
      exact h.classes x
    · refine hdraft.append (declaration_agrees ?_ rfl nofun)
      rw [← htaken]
      rfl

/-- The scope of the methods of a class is one below the global one, as the entries of members
say. -/
theorem enterClass (h : v.Mirrors r env) (hlength : env.scopes.stack.length = 1)
    {table : MemberTable} {layout : ObjectLayout} (htable : table.Mirrors r layout) :
    (v.enter (.members table)).Mirrors r (env.enterClass layout) := by
  refine ⟨⟨fun x => ?_, h.levels⟩, h.classes⟩
  rw [Level.find?, ObjectLayout.scope, Std.TreeMap.getElem?_map, hlength]
  have hmember := htable x
  generalize table x = declared, layout.members[x]? = member at hmember
  cases hmember with
  | some hm => exact .some ⟨hm.1, hm.2.2⟩
  | none => exact .none

theorem enterBody (h : v.Mirrors r env) : (v.enter (.block [])).Mirrors r env.enterBody := by
  refine ⟨⟨fun x => ?_, h.levels⟩, h.classes⟩
  rw [show (∅ : Scope)[x]? = none by simp]
  exact .none

end View.Mirrors

end Stackling
