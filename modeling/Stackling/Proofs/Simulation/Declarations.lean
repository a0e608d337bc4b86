import Stackling.Proofs.Simulation.Classes

/-!
# Code of declarations and functions

Each declaration leaves its cells on the stack, where the frame has them, and brings the machines to
a new site. A function opens a frame, runs its declarations and its body there and gives the frame
up; so calls that are nested at most so deep are simulated, by induction on the depth.
-/

namespace Stackling

variable {ι : Type} {r : Resolution} {w : ι → World} {n : Nat} {call : Call} {s : Site ι}
  {σ : Store} {pc : ι → Nat} {c : ι → Config}

/-! ### Cells of a frame -/

/-- The next cell on the stack is the next free one of the frame. -/
def Site.Open (w : ι → World) (s : Site ι) : Prop :=
  ∀ i, s.frame i + s.env.frame.nextLocal = (w i).slot (s.base i).length

/-- The site after a declaration that has put some cells on the stack. -/
def Site.after (s : Site ι) (env : Env) (ρ : Bindings) (cells : ι → List Int32) : Site ι :=
  { s with env := env, bindings := ρ, base := fun i => cells i ++ s.base i }

theorem Platform.slot_add (w : Platform) (k m : Nat) :
    w.slot (k + m) = w.slot m - Int32.ofNat k := by
  rw [Platform.slot, Platform.slot, Int32.ofNat_add]
  grind

theorem Site.Open.after (h : s.Open w) {env : Env} {ρ : Bindings} {cells : ι → List Int32} {k : Nat}
    (hcells : ∀ i, (cells i).length = k)
    (henv : env.frame.nextLocal = s.env.frame.nextLocal - Int32.ofNat k) :
    (s.after env ρ cells).Open w := by
  intro i
  dsimp only [Site.after]
  rw [List.length_append, hcells, Platform.slot_add, ← h i, henv]
  grind

theorem Matches.after {hp : ι → List Int32} (hm : Matches r w s σ hp) {env : Env} {ρ : Bindings}
    {cells : ι → List Int32}
    (hscope : Scoped r w σ (fun i => cells i ++ s.base i) hp s.inClass env ρ s.frame) :
    Matches r w (s.after env ρ cells) σ hp :=
  ⟨hscope, hm.heap, hm.classes.mono (.refl σ) (fun _ => List.suffix_append _ _) fun _ =>
    List.prefix_refl _, hm.above⟩

/-- What the machines show after some declarations. -/
def Declared (r : Resolution) (w : ι → World) (s : Site ι) (σ : Store) (env : Env) (pc : ι → Nat)
    (size : Nat) (ρ : Bindings) (σ' : Store) (c : ι → Config) : Prop :=
  ∃ cells : ι → List Int32, (∀ i, (cells i).length = size) ∧ σ.Extends σ' ∧
    (s.env.scopes.depth ≠ 0 → σ.Grows σ') ∧ At r w (s.after env ρ cells) σ' pc (fun _ => []) c

theorem Declared.first {env env' : Env} {ρ ρ' : Bindings} {cells : ι → List Int32} {k m : Nat}
    {σ' σ'' : Store} (h : Declared r w (s.after env ρ cells) σ' env' pc m ρ' σ'' c)
    (hcells : ∀ i, (cells i).length = k) (hextends : σ.Extends σ')
    (hgrow : s.env.scopes.depth ≠ 0 → σ.Grows σ') (hdepth : env.scopes.depth = s.env.scopes.depth) :
    Declared r w s σ env' pc (k + m) ρ' σ'' c := by
  obtain ⟨more, hmore, hextends', hgrow', hat⟩ := h
  refine ⟨fun i => more i ++ cells i, fun i => ?_, hextends.trans hextends', fun hne => ?_, ?_⟩
  · rw [List.length_append, hmore, hcells, Nat.add_comm]
  · exact (hgrow hne).trans (hgrow' (hdepth ▸ hne))
  · simpa only [Site.after, List.append_assoc] using hat

/-! ### Declarations -/

/-- Declarations are simulated if the rest is, after the first one. -/
def DeclsSimulated (r : Resolution) (w : ι → World) (n : Nat) (call : Call) (s : Site ι)
    (ds : List Decl) (env : Env) :
    Prop :=
  ∀ ⦃σ : Store⦄ ⦃pc : ι → Nat⦄ ⦃c : ι → Config⦄ ⦃q q' : ι → CodeState⦄ ⦃locals : ι → Fragment⦄,
    (∀ i, declCode ((w i).context r s.inClass) ds (q i) = .ok (locals i, q' i)) →
    (∀ i, (w i).Carries (pc i) (locals i).code) →
    (∀ i, ∃ a, (w i).image.CodeAt (w i).address a (locals i).bodies) →
    (s.env.scopes.depth = 0 → ∀ i, TablesFit r (w i) σ s.bindings (q i)) →
    At r w s σ pc (fun _ => []) c → Sim r w n (evalDecls call s.bindings ds σ) c
      (Declared r w s σ env (fun i => pc i + Code.size (locals i).code) (totalCells Decl.cells ds))

theorem declsSimulated_nil : DeclsSimulated r w n call s [] s.env := by
  intro σ pc c q q' locals hcode hcarries hbodies htables hat
  simp only [declCode_nil] at hcode
  simp only [← (hcode _).1]
  rw [evalDecls]
  exact ⟨0, c, fun i => .refl (w i) _, fun _ => [], fun _ => rfl, .refl σ, fun _ => .refl σ, hat⟩

theorem TablesFit.mono {w : World} {σ σ' : Store} {ρ ρ' : Bindings} {q q' : CodeState}
    (h : TablesFit r w σ ρ q) (hσ : σ.Extends σ')
    (hρ : ∀ name, findClass? name ρ' = findClass? name ρ) (hq : q'.tables = q.tables) :
    TablesFit r w σ' ρ' q' := by
  intro name k hk
  obtain ⟨cls, table, hcls, htable, hfits⟩ := h name k (hρ name ▸ hk)
  exact ⟨cls, table, getElem?_extend hσ.classes hcls, hq ▸ htable, hfits⟩

theorem declsSimulated_var (hcall : CallSim r w n call) (hopen : s.Open w) {d : VarDecl}
    {ds : List Decl} {scopes : Scopes} {env : Env} (hplain : d.declared.isArrow = false)
    (hinit : d.init.Fits r s.env d.declared.ty)
    (hdeclare : s.env.scopes.declare? d.name (s.env.localEntry d.declared.ty) = some scopes)
    (hrest : ∀ v : Value, DeclsSimulated r w n call
      (s.after (s.env.afterLocal scopes 1) ((d.name, .value v) :: s.bindings) fun _ => [v.word])
      ds env) :
    DeclsSimulated r w n call s (.var d :: ds) env := by
  intro σ pc c q q' locals hcode hcarries hbodies htables hat
  simp only [declCode_cons, Decl.code_var] at hcode
  choose first q₁ rest hfirst hrestCode hlocals using hcode
  choose code₁ s' hcode₁ hq₁ hfirst using hfirst
  simp only [← hlocals, ← hfirst, Fragment.code_append, Fragment.bodies_append,
    Platform.carries_append, Code.size_append, List.nil_append, ← Nat.add_assoc]
      at hcarries hbodies ⊢
  obtain ⟨t, htyped, hsub⟩ := hinit
  have harrow : t.isArrow = false :=
    Hierarchy.isArrow_of_isSubtype hsub ((WrittenTy.isArrow_ty _).trans hplain)
  have hsimulated : d.init.Simulated r w n call s t := by
    obtain ⟨hp, _, _, hm, -⟩ := hat
    exact Expr.simulated hm hcall d.init htyped harrow
  rw [evalDecls]
  refine (hsimulated (fun i => ⟨_, _, hcode₁ i⟩) (fun i => (hcarries i).1) hat).bind ?_
  rintro v σ₁ c₁ ⟨hv, hgrow, hp, ra, tm, hm, rfl⟩
  have hscope : Scoped r w σ₁ (fun i => [v.word] ++ s.base i) hp s.inClass
      (s.env.afterLocal scopes 1) ((d.name, .value v) :: s.bindings) s.frame := by
    refine .value (hm.scope.mono (.refl _) (fun _ => List.suffix_cons _ _) fun _ =>
      List.prefix_refl _) hdeclare rfl (hv.sub hsub) fun i => ?_
    dsimp only [Env.localEntry]
    rw [hopen i]
    exact .top (w i) _ _ _
  refine (hrest v (fun i => hrestCode i) (fun i => (hcarries i).2) hbodies ?_
    ⟨hp, ra, tm, hm.after hscope, rfl⟩).mono ?_
  · intro hdepth i
    refine (htables ((Scopes.depth_declare? hdeclare).symm.trans hdepth) i).mono hgrow.extends
      (fun _ => rfl) ?_
    rw [← hq₁ i]
  · rintro ρ σ₂ c₂ - hdeclared
    have hcells : totalCells Decl.cells (Decl.var d :: ds) = 1 + totalCells Decl.cells ds := by
      rw [totalCells_cons, Decl.cells, WrittenTy.cells, hplain]
      rfl
    rw [hcells]
    exact hdeclared.first (fun _ => rfl) hgrow.extends (fun _ => hgrow)
      (Scopes.depth_declare? hdeclare)

theorem declsSimulated_fn (hopen : s.Open w) {f : FunDecl} {ds : List Decl} {scopes : Scopes}
    {env : Env} (hdeclare : s.env.scopes.declare? f.name (s.env.localEntry (.arrow f.signature)) =
      some scopes)
    (hfun : f.Typed r (s.env.afterLocal scopes 2))
    (hrest : ∀ cells : ι → List Int32, (∀ i, (cells i).length = 2) → DeclsSimulated r w n call
      (s.after (s.env.afterLocal scopes 2) ((f.name, .function f) :: s.bindings) cells) ds env) :
    DeclsSimulated r w n call s (.fn f :: ds) env := by
  intro σ pc c q q' locals hcode hcarries hbodies htables hat
  simp only [declCode_cons, Decl.code_fn] at hcode
  choose first q₁ rest hfirst hrestCode hlocals using hcode
  choose routine hroutine hfirst using hfirst
  simp only [← hlocals, ← hfirst, Fragment.code_append, Fragment.bodies_append,
    Platform.carries_append, Platform.carries_bare, Platform.carries_pushLabel, Code.size_append,
    Image.codeAt_append, ← Nat.add_assoc] at hcarries hbodies ⊢
  choose a hbody hbodies using hbodies
  rw [evalDecls]
  obtain ⟨hp, ra, tm, hm, rfl⟩ := hat
  have hplaced : ∀ i, (w i).Placed r s.inClass f ((w i).address (routine i).entry) := fun i =>
    ⟨_, _, _, _, hroutine i, hbody i, rfl⟩
  have hscope : Scoped r w σ (fun i => [Int32.ofNat ((w i).address (routine i).entry), s.frame i] ++
      s.base i) hp s.inClass (s.env.afterLocal scopes 2) ((f.name, .function f) :: s.bindings)
        s.frame := by
    have hup : ∀ i, s.frame i :: s.base i <:+
        [Int32.ofNat ((w i).address (routine i).entry), s.frame i] ++ s.base i :=
        fun _ => List.suffix_cons _ _
    refine .function (hm.scope.mono (.refl _) (fun i => (List.suffix_cons _ _).trans (hup i))
      fun _ => List.prefix_refl _) hdeclare rfl rfl hfun (fun i => ?_) (fun i => ?_) hplaced
    · dsimp only [Env.localEntry]
      rw [hopen i]
      exact .mono (.top (w i) _ _ _) (hup i) (List.prefix_refl _)
    · have hslot : s.frame i + (s.env.frame.nextLocal - 1) =
          (w i).slot (s.frame i :: s.base i).length := by
        rw [List.length_cons, Nat.add_comm, Platform.slot_add, ← hopen i]
        grind
      dsimp only [Env.localEntry]
      rw [hslot]
      exact .top (w i) _ _ _
  refine .after (fun i =>
    (Platform.reach_lfp (hcarries i).1.1).trans (Platform.reach_push (hcarries i).1.2.1)) ?_
  refine (hrest _ (fun _ => rfl) (fun i => hrestCode i) (fun i => (hcarries i).2)
    (fun i => ⟨_, hbodies i⟩) ?_ ⟨hp, ra, tm, hm.after hscope, rfl⟩).mono ?_
  · intro hdepth i
    refine (htables ((Scopes.depth_declare? hdeclare).symm.trans hdepth) i).mono (.refl σ)
      (fun _ => rfl) ?_
    exact FunDecl.tables_code f hfun (Scopes.stack_declare? hdeclare) (hroutine i)
  · rintro ρ σ₂ c₂ - hdeclared
    exact hdeclared.first (fun _ => rfl) (.refl σ) (fun _ => .refl σ)
      (Scopes.depth_declare? hdeclare)

theorem declsSimulated_cls (hlinked : r.classes.Linked) (hopen : s.Open w) {d : ClassDecl}
    {ds : List Decl} {l : ObjectLayout} {scopes : Scopes} {env : Env}
    (hclass : d.Typed r s.env l scopes)
    (hmethods : ∀ m ∈ d.methods, m.Typed r ((s.env.afterClass d l scopes).enterClass l))
    (hrest : ∀ (k : Nat) (cells : ι → List Int32), (∀ i, (cells i).length = 1) →
      DeclsSimulated r w n call
      (s.after (s.env.afterClass d l scopes) ((d.name, .cls k) :: s.bindings) cells) ds env) :
    DeclsSimulated r w n call s (.cls d :: ds) env := by
  intro σ pc c q q' locals hcode hcarries hbodies htables hat
  simp only [declCode_cons, Decl.code_cls, Platform.context_resolution, hclass.record,
    Option.some.injEq] at hcode
  choose first q₁ rest hfirst hrestCode hlocals using hcode
  choose entry record table bodies q₂ hentry hrecord hmethodCode hq₁ hfirst using hfirst
  simp only [← hlocals, ← hfirst, Fragment.code_append, Fragment.bodies_append,
    Platform.carries_append, Code.size_append, Image.codeAt_append, ← Nat.add_assoc]
      at hcarries hbodies ⊢
  choose a hbody hbodies using hbodies
  rw [evalDecls]
  obtain ⟨hp, ra, tm, hm, rfl⟩ := hat
  obtain rfl : (fun _ => s.env.classRecord d l) = record := funext hrecord
  have hlt : ∀ i, (table i).length < 2 ^ 31 := by
    intro i
    have hsize := (hcarries i).1.2
    have hle := (w i).code_le
    rw [Code.size_dispatchTable] at hsize
    omega
  have htable : ∀ i, TableFits r (w i) (table i) (σ.newClass s.bindings d).methods := fun i =>
    hm.tableFits_newClass hclass (htables hclass.depth i) (hmethodCode i) (hbody i) (hlt i)
  have hlength : ∀ i, (table i).length = (σ.newClass s.bindings d).methods.length :=
    fun i => (htable i).length_eq
  have hreach : ∀ i, (w i).Reach (1 + 7 * (σ.newClass s.bindings d).methods.length)
      ⟨pc i, [] ++ s.base i, hp i, s.frame i, ra i, tm i, σ.output, none⟩
      ⟨pc i + Code.size (Code.dispatchTable (table i)), Int32.ofNat (hp i).length :: s.base i,
        hp i ++ (table i).map fun l => Int32.ofNat ((w i).address l), s.frame i, ra i, tm i,
        σ.output, none⟩ := by
    intro i
    rw [Code.size_dispatchTable, ← hlength i]
    exact Platform.reach_dispatchTable (hcarries i).1.1
  refine .after hreach ?_
  change Sim r w n (evalDecls call ((d.name, .cls σ.classes.length) :: s.bindings) ds
    (σ.withClass s.bindings d)) _ _
  refine (hrest σ.classes.length (fun i => [Int32.ofNat (hp i).length]) (fun _ => rfl)
    (fun i => hrestCode i) (fun i => (hcarries i).2) (fun i => ⟨_, hbodies i⟩) ?_
    ⟨_, ra, tm, hm.afterClass hclass hmethods hlinked htable hopen, rfl⟩).mono ?_
  · intro _ i
    refine (htables hclass.depth i).afterClass (htable i) ?_
    rw [← hq₁ i]
    exact congrArg (·.insert d.name (table i))
      (methodCode_tables (List.cons_ne_nil _ _) hmethods (hmethodCode i))
  · rintro ρ σ₂ c₂ - hdeclared
    exact hdeclared.first (fun _ => rfl) (σ.extends_withClass s.bindings d)
      (fun hne => absurd hclass.depth hne) (Scopes.depth_declare? hclass.declare)

/-- All typed declarations are simulated. -/
theorem declsSimulated (hlinked : r.classes.Linked) (hcall : CallSim r w n call) {ds : List Decl}
    {env : Env} (hopen : s.Open w) (htyped : DeclsTyped r s.env ds env) :
    DeclsSimulated r w n call s ds env := by
  induction ds generalizing s with
  | nil =>
    obtain rfl : s.env = env := by
      cases htyped
      rfl
    exact declsSimulated_nil
  | cons d ds ih =>
    cases d with
    | var d =>
      cases htyped with
      | var hplain hinit hdeclare hrest =>
        exact declsSimulated_var hcall hopen hplain hinit hdeclare fun v =>
          ih (hopen.after (fun _ => rfl) rfl) hrest
    | fn f =>
      cases htyped with
      | fn hdeclare hfun hrest =>
        exact declsSimulated_fn hopen hdeclare hfun fun cells hcells =>
          ih (hopen.after hcells rfl) hrest
    | cls d =>
      cases htyped with
      | cls hclass hmethods hrest =>
        exact declsSimulated_cls hlinked hopen hclass hmethods fun k cells hcells =>
          ih (hopen.after hcells rfl) hrest

/-! ### Functions -/

theorem ParamsTyped.nextLocal {env env' : Env} {ps : List TypedName} (h : ParamsTyped env ps env') :
    env'.frame.nextLocal = env.frame.nextLocal := by
  induction h with
  | nil => rfl
  | cons _ _ _ ih => exact ih

/-- Parameters are found in their cells, above the static link. -/
theorem Scoped.params {st hp : ι → List Int32} {b : Bool} {env env' : Env} {F : ι → Int32}
    {ps : List TypedName} (h : ParamsTyped env ps env') {ρ : Bindings}
    (hscoped : Scoped r w σ st hp b env ρ F) {args : List Value}
    (hargs : List.Forall₂ (Value.HasTy r.hierarchy σ) args (ps.map (·.declared.ty)))
    (hcells : ∀ (j : Nat) (v : Value), args[j]? = some v →
      Shows w st hp (fun i => F i + (env.frame.nextParam + Int32.ofNat j)) fun _ => v.word) :
    Scoped r w σ st hp b env' (bindParams ps args ρ) F := by
  induction h generalizing ρ args with
  | nil =>
    cases hargs
    exact hscoped
  | @cons env env' p ps scopes hplain hdeclare _ ih =>
    cases hargs with
    | @cons v _ args _ hv hargs =>
      have hfirst := hcells 0 v rfl
      rw [show env.frame.nextParam + Int32.ofNat 0 = env.frame.nextParam by grind] at hfirst
      refine ih (.value hscoped hdeclare rfl hv hfirst) hargs fun j u hj i => ?_
      have hcell := hcells (j + 1) u hj i
      have hoffset : env.frame.nextParam + Int32.ofNat (j + 1) =
          env.frame.nextParam + 1 + Int32.ofNat j := by
        rw [Int32.ofNat_add, ← Platform.one_eq_ofNat]
        grind
      rw [hoffset] at hcell
      exact hcell

/-- The arguments of a call in the frame that the function opens. -/
theorem Platform.has_argument (w : Platform) (words rest : List Int32) (heap : List Int32) {j : Nat}
    {v : Int32} (hj : words[j]? = some v) :
    w.Has (words ++ rest) heap (w.slot (words ++ rest).length + (1 + Int32.ofNat j)) v := by
  obtain ⟨hlt, hv⟩ := List.getElem?_eq_some_iff.mp hj
  have hsplit : words ++ rest = words.take j ++ v :: (words.drop (j + 1) ++ rest) := by
    rw [← List.cons_append, ← hv, List.getElem_cons_drop hlt, ← List.append_assoc,
      List.take_append_drop]
  have hlength : (words ++ rest).length = j + 1 + (words.drop (j + 1) ++ rest).length := by
    simp only [List.length_append, List.length_drop]
    omega
  refine .inl ⟨words.drop (j + 1) ++ rest, ⟨words.take j, hsplit.symm⟩, ?_⟩
  rw [hlength, Platform.slot_add, Int32.ofNat_add, ← Platform.one_eq_ofNat]
  grind

/-- The site of a function's body: its frame starts at the static link, above which the return
address is pushed. -/
def Site.called (w : ι → World) (b : Bool) (env : Env) (ρ : Bindings) (hp : ι → List Int32)
    (rest : ι → List Int32) (link target : ι → Int32) : Site ι where
  inClass := b
  env := env
  bindings := ρ
  frame i := (w i).slot (rest i).length
  base i := target i :: link i :: rest i
  heap := hp

theorem Matches.called {b : Bool} {env inner : Env} {ρ : Bindings} {F : ι → Int32}
    {st hp : ι → List Int32} {ps : List TypedName} {args : List Value}
    (hparams : ParamsTyped env.enterBody ps inner) (hscoped : Scoped r w σ st hp b env ρ F)
    (hheap : HeapFits r w σ hp) (hclasses : ClassesFit r w σ st hp)
    (hargs : List.Forall₂ (Value.HasTy r.hierarchy σ) args (ps.map (·.declared.ty)))
    (back target : ι → Int32) :
    Matches r w (.called w b inner (bindParams ps args ρ) hp
      (fun i => args.map Value.word ++ back i :: st i) F target) σ hp := by
  have hlink : ∀ i, F i :: (args.map Value.word ++ back i :: st i) <:+
      target i :: F i :: (args.map Value.word ++ back i :: st i) := fun i => List.suffix_cons _ _
  have hwords : ∀ i, args.map Value.word ++ back i :: st i <:+
      target i :: F i :: (args.map Value.word ++ back i :: st i) :=
      fun i => (List.suffix_cons _ _).trans (hlink i)
  have hup : ∀ i, st i <:+ target i :: F i :: (args.map Value.word ++ back i :: st i) := fun i =>
    ((List.suffix_cons _ _).trans (List.suffix_append _ _)).trans (hwords i)
  have hbody := (hscoped.mono (.refl σ) hup fun _ => List.prefix_refl _).body
    (fun i => (Platform.Has.top (w i) _ (hp i) _).mono (hlink i) (List.prefix_refl _))
  refine ⟨.params hparams hbody hargs fun j v hj i => ?_, hheap,
    hclasses.mono (.refl σ) hup fun _ => List.prefix_refl _, fun _ => List.prefix_refl _⟩
  refine ((w i).has_argument (args.map Value.word) (back i :: st i) (hp i) ?_).mono (hwords i)
    (List.prefix_refl _)
  rw [List.getElem?_map, hj]
  rfl

theorem Site.open_called {b : Bool} {env inner : Env} {ρ : Bindings} {hp rest : ι → List Int32}
    {link target : ι → Int32} {ps : List TypedName} (hparams : ParamsTyped env.enterBody ps inner) :
    (Site.called w b inner ρ hp rest link target).Open w := by
  intro i
  have hlength : (target i :: link i :: rest i).length = 2 + (rest i).length := by
    rw [List.length_cons, List.length_cons]
    omega
  have hfirst : env.enterBody.frame.nextLocal = -2 := rfl
  have htwo : Int32.ofNat 2 = 2 := rfl
  dsimp only [Site.called]
  rw [hparams.nextLocal, hfirst, hlength, Platform.slot_add, htwo]
  grind

theorem ParamsTyped.cells {env env' : Env} {ps : List TypedName} (h : ParamsTyped env ps env') :
    totalCells (·.declared.cells) ps = ps.length := by
  induction h with
  | nil => rfl
  | cons hplain _ _ ih =>
    rw [totalCells_cons, ih, WrittenTy.cells, hplain, List.length_cons, Nat.add_comm]
    rfl

/-- The code of a function at its entry. -/
theorem Platform.Placed.routine {w : Platform} {b : Bool} {f : FunDecl} {entry : Nat}
    (h : w.Placed r b f entry) :
    ∃ q locals q₁ value s', declCode (w.context r b) f.decls q = .ok (locals, q₁) ∧
      f.body.code (w.context r b) q₁.labels = .ok (value, s') ∧
      (∃ a, w.image.CodeAt w.address a locals.bodies) ∧ w.image.ops[entry]? = some (.bare .cfp) ∧
      w.image.ops[entry + 1]? = some (.bare .lra) ∧ w.Carries (entry + 2) locals.code ∧
      w.Carries (entry + 2 + Code.size locals.code) value ∧
      w.image.CodeAt w.address (entry + 2 + Code.size locals.code + Code.size value)
        (Code.epilogue (totalCells Decl.cells f.decls) (totalCells (·.declared.cells) f.params)
          f.result.isArrow) := by
  obtain ⟨q, routine, q', a, hcode, hcodeAt, rfl⟩ := h
  obtain ⟨locals, q₁, value, s', hlocals, hvalue, -, rfl⟩ := FunDecl.code_eq_ok.mp hcode
  simp only [Image.codeAt_append, FunDecl.routine, Code.plain, List.map, List.cons_append,
    List.nil_append, List.append_assoc, Image.codeAt_label, Image.codeAt_bare] at hcodeAt
  obtain ⟨hbodies, hlabel, hcfp, hlra, hlocalCode, hvalueCode, hepilogue⟩ := hcodeAt
  have hlt := (Array.getElem?_eq_some_iff.mp hepilogue.1).1
  rw [hlabel]
  exact ⟨_, locals, q₁, value, s', hlocals, hvalue, ⟨a, hbodies⟩, hcfp, hlra,
    ⟨hlocalCode, Nat.lt_of_le_of_lt (Nat.le_add_right _ _) hlt⟩, ⟨hvalueCode, hlt⟩, hepilogue⟩

/-- Calls that are nested at most so deep are simulated. -/
theorem callSim (hlinked : r.classes.Linked) (depth : Nat) : CallSim r w depth (callAt depth) := by
  induction depth with
  | zero =>
    intro f b env ρ F σ args st hp entry target back fp tm _ _ _ _ _ _ _ i
    exact ⟨0, _, Nat.le_refl 0, .refl (w i) _⟩
  | succ depth ih =>
    intro f b env ρ F σ args st hp entry target back fp tm hfun hscoped hheap hclasses hargs hplaced
      htarget
    cases hfun with
    | @mk _ inner last _ hplain hparams hdecls hbody =>
      choose q locals q₁ value s' hlocals hvalue hbodies hcfp hlra hlocalCode hvalueCode hepilogue
        using fun i => (hplaced i).routine
      have hlength : f.params.length = args.length := by
        rw [hargs.length_eq, FunDecl.signature, List.length_map]
      have hdepth : inner.scopes.depth ≠ 0 := by
        rw [hparams.depth, Env.depth_enterBody hscoped.stack_ne_nil]
        exact Nat.succ_ne_zero _
      rw [callAt, if_pos hlength]
      -- The prologue opens the frame, and takes the two steps that the deeper bound asks for.
      refine .reach (fun i => (Platform.reach_cfp (hcfp i)).trans (Platform.reach_lra (hlra i))) ?_
        (show depth + 1 ≤ 1 + 1 + depth by omega)
      have hm :=
        Matches.called hparams hscoped hheap hclasses hargs back fun i => Int32.ofNat (target i)
      refine (declsSimulated hlinked ih (Site.open_called hparams) hdecls hlocals hlocalCode hbodies
        (fun hzero => absurd hzero hdepth) ⟨hp, _, tm, hm, rfl⟩).bind ?_
      rintro ρ' σ₁ c₁ ⟨cells, hcells, -, hgrow₁, hat⟩
      obtain ⟨t, htyped, hsub⟩ := hbody
      have harrow := Hierarchy.isArrow_of_isSubtype hsub ((WrittenTy.isArrow_ty _).trans hplain)
      obtain ⟨_, _, _, hm₁, -⟩ := id hat
      refine (Expr.simulated hm₁ ih f.body htyped harrow (fun i => ⟨_, _, hvalue i⟩) hvalueCode
        hat).followed ?_
      rintro v σ₂ c₂ - ⟨hv, hgrow₂, hp', ra', tm', hm₂, rfl⟩
      have hparamCells : totalCells (·.declared.cells) f.params = (args.map Value.word).length := by
        rw [hparams.cells, hlength, List.length_map]
      have hend : ∀ i, ∃ ra'', (w i).Reach (totalCells Decl.cells f.decls + args.length + 7)
          ⟨entry i + 2 + Code.size (locals i).code + Code.size (value i), v.word ::
            (cells i ++ Int32.ofNat (target i) :: F i :: (args.map Value.word ++ back i :: st i)),
            hp' i, (w i).slot (args.map Value.word ++ back i :: st i).length, ra' i, tm' i,
            σ₂.output, none⟩
          ⟨target i, v.word :: st i, hp' i, back i, ra'', v.word, σ₂.output, none⟩ := by
        intro i
        have hepilogue := hepilogue i
        rw [hplain, hparamCells, ← hcells i] at hepilogue
        rw [← hcells i, ← args.length_map Value.word]
        exact World.reach_epilogue hepilogue (htarget i)
      choose ra'' hend using hend
      exact ⟨_, _, hend, hv.sub hsub, (hgrow₁ hdepth).trans hgrow₂, hp', ra'', _, hm₂.above,
        hm₂.heap, rfl⟩

end Stackling
