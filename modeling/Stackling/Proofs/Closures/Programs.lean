import Stackling.Proofs.Closures.Calls
import Stackling.Proofs.Simulation.Program

/-!
# Functions and programs with function values

Each declaration leaves its cells on the stack, where the frame has them, and brings the machine to
a new site. A function opens a frame, runs its declarations and its body there and gives the frame
up. From then on its bindings are those of an invocation that has ended; that matters only if its
result is a function.
-/

namespace Stackling.Lexical

variable {r : Resolution} {w : World} {escapes : Prop} {n : Nat} {call : Call} {s : Site}
  {σ : Tally} {pc : Nat} {c : Config}

/-! ### Cells of a frame -/

/-- The next cell on the stack is the next free one of the frame. -/
def Site.Open (w : World) (s : Site) : Prop :=
  s.frame + s.env.frame.nextLocal = w.slot s.base.length

/-- The site after a declaration that has put some cells on the stack. -/
def Site.after (s : Site) (env : Env) (ρ : Scope) (cells : List Int32) : Site :=
  { s with env := env, scope := ρ, base := cells ++ s.base }

theorem Site.Open.after (h : s.Open w) {env : Env} {ρ : Scope} {cells : List Int32}
    (henv : env.frame.nextLocal = s.env.frame.nextLocal - Int32.ofNat cells.length) :
    (s.after env ρ cells).Open w := by
  dsimp only [Site.Open, Site.after]
  rw [List.length_append, Platform.slot_add, ← h, henv]
  grind

theorem Site.frames_self (s : Site) : s.frames s.id = some s.base := if_pos rfl

theorem Site.frames_of_ne {id : Nat} (h : id ≠ s.id) : s.frames id = s.outer id := if_neg h

theorem Site.later_after (s : Site) (env : Env) (ρ : Scope) (cells : List Int32) :
    Later escapes s.frames n (s.after env ρ cells).frames n where
  le := Nat.le_refl n
  gone id _ hnone := by
    have hne : id ≠ s.id := by
      rintro rfl
      rw [s.frames_self] at hnone
      cases hnone
    rw [Site.frames_of_ne hne] at hnone
    exact (Site.frames_of_ne (s := s.after env ρ cells) hne).trans hnone
  live id st hst := by
    refine .inl ?_
    by_cases heq : id = s.id
    · subst heq
      rw [s.frames_self] at hst
      cases hst
      exact ⟨_, (s.after env ρ cells).frames_self, List.suffix_append _ _⟩
    · rw [Site.frames_of_ne heq] at hst
      exact ⟨st, (Site.frames_of_ne (s := s.after env ρ cells) heq).trans hst, List.suffix_refl _⟩

/-- An invocation begins. -/
theorem Site.later_outer (s : Site) (hfresh : ∀ id, (s.outer id).isSome → id < s.id) :
    Later escapes s.outer s.id s.frames (s.id + 1) where
  le := Nat.le_succ _
  gone _ hlt hnone := (Site.frames_of_ne (Nat.ne_of_lt hlt)).trans hnone
  live id st hst := .inl ⟨st, (Site.frames_of_ne (Nat.ne_of_lt (hfresh id (hst ▸ rfl)))).trans hst,
    List.suffix_refl _⟩

/-- An invocation ends. -/
theorem Site.later_frames (s : Site) (hescapes : escapes) (hnew : s.outer s.id = none)
    (hlt : s.id < n) :
    Later escapes s.frames n s.outer n where
  le := Nat.le_refl n
  gone id _ hnone := by
    have hne : id ≠ s.id := by
      rintro rfl
      rw [s.frames_self] at hnone
      cases hnone
    exact (Site.frames_of_ne hne).symm.trans hnone
  live id st hst := by
    by_cases heq : id = s.id
    · subst heq
      exact .inr ⟨hescapes, hnew, hlt⟩
    · exact .inl ⟨st, (Site.frames_of_ne heq).symm.trans hst, List.suffix_refl _⟩

theorem Matches.after (hm : Matches r w escapes s n) {env : Env} {ρ : Scope} {cells : List Int32}
    (hscope : Laid r w escapes (s.after env ρ cells).frames n (.scope env ρ s.id s.frame)) :
    Matches r w escapes (s.after env ρ cells) n := by
  have hsome : ∀ id, ((s.after env ρ cells).frames id).isSome = (s.frames id).isSome := by
    intro id
    by_cases heq : id = s.id
    · subst heq
      rw [s.frames_self, show (s.after env ρ cells).frames s.id = some _ from
        (s.after env ρ cells).frames_self]
      rfl
    · rw [Site.frames_of_ne heq, Site.frames_of_ne (s := s.after env ρ cells) heq]
      rfl
  refine ⟨hscope, fun id => (hm.live id).trans (by rw [hsome]), fun id st hst => ?_,
    fun id hid => hm.fresh id (hsome id ▸ hid)⟩
  by_cases heq : id = s.id
  · subst heq
    rw [show (s.after env ρ cells).frames s.id = some _ from (s.after env ρ cells).frames_self]
      at hst
    cases hst
    exact List.suffix_refl _
  · rw [Site.frames_of_ne (s := s.after env ρ cells) heq] at hst
    exact (hm.below id st ((Site.frames_of_ne heq).trans hst)).trans (List.suffix_append _ _)

/-- The site after a variable. -/
theorem Matches.value (hm : Matches r w escapes s n) (hopen : s.Open w) {x : String} {t : Ty}
    {d : Datum} {words : List Int32} {scopes : Scopes}
    (hd : Laid r w escapes s.frames n (.value d t words))
    (hdeclare : s.env.scopes.declare? x (s.env.localEntry t) = some scopes) (cells : Int32) :
    Matches r w escapes (s.after (s.env.afterLocal scopes cells) (.value x s.id d :: s.scope) words)
      n := by
  refine hm.after (.value (hm.scope.later (s.later_after _ _ _)) (hd.later (s.later_after _ _ _))
    (Site.frames_self _) hdeclare rfl ?_)
  dsimp only [Env.localEntry]
  rw [hopen]
  exact .top w words s.base

/-- The site after a function. -/
theorem Matches.function (hm : Matches r w escapes s n) (hopen : s.Open w) {f : FunDecl} {a : Nat}
    {scopes : Scopes}
    (hdeclare : s.env.scopes.declare? f.name (s.env.localEntry (.arrow f.signature)) = some scopes)
    (hfun : f.Formed r escapes (s.env.afterLocal scopes 2)) (hplaced : w.Placed r false f a) :
    Matches r w escapes (s.after (s.env.afterLocal scopes 2) (.function f s.id :: s.scope)
      [Int32.ofNat a, s.frame]) n := by
  refine hm.after (.function (hm.scope.later (s.later_after _ _ _)) (Site.frames_self _) hdeclare
    rfl rfl hfun hplaced ?_)
  dsimp only [Env.localEntry]
  rw [hopen]
  exact .top w [Int32.ofNat a, s.frame] s.base

/-- What the machine shows after some declarations. -/
def Declared (r : Resolution) (w : World) (escapes : Prop) (s : Site) (σ : Tally) (env : Env)
    (pc size : Nat) (ρ : Scope) (σ' : Tally) (c : Config) : Prop :=
  ∃ cells : List Int32, cells.length = size ∧ σ.next ≤ σ'.next ∧
    At r w escapes (s.after env ρ cells) σ' pc [] c

theorem Declared.first {env env' : Env} {ρ ρ' : Scope} {cells : List Int32} {m : Nat}
    {σ' σ'' : Tally} (h : Declared r w escapes (s.after env ρ cells) σ' env' pc m ρ' σ'' c)
    (hle : σ.next ≤ σ'.next) :
    Declared r w escapes s σ env' pc (cells.length + m) ρ' σ'' c := by
  obtain ⟨more, hmore, hle', hat⟩ := h
  refine ⟨more ++ cells, ?_, Nat.le_trans hle hle', ?_⟩
  · rw [List.length_append, hmore, Nat.add_comm]
  · simpa only [Site.after, List.append_assoc] using hat

/-! ### Declarations -/

def DeclsSimulated (r : Resolution) (w : World) (escapes : Prop) (n : Nat) (call : Call) (s : Site)
    (ds : List Decl) (env : Env) : Prop :=
  ∀ ⦃σ : Tally⦄ ⦃pc : Nat⦄ ⦃c : Config⦄ ⦃q q' : CodeState⦄ ⦃locals : Fragment⦄,
    declCode (w.context r false) ds q = .ok (locals, q') → w.Carries pc locals.code →
    (∃ a, w.image.CodeAt w.address a locals.bodies) → At r w escapes s σ pc [] c →
    Sim w escapes n (evalDecls call (some s.live) s.id s.scope ds σ) c
      (Declared r w escapes s σ env (pc + Code.size locals.code) (totalCells Decl.cells ds))

theorem declsSimulated_nil : DeclsSimulated r w escapes n call s [] s.env := by
  intro σ pc c q q' locals hcode hcarries hbodies hat
  obtain ⟨rfl, -⟩ := declCode_nil.mp hcode
  exact ⟨0, c, .refl w _, [], rfl, Nat.le_refl _, hat⟩

theorem declsSimulated_var (hfree : s.env.ClassFree) (hcall : CallSim r w escapes n call)
    (hopen : s.Open w) {d : VarDecl} {ds : List Decl} {scopes : Scopes} {env : Env}
    (hinit : d.init.Fits r s.env d.declared.ty)
    (hdeclare : s.env.scopes.declare? d.name (s.env.localEntry d.declared.ty) = some scopes)
    (hrest : ∀ (v : Datum) (words : List Int32), words.length = d.declared.cells →
      DeclsSimulated r w escapes n call
      (s.after (s.env.afterLocal scopes (Int32.ofNat d.declared.cells))
        (.value d.name s.id v :: s.scope) words) ds env) :
    DeclsSimulated r w escapes n call s (.var d :: ds) env := by
  intro σ pc c q q' locals hcode hcarries hbodies hat
  obtain ⟨first, q₁, rest, hfirst, hrestCode, rfl⟩ := declCode_cons.mp hcode
  obtain ⟨code₁, s', hcode₁, -, rfl⟩ := Decl.code_var.mp hfirst
  simp only [Fragment.code_append, Fragment.bodies_append, Platform.carries_append,
    Code.size_append, List.nil_append, ← Nat.add_assoc] at hcarries hbodies ⊢
  obtain ⟨t, htyped, hsub⟩ := hinit
  rw [evalDecls]
  refine (simulated hfree hcall d.init htyped ⟨_, _, hcode₁⟩ hcarries.1 hat).bind ?_
  rintro v σ₁ c₁ ⟨words, hle, hv, ra, tm, out, hm, hout, rfl⟩
  have hv := hv.widen (.sub hsub)
  have hlength : words.length = d.declared.cells := hv.length_eq_cells.trans (WrittenTy.cells_ty _)
  have hm' := hm.value hopen hv hdeclare (Int32.ofNat d.declared.cells)
  rw [List.append_nil]
  refine (hrest v words hlength hrestCode hcarries.2 hbodies ⟨ra, tm, out, hm', hout, rfl⟩).mono
    fun ρ σ₂ c₂ _ hdeclared => ?_
  rw [totalCells_cons, Decl.cells, ← hlength]
  exact hdeclared.first hle

theorem declsSimulated_fn (hopen : s.Open w) {f : FunDecl} {ds : List Decl} {scopes : Scopes}
    {env : Env} (hdeclare : s.env.scopes.declare? f.name (s.env.localEntry (.arrow f.signature)) =
      some scopes)
    (hfun : f.Formed r escapes (s.env.afterLocal scopes 2))
    (hrest : ∀ words : List Int32, words.length = 2 → DeclsSimulated r w escapes n call
      (s.after (s.env.afterLocal scopes 2) (.function f s.id :: s.scope) words) ds env) :
    DeclsSimulated r w escapes n call s (.fn f :: ds) env := by
  intro σ pc c q q' locals hcode hcarries hbodies hat
  obtain ⟨first, q₁, rest, hfirst, hrestCode, rfl⟩ := declCode_cons.mp hcode
  obtain ⟨routine, hroutine, rfl⟩ := Decl.code_fn.mp hfirst
  simp only [Fragment.code_append, Fragment.bodies_append, Platform.carries_append,
    Platform.carries_bare, Platform.carries_pushLabel, Code.size_append,
    Image.codeAt_append, ← Nat.add_assoc] at hcarries hbodies ⊢
  obtain ⟨a, hbody, hbodies⟩ := hbodies
  rw [evalDecls]
  obtain ⟨ra, tm, out, hm, hout, rfl⟩ := hat
  have hm' := hm.function hopen hdeclare hfun ⟨_, _, _, _, hroutine, hbody, rfl⟩
  refine .after ((Platform.reach_lfp hcarries.1.1).trans (Platform.reach_push hcarries.1.2.1)) ?_
  exact (hrest _ rfl hrestCode hcarries.2 ⟨_, hbodies⟩ ⟨ra, tm, out, hm', hout, rfl⟩).mono
    fun ρ σ₂ c₂ _ hdeclared => hdeclared.first (Nat.le_refl _)

/-- All declarations are simulated. -/
theorem declsSimulated (hcall : CallSim r w escapes n call) {ds : List Decl} {env : Env}
    (hfree : s.env.ClassFree) (hopen : s.Open w) (hformed : DeclsFormed r escapes s.env ds env) :
    DeclsSimulated r w escapes n call s ds env := by
  induction ds generalizing s with
  | nil =>
    obtain rfl : s.env = env := by
      cases hformed
      rfl
    exact declsSimulated_nil
  | cons d ds ih =>
    cases hformed with
    | var hinit hdeclare hrest =>
      refine declsSimulated_var hfree hcall hopen hinit hdeclare fun v words hlength =>
        ih hfree (hopen.after ?_) hrest
      rw [hlength]
      rfl
    | fn hdeclare hfun hrest =>
      refine declsSimulated_fn hopen hdeclare hfun fun words hlength =>
        ih hfree (hopen.after ?_) hrest
      rw [hlength]
      rfl

/-! ### Functions -/

theorem nextLocal_of_params {env env' : Env} {ps : List TypedName} (h : ParamsFormed env ps env') :
    env'.frame.nextLocal = env.frame.nextLocal := by
  induction h with
  | nil => rfl
  | cons _ _ ih => exact ih

/-- Parameters are found in their cells, above the static link. -/
theorem Laid.params {φ : Frames} {env env' : Env} {ρ : Scope} {owner : Nat} {F : Int32}
    {ps : List TypedName} {args : List Datum} {words st tail : List Int32}
    (h : ParamsFormed env ps env') (hscope : Laid r w escapes φ n (.scope env ρ owner F))
    (hargs : ArgsLaid r w escapes φ n args (ps.map (·.declared.ty)) words) (hst : φ owner = some st)
    (hup : words ++ tail <:+ st)
    (hnext : F + env.frame.nextParam = w.slot (words ++ tail).length + 1) :
    Laid r w escapes φ n (.scope env' (bindParams owner ps args ρ) owner F) := by
  induction h generalizing ρ args words with
  | nil =>
    cases hargs
    exact hscope
  | @cons env env' p ps scopes hdeclare _ ih =>
    cases hargs with
    | @cons d args _ _ words more hd hargs =>
      rw [List.append_assoc] at hup hnext
      have hslot : F + env.frame.nextParam =
          w.slot (more ++ tail).length - Int32.ofNat p.declared.ty.cells + 1 := by
        rw [hnext, List.length_append, Platform.slot_add, hd.length_eq_cells]
      have hoffset : F + (env.paramEntry p.declared.ty).offset = w.slot (more ++ tail).length := by
        dsimp only [Env.paramEntry, Frame.allotParam]
        grind
      refine ih (.value hscope hd hst hdeclare rfl ?_) hargs ((List.suffix_append _ _).trans hup) ?_
      · rw [hoffset]
        exact (Stores.top w words (more ++ tail)).mono hup
      · rw [← hoffset]
        dsimp only [Env.afterParam, Env.paramEntry, Frame.allotParam]
        grind

/-- The site of a function's body: its frame starts at the static link, above which the return
address is pushed. -/
def Site.called (w : World) (env : Env) (ids : List Nat) (ρ : Scope) (id : Nat) (rest : List Int32)
    (link target : Int32) (φ : Frames) : Site where
  env := env
  live := id :: ids
  scope := ρ
  id := id
  frame := w.slot rest.length
  base := target :: link :: rest
  outer := φ

variable {φ : Frames} {ids : List Nat}

theorem Site.later_called {env : Env} {ρ : Scope} {rest : List Int32} {link target : Int32}
    (hfresh : ∀ id, (φ id).isSome → id < n) :
    Later escapes φ n (Site.called w env ids ρ n rest link target φ).frames (n + 1) :=
  (Site.called w env ids ρ n rest link target φ).later_outer hfresh

theorem Site.open_called {env inner : Env} {ρ : Scope} {id : Nat} {rest : List Int32}
    {link target : Int32} {ps : List TypedName} (hparams : ParamsFormed env.enterBody ps inner) :
    (Site.called w inner ids ρ id rest link target φ).Open w := by
  have hlength : (target :: link :: rest).length = 2 + rest.length := by
    rw [List.length_cons, List.length_cons]
    omega
  have hfirst : env.enterBody.frame.nextLocal = -2 := rfl
  have htwo : Int32.ofNat 2 = 2 := rfl
  dsimp only [Site.Open, Site.called]
  rw [nextLocal_of_params hparams, hfirst, hlength, Platform.slot_add, htwo]
  grind

/-- A new invocation is on top of those that go on already. -/
theorem Matches.new (s : Site) (hids : s.live = s.id :: ids)
    (hlive : ∀ id, id ∈ ids ↔ (s.outer id).isSome)
    (hbelow : ∀ id st, s.outer id = some st → st <:+ s.base)
    (hfresh : ∀ id, (s.outer id).isSome → id < s.id)
    (hscope : Laid r w escapes s.frames (s.id + 1) (.scope s.env s.scope s.id s.frame)) :
    Matches r w escapes s (s.id + 1) := by
  refine ⟨hscope, fun id => ?_, fun id st hst => ?_, fun id hid => ?_⟩
  · rw [hids, List.mem_cons, hlive]
    by_cases heq : id = s.id
    · subst heq
      simp [s.frames_self]
    · simp [Site.frames_of_ne heq, heq]
  · by_cases heq : id = s.id
    · subst heq
      rw [s.frames_self] at hst
      cases hst
      exact List.suffix_refl _
    · exact hbelow id st ((Site.frames_of_ne heq).symm.trans hst)
  · by_cases heq : id = s.id
    · rw [heq]
      exact Nat.lt_succ_self _
    · rw [Site.frames_of_ne heq] at hid
      exact Nat.lt_succ_of_lt (hfresh id hid)

theorem Matches.called {env inner : Env} {b : Bound} {ρ : Scope} {F : Int32} {words st : List Int32}
    {ps : List TypedName} {args : List Datum} (hparams : ParamsFormed env.enterBody ps inner)
    (hscope : Laid r w escapes φ n (.scope env (b :: ρ) b.owner F))
    (hlive : ∀ id, id ∈ ids ↔ (φ id).isSome) (hbelow : ∀ id st', φ id = some st' → st' <:+ st)
    (hfresh : ∀ id, (φ id).isSome → id < n)
    (hargs : ArgsLaid r w escapes φ n args (ps.map (·.declared.ty)) words) (back target : Int32) :
    Matches r w escapes (.called w inner ids (bindParams n ps args (b :: ρ)) n (words ++ back :: st)
      F target φ) (n + 1) := by
  have hlink : F :: (words ++ back :: st) <:+ target :: F :: (words ++ back :: st) :=
    List.suffix_cons _ _
  have hwords : words ++ back :: st <:+ target :: F :: (words ++ back :: st) :=
    (List.suffix_cons _ _).trans hlink
  have hst : st <:+ target :: F :: (words ++ back :: st) :=
    ((List.suffix_cons _ _).trans (List.suffix_append _ _)).trans hwords
  refine .new _ rfl hlive (fun id st' hst' => (hbelow id st' hst').trans hst) hfresh ?_
  refine .params hparams (.body (hscope.later (Site.later_called hfresh)) (Site.frames_self _) ?_)
    (hargs.later (Site.later_called hfresh)) (Site.frames_self _) hwords ?_
  · exact (Platform.Has.top w _ _ _).mono hlink (List.prefix_refl _)
  · rfl

/-- The end of a function: what remains of its frame is the result, be it one word or two. -/
theorem Laid.reach_epilogue {d : Datum} {f : FunDecl} {result cells words st : List Int32}
    {target : Nat} {link back fp ra tm : Int32} {out : Array Int32}
    (hd : Laid r w escapes φ n (.value d f.result.ty result))
    (hcode : w.image.CodeAt w.address pc (Code.epilogue cells.length words.length f.result.isArrow))
    (hlt : target < w.image.ops.size) :
    ∃ k ra' tm', w.Reach k
      ⟨pc, result ++ (cells ++ Int32.ofNat target :: link :: (words ++ back :: st)), [], fp, ra, tm,
        out, none⟩
      ⟨target, result ++ st, [], back, ra', tm', out, none⟩ := by
  have harrow := f.result.isArrow_ty
  cases hf : f.result.isArrow with
  | false =>
    rw [hf] at hcode
    obtain ⟨v, -, rfl, -⟩ := hd.exists_base (harrow.trans hf)
    obtain ⟨ra', hreach⟩ := World.reach_epilogue hcode hlt
    exact ⟨_, ra', _, hreach⟩
  | true =>
    rw [hf] at hcode
    obtain ⟨u, v, rfl⟩ := hd.exists_pair (harrow.trans hf)
    obtain ⟨ra', hreach⟩ := World.reach_closureEpilogue hcode hlt
    exact ⟨_, ra', _, hreach⟩

/-- What a function returns can be told without its frame, or else functions escape. -/
theorem Laid.returned {d : Datum} {f : FunDecl} {result : List Int32}
    (h : Laid r w escapes s.frames n (.value d f.result.ty result))
    (hresult : f.result.isArrow → escapes) (hnew : s.outer s.id = none) (hlt : s.id < n) :
    Laid r w escapes s.outer n (.value d f.result.ty result) := by
  cases hf : f.result.isArrow with
  | true => exact h.later (s.later_frames (hresult hf) hnew hlt)
  | false =>
    obtain ⟨v, rfl, rfl, hv⟩ := h.exists_base (f.result.isArrow_ty.trans hf)
    exact .base hv

/-- Calls that are nested at most so deep are simulated. -/
theorem callSim (depth : Nat) : CallSim r w escapes depth (callAt depth) := by
  induction depth with
  | zero =>
    intro f env b ρ F φ ids σ args words st entry target back fp tm out _ _ _ _ _ _ _ _ _
    exact ⟨0, _, Nat.le_refl 0, .refl w _⟩
  | succ depth ih =>
    intro f env b ρ F φ ids σ args words st entry target back fp tm out hfun hscope hlive hbelow
      hfresh hargs hplaced htarget hout
    cases hfun with
    | @mk _ inner last _ hfree hresult hparams hdecls hbody =>
      obtain ⟨q, locals, q₁, value, s', hlocals, hvalue, hbodies, hcfp, hlra, hlocalCode,
          hvalueCode, hepilogue⟩ :=
        hplaced.routine
      have hlength : f.params.length = args.length := by
        rw [hargs.length_eq, FunDecl.signature, List.length_map]
      rw [callAt, if_pos hlength]
      -- The prologue opens the frame, and takes the two steps that the deeper bound asks for.
      refine .reach ((Platform.reach_cfp hcfp).trans (Platform.reach_lra hlra)) ?_
        (show depth + 1 ≤ 1 + 1 + depth by omega)
      have hm := Matches.called hparams hscope hlive hbelow hfresh hargs back (Int32.ofNat target)
      have hinner := hfree.of_classes hparams.classes
      change Sim w escapes depth ((evalDecls (callAt depth) (some (σ.next :: ids)) σ.next
        (bindParams σ.next f.params args (b :: ρ)) f.decls >>= fun ρ' =>
          eval (callAt depth) (some (σ.next :: ids)) ρ' f.body) { σ with next := σ.next + 1 }) _ _
      have hat : At r w escapes _ { σ with next := σ.next + 1 } (entry + 2) [] _ :=
        ⟨Int32.ofNat target, tm, out, hm, hout, rfl⟩
      refine (declsSimulated ih hinner (Site.open_called hparams) hdecls hlocals hlocalCode hbodies
        hat).bind ?_
      rintro ρ' σ₁ c₁ ⟨cells, hcells, hle₁, hat⟩
      obtain ⟨t, htyped, hsub⟩ := hbody
      refine (simulated (hinner.of_classes hdecls.classes) ih f.body htyped ⟨_, _, hvalue⟩
        hvalueCode hat).followed ?_
      rintro d σ₂ c₂ - ⟨result, hle₂, hd, ra₂, tm₂, out₂, hm₂, hout₂, rfl⟩
      have hle : σ.next + 1 ≤ σ₂.next := Nat.le_trans hle₁ hle₂
      have hnew : φ σ.next = none := by
        rw [← Option.not_isSome_iff_eq_none]
        exact fun hsome => Nat.lt_irrefl _ (hfresh _ hsome)
      have hd := (hd.widen (.sub hsub)).returned hresult hnew hle
      have hparamCells : totalCells (·.declared.cells) f.params = words.length := by
        rw [hargs.length_words, FunDecl.signature, totalCells_map]
        exact congrArg (totalCells · f.params) (funext fun p => p.declared.cells_ty.symm)
      rw [hparamCells, ← hcells] at hepilogue
      obtain ⟨k, ra', tm', hreach⟩ := hd.reach_epilogue hepilogue htarget
      rw [List.append_nil]
      exact ⟨k, _, hreach, result, ra', tm', out₂, Nat.le_of_succ_le hle, hd, hout₂, rfl⟩

/-! ### Programs -/

/-- The site of the first declaration, above what the program starts with. -/
def Site.global (w : World) (base : List Int32) : Site where
  env := .global
  live := [0]
  scope := []
  id := 0
  frame := Int32.ofNat w.size
  base := base
  outer := fun _ => none

theorem Matches.global (base : List Int32) : Matches r w escapes (.global w base) 1 :=
  .new (Site.global w base) rfl (by simp [Site.global]) nofun nofun .global

theorem Site.open_global : (Site.global w [0]).Open w := by
  change Int32.ofNat w.size + -2 = w.slot 1
  rw [Platform.slot, Platform.one_eq_ofNat]
  grind

theorem declsSimulated_global {p : Program} (hcall : CallSim r w escapes n call) {env : Env}
    (hformed : DeclsFormed r escapes .global p.decls env) :
    DeclsSimulated r w escapes n call (.global w p.firstCells) p.decls env := by
  unfold Program.firstCells
  cases hdecls : p.decls with
  | nil =>
    rw [hdecls] at hformed
    cases hformed
    exact declsSimulated_nil
  | cons d ds =>
    rw [hdecls] at hformed
    exact declsSimulated hcall Env.classFree_global Site.open_global hformed

/-- The machine evaluates a program as the watched evaluation does. -/
theorem simulated_program {p : Program} {t : Ty} (hformed : p.Formed r escapes t)
    (ht : t.isArrow = false) (hw : w.Holds r p) :
    Sim w escapes n (p.lexical n (some [0])) w.start fun d σ c =>
      ∃ (v : Value) (out : Array Int32), d = .base v ∧ Printed σ.output out ∧
        w.Done v.word out c := by
  obtain ⟨env, hdecls, hbody⟩ := hformed
  obtain ⟨locals, q, value, hlocals, hcoded, hmain, hvalue, hhalt, hbodies⟩ := hw.exists_code
  rw [Platform.carries_append, Nat.zero_add] at hmain
  have hcall : CallSim r w escapes n (callAt n) := callSim n
  have hat : At r w escapes (.global w p.firstCells) {} (Code.size p.opening) []
      ⟨Code.size p.opening, p.firstCells, [], Int32.ofNat w.size, 0, 0, #[], none⟩ :=
    ⟨0, 0, #[], .global _, .nil, rfl⟩
  refine .after (Program.reach_opening hmain.1) ?_
  refine (declsSimulated_global hcall hdecls hlocals hmain.2 hbodies hat).bind ?_
  rintro ρ σ c ⟨cells, -, -, hat⟩
  rw [← Code.size_append] at hat
  refine (simulated (Env.classFree_global.of_classes hdecls.classes) hcall p.body hbody hcoded
    hvalue hat).mono ?_
  rintro d σ' c' - ⟨_, -, hd, ra, tm, out, -, hout, rfl⟩
  obtain ⟨v, rfl, rfl, -⟩ := hd.exists_base ht
  exact ⟨v, out, rfl, hout, hhalt, ⟨_, rfl⟩, rfl⟩

end Stackling.Lexical
