import Mathlib.Data.List.Infix
import Stackling.Code.Buffer
import Stackling.Code.Sequence

/-!
# Nested bodies

Whatever is done to a code buffer, each instruction that is written comes to stand in the finished
code once: also if bodies are left open, or closed where none is open. If bodies are opened and
closed like brackets, every instruction stands in the body that was the innermost open one when it
was written.

What belongs to a body is said without a stack: at any time, the body is the innermost open one just
if everything that was opened since its own opening has been closed. The stack of interrupted lines
is related to that by an invariant, which gives for each line the stretch of actions in which it was
opened and interrupted.
-/

namespace Stackling.CodeBuffer

/-! ### Actions -/

/-- Actions on the line that is being written. To give out a fresh label writes nothing. -/
inductive Writing where
  | emit (instr : Instr)
  | emitAll (code : List Instr)
  | place (label : Label)
  | load (offset : Int32)
  | heapStore
  | pops (count : Int32)
  | freshBranch
  | freshFunction
  deriving DecidableEq, Repr

/-- The instructions of a writing, one by one. -/
def Writing.instrs : Writing → List Instr
  | emit instr => [instr]
  | emitAll code => code
  | place label => [.label label]
  | load offset => [.push offset, .bare .add, .bare .lw]
  | heapStore => [.bare .lhp, .bare .sw, .bare .lhp, .push 1, .bare .add, .bare .shp]
  | pops count => List.replicate count.toNatClampNeg (.bare .pop)
  | freshBranch | freshFunction => []

def write (b : CodeBuffer) : Writing → CodeBuffer
  | .emit instr => b.emit [instr]
  | .emitAll code => b.emit code
  | .place label => b.place label
  | .load offset => b.emit (Code.load offset)
  | .heapStore => b.emit Code.heapStore
  | .pops count => b.emit (Code.pops count.toNatClampNeg)
  | .freshBranch => b.freshBranch.2
  | .freshFunction => b.freshFunction.2

inductive Action where
  | write (w : Writing)
  | openBody (entry : Label)
  | closeBody
  deriving DecidableEq, Repr

namespace Action

/-- The instructions that an action writes; a body that is opened starts with its entry. -/
def instrs : Action → List Instr
  | write w => w.instrs
  | openBody entry => [.label entry]
  | closeBody => []

/-- The instructions that an action leaves on the line on which it is made. -/
def onLine : Action → List Instr
  | write w => w.instrs
  | openBody _ | closeBody => []

def opens : Action → Bool
  | openBody _ => true
  | write _ | closeBody => false

def closes : Action → Bool
  | closeBody => true
  | write _ | openBody _ => false

end Action

def step (b : CodeBuffer) : Action → CodeBuffer
  | .write w => b.write w
  | .openBody entry => b.openBody entry
  | .closeBody => b.closeBody

def perform (b : CodeBuffer) (actions : List Action) : CodeBuffer := actions.foldl step b

/-- A writing appends its instructions to the line, and else has to do with labels only. -/
theorem exists_write_eq (b : CodeBuffer) (w : Writing) :
    ∃ labels, b.write w = { b with current := b.current ++ w.instrs, labels } := by
  cases w with
  | emit | emitAll | place | load | heapStore => exact ⟨b.labels, rfl⟩
  | pops count =>
    refine ⟨b.labels, ?_⟩
    simp only [write, emit, Code.pops, Code.plain, List.map_replicate, Writing.instrs]
  | freshBranch =>
    refine ⟨b.labels.freshBranch.2, ?_⟩
    rw [Writing.instrs, List.append_nil]
    rfl
  | freshFunction =>
    refine ⟨b.labels.freshFunction.2, ?_⟩
    rw [Writing.instrs, List.append_nil]
    rfl

/-! ### Nothing is lost -/

theorem closeAll_perm (functions current : List Instr) (suspended : List (List Instr)) :
    (closeAll functions current suspended).Perm (functions ++ current ++ suspended.flatten) := by
  induction suspended generalizing functions current with
  | nil => simpa [closeAll] using List.perm_append_comm
  | cons outer rest ih => simpa [closeAll] using ih (functions ++ current) outer

/-- The finished code holds what stands in the buffer. -/
theorem finish_perm (b : CodeBuffer) :
    b.finish.instrs.Perm (b.functions ++ b.current ++ b.suspended.flatten) :=
  closeAll_perm b.functions b.current b.suspended

theorem finish_step_perm (b : CodeBuffer) (a : Action) :
    (b.step a).finish.instrs.Perm (b.finish.instrs ++ a.instrs) := by
  refine (finish_perm _).trans (.trans ?_ ((finish_perm b).symm.append_right _))
  cases a with
  | write w =>
    obtain ⟨labels, heq⟩ := b.exists_write_eq w
    simp only [step, heq, Action.instrs, List.append_assoc]
    exact (List.perm_append_comm.append_left _).append_left _
  | openBody entry =>
    simp only [step, openBody, Action.instrs, List.flatten_cons, List.append_assoc]
    refine List.Perm.append_left _ (List.perm_append_comm.trans ?_)
    rw [List.append_assoc]
  | closeBody =>
    -- with no body open, the line goes to the functions and an empty one takes its place
    cases hs : b.suspended with
    | nil => simp [step, closeBody, Action.instrs, hs]
    | cons outer rest => simp [step, closeBody, Action.instrs, hs]

theorem finish_perform_perm (b : CodeBuffer) (actions : List Action) :
    (b.perform actions).finish.instrs.Perm (b.finish.instrs ++ actions.flatMap Action.instrs) := by
  induction actions generalizing b with
  | nil => simp [perform]
  | cons a actions ih =>
    have hstep := (finish_step_perm b a).append_right (actions.flatMap Action.instrs)
    rw [List.append_assoc, ← List.flatMap_cons] at hstep
    exact (ih (b.step a)).trans hstep

/-! ### Brackets -/

def opened (actions : List Action) : Nat := actions.countP Action.opens

def closed (actions : List Action) : Nat := actions.countP Action.closes

section Counts

variable (s t : List Action) (w : Writing) (entry : Label)

@[simp] theorem opened_append : opened (s ++ t) = opened s + opened t := List.countP_append

@[simp] theorem closed_append : closed (s ++ t) = closed s + closed t := List.countP_append

@[simp] theorem opened_nil : opened [] = 0 := rfl

@[simp] theorem closed_nil : closed [] = 0 := rfl

@[simp] theorem opened_write : opened (.write w :: s) = opened s := List.countP_cons_of_neg nofun

@[simp] theorem closed_write : closed (.write w :: s) = closed s := List.countP_cons_of_neg nofun

@[simp] theorem opened_openBody : opened (.openBody entry :: s) = opened s + 1 :=
  List.countP_cons_of_pos rfl

@[simp] theorem closed_openBody : closed (.openBody entry :: s) = closed s :=
  List.countP_cons_of_neg nofun

@[simp] theorem opened_closeBody : opened (.closeBody :: s) = opened s :=
  List.countP_cons_of_neg nofun

@[simp] theorem closed_closeBody : closed (.closeBody :: s) = closed s + 1 :=
  List.countP_cons_of_pos rfl

end Counts

/-- Bodies are opened and closed like brackets: none is closed that has not been opened, and none is
left open. -/
structure Bracketed (actions : List Action) : Prop where
  closed_le : ∀ done, done <+: actions → closed done ≤ opened done
  closed_eq : closed actions = opened actions

instance (actions : List Action) : Decidable (Bracketed actions) :=
  decidable_of_iff
    ((∀ done ∈ actions.inits, closed done ≤ opened done) ∧ closed actions = opened actions)
    ⟨fun h => ⟨fun done hdone => h.1 done ((List.mem_inits _ _).mpr hdone), h.2⟩,
      fun h => ⟨fun done hdone => h.closed_le done ((List.mem_inits _ _).mp hdone), h.closed_eq⟩⟩

namespace Bracketed

variable {s t : List Action}

theorem nil : Bracketed [] where
  closed_le done hdone := by simp [List.prefix_nil.mp hdone]
  closed_eq := rfl

theorem write (w : Writing) : Bracketed [.write w] where
  closed_le done hdone := by
    rcases List.prefix_cons_iff.mp hdone with rfl | ⟨between, rfl, hbetween⟩
    · simp
    · simp [List.prefix_nil.mp hbetween]
  closed_eq := by simp

theorem append (hs : Bracketed s) (ht : Bracketed t) : Bracketed (s ++ t) where
  closed_le done hdone := by
    obtain ⟨rest, hrest⟩ := hdone
    rcases List.append_eq_append_iff.mp hrest with ⟨between, rfl, -⟩ | ⟨between, rfl, rfl⟩
    · exact hs.closed_le done (List.prefix_append _ _)
    · have hle := ht.closed_le between (List.prefix_append _ _)
      rw [closed_append, opened_append, hs.closed_eq]
      omega
  closed_eq := by rw [closed_append, opened_append, hs.closed_eq, ht.closed_eq]

theorem body (hs : Bracketed s) (entry : Label) :
    Bracketed (.openBody entry :: s ++ [.closeBody]) where
  closed_le done hdone := by
    rcases List.prefix_concat_iff.mp hdone with rfl | hdone
    · simp [hs.closed_eq]
    · rcases List.prefix_cons_iff.mp hdone with rfl | ⟨between, rfl, hbetween⟩
      · simp
      · have hle := hs.closed_le between hbetween
        rw [closed_openBody, opened_openBody]
        omega
  closed_eq := by simp [hs.closed_eq]

end Bracketed

/-! ### Lines and bodies -/

/-- Each action, with all that was done before it. -/
def moments : List Action → List (List Action × Action)
  | [] => []
  | a :: actions => ([], a) :: (moments actions).map fun m => (a :: m.1, m.2)

/-- What is written outside of all bodies that are opened in these actions: before it, every body
that was opened has been closed. -/
def line (actions : List Action) : List Instr :=
  (moments actions).flatMap fun m => if closed m.1 = opened m.1 then m.2.onLine else []

/-- The entry of each body that is opened, with all that was done before. -/
def openings (actions : List Action) : List (List Action × Label) :=
  (moments actions).filterMap fun
    | (done, .openBody entry) => some (done, entry)
    | (_, .write _) | (_, .closeBody) => none

/-- What was done before each closing. -/
def closings (actions : List Action) : List (List Action) :=
  (moments actions).filterMap fun m => if m.2.closes then some m.1 else none

/-- A body: the actions before it is opened, its entry, and the actions from there until it is
closed. -/
structure Body where
  before : List Action
  entry : Label
  inside : List Action
  deriving DecidableEq, Repr

namespace Body

def opening (body : Body) : List Action × Label := (body.before, body.entry)

/-- What was done before the body is closed. -/
def closing (body : Body) : List Action := body.before ++ .openBody body.entry :: body.inside

/-- The entry, and what is written while the body is the innermost open one. -/
def code (body : Body) : List Instr := .label body.entry :: line body.inside

end Body

/-- These are the bodies, in the order in which they are closed. Each opening belongs to one of
them, and so does each closing; and what is done between is bracketed. -/
structure BodiesOf (actions : List Action) (bodies : List Body) : Prop where
  openings : (bodies.map Body.opening).Perm (openings actions)
  closings : bodies.map Body.closing = closings actions
  bracketed : ∀ body ∈ bodies, Bracketed body.inside

theorem moments_append (s t : List Action) :
    moments (s ++ t) = moments s ++ (moments t).map fun m => (s ++ m.1, m.2) := by
  induction s with
  | nil => simp [moments]
  | cons a s ih => simp [moments, ih]

theorem moments_concat (s : List Action) (a : Action) :
    moments (s ++ [a]) = moments s ++ [(s, a)] := by
  simp [moments_append, moments]

theorem prefix_of_mem_moments {s : List Action} {m : List Action × Action} (hm : m ∈ moments s) :
    m.1 <+: s := by
  induction s generalizing m with
  | nil => cases hm
  | cons a s ih =>
    rcases List.mem_cons.mp hm with rfl | hm
    · exact List.nil_prefix
    · obtain ⟨m', hm', rfl⟩ := List.mem_map.mp hm
      exact List.cons_prefix_cons.mpr ⟨rfl, ih hm'⟩

theorem line_append {s : List Action} (hs : Bracketed s) (t : List Action) :
    line (s ++ t) = line s ++ line t := by
  simp [line, moments_append, List.flatMap_map, hs.closed_eq]

theorem line_write (w : Writing) : line [.write w] = w.instrs := by
  simp [line, moments, Action.onLine]

/-- A body leaves nothing on the line on which it is opened. -/
theorem line_body {s : List Action} (hs : Bracketed s) (entry : Label) :
    line (.openBody entry :: s ++ [.closeBody]) = [] := by
  refine List.flatMap_eq_nil_iff.mpr fun m hm => ?_
  rw [moments_concat, moments] at hm
  rcases List.mem_append.mp hm with hm | hm
  · rcases List.mem_cons.mp hm with rfl | hm
    · simp [Action.onLine]
    · obtain ⟨m', hm', rfl⟩ := List.mem_map.mp hm
      have hle := hs.closed_le m'.1 (prefix_of_mem_moments hm')
      rw [if_neg]
      simp only [closed_openBody, opened_openBody]
      omega
  · obtain rfl := List.mem_singleton.mp hm
    simp [Action.onLine]

/-- In a bracketed stretch of actions, what follows an opening closes more than it opens. -/
theorem Bracketed.not_bracketed_tail {s t : List Action} {entry : Label}
    (h : Bracketed (s ++ .openBody entry :: t)) :
    ¬ Bracketed t := by
  intro ht
  have hle := h.closed_le s (List.prefix_append _ _)
  have heq := h.closed_eq
  simp only [closed_append, opened_append, closed_openBody, opened_openBody, ht.closed_eq] at heq
  omega

theorem Body.eq_of_prefix_before {x y : Body} (hx : Bracketed x.inside) (hy : Bracketed y.inside)
    (h : x.closing = y.closing) (hbefore : x.before <+: y.before) : x = y := by
  obtain ⟨xbefore, xentry, xinside⟩ := x
  obtain ⟨ybefore, yentry, yinside⟩ := y
  obtain ⟨between, rfl⟩ := hbefore
  simp only [closing, List.append_assoc, List.append_cancel_left_eq] at h
  cases between with
  | nil =>
    obtain ⟨⟨⟩, rfl⟩ := List.cons.inj h
    rw [List.append_nil]
  | cons a between =>
    -- the later body would be opened inside of the earlier one, and closed with it
    obtain ⟨rfl, rfl⟩ := List.cons.inj h
    exact absurd hy hx.not_bracketed_tail

/-- A closing belongs to one body only. -/
theorem Body.eq_of_closing_eq {x y : Body} (hx : Bracketed x.inside) (hy : Bracketed y.inside)
    (h : x.closing = y.closing) : x = y := by
  have hpx : x.before <+: x.closing := List.prefix_append _ _
  have hpy : y.before <+: x.closing := h ▸ List.prefix_append _ _
  rcases List.prefix_or_prefix_of_prefix hpx hpy with hle | hle
  · exact eq_of_prefix_before hx hy h hle
  · exact (eq_of_prefix_before hy hx h.symm hle).symm

theorem BodiesOf.unique {actions : List Action} {xs ys : List Body} (hx : BodiesOf actions xs)
    (hy : BodiesOf actions ys) : xs = ys := by
  have hmap : xs.map Body.closing = ys.map Body.closing := hx.closings.trans hy.closings.symm
  have hxs := hx.bracketed
  have hys := hy.bracketed
  clear hx hy
  induction xs generalizing ys with
  | nil => exact (List.map_eq_nil_iff.mp hmap.symm).symm
  | cons x xs ih =>
    cases ys with
    | nil => cases hmap
    | cons y ys =>
      obtain ⟨hhead, htail⟩ := List.cons.inj hmap
      rw [List.forall_mem_cons] at hxs hys
      rw [Body.eq_of_closing_eq hxs.1 hys.1 hhead, ih htail hxs.2 hys.2]

/-! ### The lines of a buffer -/

/-- The bodies that are open after some actions, the innermost first: what is done in each of them
before the next one is opened is bracketed, and so is what is done outside. -/
inductive Standing : List Action → List Body → Prop
  | outside {actions : List Action} (h : Bracketed actions) : Standing actions []
  | within {body : Body} {pending : List Body} (hbefore : Standing body.before pending)
      (hinside : Bracketed body.inside) : Standing body.closing (body :: pending)

/-- The lines that are being written, the innermost first. -/
def lines (actions : List Action) : List Body → List (List Instr)
  | [] => [line actions]
  | body :: pending => body.code :: lines body.before pending

namespace Standing

variable {actions : List Action} {pending : List Body}

theorem opened_eq (h : Standing actions pending) :
    opened actions = closed actions + pending.length := by
  induction h with
  | outside h => simp [h.closed_eq]
  | within hbefore hinside ih =>
    simp only [Body.closing, opened_append, closed_append, opened_openBody, closed_openBody,
      List.length_cons]
    rw [ih, hinside.closed_eq]
    omega

/-- A bracketed stretch of actions goes on with the innermost line, and leaves the others. -/
theorem append {s : List Action} (h : Standing actions pending) (hs : Bracketed s) :
    ∃ pending', Standing (actions ++ s) pending' ∧
      pending'.map Body.opening = pending.map Body.opening ∧
      ∃ current rest, lines actions pending = current :: rest ∧
        lines (actions ++ s) pending' = (current ++ line s) :: rest := by
  cases h with
  | outside h => exact ⟨[], .outside (h.append hs), rfl, _, [], rfl, by simp [lines, line_append h]⟩
  | @within body rest hbefore hinside =>
    let body' : Body := { body with inside := body.inside ++ s }
    have heq : body.closing ++ s = body'.closing := by simp [Body.closing, body']
    refine ⟨body' :: rest, ?_, rfl, _, _, rfl, ?_⟩
    · rw [heq]
      exact .within hbefore (hinside.append hs)
    · simp [lines, Body.code, body', line_append hinside]

end Standing

/-- What a buffer holds after some actions: the closed bodies in the order of their closings, and
the lines of those that are open. -/
structure Collects (actions : List Action) (b : CodeBuffer) (bodies pending : List Body) :
    Prop where
  standing : Standing actions pending
  lines : b.current :: b.suspended = lines actions pending
  functions : b.functions = bodies.flatMap Body.code
  openings : ((bodies ++ pending).map Body.opening).Perm (openings actions)
  closings : bodies.map Body.closing = closings actions
  bracketed : ∀ body ∈ bodies, Bracketed body.inside

theorem collects_nil : Collects [] {} [] [] where
  standing := .outside .nil
  lines := rfl
  functions := rfl
  openings := .nil
  closings := rfl
  bracketed := nofun

namespace Collects

variable {actions : List Action} {b : CodeBuffer} {bodies pending : List Body}

theorem write (h : Collects actions b bodies pending) (w : Writing) :
    ∃ pending', Collects (actions ++ [.write w]) (b.write w) bodies pending' := by
  obtain ⟨pending', hstanding, hopenings, current, rest, hlines, hlines'⟩ :=
    h.standing.append (.write w)
  obtain ⟨labels, heq⟩ := b.exists_write_eq w
  obtain ⟨rfl, rfl⟩ := List.cons.inj (h.lines.trans hlines)
  refine ⟨pending', hstanding, ?_, ?_, ?_, ?_, h.bracketed⟩
  · rw [heq, hlines', line_write]
  · rw [heq]
    exact h.functions
  · rw [List.map_append, hopenings, ← List.map_append]
    simpa [CodeBuffer.openings, moments_concat] using h.openings
  · simpa [CodeBuffer.closings, moments_concat, Action.closes] using h.closings

theorem openBody (h : Collects actions b bodies pending) (entry : Label) :
    Collects (actions ++ [.openBody entry]) (b.openBody entry) bodies
      (⟨actions, entry, []⟩ :: pending) where
  standing := @Standing.within ⟨actions, entry, []⟩ pending h.standing .nil
  lines := by
    rw [CodeBuffer.lines, ← h.lines]
    rfl
  functions := h.functions
  openings := by
    have hconcat : CodeBuffer.openings (actions ++ [.openBody entry]) =
        CodeBuffer.openings actions ++ [(actions, entry)] := by
      simp [CodeBuffer.openings, moments_concat]
    rw [hconcat]
    refine .trans ?_ (h.openings.append_right _)
    refine (List.perm_middle.map _).trans ?_
    exact (List.perm_append_singleton _ _).symm
  closings := by simpa [CodeBuffer.closings, moments_concat, Action.closes] using h.closings
  bracketed := h.bracketed

/-- Around the body that is closed, the line on which it was opened goes on as if nothing had been
done. -/
theorem closeBody {body : Body} (h : Collects actions b bodies (body :: pending)) :
    ∃ pending', Collects (actions ++ [.closeBody]) b.closeBody (bodies ++ [body]) pending' := by
  obtain ⟨hstanding, hlines, hfunctions, hopenings, hclosings, hbracketed⟩ := h
  cases hstanding with
  | within hbefore hinside =>
    obtain ⟨pending', hstanding', hsame, current, rest, hcurrent, hcurrent'⟩ :=
      hbefore.append (hinside.body body.entry)
    have hactions : body.closing ++ [.closeBody] =
        body.before ++ (.openBody body.entry :: body.inside ++ [.closeBody]) := by
      simp [Body.closing]
    obtain ⟨hcode, hsuspended⟩ := List.cons.inj hlines
    refine ⟨pending', ?_, ?_, ?_, ?_, ?_, ?_⟩
    · rw [hactions]
      exact hstanding'
    · rw [hactions, hcurrent', line_body hinside, List.append_nil]
      simp [CodeBuffer.closeBody, hsuspended, hcurrent]
    · simp [CodeBuffer.closeBody, hfunctions, hcode]
    · rw [List.map_append, hsame, ← List.map_append, List.append_assoc]
      simpa [CodeBuffer.openings, moments_concat] using hopenings
    · simp [CodeBuffer.closings, moments_concat, Action.closes, hclosings]
    · rw [List.forall_mem_append]
      exact ⟨hbracketed, List.forall_mem_singleton.mpr hinside⟩

/-- One action, if it is not a closing where no body is open. -/
theorem step (h : Collects actions b bodies pending) {a : Action}
    (hle : closed (actions ++ [a]) ≤ opened (actions ++ [a])) :
    ∃ bodies' pending', Collects (actions ++ [a]) (b.step a) bodies' pending' := by
  cases a with
  | write w => exact ⟨bodies, h.write w⟩
  | openBody entry => exact ⟨bodies, _, h.openBody entry⟩
  | closeBody =>
    cases pending with
    | nil =>
      have heq := h.standing.opened_eq
      simp only [closed_append, opened_append, closed_closeBody, opened_closeBody, closed_nil,
        opened_nil, heq, List.length_nil] at hle
      omega
    | cons body pending => exact ⟨bodies ++ [body], h.closeBody⟩

end Collects

theorem exists_collects {actions : List Action}
    (h : ∀ done, done <+: actions → closed done ≤ opened done) :
    ∃ bodies pending, Collects actions (perform {} actions) bodies pending := by
  -- along the prefixes: the invariant speaks of what has been done so far
  induction actions using List.reverseRecOn with
  | nil => exact ⟨[], [], collects_nil⟩
  | append_singleton actions a ih =>
    obtain ⟨bodies, pending, hcollects⟩ :=
      ih fun done hdone => h done (List.prefix_append_of_prefix hdone)
    rw [perform, List.foldl_concat]
    exact hcollects.step (h _ (List.prefix_refl _))

/-- After bracketed actions no body is open, and the buffer holds one line. -/
theorem Bracketed.exists_collects {actions : List Action} (h : Bracketed actions) :
    ∃ bodies, Collects actions (perform {} actions) bodies [] := by
  obtain ⟨bodies, pending, hcollects⟩ := CodeBuffer.exists_collects h.closed_le
  have heq := hcollects.standing.opened_eq
  rw [h.closed_eq] at heq
  have hnil : pending = [] := List.length_eq_zero_iff.mp (by omega)
  exact ⟨bodies, hnil ▸ hcollects⟩

theorem Collects.bodiesOf {actions : List Action} {b : CodeBuffer} {bodies : List Body}
    (h : Collects actions b bodies []) : BodiesOf actions bodies where
  openings := by simpa using h.openings
  closings := h.closings
  bracketed := h.bracketed

theorem Collects.finish_eq {actions : List Action} {b : CodeBuffer} {bodies : List Body}
    (h : Collects actions b bodies []) :
    b.finish.instrs = line actions ++ bodies.flatMap Body.code := by
  obtain ⟨hcurrent, hsuspended⟩ := List.cons.inj h.lines
  rw [finish, hcurrent, hsuspended, h.functions, closeAll]

/-- A buffer collects what is written. Whatever is done, the finished code is a rearrangement of the
instructions that were written. If bodies are opened and closed like brackets, it is the line
outside of all bodies followed by the bodies in the order in which they are closed, each of them in
one piece: its entry, and in order what was written while it was the innermost open one. -/
theorem finish_collects (actions : List Action) :
    (perform {} actions).finish.instrs.Perm (actions.flatMap Action.instrs) ∧
    (Bracketed actions → (∃ bodies, BodiesOf actions bodies) ∧
      ∀ bodies, BodiesOf actions bodies →
        (perform {} actions).finish.instrs = line actions ++ bodies.flatMap Body.code) := by
  refine ⟨finish_perform_perm {} actions, fun hbracketed => ?_⟩
  obtain ⟨bodies, hcollects⟩ := hbracketed.exists_collects
  refine ⟨⟨bodies, hcollects.bodiesOf⟩, fun bodies' hbodies' => ?_⟩
  rw [hbodies'.unique hcollects.bodiesOf]
  exact hcollects.finish_eq

/-- A function with two others in it, the first of which holds one more, and then a function that is
empty. -/
def nest : List Action :=
  [.write (.emit (.push 0)), .write .freshFunction, .openBody (.function 0),
    .write (.emit (.bare .cfp)), .openBody (.function 1), .write (.load 2), .openBody (.function 2),
    .write (.pops 2), .closeBody, .write (.emit (.bare .lra)), .closeBody,
    .write (.place (.branch 0)), .openBody (.function 3), .write (.pops (-1)), .write .heapStore,
    .closeBody, .write (.emitAll [.bare .js, .bare .print]), .closeBody, .openBody (.function 4),
    .closeBody, .write (.emit (.bare .halt))]

def nestBodies : List Body :=
  [⟨nest.take 6, .function 2, [.write (.pops 2)]⟩,
    ⟨nest.take 4, .function 1, (nest.take 10).drop 5⟩,
    ⟨nest.take 12, .function 3, [.write (.pops (-1)), .write .heapStore]⟩,
    ⟨nest.take 2, .function 0, (nest.take 17).drop 3⟩, ⟨nest.take 18, .function 4, []⟩]

theorem finish_collects_nest :
    Bracketed nest ∧ BodiesOf nest nestBodies ∧
    (perform {} nest).finish.instrs =
      [.push 0, .bare .halt,
        .label (.function 2), .bare .pop, .bare .pop,
        .label (.function 1), .push 2, .bare .add, .bare .lw, .bare .lra,
        .label (.function 3), .bare .lhp, .bare .sw, .bare .lhp, .push 1, .bare .add, .bare .shp,
        .label (.function 0), .bare .cfp, .label (.branch 0), .bare .js, .bare .print,
        .label (.function 4)] ∧
    (perform {} (.closeBody :: nest.take 7)).finish.instrs.Perm
    ((nest.take 7).flatMap Action.instrs) := by
  have hbracketed : Bracketed nest := by decide
  have hbodies : BodiesOf nest nestBodies := ⟨by decide, by decide, by decide⟩
  exact ⟨hbracketed, hbodies, ((finish_collects nest).2 hbracketed).2 nestBodies hbodies,
    (finish_collects (.closeBody :: nest.take 7)).1⟩

end Stackling.CodeBuffer
