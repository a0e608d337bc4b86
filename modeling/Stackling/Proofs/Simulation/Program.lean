import Stackling.Proofs.Code.Shape
import Stackling.Proofs.Pipeline
import Stackling.Proofs.Simulation.Declarations

/-!
# Whole programs

The code of a program starts with its declarations at the global site and goes on with its body; the
operation behind that halts. So the simulation of expressions and declarations is one of programs.
-/

namespace Stackling

/-! ### Machines that run a listing -/

/-- The linked code in a memory. -/
def Listing.platform (listing : Listing) (memorySize : Int32) : Platform where
  image := Code.link listing.instrs
  address := Code.address listing.instrs
  size := memorySize.toNatClampNeg
  size_lt := Int32.toNatClampNeg_lt memorySize

def Listing.world (listing : Listing) (memorySize : Int32)
    (hfit : Code.size listing.instrs ≤ 2 ^ 31) : World where
  toPlatform := listing.platform memorySize
  code_le := by
    change (Code.link listing.instrs).ops.size ≤ 2 ^ 31
    rw [Code.size_link]
    exact hfit

theorem State.initial_of_nonneg {memorySize : Int32} (h : 0 ≤ memorySize) :
    State.initial memorySize =
      { memory := .zeros memorySize.toNatClampNeg, sp := memorySize, fp := memorySize } := by
  have hmax : max 0 memorySize = memorySize := if_pos h
  rw [State.initial, hmax]

namespace Platform

/-- The configuration in which a run starts. -/
def start (w : Platform) : Config := ⟨0, [], [], Int32.ofNat w.size, 0, 0, #[], none⟩

theorem rep_start {w : Platform} {memorySize : Int32} (hnonneg : 0 ≤ memorySize)
    (hsize : w.size = memorySize.toNatClampNeg) :
    w.Rep w.start (State.initial memorySize) := by
  have hword : memorySize = Int32.ofNat w.size := by
    rw [hsize, Int32.ofNat_toNatClampNeg _ hnonneg]
  rw [State.initial_of_nonneg hnonneg, ← hsize, hword]
  refine ⟨rfl, ?_, Nat.zero_le _, rfl, rfl, nofun, nofun, nofun, rfl, rfl, rfl, rfl⟩
  exact Memory.size_zeros _

/-- The machine is about to halt with a word on top of its stack. -/
structure Done (w : Platform) (v : Int32) (out : Array Int32) (c : Config) : Prop where
  halts : w.image.ops[c.ip]? = some (.bare .halt)
  top : ∃ st, c.stack = v :: st
  output : c.output = out

theorem Rep.halted {w : Platform} {c : Config} {s : State} (h : w.Rep c s)
    (hhalt : w.image.ops[c.ip]? = some (.bare .halt)) :
    s.step w.image = .ok (.halted { s with ip := s.ip + 1 }) := by
  rw [← h.ip] at hhalt
  rw [State.step, hhalt]
  rfl

theorem Done.run {w : Platform} {v : Int32} {out : Array Int32} {c : Config} {s : State}
    (h : w.Done v out c) (hs : w.Rep c s) (budget done : Nat) :
    s.run w.image (budget + 1) done = .ok ⟨some v, out, done + 1⟩ := by
  obtain ⟨hhalts, ⟨st, hst⟩, hout⟩ := h
  rw [State.run, hs.halted hhalts]
  simp only [hs.top hst, hs.output, hout]

end Platform

variable {ι : Type} {r : Resolution} {w : ι → World} {n : Nat} {call : Call}

/-! ### The global site -/

/-- The site of the first declaration, above what the program starts with. -/
def Site.global (w : ι → World) (base : List Int32) : Site ι :=
  ⟨false, .global, [], globalFrame w, fun _ => base, fun _ => []⟩

theorem Matches.global (base : List Int32) : Matches r w (.global w base) {} fun _ => [] where
  scope := .global
  heap := ⟨fun _ => rfl, nofun⟩
  classes := nofun
  above _ := List.prefix_refl _

theorem Site.open_global : (Site.global w [0]).Open w := by
  intro i
  change Int32.ofNat (w i).size + -2 = (w i).slot 1
  rw [Platform.slot, Platform.one_eq_ofNat]
  grind

namespace Program

variable {p : Program}

/-- What the stack holds after the opening. -/
def firstCells (p : Program) : List Int32 := if p.decls.isEmpty then [] else [0]

theorem reach_opening {w : Platform} (h : w.Carries 0 p.opening) :
    w.Reach (Code.size p.opening) w.start
      ⟨Code.size p.opening, p.firstCells, [], Int32.ofNat w.size, 0, 0, #[], none⟩ := by
  unfold opening firstCells at *
  split at h
  next hnil =>
    simp only [hnil, if_true]
    exact .refl w _
  next hcons =>
    simp only [hcons]
    exact Platform.reach_push (Platform.carries_push.mp h).1

theorem declsSimulated_global (hlinked : r.classes.Linked) (hcall : CallSim r w n call) {env : Env}
    (htyped : DeclsTyped r .global p.decls env) :
    DeclsSimulated r w n call (.global w p.firstCells) p.decls env := by
  unfold firstCells
  cases hdecls : p.decls with
  | nil =>
    rw [hdecls] at htyped
    cases htyped
    exact declsSimulated_nil
  | cons d ds =>
    rw [hdecls] at htyped
    exact declsSimulated hlinked hcall Site.open_global htyped

/-- The declarations of a program bring the machines to the site of its body. -/
theorem simulated_decls (hlinked : r.classes.Linked) (hcall : CallSim r w n call) {env : Env}
    (htyped : DeclsTyped r .global p.decls env) {locals : ι → Fragment} {q : ι → CodeState}
    (hcode : ∀ i, declCode ((w i).context r false) p.decls {} = .ok (locals i, q i))
    (hcarries : ∀ i, (w i).Carries 0 (p.opening ++ (locals i).code))
    (hbodies : ∀ i, ∃ a, (w i).image.CodeAt (w i).address a (locals i).bodies) :
    Sim r w n (evalDecls call [] p.decls {}) (fun i => (w i).start) fun ρ σ c =>
      ∃ s : Site ι, s.inClass = false ∧ s.env = env ∧ s.bindings = ρ ∧
        At r w s σ (fun i => Code.size (p.opening ++ (locals i).code)) (fun _ => []) c := by
  simp only [Platform.carries_append, Nat.zero_add] at hcarries
  refine .after (fun i => reach_opening (hcarries i).1) ?_
  have hat : At r w (.global w p.firstCells) {} (fun _ => Code.size p.opening) (fun _ => [])
      fun i => ⟨Code.size p.opening, p.firstCells, [], Int32.ofNat (w i).size, 0, 0, #[], none⟩ :=
    ⟨fun _ => [], fun _ => 0, fun _ => 0, .global _, rfl⟩
  refine (declsSimulated_global hlinked hcall htyped hcode (fun i => (hcarries i).2) hbodies ?_
    hat).mono ?_
  · exact fun _ i => nofun
  · rintro ρ σ c - ⟨cells, -, -, -, hc⟩
    simp only [Code.size_append]
    exact ⟨_, rfl, rfl, rfl, hc⟩

end Program

/-! ### Programs -/

/-- The platform has the code of a program. -/
def Platform.Holds (w : Platform) (r : Resolution) (p : Program) : Prop :=
  ∃ listing, p.generate r (Int32.ofNat w.size) = .ok listing ∧ w.image = Code.link listing.instrs ∧
    w.address = Code.address listing.instrs

theorem Listing.holds {p : Program} {listing : Listing} {memorySize : Int32}
    (hnonneg : 0 ≤ memorySize) (hgenerate : p.generate r memorySize = .ok listing) :
    (listing.platform memorySize).Holds r p := by
  refine ⟨listing, ?_, rfl, rfl⟩
  rw [Listing.platform, Int32.ofNat_toNatClampNeg _ hnonneg]
  exact hgenerate

/-- Declarations, body and an operation that halts, one behind the other, with the bodies of
functions somewhere else. -/
theorem Platform.Holds.exists_code {p : Program} {w : Platform} (h : w.Holds r p) :
    ∃ locals q value, declCode (w.context r false) p.decls {} = .ok (locals, q) ∧
      p.body.Coded r w false value ∧
      w.Carries 0 (p.opening ++ locals.code) ∧
      w.Carries (Code.size (p.opening ++ locals.code)) value ∧
      w.image.ops[Code.size (p.opening ++ locals.code) + Code.size value]? = some (.bare .halt) ∧
      ∃ a, w.image.CodeAt w.address a locals.bodies := by
  obtain ⟨listing, hgenerate, himage, haddress⟩ := h
  have hcode := Code.codeAt_link (Program.generate_labels hgenerate).1
  obtain ⟨locals, q, value, q', hlocals, hvalue, rfl⟩ := Program.generate_eq_ok.mp hgenerate
  rw [← himage, ← haddress, Image.codeAt_append, Image.codeAt_append, Image.codeAt_bare] at hcode
  obtain ⟨⟨hmain, hbody⟩, hhalt, hbodies⟩ := hcode
  rw [Nat.zero_add] at hbody hhalt hbodies
  rw [Code.size_append] at hhalt
  have hlt := (Array.getElem?_eq_some_iff.mp hhalt).1
  exact ⟨locals, q, value, hlocals, ⟨_, _, hvalue⟩, ⟨hmain, by omega⟩, ⟨hbody, hlt⟩, hhalt, _,
    hbodies⟩

theorem Program.simulated {p : Program} {t : Ty} (hlinked : r.classes.Linked) (htyped : p.Typed r t)
    (harrow : t.isArrow = false) (hw : ∀ i, (w i).Holds r p) :
    Sim r w n (p.eval n) (fun i => (w i).start) fun v σ c =>
      ∀ i, (w i).Done v.word σ.output (c i) := by
  obtain ⟨env, hdecls, hbody⟩ := htyped
  choose locals q value hlocals hcoded hmain hvalue hhalt hbodies using fun i => (hw i).exists_code
  have hcall : CallSim r w n (callAt n) := callSim hlinked n
  refine (simulated_decls hlinked hcall hdecls hlocals hmain hbodies).bind ?_
  rintro ρ σ c ⟨s, hclass, rfl, rfl, hat⟩
  have hsimulated : p.body.Simulated r w n (callAt n) s t := by
    obtain ⟨hp, _, _, hm, -⟩ := hat
    exact Expr.simulated hm hcall p.body hbody harrow
  refine (hsimulated (fun i => hclass ▸ hcoded i) hvalue hat).mono ?_
  rintro v σ' c' - ⟨-, -, hp, ra, tm, -, rfl⟩ i
  exact ⟨hhalt i, ⟨_, rfl⟩, rfl⟩

/-! ### Runs -/

namespace Program

variable {p : Program} {memorySize : Int32}

/-- Resolution and type checking find no error. -/
def Accepted (p : Program) : Prop := p.resolve.errors = [] ∧ (p.check p.resolve).errors = []

/-- The code for a memory of this size is no longer than the machine can address. -/
def CodeFits (p : Program) (memorySize : Int32) : Prop :=
  ∀ listing, p.listing { memorySize } = .ok listing → Code.size listing.instrs ≤ 2 ^ 31

instance (p : Program) : Decidable p.Accepted := inferInstanceAs (Decidable (_ ∧ _))

instance (p : Program) (memorySize : Int32) : Decidable (p.CodeFits memorySize) :=
  match hlisting : p.listing { memorySize } with
  | .ok listing =>
    decidable_of_iff (Code.size listing.instrs ≤ 2 ^ 31) (by simp [CodeFits, hlisting])
  | .error _ => .isTrue (by simp [CodeFits, hlisting])

/-- A run of an accepted program is one of its linked code. -/
theorem Accepted.exists_listing (h : p.Accepted) (hbuilt : p.Built) (memorySize : Int32) :
    ∃ listing, p.generate p.resolve memorySize = .ok listing ∧
      p.listing { memorySize } = .ok listing ∧ ∀ maxSteps, p.run { memorySize } maxSteps =
        ((State.initial memorySize).run (Code.link listing.instrs) maxSteps 0).mapError .fault := by
  have htotal : p.errorTotal { memorySize } = 0 := by
    rw [errorTotal, h.1, h.2]
    rfl
  obtain ⟨listing, hgenerate, -, hlisting⟩ := listing_of_errorTotal_eq_zero hbuilt htotal
  exact ⟨listing, hgenerate, hlisting, run_of_listing hgenerate hlisting⟩

/-- A run can be followed on the linked code, without its text. -/
theorem Accepted.run_of_linked (h : p.Accepted) (hbuilt : p.Built) {maxSteps : Nat}
    (answer : Except Fault Outcome) (hanswer : (p.generate p.resolve memorySize).map
      (fun listing => (State.initial memorySize).run (Code.link listing.instrs) maxSteps 0) =
        .ok answer) :
    p.run { memorySize } maxSteps = answer.mapError .fault := by
  obtain ⟨listing, hgenerate, -, hrun⟩ := h.exists_listing hbuilt memorySize
  rw [hgenerate] at hanswer
  rw [hrun]
  exact congrArg _ (Except.ok.inj hanswer)

theorem Accepted.exists_world (h : p.Accepted) (hbuilt : p.Built) (hfits : p.CodeFits memorySize)
    (hnonneg : 0 ≤ memorySize) :
    ∃ w : World, w.Holds p.resolve p ∧ w.Rep w.start (State.initial memorySize) ∧
      ∀ maxSteps, p.run { memorySize } maxSteps =
        ((State.initial memorySize).run w.image maxSteps 0).mapError .fault := by
  obtain ⟨listing, hgenerate, hlisting, hrun⟩ := h.exists_listing hbuilt memorySize
  exact ⟨listing.world memorySize (hfits listing hlisting), Listing.holds hnonneg hgenerate,
    Platform.rep_start hnonneg rfl, hrun⟩

/-- Without memory a run overflows at once. -/
theorem Accepted.run_of_neg (h : p.Accepted) (hbuilt : p.Built) (hneg : memorySize < 0)
    (maxSteps : Nat) :
    p.run { memorySize } (maxSteps + 1) = .error (.fault (.stackOverflow 0)) := by
  obtain ⟨listing, hgenerate, -, hrun⟩ := h.exists_listing hbuilt memorySize
  have hmax : max 0 memorySize = 0 := if_neg (Int32.not_le.mpr hneg)
  have hmeet : (State.initial memorySize).sp ≤ (State.initial memorySize).hp := by
    rw [State.initial, hmax]
    exact Int32.le_refl 0
  rw [hrun, State.run,
    (startsPushing hgenerate).step (Code.codeAt_link (generate_labels hgenerate).1) rfl hmeet]
  rfl

end Program

end Stackling
