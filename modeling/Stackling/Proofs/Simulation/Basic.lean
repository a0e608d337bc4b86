import Stackling.Proofs.Simulation.Heap
import Stackling.Proofs.Simulation.Setting

/-!
# Simulation

`Sim` relates the result of an evaluation to what a family of machines does from given
configurations. If the evaluation has a value, all machines reach configurations that show it, after
one and the same number of steps. If it stops with a fault, the machines run into that fault, and if
it goes deeper than the bound `n` allows, they run for at least `n` steps. Only a program with
classes calls a method of `null`, and no evaluation is stuck. Simulations compose as evaluations do,
as those of all followers.
-/

namespace Stackling

/-! ### Faults -/

namespace Platform

variable {w : Platform}

/-- From each state that shows the configuration, `k` steps lead to a fault. -/
def Fails (w : Platform) (k : Nat) (c : Config) (fault : Nat → Fault) : Prop :=
  ∀ s, w.Rep c s → s.Runs w.image k fun t => t.step w.image = .error (fault t.ip)

theorem Reach.fails {j k : Nat} {c c' : Config} {fault : Nat → Fault} (h : w.Reach j c c')
    (h' : w.Fails k c' fault) :
    w.Fails (j + k) c fault :=
  fun s hs => (h s hs).bind h'

variable {pc : Nat} {st heap : List Int32} {fp ra tm : Int32} {out : Array Int32} {o : Option Int32}

theorem fails_div {l : Int32} (hop : w.image.ops[pc]? = some (.bare .div)) :
    w.Fails 0 ⟨pc, 0 :: l :: st, heap, fp, ra, tm, out, o⟩ .divisionByZero := by
  intro s hs
  obtain ⟨htwo, -⟩ := hs.fetched.popTwo rfl s.ip
  have hip : s.ip = pc := hs.ip
  change s.step w.image = _
  rw [State.step, hip, hop]
  simp only [State.perform, State.binary]
  rw [hip] at htwo
  rw [htwo]
  rfl

theorem fails_lw (hop : w.image.ops[pc]? = some (.bare .lw)) :
    w.Fails 0 ⟨pc, -1 :: st, heap, fp, ra, tm, out, o⟩ (.invalidAddress (-1)) := by
  intro s hs
  obtain ⟨hpop, -⟩ := hs.fetched.pop rfl s.ip
  have hip : s.ip = pc := hs.ip
  change s.step w.image = _
  rw [State.step, hip, hop]
  simp only [State.perform]
  rw [hip] at hpop
  rw [hpop]
  rfl

/-- Dispatch on `null` reads the cell below the first one. -/
theorem fails_dispatch {offset : Int32}
    (hcode : w.image.CodeAt w.address pc (Code.dispatch offset)) :
    w.Fails 3 ⟨pc, -1 :: st, heap, fp, ra, tm, out, none⟩ (.invalidAddress (-1)) := by
  simp only [Code.dispatch, Code.plain, List.map, List.cons_append, List.nil_append,
    Image.codeAt_bare] at hcode
  obtain ⟨h₁, h₂, h₃, h₄, -⟩ := hcode
  exact (((reach_stm h₁).trans (reach_ltm h₂)).trans (reach_ltm h₃)).fails (fails_lw h₄)

end Platform

/-! ### Evaluations -/

namespace EvalM

variable {α β : Type} {f : α → EvalM β} {σ : Store}

theorem some_bind {o : Option α} {a : α} (h : o = .some a) : (EvalM.some o >>= f) σ = f a σ := by
  rw [h]
  rfl

theorem get_bind {f : Store → EvalM β} : (get >>= f : EvalM β) σ = f σ σ := rfl

end EvalM

variable {ι : Type}

/-- A family of machines that take the same number of steps. -/
def machines (r : Resolution) (w : ι → World) (n : Nat) : Follower Stop (ι → Config) where
  Leads k c c' := ∀ i, (w i).Reach k (c i) (c' i)
  Stops
    | .divisionByZero, c => ∃ k, ∀ i, (w i).Fails k (c i) .divisionByZero
    | .nullReceiver, c => (∃ name record, r.class? name = some record) ∧
      ∃ k, ∀ i, (w i).Fails k (c i) (.invalidAddress (-1))
    | .tooDeep, c => ∀ i, ∃ k c', n ≤ k ∧ (w i).Reach k (c i) c'
    | .stuck, _ => False
  leads_refl c i := .refl (w i) (c i)
  leads_trans h h' i := (h i).trans (h' i)
  stops_after {k stop c c'} hreach h := by
    cases stop with
    | divisionByZero =>
      obtain ⟨j, hfails⟩ := h
      exact ⟨k + j, fun i => (hreach i).fails (hfails i)⟩
    | nullReceiver =>
      obtain ⟨hclass, j, hfails⟩ := h
      exact ⟨hclass, k + j, fun i => (hreach i).fails (hfails i)⟩
    | tooDeep =>
      intro i
      obtain ⟨j, c'', hj, hreach'⟩ := h i
      exact ⟨k + j, c'', by omega, (hreach i).trans hreach'⟩
    | stuck => exact h

/-- What the machines do, given the result of the evaluation. -/
def Sim (r : Resolution) (w : ι → World) (n : Nat) {α : Type} (result : Except Stop (α × Store))
    (c : ι → Config) (post : α → Store → (ι → Config) → Prop) : Prop :=
  (machines r w n).Follows result c post

/-- Steps that come first count towards the depth of an evaluation. -/
theorem Sim.reach {r : Resolution} {w : ι → World} {α : Type} {c c' : ι → Config}
    {result : Except Stop (α × Store)} {post : α → Store → (ι → Config) → Prop} {k m n : Nat}
    (hreach : ∀ i, (w i).Reach k (c i) (c' i)) (h : Sim r w m result c' post) (hn : n ≤ k + m) :
    Sim r w n result c post := by
  rcases result with (_ | _ | _ | _) | ⟨a, σ⟩
  case error.tooDeep =>
    intro i
    obtain ⟨j, c'', hj, hreach'⟩ := h i
    exact ⟨k + j, c'', by omega, (hreach i).trans hreach'⟩
  all_goals exact Follower.Follows.after (X := machines r w n) hreach h

/-! ### Sites -/

/-- A place of the program as an evaluation gets there: the environment, its bindings, the frames of
the machines, their stacks below what is being computed, and their heaps as they were some time
before. -/
structure Site (ι : Type) where
  inClass : Bool
  env : Env
  bindings : Bindings
  frame : ι → Int32
  base : ι → List Int32
  heap : ι → List Int32

/-- The store and the bindings lie in memory. -/
structure Matches (r : Resolution) (w : ι → World) (s : Site ι) (σ : Store) (hp : ι → List Int32) :
    Prop where
  scope : Scoped r w σ s.base hp s.inClass s.env s.bindings s.frame
  heap : HeapFits r w σ hp
  classes : ClassesFit r w σ s.base hp
  above : ∀ i, s.heap i <+: hp i

/-- The machines are at a site, with some words on top of their stacks. -/
def At (r : Resolution) (w : ι → World) (s : Site ι) (σ : Store) (pc : ι → Nat)
    (temps : ι → List Int32) (c : ι → Config) : Prop :=
  ∃ (hp : ι → List Int32) (ra tm : ι → Int32), Matches r w s σ hp ∧
    c = fun i => ⟨pc i, temps i ++ s.base i, hp i, s.frame i, ra i, tm i, σ.output, none⟩

variable {r : Resolution} {w : ι → World} {s : Site ι} {σ : Store}

theorem Matches.output {hp : ι → List Int32} (h : Matches r w s σ hp) (out : Array Int32) :
    Matches r w s { σ with output := out } hp :=
  have hσ : σ.Grows { σ with output := out } := ⟨List.prefix_refl _, rfl⟩
  ⟨h.scope.mono hσ.extends (fun _ => List.suffix_refl _) fun _ => List.prefix_refl _,
    h.heap.output out, h.classes.mono hσ (fun _ => List.suffix_refl _) fun _ =>
    List.prefix_refl _, h.above⟩

/-- After a computation that has left the bindings alone. -/
theorem Matches.grow {hp hp' : ι → List Int32} {σ' : Store} (h : Matches r w s σ hp)
    (hσ : σ.Grows σ') (hhp : ∀ i, hp i <+: hp' i) (hheap : HeapFits r w σ' hp') :
    Matches r w s σ' hp' :=
  ⟨h.scope.mono hσ.extends (fun _ => List.suffix_refl _) hhp, hheap,
    h.classes.mono hσ (fun _ => List.suffix_refl _) hhp, fun i => (h.above i).trans (hhp i)⟩

/-- Steps that touch only the words on top of the stack, and perhaps the output. -/
theorem At.step {pc : ι → Nat} {temps : ι → List Int32} {c : ι → Config} {k : Nat}
    {out : Array Int32} (h : At r w s σ pc temps c) (pc' : ι → Nat) (temps' : ι → List Int32)
    (hreach : ∀ (hp : ι → List Int32) (ra tm : ι → Int32), Matches r w s σ hp →
      ∃ ra' tm' : ι → Int32, ∀ i, (w i).Reach k
      ⟨pc i, temps i ++ s.base i, hp i, s.frame i, ra i, tm i, σ.output, none⟩
      ⟨pc' i, temps' i ++ s.base i, hp i, s.frame i, ra' i, tm' i, out, none⟩) :
    ∃ c', (∀ i, (w i).Reach k (c i) (c' i)) ∧ At r w s { σ with output := out } pc' temps' c' := by
  obtain ⟨hp, ra, tm, hm, rfl⟩ := h
  obtain ⟨ra', tm', hreach⟩ := hreach hp ra tm hm
  exact ⟨_, hreach, hp, ra', tm', hm.output out, rfl⟩

/-- Steps that touch nothing but the words on top of the stack. -/
theorem At.stackStep {pc : ι → Nat} {temps : ι → List Int32} {c : ι → Config} {k : Nat}
    (h : At r w s σ pc temps c) (pc' : ι → Nat) (temps' : ι → List Int32)
    (hreach : ∀ i hp ra tm, (w i).Reach k ⟨pc i, temps i ++ s.base i, hp, s.frame i, ra, tm,
      σ.output, none⟩ ⟨pc' i, temps' i ++ s.base i, hp, s.frame i, ra, tm, σ.output, none⟩) :
    ∃ c', (∀ i, (w i).Reach k (c i) (c' i)) ∧ At r w s σ pc' temps' c' :=
  h.step pc' temps' fun hp ra tm _ => ⟨ra, tm, fun i => hreach i (hp i) (ra i) (tm i)⟩

/-! ### Expressions and calls -/

/-- What the machines show after the evaluation of an expression. -/
def Yields (r : Resolution) (w : ι → World) (s : Site ι) (σ : Store) (t : Ty) (pc : ι → Nat)
    (temps : ι → List Int32) (v : Value) (σ' : Store) (c : ι → Config) : Prop :=
  v.HasTy r.hierarchy σ' t ∧ σ.Grows σ' ∧ At r w s σ' pc (fun i => v.word :: temps i) c

/-- Calls are simulated from the entry of a function to its return. -/
def CallSim (r : Resolution) (w : ι → World) (n : Nat) (call : Call) : Prop :=
  ∀ ⦃f : FunDecl⦄ ⦃b : Bool⦄ ⦃env : Env⦄ ⦃ρ : Bindings⦄ ⦃F : ι → Int32⦄ ⦃σ : Store⦄
    ⦃args : List Value⦄ ⦃st hp : ι → List Int32⦄ ⦃entry target : ι → Nat⦄ ⦃back fp tm : ι → Int32⦄,
    f.Typed r env → Scoped r w σ st hp b env ρ F → HeapFits r w σ hp → ClassesFit r w σ st hp →
    List.Forall₂ (Value.HasTy r.hierarchy σ) args f.signature.params →
    (∀ i, (w i).Placed r b f (entry i)) → (∀ i, target i < (w i).image.ops.size) →
    Sim r w n (call f ρ args σ)
      (fun i => ⟨entry i, F i :: (args.map Value.word ++ back i :: st i), hp i, fp i,
        Int32.ofNat (target i), tm i, σ.output, none⟩)
      fun v σ' c' => v.HasTy r.hierarchy σ' f.result.ty ∧ σ.Grows σ' ∧
        ∃ (hp' : ι → List Int32) (ra' tm' : ι → Int32), (∀ i, hp i <+: hp' i) ∧
        HeapFits r w σ' hp' ∧
        c' = fun i => ⟨target i, v.word :: st i, hp' i, back i, ra' i, tm' i, σ'.output, none⟩

end Stackling
