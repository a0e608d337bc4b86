import Stackling.Proofs.Semantics.Lexical
import Stackling.Proofs.Simulation.Declarations
import Stackling.Proofs.Typing.Functions

/-!
# Function values in frames

How the values and bindings of a lexical evaluation lie on the stack of a machine. A function value
is two words: the address of its code, and the frame in which it is declared. That frame is on the
stack only as long as the invocation that owns it has not ended; of the bindings of an invocation
that has ended, nothing is known.
-/

namespace Stackling.Lexical

/-- The stacks of the invocations that have not ended, up to the last local cell of each. -/
abbrev Frames := Nat → Option (List Int32)

/-- Words lie in cells, the last one at an address and the others below it. -/
def Stores (w : Platform) (st : List Int32) (a : Int32) (words : List Int32) : Prop :=
  ∀ pre v post, words = pre ++ v :: post → w.Has st [] (a - Int32.ofNat post.length) v

namespace Stores

variable {w : Platform} {st st' : List Int32} {a : Int32} {words : List Int32}

theorem mono (h : Stores w st a words) (hst : st <:+ st') : Stores w st' a words :=
  fun pre v post hsplit => (h pre v post hsplit).mono hst (List.prefix_refl _)

/-- The words on top of a stack. -/
theorem top (w : Platform) (words st : List Int32) :
    Stores w (words ++ st) (w.slot st.length) words := by
  rintro pre v post rfl
  refine .inl ⟨post ++ st, ⟨pre, by rw [List.append_assoc, List.cons_append]⟩, ?_⟩
  rw [List.length_append, Platform.slot_add]

theorem single {v : Int32} (h : Stores w st a [v]) : w.Has st [] a v := by
  simpa using h [] v [] rfl

theorem pair {offset u v : Int32} (h : Stores w st (a + offset) [u, v]) :
    w.Has st [] (a + offset) v ∧ w.Has st [] (a + (offset - 1)) u := by
  refine ⟨by simpa using h [u] v [] rfl, ?_⟩
  rw [show a + (offset - 1) = a + offset - 1 by grind]
  exact h [] u [v] rfl

end Stores

/-- What there is to lie in memory: a value, in some words, or the bindings of an invocation, in its
frame and in the frames around it. -/
inductive Shape where
  | value (d : Datum) (t : Ty) (words : List Int32)
  | scope (env : Env) (ρ : Scope) (owner : Nat) (F : Int32)

/-- Values and bindings as they lie in memory, where `n` is the number of the next invocation. -/
inductive Laid (r : Resolution) (w : World) (escapes : Prop) (φ : Frames) (n : Nat) : Shape → Prop
  | base {v : Value} {t : Ty} (hty : v.HasTy r.hierarchy {} t) :
      Laid r w escapes φ n (.value (.base v) t [v.word])
  | closure {f : FunDecl} {env : Env} {b : Bound} {ρ : Scope} {a : Nat} {F : Int32} {t : Ty}
      (hscope : Laid r w escapes φ n (.scope env (b :: ρ) b.owner F))
      (hfun : f.Formed r escapes env) (hplaced : w.Placed r false f a)
      (hwidens : Widens r.hierarchy (.arrow f.signature) t) :
      Laid r w escapes φ n (.value (.closure f (b :: ρ)) t [Int32.ofNat a, F])
  | global : Laid r w escapes φ n (.scope .global [] 0 (Int32.ofNat w.size))
  | value {env : Env} {ρ : Scope} {owner : Nat} {F : Int32} {x : String} {d : Datum} {entry : Entry}
      {scopes : Scopes} {frame : Frame} {words st : List Int32}
      (hrest : Laid r w escapes φ n (.scope env ρ owner F))
      (hvalue : Laid r w escapes φ n (.value d entry.ty words)) (hst : φ owner = some st)
      (hdeclare : env.scopes.declare? x entry = some scopes)
      (hdepth : entry.depth = env.scopes.depth) (hcells : Stores w st (F + entry.offset) words) :
      Laid r w escapes φ n (.scope { env with scopes, frame } (.value x owner d :: ρ) owner F)
  | function {env : Env} {ρ : Scope} {owner a : Nat} {F : Int32} {f : FunDecl} {entry : Entry}
      {scopes : Scopes} {frame : Frame} {st : List Int32}
      (hrest : Laid r w escapes φ n (.scope env ρ owner F)) (hst : φ owner = some st)
      (hdeclare : env.scopes.declare? f.name entry = some scopes)
      (hdepth : entry.depth = env.scopes.depth) (hty : entry.ty = .arrow f.signature)
      (hfun : f.Formed r escapes { env with scopes, frame }) (hplaced : w.Placed r false f a)
      (hcells : Stores w st (F + entry.offset) [Int32.ofNat a, F]) :
      Laid r w escapes φ n (.scope { env with scopes, frame } (.function f owner :: ρ) owner F)
  | body {env : Env} {b : Bound} {ρ : Scope} {owner : Nat} {F F' : Int32} {st : List Int32}
      (hrest : Laid r w escapes φ n (.scope env (b :: ρ) b.owner F)) (hst : φ owner = some st)
      (hlink : w.Has st [] F' F) :
      Laid r w escapes φ n (.scope env.enterBody (b :: ρ) owner F')
  | ended {env : Env} {ρ : Scope} {owner : Nat} {F : Int32} (hescapes : escapes)
      (hst : φ owner = none) (hlt : owner < n) :
      Laid r w escapes φ n (.scope env ρ owner F)

/-- Frames at a later time: they have grown, some have ended, and new ones have come. -/
structure Later (escapes : Prop) (φ : Frames) (n : Nat) (φ' : Frames) (n' : Nat) : Prop where
  le : n ≤ n'
  gone : ∀ id, id < n → φ id = none → φ' id = none
  live : ∀ id st, φ id = some st → (∃ st', φ' id = some st' ∧ st <:+ st') ∨ escapes ∧ φ' id = none ∧
    id < n'

variable {r : Resolution} {w : World} {escapes : Prop} {φ φ' : Frames} {n n' : Nat}

theorem Laid.later {s : Shape} (h : Laid r w escapes φ n s) (hlater : Later escapes φ n φ' n') :
    Laid r w escapes φ' n' s := by
  induction h with
  | base hty => exact .base hty
  | closure _ hfun hplaced hwidens ih => exact .closure ih hfun hplaced hwidens
  | global => exact .global
  | value _ _ hst hdeclare hdepth hcells ih ihvalue =>
    rcases hlater.live _ _ hst with ⟨st', hst', hup⟩ | ⟨hescapes, hnone, hlt⟩
    · exact .value ih ihvalue hst' hdeclare hdepth (hcells.mono hup)
    · exact .ended hescapes hnone hlt
  | function _ hst hdeclare hdepth hty hfun hplaced hcells ih =>
    rcases hlater.live _ _ hst with ⟨st', hst', hup⟩ | ⟨hescapes, hnone, hlt⟩
    · exact .function ih hst' hdeclare hdepth hty hfun hplaced (hcells.mono hup)
    · exact .ended hescapes hnone hlt
  | body _ hst hlink ih =>
    rcases hlater.live _ _ hst with ⟨st', hst', hup⟩ | ⟨hescapes, hnone, hlt⟩
    · exact .body ih hst' (hlink.mono hup (List.prefix_refl _))
    · exact .ended hescapes hnone hlt
  | ended hescapes hst hlt =>
    exact .ended hescapes (hlater.gone _ hlt hst) (Nat.lt_of_lt_of_le hlt hlater.le)

/-! ### Values -/

namespace Laid

variable {d : Datum} {t t' : Ty} {words : List Int32}

theorem widen (h : Laid r w escapes φ n (.value d t words)) (hwidens : Widens r.hierarchy t t') :
    Laid r w escapes φ n (.value d t' words) := by
  cases h with
  | base hty => exact .base (hwidens.value hty)
  | closure hscope hfun hplaced hwidens' =>
    exact .closure hscope hfun hplaced (.trans hwidens' hwidens)

/-- A value that is no function does not depend on frames. -/
theorem exists_base (h : Laid r w escapes φ n (.value d t words)) (ht : t.isArrow = false) :
    ∃ v : Value, d = .base v ∧ words = [v.word] ∧ v.HasTy r.hierarchy {} t := by
  cases h with
  | base hty => exact ⟨_, rfl, rfl, hty⟩
  | closure _ _ _ hwidens =>
    obtain ⟨sig, rfl, -⟩ := hwidens.arrow
    cases ht

/-- A value that can be called is a function, declared in some frame. -/
theorem exists_closure (h : Laid r w escapes φ n (.value d t words)) {sig : Signature}
    (ht : t.signature? = some sig) :
    ∃ f env b ρ a F, d = .closure f (b :: ρ) ∧ words = [Int32.ofNat a, F] ∧ t = .arrow sig ∧
      Laid r w escapes φ n (.scope env (b :: ρ) b.owner F) ∧ f.Formed r escapes env ∧
      w.Placed r false f a ∧ Signature.Widens r.hierarchy f.signature sig := by
  cases h with
  | base hty =>
    rw [hty.signature?] at ht
    cases ht
  | closure hscope hfun hplaced hwidens =>
    obtain ⟨sig', rfl, hsig⟩ := hwidens.arrow
    cases ht
    exact ⟨_, _, _, _, _, _, rfl, rfl, rfl, hscope, hfun, hplaced, hsig⟩

theorem exists_pair (h : Laid r w escapes φ n (.value d t words)) (ht : t.isArrow = true) :
    ∃ u v, words = [u, v] := by
  cases h with
  | base hty =>
    rw [hty.isArrow] at ht
    cases ht
  | closure => exact ⟨_, _, rfl⟩

theorem length_eq_cells (h : Laid r w escapes φ n (.value d t words)) : words.length = t.cells := by
  cases h with
  | base hty => cases hty <;> rfl
  | closure _ _ _ hwidens =>
    obtain ⟨sig, rfl, -⟩ := hwidens.arrow
    rfl

end Laid

/-! ### Looking up names -/

variable {env : Env} {ρ : Scope} {owner : Nat} {F : Int32} {base : List Int32} {ids : List Nat}
  {x : String} {entry : Entry}

/-- A watched evaluation finds a name and the machine reaches the words of its value, unless
functions escape. -/
def Found (r : Resolution) (w : World) (escapes : Prop) (φ : Frames) (n : Nat) (base : List Int32)
    (ids : List Nat) (x : String) (entry : Entry) (depth : Nat) (ρ : Scope) (F : Int32) : Prop :=
  (escapes ∧ find (some ids) x ρ = .error .stale) ∨
    ∃ d words F', find (some ids) x ρ = .ok d ∧ Laid r w escapes φ n (.value d entry.ty words) ∧
    entry.depth ≤ depth ∧
      w.Chain base [] (depth - entry.depth) F F' ∧ Stores w base (F' + entry.offset) words

theorem find_cons {b : Bound} (hb : b.owner ∈ ids) :
    find (some ids) x (b :: ρ) = if b.name = x then .ok (b.datum ρ) else find (some ids) x ρ := by
  have hallows : Watch.Allows (some ids) b.owner := by simpa [Watch.Allows] using hb
  rw [find, if_pos hallows]

/-- After a declaration, a name is the declared one or is found further out. -/
theorem Found.declared {b : Bound} {e : Entry} {scopes : Scopes} {words : List Int32}
    (hb : b.owner ∈ ids) (hdeclare : env.scopes.declare? b.name e = some scopes)
    (hdepth : e.depth = env.scopes.depth)
    (hvalue : Laid r w escapes φ n (.value (b.datum ρ) e.ty words))
    (hcells : Stores w base (F + e.offset) words)
    (ih : env.scopes.lookup? x = some entry →
      Found r w escapes φ n base ids x entry env.scopes.depth ρ F)
    (hx : scopes.lookup? x = some entry) :
    Found r w escapes φ n base ids x entry scopes.depth (b :: ρ) F := by
  rw [Scopes.lookup?_declare? hdeclare] at hx
  rw [Found, find_cons hb, Scopes.depth_declare? hdeclare]
  by_cases hxb : x = b.name
  · rw [if_pos hxb] at hx
    cases hx
    rw [if_pos hxb.symm, hdepth, Nat.sub_self]
    exact .inr ⟨_, words, F, rfl, hvalue, Nat.le_refl _, rfl, hcells⟩
  · rw [if_neg hxb] at hx
    rw [if_neg (Ne.symm hxb)]
    exact ih hx

/-- Only where functions escape are there bindings of an invocation that has ended. -/
theorem Laid.escapes_of_none {b : Bound} (h : Laid r w escapes φ n (.scope env (b :: ρ) owner F))
    (hnone : φ owner = none) :
    escapes := by
  cases h with
  | value _ _ hst | function _ hst | body _ hst =>
    rw [hst] at hnone
    cases hnone
  | ended hescapes => exact hescapes

/-- What resolution knows of a name is what the evaluation finds under it. -/
theorem Laid.lookup (h : Laid r w escapes φ n (.scope env ρ owner F))
    (hlive : ∀ id, id ∈ ids ↔ (φ id).isSome) (hbelow : ∀ id st, φ id = some st → st <:+ base)
    (howner : owner ∈ ids) (hx : env.scopes.lookup? x = some entry) :
    Found r w escapes φ n base ids x entry env.scopes.depth ρ F := by
  generalize hs : Shape.scope env ρ owner F = s at h
  induction h generalizing env ρ owner F with
  | base | closure => cases hs
  | global =>
    cases hs
    simp [Env.global, Scopes.lookup?, Scopes.push] at hx
  | value hrest hvalue hst hdeclare hdepth hcells ih =>
    cases hs
    exact .declared howner hdeclare hdepth hvalue (hcells.mono (hbelow _ _ hst))
      (fun hx => ih howner hx rfl) hx
  | function hrest hst hdeclare hdepth hty hfun hplaced hcells ih =>
    cases hs
    refine .declared howner hdeclare hdepth ?_ (hcells.mono (hbelow _ _ hst))
      (fun hx => ih howner hx rfl) hx
    exact .closure (.function hrest hst hdeclare hdepth hty hfun hplaced hcells) hfun hplaced
      (hty ▸ .refl)
  | @body env b ρ owner F F' st hrest hst hlink ih =>
    cases hs
    rw [Env.enterBody, Scopes.lookup?_push] at hx
    have hx : env.scopes.lookup? x = some entry := by simpa using hx
    by_cases hb : b.owner ∈ ids
    · have hstack : env.scopes.stack ≠ [] := by
        intro hnil
        simp [Scopes.lookup?, hnil] at hx
      rcases ih hb hx rfl with hstale | ⟨d, words, F'', hfind, hvalue, hle, hchain, hcells⟩
      · exact .inl hstale
      · refine .inr ⟨d, words, F'', hfind, hvalue, ?_, ?_, hcells⟩
        · rw [Env.enterBody, Scopes.depth_push hstack]
          exact Nat.le_succ_of_le hle
        · rw [Env.enterBody, Scopes.depth_push hstack, Nat.succ_sub hle]
          exact ⟨F, hlink.mono (hbelow _ _ hst) (List.prefix_refl _), hchain⟩
    · have hnone : φ b.owner = none := by
        rw [hlive] at hb
        simpa using hb
      refine .inl ⟨hrest.escapes_of_none hnone, ?_⟩
      rw [find, if_neg (fun hallows => hb (hallows ids rfl))]
  | ended _ hst =>
    cases hs
    rw [hlive, hst] at howner
    cases howner

end Stackling.Lexical
