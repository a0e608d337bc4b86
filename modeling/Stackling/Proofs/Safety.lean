import Stackling.Proofs.Simulation.Passage

/-!
# Safety of generated code

As long as stack and heap are apart, the machine that runs an accepted program takes one clean step
after the other: it finds what it pops, it jumps to code and it loads from cells that are there, and
what is on the heap stays. It stops only where it halts, where the program divides by zero, and
where a method of `null` is called.
-/

namespace Stackling

namespace State

variable {image : Image} {s t : State} {n : Nat}

/-- The next step ends the run, and not for want of memory. -/
inductive Rests (image : Image) (s : State) : Prop
  | halts {s' : State} (h : s.step image = .ok (.halted s'))
  | divides (h : s.step image = .error (.divisionByZero s.ip))
  | callsNull (h : s.step image = .error (.invalidAddress (-1) s.ip))

theorem Rests.not_running (h : s.Rests image) : s.step image ≠ .ok (.running t) := by
  intro heq
  rcases h with h | h | h <;> cases h.symm.trans heq

/-- For as long as stack and heap are apart, the machine takes clean steps until it rests. -/
def Safe (image : Image) (s : State) : Prop :=
  ∀ n, ∃ k, s.Runs image k (Rests image) ∨ n ≤ k ∧ s.Runs image k fun _ => True

theorem Runs.head {k : Nat} {post : State → Prop} (h : s.Runs image (k + 1) post)
    (happart : s.hp < s.sp) :
    ∃ s', s.step image = .ok (.running s') ∧ s.Keeps s' := by
  rcases h with ⟨hmeet, -⟩ | ⟨s', hstep, hclean, -⟩
  · exact absurd hmeet (Int32.not_le.mpr happart)
  · exact ⟨s', hstep, hclean.toKeeps⟩

namespace Safe

/-- What a state of a safe run does next. -/
theorem step (h : s.Safe image) (ht : s.after image n = some t)
    (happart : s.ApartBefore image (n + 1)) :
    t.Rests image ∨ ∃ t', t.step image = .ok (.running t') ∧ t.Keeps t' := by
  have hbefore : s.ApartBefore image n := fun m hm => happart m (Nat.lt_succ_of_lt hm)
  have hlt : t.hp < t.sp := happart n (Nat.lt_succ_self n) t ht
  obtain ⟨k, hruns | ⟨hk, hruns⟩⟩ := h (n + 1)
  · rcases Nat.lt_trichotomy n k with hn | rfl | hn
    · have hrest := hruns.after (Nat.le_of_lt hn) ht hbefore
      obtain ⟨j, hj⟩ : ∃ j, k - n = j + 1 := ⟨k - n - 1, by omega⟩
      exact .inr ((hj ▸ hrest).head hlt)
    · have hrest := hruns.after (Nat.le_refl n) ht hbefore
      rw [Nat.sub_self] at hrest
      exact .inl hrest
    · -- The run has come to rest before, but it goes on.
      obtain ⟨u, u', hu, hstep⟩ := exists_step_of_after ht hn
      have hrest := hruns.after (Nat.le_refl k) hu fun m hm => hbefore m (Nat.lt_trans hm hn)
      rw [Nat.sub_self] at hrest
      exact absurd hstep (Rests.not_running hrest)
  · have hrest := hruns.after (by omega) ht hbefore
    obtain ⟨j, hj⟩ : ∃ j, k - n = j + 1 := ⟨k - n - 1, by omega⟩
    exact .inr ((hj ▸ hrest).head hlt)

/-- What is on the heap stays, from one state of a safe run to another. -/
theorem keeps (h : s.Safe image) (hnonneg : 0 ≤ s.hp) {m : Nat} {u : State}
    (hu : s.after image m = some u) (ht : s.after image n = some t) (hle : m ≤ n)
    (happart : s.ApartBefore image n) : u.Keeps t := by
  induction n generalizing m t u with
  | zero =>
    obtain rfl := Nat.le_zero.mp hle
    obtain rfl := Option.some.inj (hu.symm.trans ht)
    obtain rfl := Option.some.inj hu
    exact ⟨hnonneg, Int32.le_refl _, fun _ _ => rfl⟩
  | succ n ih =>
    obtain ⟨v, hv, hstep⟩ := after_succ.mp ht
    have hkeeps : v.Keeps t := by
      rcases h.step hv happart with hrests | ⟨v', hstep', hkeeps⟩
      · exact absurd hstep hrests.not_running
      · cases hstep.symm.trans hstep'
        exact hkeeps
    have hbefore : s.ApartBefore image n := fun k hk => happart k (Nat.lt_succ_of_lt hk)
    rcases Nat.lt_or_eq_of_le hle with hlt | rfl
    · exact (ih hu hv (Nat.le_of_lt_succ hlt) hbefore).trans hkeeps
    · obtain rfl := Option.some.inj (hu.symm.trans ht)
      have hself := (ih hv hv (Nat.le_refl n) hbefore).trans hkeeps
      exact ⟨Int32.le_trans hself.nonneg hself.grows, Int32.le_refl _, fun _ _ => rfl⟩

/-- How a bounded run ends if stack and heap stay apart. -/
theorem run (h : s.Safe image) {maxSteps : Nat} (happart : s.ApartBefore image maxSteps) :
    (∃ outcome, s.run image maxSteps 0 = .ok outcome) ∨
    s.run image maxSteps 0 = .error (.stepLimitExceeded maxSteps) ∨
      (∃ ip, s.run image maxSteps 0 = .error (.divisionByZero ip)) ∨
      ∃ ip, s.run image maxSteps 0 = .error (.invalidAddress (-1) ip) := by
  have hlimit {post : State → Prop} (hruns : s.Runs image maxSteps post) :
      s.run image maxSteps 0 = .error (.stepLimitExceeded maxSteps) := by
    obtain ⟨t, ht, -⟩ := hruns.exists_after_of_apart happart
    exact run_of_after_self ht
  obtain ⟨k, hruns | ⟨hk, hruns⟩⟩ := h maxSteps
  · rcases Nat.lt_or_ge k maxSteps with hlt | hge
    · obtain ⟨t, ht, hrests⟩ :=
        hruns.exists_after_of_apart fun m hm => happart m (Nat.lt_trans hm hlt)
      obtain ⟨budget, hbudget⟩ : ∃ b, maxSteps - k = b + 1 := ⟨maxSteps - k - 1, by omega⟩
      rw [run_of_after ht (Nat.le_of_lt hlt), hbudget, State.run]
      rcases hrests with hstep | hstep | hstep
      · rw [hstep]
        exact .inl ⟨_, rfl⟩
      · rw [hstep]
        exact .inr (.inr (.inl ⟨_, rfl⟩))
      · rw [hstep]
        exact .inr (.inr (.inr ⟨_, rfl⟩))
    · exact .inr (.inl (hlimit (hruns.truncate hge)))
  · exact .inr (.inl (hlimit (hruns.truncate hk)))

end Safe

end State

namespace Program

variable {p : Program}

/-- The machine that runs an accepted program is safe, whatever its memory. -/
theorem Accepted.safe (h : p.Accepted) (hdistinct : p.Distinct) (hplain : p.FirstOrder)
    {memorySize : Int32} (hfits : p.CodeFits memorySize) {listing : Listing}
    (hlisting : p.listing { memorySize } = .ok listing) :
    (State.initial memorySize).Safe (Code.link listing.instrs) := by
  obtain ⟨t, -, htyped⟩ := typed hdistinct hplain h.1 h.2
  obtain ⟨listing', hgenerate, hlisting', -⟩ := h.exists_listing hdistinct.built memorySize
  obtain rfl := Except.ok.inj (hlisting.symm.trans hlisting')
  intro n
  by_cases hnonneg : 0 ≤ memorySize
  · let w : World := listing.world memorySize (hfits listing hlisting)
    have hrep : w.Rep w.start (State.initial memorySize) := Platform.rep_start hnonneg rfl
    have hholds : w.Holds p.resolve p := Listing.holds hnonneg hgenerate
    obtain ⟨α, result, hsim⟩ := passes (linked p) htyped hholds n
    rcases result with (_ | _ | _ | _) | ⟨a, σ⟩
    · obtain ⟨k, hfails⟩ := hsim
      exact ⟨k, .inl ((hfails () _ hrep).mono fun _ => .divides)⟩
    · obtain ⟨-, k, hfails⟩ := hsim
      exact ⟨k, .inl ((hfails () _ hrep).mono fun _ => .callsNull)⟩
    · obtain ⟨k, c, hk, hreach⟩ := hsim ()
      exact ⟨k, .inr ⟨hk, (hreach _ hrep).mono fun _ _ => trivial⟩⟩
    · exact hsim.elim
    · obtain ⟨k, c, hreach, hhalt⟩ := hsim
      exact ⟨k, .inl ((hreach () _ hrep).mono fun _ hs => .halts (hs.halted hhalt))⟩
  · -- Without memory the first step overflows.
    refine ⟨n, .inr ⟨Nat.le_refl n, ?_⟩⟩
    have hmax : max 0 memorySize = 0 := if_neg hnonneg
    have hmeet : (State.initial memorySize).sp ≤ (State.initial memorySize).hp := by
      rw [State.initial, hmax]
      exact Int32.le_refl 0
    cases n with
    | zero => trivial
    | succ n =>
      have hcode := Code.codeAt_link (generate_labels hgenerate).1
      exact .inl ⟨hmeet, .inl ((startsPushing hgenerate).step hcode rfl hmeet)⟩

/-- Until the stack touches the heap, the run of an accepted program without function values neither
misses a cell of its stack nor leaves its code nor uses a bad address, except that of `null`, and it
changes nothing on its heap. The code has at most `2 ^ 31` operations, so that each code address is
a machine word. -/
theorem run_safe_while_apart (hdistinct : p.Distinct) (hplain : p.FirstOrder)
    (haccepted : p.Accepted) {memorySize : Int32} (hfits : p.CodeFits memorySize) :
    ∃ listing image, p.listing { memorySize } = .ok listing ∧
      Image.ofText listing.text = .ok image ∧
      (∀ n t, (State.initial memorySize).after image n = some t →
        (State.initial memorySize).ApartBefore image (n + 1) →
          t.Rests image ∨ ∃ t', t.step image = .ok (.running t')) ∧
      (∀ n t, (State.initial memorySize).after image n = some t →
        (State.initial memorySize).ApartBefore image n →
          0 ≤ t.hp ∧ ∀ m ≤ n, ∀ u, (State.initial memorySize).after image m = some u →
            u.hp ≤ t.hp ∧ ∀ a < u.hp.toNatClampNeg, t.memory.get? a = u.memory.get? a) ∧
      ∀ maxSteps, (State.initial memorySize).ApartBefore image maxSteps →
        (∃ outcome, p.run { memorySize } maxSteps = .ok outcome) ∨
          p.run { memorySize } maxSteps = .error (.fault (.stepLimitExceeded maxSteps)) ∨
          (∃ ip, p.run { memorySize } maxSteps = .error (.fault (.divisionByZero ip))) ∨
          ∃ ip, p.run { memorySize } maxSteps = .error (.fault (.invalidAddress (-1) ip)) := by
  obtain ⟨listing, hgenerate, hlisting, hrun⟩ := haccepted.exists_listing hdistinct.built memorySize
  obtain ⟨hnodup, hdefined⟩ := generate_labels hgenerate
  have hsafe := haccepted.safe hdistinct hplain hfits hlisting
  have hnonneg : 0 ≤ (State.initial memorySize).hp := Int32.le_refl 0
  refine ⟨listing, _, hlisting, Image.ofText_text hnodup hdefined, ?_, ?_, ?_⟩
  · intro n t ht happart
    rcases hsafe.step ht happart with hrests | ⟨t', hstep, -⟩
    · exact .inl hrests
    · exact .inr ⟨t', hstep⟩
  · intro n t ht happart
    refine ⟨(hsafe.keeps hnonneg ht ht (Nat.le_refl n) happart).nonneg, fun m hm u hu => ?_⟩
    have hkeeps := hsafe.keeps hnonneg hu ht hm happart
    exact ⟨hkeeps.grows, hkeeps.kept⟩
  · intro maxSteps happart
    rw [hrun]
    rcases hsafe.run happart with ⟨outcome, h⟩ | h | ⟨ip, h⟩ | ⟨ip, h⟩
    · exact .inl ⟨outcome, congrArg _ h⟩
    · exact .inr (.inl (congrArg _ h))
    · exact .inr (.inr (.inl ⟨ip, congrArg _ h⟩))
    · exact .inr (.inr (.inr ⟨ip, congrArg _ h⟩))

/-- Calls a method that is overridden in the class of the object. -/
def overriding : Program where
  decls := [
    .cls {
      id := 0
      name := "A"
      superclass := none
      fields := [⟨1, "a", .int, default⟩]
      methods := [
        { id := 2, name := "get", params := [], result := .int, decls := [],
          body := .name 3 "a" default, pos := default }]
      pos := default },
    .cls {
      id := 4
      name := "B"
      superclass := some "A"
      fields := []
      methods := [{
        id := 5
        name := "get"
        params := []
        result := .int
        decls := []
        body := .binary .add (.name 6 "a" default) (.int 1 default) default
        pos := default }]
      pos := default },
    .var ⟨7, "x", .ref "A", .new 8 "B" [.int 41 default] default, default⟩]
  body := .send 9 "x" "get" [] default
  pos := default

theorem run_safe_while_apart_overriding : overriding.Accepted ∧
    ∃ listing image, overriding.listing { memorySize := 10000 } = .ok listing ∧
      Image.ofText listing.text = .ok image ∧
      ∀ maxSteps, (State.initial 10000).ApartBefore image maxSteps →
        (∃ outcome, overriding.run { memorySize := 10000 } maxSteps = .ok outcome) ∨
          overriding.run { memorySize := 10000 } maxSteps =
            .error (.fault (.stepLimitExceeded maxSteps)) ∨
          (∃ ip, overriding.run { memorySize := 10000 } maxSteps =
            .error (.fault (.divisionByZero ip))) ∨
          ∃ ip, overriding.run { memorySize := 10000 } maxSteps =
            .error (.fault (.invalidAddress (-1) ip)) := by
  have haccepted : overriding.Accepted := by decide +kernel
  obtain ⟨listing, image, hlisting, himage, -, -, hrun⟩ :=
    run_safe_while_apart (p := overriding) (by decide +kernel) (by decide +kernel) haccepted
      (by decide +kernel : overriding.CodeFits 10000)
  exact ⟨haccepted, listing, image, hlisting, himage, hrun⟩

end Program

end Stackling
