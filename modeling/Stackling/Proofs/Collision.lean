import Stackling.Proofs.Correctness

/-!
# Runs in memories of different sizes

Programs run in lockstep in memories of different sizes, until stack and heap meet. Mostly such a
meeting overflows. But a store to the heap comes before the heap pointer is advanced, and a push in
between may take the stored cell without being noticed: then the run goes on with a lost cell.
`keeper` below shows that it can even halt with a wrong value. Runs that lose no cell, and halt, all
have the same outcome.
-/

namespace Stackling

/-- A run that halts has come to the end of its clean steps. -/
theorem State.Runs.exists_of_ok {image : Image} {k : Nat} {post : State → Prop} {s : State}
    (h : s.Runs image k post) (hsilent : ∀ n t, s.after image n = some t → ¬t.Clobbers image)
    {maxSteps : Nat} {outcome : Outcome} (hok : s.run image maxSteps 0 = .ok outcome) :
    ∃ t budget, post t ∧ t.run image (budget + 1) k = .ok outcome := by
  rcases State.run_cases h hsilent maxSteps 0 with ⟨ip, hover⟩ | ⟨-, hlimit⟩ |
    ⟨t, -, hpost, -, hrest⟩
  · cases hok.symm.trans hover
  · cases hok.symm.trans hlimit
  · rw [hrest, Nat.zero_add] at hok
    cases hbudget : maxSteps - k with
    | zero =>
      rw [hbudget] at hok
      cases hok
    | succ budget => exact ⟨t, budget, hpost, hbudget ▸ hok⟩

namespace Program

variable {p : Program} {memorySize : Int32}

/-- In a memory of this size, a run of the program advances the heap pointer over a cell that a push
has taken. -/
def Loses (p : Program) (memorySize : Int32) : Prop :=
  ∃ listing image, p.listing { memorySize } = .ok listing ∧ Image.ofText listing.text = .ok image ∧
    ∃ n t, (State.initial memorySize).after image n = some t ∧ t.Clobbers image

/-- A run of an accepted program is one of its linked code, and so are its losses. -/
theorem Accepted.exists_image (h : p.Accepted) (hbuilt : p.Built) (memorySize : Int32) :
    ∃ listing, p.generate p.resolve memorySize = .ok listing ∧
      p.listing { memorySize } = .ok listing ∧
      (p.Loses memorySize ↔
        ∃ n t, (State.initial memorySize).after (Code.link listing.instrs) n = some t ∧
        t.Clobbers (Code.link listing.instrs)) ∧
      ∀ maxSteps, p.run { memorySize } maxSteps =
        ((State.initial memorySize).run (Code.link listing.instrs) maxSteps 0).mapError .fault := by
  obtain ⟨listing, hgenerate, hlisting, hrun⟩ := h.exists_listing hbuilt memorySize
  obtain ⟨hnodup, hdefined⟩ := generate_labels hgenerate
  have hread := Image.ofText_text hnodup hdefined
  refine ⟨listing, hgenerate, hlisting, ⟨?_, fun hloses => ⟨_, _, hlisting, hread, hloses⟩⟩, hrun⟩
  rintro ⟨listing', image, hlisting', hread', hloses⟩
  obtain rfl := Except.ok.inj (hlisting.symm.trans hlisting')
  obtain rfl := Except.ok.inj (hread.symm.trans hread')
  exact hloses

/-- Runs of the linked code that halt and lose no cell come to the end that the evaluation has. -/
theorem exists_outcome_of_sim {r : Resolution} {ι : Type} {w : ι → World} {start : ι → State}
    {maxSteps : Nat} {result : Except Stop (Value × Store)}
    (hstart : ∀ i, (w i).Rep (w i).start (start i))
    (hsim : Sim r w maxSteps result (fun i => (w i).start) fun v σ c =>
      ∀ i, (w i).Done v.word σ.output (c i)) :
    ∃ expected, ∀ i, (∀ n t, (start i).after (w i).image n = some t → ¬t.Clobbers (w i).image) →
      ∀ steps ≤ maxSteps, ∀ outcome, (start i).run (w i).image steps 0 = .ok outcome →
        outcome = expected := by
  rcases result with (_ | _ | _ | _) | ⟨v, σ⟩
  · obtain ⟨k, hfails⟩ := hsim
    refine ⟨default, fun i hsilent steps _ outcome hok => ?_⟩
    obtain ⟨t, budget, hfault, hlast⟩ := (hfails i _ (hstart i)).exists_of_ok hsilent hok
    rw [State.run, hfault] at hlast
    cases hlast
  · obtain ⟨-, k, hfails⟩ := hsim
    refine ⟨default, fun i hsilent steps _ outcome hok => ?_⟩
    obtain ⟨t, budget, hfault, hlast⟩ := (hfails i _ (hstart i)).exists_of_ok hsilent hok
    rw [State.run, hfault] at hlast
    cases hlast
  · -- The evaluation goes deeper than the run has steps, so the run does not halt.
    refine ⟨default, fun i hsilent steps hsteps outcome hok => ?_⟩
    obtain ⟨k, c, hk, hreach⟩ := hsim i
    have hruns := (hreach _ (hstart i)).truncate (Nat.le_trans hsteps hk)
    rcases State.run_cases hruns hsilent steps 0 with ⟨ip, hover⟩ | ⟨hlt, -⟩ | ⟨t, -, -, -, hrest⟩
    · cases hok.symm.trans hover
    · exact absurd hlt (Nat.lt_irrefl _)
    · rw [hrest, Nat.sub_self] at hok
      cases hok
  · exact hsim.elim
  · obtain ⟨k, c, hreach, hdone⟩ := hsim
    refine ⟨⟨some v.word, σ.output, k + 1⟩, fun i hsilent steps _ outcome hok => ?_⟩
    obtain ⟨t, budget, hrep, hlast⟩ := (hreach i _ (hstart i)).exists_of_ok hsilent hok
    rw [(hdone i).run hrep] at hlast
    exact (Except.ok.inj hlast).symm

/-- There is one outcome for all runs of at most so many steps that halt and lose no cell. -/
theorem Accepted.exists_outcome (h : p.Accepted) (hbuilt : p.Built) {t : Ty}
    (htyped : p.Typed p.resolve t) (harrow : t.isArrow = false) (maxSteps : Nat) :
    ∃ expected, ∀ memorySize, p.CodeFits memorySize → ¬p.Loses memorySize →
      ∀ steps ≤ maxSteps, ∀ outcome,
      p.run { memorySize } steps = .ok outcome → outcome = expected := by
  choose listing hgenerate hlisting hloses hrun using h.exists_image hbuilt
  let w (i : p.MemorySize) : World := (listing i.1).world i.1 (i.2.2 _ (hlisting i.1))
  have hholds (i : p.MemorySize) : (w i).Holds p.resolve p := Listing.holds i.2.1 (hgenerate i.1)
  have hsim := simulated (linked p) htyped harrow hholds (n := maxSteps)
  obtain ⟨expected, hexpected⟩ := exists_outcome_of_sim (fun i => Platform.rep_start i.2.1 rfl) hsim
  refine ⟨expected, fun memorySize hfits hkeeps steps hsteps outcome hok => ?_⟩
  by_cases hnonneg : 0 ≤ memorySize
  · refine hexpected ⟨memorySize, hnonneg, hfits⟩ (fun n s hs hclobbers => ?_) steps hsteps
      outcome ?_
    · exact hkeeps ((hloses memorySize).mpr ⟨n, s, hs, hclobbers⟩)
    · change (State.initial memorySize).run (Code.link (listing memorySize).instrs) steps 0 =
        .ok outcome
      rw [hrun] at hok
      cases hlinked :
        (State.initial memorySize).run (Code.link (listing memorySize).instrs) steps 0 with
      | error fault =>
        rw [hlinked] at hok
        cases hok
      | ok result =>
        rw [hlinked] at hok
        exact congrArg _ (Except.ok.inj hok)
  · have hends : Ends (fun _ => False) 1 memorySize steps (p.run { memorySize } steps) :=
      h.ends_of_neg hbuilt (Int32.not_le.mp hnonneg) 0
    exact (hok ▸ hends).of_ok.elim

/-- Two runs that halt have the same outcome if neither loses a cell of the heap. In both memories
the code has at most `2 ^ 31` operations, so that each code address is a machine word. -/
theorem run_eq_of_keeps (hdistinct : p.Distinct) (hplain : p.FirstOrder) (haccepted : p.Accepted)
    {t : Ty} (hresult : (p.check p.resolve).result = some t) (harrow : t.isArrow = false)
    {size size' : Int32} (hfits : p.CodeFits size) (hfits' : p.CodeFits size')
    (hkeeps : ¬p.Loses size) (hkeeps' : ¬p.Loses size') {maxSteps maxSteps' : Nat}
    {outcome outcome' : Outcome} (hrun : p.run { memorySize := size } maxSteps = .ok outcome)
    (hrun' : p.run { memorySize := size' } maxSteps' = .ok outcome') : outcome = outcome' := by
  have htyped := haccepted.typed_of_result hdistinct hplain hresult
  obtain ⟨expected, hexpected⟩ :=
    haccepted.exists_outcome hdistinct.built htyped harrow (max maxSteps maxSteps')
  rw [hexpected size hfits hkeeps _ (Nat.le_max_left _ _) _ hrun,
    hexpected size' hfits' hkeeps' _ (Nat.le_max_right _ _) _ hrun']

/-- A run that ends keeps its cells if its states do. -/
theorem Accepted.not_loses (h : p.Accepted) (hbuilt : p.Built) (steps : Nat)
    (hends : (p.generate p.resolve memorySize).map (fun listing =>
      ((State.initial memorySize).after (Code.link listing.instrs) steps).isNone) = .ok true)
    (hkeeps : (p.generate p.resolve memorySize).map (fun listing => (List.range steps).all fun n =>
      ((State.initial memorySize).after (Code.link listing.instrs) n).all fun t =>
        !decide (t.Clobbers (Code.link listing.instrs))) = .ok true) : ¬p.Loses memorySize := by
  obtain ⟨listing, hgenerate, -, hloses, -⟩ := h.exists_image hbuilt memorySize
  rw [hgenerate] at hends hkeeps
  have hlast := Option.isNone_iff_eq_none.mp (Except.ok.inj hends)
  rw [hloses]
  rintro ⟨n, t, ht, hclobbers⟩
  rcases Nat.lt_trichotomy n steps with hlt | rfl | hgt
  · have hstate := List.all_eq_true.mp (Except.ok.inj hkeeps) n (List.mem_range.mpr hlt)
    rw [ht] at hstate
    simp [hclobbers] at hstate
  · cases hlast.symm.trans ht
  · obtain ⟨u, -, hu, -⟩ := State.exists_step_of_after ht hgt
    cases hlast.symm.trans hu

/-- Keeps an object that a function makes, and calls the first of its methods. -/
def keeper : Program where
  decls := [
    .cls {
      id := 0
      name := "A"
      superclass := none
      fields := []
      methods := [
        { id := 1, name := "m", params := [], result := .int, decls := [], body := .int 42 default,
          pos := default },
        { id := 2, name := "k", params := [], result := .int, decls := [], body := .int 7 default,
          pos := default }]
      pos := default },
    .fn {
      id := 3
      name := "f"
      params := []
      result := .ref "A"
      decls := []
      body := .new 4 "A" [] default
      pos := default },
    .var ⟨5, "x", .ref "A", .call 6 "f" [] default, default⟩]
  body := .send 7 "x" "m" [] default
  pos := default

theorem accepted_keeper : keeper.Accepted := by decide +kernel

theorem distinct_keeper : keeper.Distinct := by decide +kernel

/-- In memories that are large enough, the program has one outcome. -/
theorem run_eq_of_keeps_keeper : ¬keeper.Loses 13 ∧ ¬keeper.Loses 64 ∧
    keeper.run { memorySize := 13 } 1000 = keeper.run { memorySize := 64 } 100 := by
  have hbuilt := distinct_keeper.built
  have hkeeps : ¬keeper.Loses 13 :=
    accepted_keeper.not_loses hbuilt 72 (by decide +kernel) (by decide +kernel)
  have hkeeps' : ¬keeper.Loses 64 :=
    accepted_keeper.not_loses hbuilt 72 (by decide +kernel) (by decide +kernel)
  have hrun : keeper.run { memorySize := 13 } 1000 = .ok ⟨some 42, #[], 72⟩ :=
    accepted_keeper.run_of_linked hbuilt (.ok ⟨some 42, #[], 72⟩) (by decide +kernel)
  have hrun' : keeper.run { memorySize := 64 } 100 = .ok ⟨some 42, #[], 72⟩ :=
    accepted_keeper.run_of_linked hbuilt (.ok ⟨some 42, #[], 72⟩) (by decide +kernel)
  have hresult : (keeper.check keeper.resolve).result = some .int := by decide +kernel
  refine ⟨hkeeps, hkeeps', ?_⟩
  have heq := run_eq_of_keeps distinct_keeper (by decide +kernel) accepted_keeper hresult rfl
    (by decide +kernel) (by decide +kernel) hkeeps hkeeps' hrun hrun'
  exact hrun.trans ((congrArg Except.ok heq).trans hrun'.symm)

/-- With a cell less the program calls the wrong method, and no fault is reported. -/
theorem run_keeper_wrong : keeper.Distinct ∧ keeper.FirstOrder ∧ keeper.Accepted ∧
    (keeper.check keeper.resolve).result = some .int ∧
    keeper.run { memorySize := 13 } 1000 = .ok ⟨some 42, #[], 72⟩ ∧
    keeper.run { memorySize := 12 } 1000 = .ok ⟨some 7, #[], 72⟩ := by
  have hbuilt := distinct_keeper.built
  refine ⟨distinct_keeper, by decide +kernel, accepted_keeper, by decide +kernel, ?_, ?_⟩
  · exact accepted_keeper.run_of_linked hbuilt (.ok ⟨some 42, #[], 72⟩) (by decide +kernel)
  · exact accepted_keeper.run_of_linked hbuilt (.ok ⟨some 7, #[], 72⟩) (by decide +kernel)

end Program

end Stackling
