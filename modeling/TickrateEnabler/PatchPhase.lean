import TickrateEnabler.BoomerVomit
import TickrateEnabler.MaxRate
import TickrateEnabler.PatchManager

/-!
# The patch phase of `Load`

The `try` block of `L4DTickRate::Load` constructs and registers the patches of the build
one after another, and then runs `PatchAll`. `found` and `foundRates` are the answers of
the lookups, `PatchesValid` what all the checks ask of them and of the memory, and
`patchLeaves` the leaves that are made.

All constructors run before `PatchAll`, and none writes memory. So when a check fails
nothing is written, and otherwise every leaf was made from the memory as it was before
the block, and `PatchAll` writes the leaves in order (`tryBlock_validates`).
-/

namespace TickrateEnabler

open Memory

/-- What the `try` block works on. -/
structure PatchState (κ : Type*) where
  m_patchManager : PatchManager
  process : Process
  cache : κ

variable {κ : Type*}

/-- `m_patchManager.Register(new …)` for the classes in order, and what is thrown. -/
def registerRatePatches (u : MemUtils κ) (engine : ℕ) :
    List RatePatch → PatchState κ → Option PatchException × PatchState κ
  | [], s => (none, s)
  | c :: cs, s =>
    let r := newRatePatch u engine c s.process s.cache
    match r.1 with
    | .error e => (some e, ⟨s.m_patchManager, r.2.1, r.2.2⟩)
    | .ok p => registerRatePatches u engine cs ⟨s.m_patchManager ++ [p], r.2.1, r.2.2⟩

/-- The `try` block, and what is thrown. -/
def tryBlock (b : Build) (g : FakeGlobals) (u : MemUtils κ) (gamedll engine : ℕ)
    (s : PatchState κ) : Option PatchException × PatchState κ :=
  let r := newBoomerVomit b g u gamedll s.process s.cache
  match r.1 with
  | .error e => (some e, ⟨s.m_patchManager, r.2.1, r.2.2⟩)
  | .ok p =>
    let r := registerRatePatches u engine (ratePatches b) ⟨s.m_patchManager ++ [p], r.2.1, r.2.2⟩
    match r.1 with
    | some e => (some e, r.2)
    | none =>
      (none, { r.2 with process := PatchManager.patchAll r.2.m_patchManager r.2.process })

/-! ## The lookups and the checks -/

/-- The answers to the lookups of the classes, and the cache behind them. -/
def foundRates (u : MemUtils κ) (mem : ℕ → Byte) (engine : ℕ) :
    List RatePatch → κ → List (RatePatch × ℕ) × κ
  | [], k => ([], k)
  | c :: cs, k =>
    let found := u.find mem k engine c.lookup
    let rest := foundRates u mem engine cs found.2
    ((c, found.1) :: rest.1, rest.2)

/-- The answers to all lookups of a build, and the cache behind them. -/
def found (b : Build) (u : MemUtils κ) (mem : ℕ → Byte) (gamedll engine : ℕ) (k : κ) :
    (ℕ × List (RatePatch × ℕ)) × κ :=
  let boomer := u.find mem k gamedll (CVomit_UpdateAbility b)
  let rates := foundRates u mem engine (ratePatches b) boomer.2
  ((boomer.1, rates.1), rates.2)

/-- Every function was found, every check byte is there and every read is a known `mov`. -/
def PatchesValid (b : Build) (mem : ℕ → Byte) (f : ℕ × List (RatePatch × ℕ)) : Prop :=
  BoomerVomitValid b mem f.1 ∧ ∀ c ∈ f.2, c.1.Valid mem c.2

instance (b : Build) (mem : ℕ → Byte) (f : ℕ × List (RatePatch × ℕ)) :
    Decidable (PatchesValid b mem f) :=
  inferInstanceAs (Decidable (_ ∧ _))

/-- The leaves of the classes, all made from one memory. -/
def rateLeaves (mem : ℕ → Byte) (cs : List (RatePatch × ℕ)) : List PatchObject :=
  cs.map fun c => c.1.leaf mem c.2

/-- The leaves of a build in registration order, all made from one memory. -/
def patchLeaves (b : Build) (g : FakeGlobals) (mem : ℕ → Byte) (f : ℕ × List (RatePatch × ℕ)) :
    List PatchObject :=
  boomerVomitLeaves b g mem f.1 ++ rateLeaves mem f.2

theorem newStatic_constructed {n : ℕ} (mem : ℕ → Byte) (target : ℕ)
    (replacement : Fin n → Byte) : Constructed mem false (newStatic mem target replacement) :=
  .static target replacement _

/-- Every leaf is made from the memory without `patchTimeCopy`. -/
theorem patchLeaves_constructed (b : Build) (g : FakeGlobals) (mem : ℕ → Byte)
    (f : ℕ × List (RatePatch × ℕ)) : ∀ o ∈ patchLeaves b g mem f, Constructed mem false o := by
  intro o ho
  rcases List.mem_append.1 ho with ho | ho
  · obtain ⟨offs, -, rfl⟩ := List.mem_map.1 ho
    exact newStatic_constructed ..
  · obtain ⟨c, -, rfl⟩ := List.mem_map.1 ho
    exact newStatic_constructed ..

theorem patchLeaves_patched (b : Build) (g : FakeGlobals) (mem : ℕ → Byte)
    (f : ℕ × List (RatePatch × ℕ)) : ∀ o ∈ patchLeaves b g mem f, o.patched = false :=
  fun o ho => (patchLeaves_constructed b g mem f o ho).unpatched

/-! ## Registering -/

variable {b : Build} {g : FakeGlobals} {u : MemUtils κ} {gamedll engine : ℕ}

theorem registerRatePatches_of_valid (cs : List RatePatch) (s : PatchState κ)
    (h : ∀ c ∈ (foundRates u s.process.code.mem engine cs s.cache).1,
      c.1.Valid s.process.code.mem c.2) :
    ∃ ps s', registerRatePatches u engine cs s = (none, ⟨s.m_patchManager ++ ps, s',
        (foundRates u s.process.code.mem engine cs s.cache).2⟩) ∧
      s.process.Allocates s' (PatchManager.leaves ps)
        (rateLeaves s.process.code.mem
          (foundRates u s.process.code.mem engine cs s.cache).1) := by
  induction cs generalizing s with
  | nil => exact ⟨[], s.process, by rw [List.append_nil]; rfl, .refl _⟩
  | cons c cs ih =>
    obtain ⟨hc, hcs⟩ := List.forall_mem_cons.1 h
    obtain ⟨p, s₁, hnew, halloc⟩ := newRatePatch_of_valid hc
    have hmem : s₁.code.mem = s.process.code.mem := congrArg World.mem halloc.world
    obtain ⟨ps, s', hreg, halloc'⟩ := ih ⟨s.m_patchManager ++ [p], s₁, _⟩ (hmem ▸ hcs)
    rw [hmem] at hreg halloc'
    refine ⟨p :: ps, s', ?_, halloc.trans halloc'⟩
    rw [registerRatePatches]
    simp only [hnew]
    rw [hreg, List.append_assoc]
    rfl

theorem registerRatePatches_of_not_valid (cs : List RatePatch) (s : PatchState κ)
    (h : ¬∀ c ∈ (foundRates u s.process.code.mem engine cs s.cache).1,
      c.1.Valid s.process.code.mem c.2) :
    ∃ e ps s' k' os, registerRatePatches u engine cs s =
        (some e, ⟨s.m_patchManager ++ ps, s', k'⟩) ∧
      s.process.Allocates s' (PatchManager.leaves ps) os := by
  induction cs generalizing s with
  | nil => exact (h (by simp [foundRates])).elim
  | cons c cs ih =>
    by_cases hc : c.Valid s.process.code.mem
        (u.find s.process.code.mem s.cache engine c.lookup).1
    · obtain ⟨p, s₁, hnew, halloc⟩ := newRatePatch_of_valid hc
      have hmem : s₁.code.mem = s.process.code.mem := congrArg World.mem halloc.world
      obtain ⟨e, ps, s', k', os, hreg, halloc'⟩ :=
        ih ⟨s.m_patchManager ++ [p], s₁,
          (u.find s.process.code.mem s.cache engine c.lookup).2⟩
          fun hcs => h (List.forall_mem_cons.2 ⟨hc, hmem ▸ hcs⟩)
      refine ⟨e, p :: ps, s', k', _, ?_, halloc.trans halloc'⟩
      rw [registerRatePatches]
      simp only [hnew]
      rw [hreg, List.append_assoc]
      rfl
    · obtain ⟨e, s', hnew, halloc⟩ := newRatePatch_of_not_valid hc
      refine ⟨e, [], s', (u.find s.process.code.mem s.cache engine c.lookup).2, [], ?_, halloc⟩
      rw [registerRatePatches]
      simp only [hnew, List.append_nil]

/-- When all checks hold the block registers the leaves and then runs `PatchAll`. -/
theorem tryBlock_of_valid (s : PatchState κ)
    (h : PatchesValid b s.process.code.mem
      (found b u s.process.code.mem gamedll engine s.cache).1) :
    ∃ ps s', tryBlock b g u gamedll engine s = (none, ⟨s.m_patchManager ++ ps,
        PatchManager.patchAll (s.m_patchManager ++ ps) s',
        (found b u s.process.code.mem gamedll engine s.cache).2⟩) ∧
      s.process.Allocates s' (PatchManager.leaves ps)
        (patchLeaves b g s.process.code.mem
          (found b u s.process.code.mem gamedll engine s.cache).1) := by
  have hboomer : BoomerVomitValid b s.process.code.mem
      (u.find s.process.code.mem s.cache gamedll (CVomit_UpdateAbility b)).1 := h.1
  obtain ⟨p, s₁, hnew, halloc⟩ := newBoomerVomit_of_valid (g := g) hboomer
  have hmem : s₁.code.mem = s.process.code.mem := congrArg World.mem halloc.world
  have hrates : ∀ c ∈ (foundRates u s₁.code.mem engine (ratePatches b)
      (u.find s.process.code.mem s.cache gamedll (CVomit_UpdateAbility b)).2).1,
      c.1.Valid s₁.code.mem c.2 := by
    rw [hmem]
    exact h.2
  obtain ⟨ps, s', hreg, halloc'⟩ :=
    registerRatePatches_of_valid (ratePatches b) ⟨s.m_patchManager ++ [p], s₁, _⟩ hrates
  rw [hmem] at hreg halloc'
  refine ⟨p :: ps, s', ?_, halloc.trans halloc'⟩
  rw [tryBlock]
  simp only [hnew, hreg, List.append_assoc]
  rfl

/-- When a check fails the block throws before `PatchAll`. -/
theorem tryBlock_of_not_valid (s : PatchState κ)
    (h : ¬PatchesValid b s.process.code.mem
      (found b u s.process.code.mem gamedll engine s.cache).1) :
    ∃ e ps s' k' os, tryBlock b g u gamedll engine s =
        (some e, ⟨s.m_patchManager ++ ps, s', k'⟩) ∧
      s.process.Allocates s' (PatchManager.leaves ps) os := by
  by_cases hboomer : BoomerVomitValid b s.process.code.mem
      (u.find s.process.code.mem s.cache gamedll (CVomit_UpdateAbility b)).1
  · obtain ⟨p, s₁, hnew, halloc⟩ := newBoomerVomit_of_valid (g := g) hboomer
    have hmem : s₁.code.mem = s.process.code.mem := congrArg World.mem halloc.world
    have hrates : ¬∀ c ∈ (foundRates u s₁.code.mem engine (ratePatches b)
        (u.find s.process.code.mem s.cache gamedll (CVomit_UpdateAbility b)).2).1,
        c.1.Valid s₁.code.mem c.2 := by
      rw [hmem]
      exact fun hrates => h ⟨hboomer, hrates⟩
    obtain ⟨e, ps, s', k', os, hreg, halloc'⟩ :=
      registerRatePatches_of_not_valid (ratePatches b) ⟨s.m_patchManager ++ [p], s₁, _⟩ hrates
    refine ⟨e, p :: ps, s', k', _, ?_, halloc.trans halloc'⟩
    rw [tryBlock]
    simp only [hnew, hreg, List.append_assoc]
    rfl
  · obtain ⟨e, s', hnew, halloc⟩ := newBoomerVomit_of_not_valid (g := g) hboomer
    refine ⟨e, [], s',
      (u.find s.process.code.mem s.cache gamedll (CVomit_UpdateAbility b)).2, [], ?_, halloc⟩
    rw [tryBlock]
    simp only [hnew, List.append_nil]

/-- The block validates before it writes. When a function is missing, a check byte differs
or a read is no known `mov`, it throws and memory and its protection are untouched.
Otherwise memory is the memory before with the replacement of each leaf written in
registration order, all made from the memory before. -/
theorem tryBlock_validates (b : Build) (g : FakeGlobals) (u : MemUtils κ) (gamedll engine : ℕ)
    (s : Process) (k : κ) :
    let f := (found b u s.code.mem gamedll engine k).1
    let r := tryBlock b g u gamedll engine ⟨[], s, k⟩
    (¬PatchesValid b s.code.mem f →
        (∃ e, r.1 = some e) ∧ r.2.process.code.world = s.code.world) ∧
      (PatchesValid b s.code.mem f → r.1 = none ∧
        r.2.process.code.mem =
          writeAll s.code.mem ((patchLeaves b g s.code.mem f).map PatchObject.site)) := by
  intro f r
  constructor
  · intro h
    obtain ⟨e, ps, s', k', os, heq, halloc⟩ :=
      tryBlock_of_not_valid (g := g) (⟨[], s, k⟩ : PatchState κ) h
    have hr : r = _ := heq
    rw [hr]
    exact ⟨⟨e, rfl⟩, halloc.world⟩
  · intro h
    obtain ⟨ps, s', heq, halloc⟩ := tryBlock_of_valid (g := g) (⟨[], s, k⟩ : PatchState κ) h
    have hr : r = _ := heq
    rw [hr]
    refine ⟨rfl, ?_⟩
    simp only [List.nil_append, PatchManager.patchAll_code]
    rw [Code.foldl_patch_mem halloc.nodup halloc.heap (patchLeaves_patched b g _ f),
      Code.mem, halloc.world]

end TickrateEnabler
