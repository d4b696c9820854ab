import TickrateEnabler.Plugin

/-!
# `Load`

`Load` is atomic when it returns `true` with everything done, or `false` with everything
as before (`Atomic`). The hook is added before the patches are made and nothing is undone
later, so it is atomic exactly when there is no `ServerGameDLL`, or when all patches are
valid and the `ICvar` and its three variables are there (`load_atomic_iff`).
-/

namespace TickrateEnabler

open Memory

variable {κ η : Type*}

/-! ## The interfaces -/

namespace Engine

/-- The `ServerGameDLL` the search finds, or `NULL`. -/
@[irreducible] def gamedll (e : Engine κ η) : ℕ :=
  ((searchForInterfaceName e.gameServerFactory (ascii "ServerGameDLL000")).map Search.pIface).getD 0

/-- The `VEngineServer` the search finds, or `NULL`. -/
@[irreducible] def engine (e : Engine κ η) : ℕ :=
  ((searchForInterfaceName e.interfaceFactory (ascii "VEngineServer000")).map Search.pIface).getD 0

/-- The `ICvar`, or `NULL`. -/
def icvar (e : Engine κ η) : ℕ :=
  e.interfaceFactory e.CVAR_INTERFACE_VERSION

/-- The answers of the lookups `Load` makes. -/
def found (e : Engine κ η) (s : L4DTickRate κ η) : (ℕ × List (RatePatch × ℕ)) × κ :=
  TickrateEnabler.found e.build e.memUtils s.mem e.gamedll e.engine s.patches.cache

/-- The leaves `Load` makes. -/
def leaves (e : Engine κ η) (s : L4DTickRate κ η) : List PatchObject :=
  patchLeaves e.build e.fakeGlobals s.mem (e.found s).1

/-- The addresses of the variables. -/
def rateVars (e : Engine κ η) : List ℕ :=
  TickrateEnabler.rateVars.map (e.findVar e.icvar)

/-- All checks of the patches hold, and the `ICvar` and the variables are there. -/
structure Loadable (e : Engine κ η) (s : L4DTickRate κ η) : Prop where
  patches : PatchesValid e.build s.mem (e.found s).1
  icvar : e.icvar ≠ 0
  vars : ∀ p ∈ e.rateVars, p ≠ 0

theorem search_gamedll (e : Engine κ η) :
    ∃ r, searchForInterfaceName e.gameServerFactory (ascii "ServerGameDLL000") = some r := by
  have h : Versioned (ascii "ServerGameDLL") (ascii "ServerGameDLL000") :=
    ⟨0x30, 0x30, 0x30, by decide, by decide, by decide, by decide⟩
  obtain ⟨-, -, -, r, -, hr, -⟩ :=
    searchForInterfaceName_of_versioned e.gameServerFactory (by decide) (by decide) h
  exact ⟨r, hr⟩

theorem search_engine (e : Engine κ η) :
    ∃ r, searchForInterfaceName e.interfaceFactory (ascii "VEngineServer000") = some r := by
  have h : Versioned (ascii "VEngineServer") (ascii "VEngineServer000") :=
    ⟨0x30, 0x30, 0x30, by decide, by decide, by decide, by decide⟩
  obtain ⟨-, -, -, r, -, hr, -⟩ :=
    searchForInterfaceName_of_versioned e.interfaceFactory (by decide) (by decide) h
  exact ⟨r, hr⟩

end Engine

/-! ## The variables -/

variable {findVar : Name → ℕ} {set : Bool} {max : ℚ}

theorem setMaxima_of_ne {vs : List Name} {convars : ℕ → ConVar}
    (h : ∀ p ∈ vs.map findVar, p ≠ 0) :
    setMaxima findVar set max vs convars = (.returned true, fun p =>
      if p ∈ vs.map findVar then (convars p).setMax set max else convars p) := by
  induction vs generalizing convars with
  | nil => simp [setMaxima]
  | cons v vs ih =>
    obtain ⟨hv, hvs⟩ := List.forall_mem_cons.1 h
    rw [setMaxima, if_neg hv, ih hvs]
    congr 1
    ext p : 1
    by_cases hp : p = findVar v
    · subst hp
      simp only [Function.update_self, List.map_cons, List.mem_cons, true_or, if_true]
      split_ifs <;> rfl
    · simp only [Function.update_of_ne hp, List.map_cons, List.mem_cons, hp, false_or]

theorem setMaxima_of_eq {vs : List Name} {convars : ℕ → ConVar}
    (h : ¬∀ p ∈ vs.map findVar, p ≠ 0) :
    (setMaxima findVar set max vs convars).1 = .nullCall := by
  induction vs generalizing convars with
  | nil => exact (h (by simp)).elim
  | cons v vs ih =>
    rw [setMaxima]
    split_ifs with hv
    · rfl
    · exact ih fun hvs => h (List.forall_mem_cons.2 ⟨hv, hvs⟩)

namespace L4DTickRate

variable {e : Engine κ η} {s : L4DTickRate κ η}

/-! ## The steps of `Load` -/

/-- The state at the `try` block. -/
def hooked (e : Engine κ η) (s : L4DTickRate κ η) : L4DTickRate κ η :=
  { s with
    gamedll := e.gamedll
    engine := e.engine
    hooks := e.sourceHook.add s.hooks e.gamedll }

theorem load_of_gamedll_eq_zero (h : e.gamedll = 0) : load e s = (.returned false,
    ({ s with gamedll := 0 } : L4DTickRate κ η).error
      "Tickrate_Enabler: Failed to get a pointer on ServerGameDLL.\n") := by
  obtain ⟨r, hr⟩ := e.search_gamedll
  have hr0 : r.pIface = 0 := by
    rw [Engine.gamedll, hr] at h
    exact h
  rw [load, hr]
  simp only [hr0, if_true]

theorem load_of_gamedll_ne_zero (h : e.gamedll ≠ 0) : load e s = loadPatches e (hooked e s) := by
  obtain ⟨r, hr⟩ := e.search_gamedll
  obtain ⟨r', hr'⟩ := e.search_engine
  have hg : e.gamedll = r.pIface := by
    rw [Engine.gamedll, hr]
    rfl
  have he : e.engine = r'.pIface := by
    rw [Engine.engine, hr']
    rfl
  rw [load, hr]
  simp only [← hg, if_neg h, hr', ← he]
  rfl

theorem loadCvars_hooks : (loadCvars e s).2.hooks = s.hooks := by
  rw [loadCvars]
  dsimp only
  split_ifs <;> rfl

theorem loadPatches_hooks : (loadPatches e s).2.hooks = s.hooks := by
  unfold loadPatches
  dsimp only
  split
  · rfl
  · exact loadCvars_hooks

theorem loadCvars_fst_iff :
    (loadCvars e s).1 = .returned true ↔ e.icvar ≠ 0 ∧ ∀ p ∈ e.rateVars, p ≠ 0 := by
  show (if e.icvar = 0 then _ else _ : Outcome × L4DTickRate κ η).1 = _ ↔ _
  by_cases h0 : e.icvar = 0
  · rw [if_pos h0]
    exact iff_of_false (by simp) fun h => h.1 h0
  rw [if_neg h0]
  by_cases hv : ∀ p ∈ e.rateVars, p ≠ 0
  · refine iff_of_true ?_ ⟨h0, hv⟩
    exact congrArg Prod.fst (setMaxima_of_ne hv)
  · refine iff_of_false (fun h => ?_) fun h => hv h.2
    exact absurd ((setMaxima_of_eq hv).symm.trans h) (by simp)

theorem loadCvars_of_ne (h : e.icvar ≠ 0) (hv : ∀ p ∈ e.rateVars, p ≠ 0) :
    loadCvars e s = (.returned true, { s with
      g_pCvar := e.icvar
      convars := fun p =>
        if p ∈ e.rateVars then (s.convars p).setMax false 0 else s.convars p }) := by
  have hmax : setMaxima (e.findVar (e.interfaceFactory e.CVAR_INTERFACE_VERSION)) false 0 rateVars
      s.convars = (.returned true, fun p =>
        if p ∈ e.rateVars then (s.convars p).setMax false 0 else s.convars p) :=
    setMaxima_of_ne hv
  refine (if_neg h).trans ?_
  rw [hmax]
  rfl

/-- `Load` returns `true` exactly when everything it asks for is there. -/
theorem load_fst_iff : (load e s).1 = .returned true ↔ e.gamedll ≠ 0 ∧ e.Loadable s := by
  by_cases hg : e.gamedll = 0
  · rw [load_of_gamedll_eq_zero hg]
    exact iff_of_false (by simp) fun h => h.1 hg
  rw [load_of_gamedll_ne_zero hg]
  by_cases hp : PatchesValid e.build s.mem (e.found s).1
  · obtain ⟨ps, s', heq, -⟩ := tryBlock_of_valid (g := e.fakeGlobals) s.patches hp
    have hthrown : (tryBlock e.build e.fakeGlobals e.memUtils e.gamedll e.engine s.patches).1 =
        none := congrArg Prod.fst heq
    have hload : (loadPatches e (hooked e s)).1 = .returned true ↔
        e.icvar ≠ 0 ∧ ∀ p ∈ e.rateVars, p ≠ 0 := by
      unfold loadPatches
      simp only [hooked, hthrown]
      exact loadCvars_fst_iff
    exact hload.trans ⟨fun h => ⟨hg, hp, h.1, h.2⟩, fun h => ⟨h.2.icvar, h.2.vars⟩⟩
  · obtain ⟨x, ps, s', k', os, heq, -⟩ := tryBlock_of_not_valid (g := e.fakeGlobals) s.patches hp
    have hthrown : (tryBlock e.build e.fakeGlobals e.memUtils e.gamedll e.engine s.patches).1 =
        some x := congrArg Prod.fst heq
    refine iff_of_false (fun h => ?_) fun h => hp h.2.patches
    unfold loadPatches at h
    simp [hooked, hthrown] at h

/-- What `Load` does when everything is there. -/
theorem load_of_loadable (hg : e.gamedll ≠ 0) (h : e.Loadable s) :
    ∃ ps proc howned, s.patches.process.Allocates proc (PatchManager.leaves ps) (e.leaves s) ∧
      load e s = (.returned true, {
        patches := ⟨s.patches.m_patchManager ++ ps,
          PatchManager.patchAll (s.patches.m_patchManager ++ ps) proc, (e.found s).2⟩
        gamedll := e.gamedll
        engine := e.engine
        g_pCvar := e.icvar
        hooks := e.sourceHook.add s.hooks e.gamedll
        convars := fun p =>
          if p ∈ e.rateVars then (s.convars p).setMax false 0 else s.convars p
        errors := s.errors
        owned := howned }) := by
  obtain ⟨ps, proc, heq, halloc⟩ := tryBlock_of_valid (g := e.fakeGlobals) s.patches h.patches
  refine ⟨ps, proc, (s.owned.allocates halloc).patchAll, halloc, ?_⟩
  rw [load_of_gamedll_ne_zero hg, loadPatches]
  simp only [hooked, heq, loadCvars_of_ne h.icvar h.vars]
  rfl

end L4DTickRate

/-! ## Atomicity -/

/-- The patches that `Load` makes from `s` are registered in `s'` after those before, their
leaves are patched, and memory has each replacement, a later one over an earlier one. -/
def Applied (e : Engine κ η) (s s' : L4DTickRate κ η) : Prop :=
  ∃ (ps : PatchManager) (os : List PatchObject),
    s'.patches.m_patchManager = s.patches.m_patchManager ++ ps ∧
    (PatchManager.leaves ps).map s'.patches.process.code.heap = os.map some ∧
    os.map PatchObject.site = (e.leaves s).map PatchObject.site ∧
    (∀ o ∈ os, o.patched = true) ∧
    s'.mem = writeAll s'.mem (os.map PatchObject.site)

/-- The hook is installed, the patches are applied and the variables have no maximum. -/
structure Loaded (e : Engine κ η) (s s' : L4DTickRate κ η) : Prop where
  hooked : 0 < e.sourceHook.installed s'.hooks e.gamedll
  applied : Applied e s s'
  lifted : ∀ p ∈ e.rateVars, (s'.convars p).m_bHasMax = false

/-- Hooks, registered patches, code memory and variables are as before. -/
structure Unchanged (e : Engine κ η) (s s' : L4DTickRate κ η) : Prop where
  hooks : e.sourceHook.installed s'.hooks = e.sourceHook.installed s.hooks
  patches : s'.patches.m_patchManager = s.patches.m_patchManager
  mem : s'.mem = s.mem
  convars : s'.convars = s.convars

/-- The result of a call from `s` is `true` with everything done, or `false` with nothing
done. -/
def Atomic (e : Engine κ η) (s : L4DTickRate κ η) (r : Outcome × L4DTickRate κ η) : Prop :=
  (r.1 = .returned true ∧ Loaded e s r.2) ∨ (r.1 = .returned false ∧ Unchanged e s r.2)

namespace L4DTickRate

variable {e : Engine κ η} {s : L4DTickRate κ η}

/-- `PatchAll` applies the patches that were made last. -/
theorem applied_of_allocates {ps : PatchManager} {proc : Process} {s' : L4DTickRate κ η}
    (halloc : s.patches.process.Allocates proc (PatchManager.leaves ps) (e.leaves s))
    (hm : s'.patches.m_patchManager = s.patches.m_patchManager ++ ps)
    (hproc : s'.patches.process = PatchManager.patchAll (s.patches.m_patchManager ++ ps) proc) :
    Applied e s s' := by
  have hcode : s'.patches.process.code =
      (PatchManager.leaves ps).foldl Code.patch
        ((PatchManager.leaves s.patches.m_patchManager).foldl Code.patch proc.code) := by
    rw [hproc, PatchManager.patchAll_code, PatchManager.leaves_append, List.foldl_append]
  have hheap : (PatchManager.leaves ps).map
      ((PatchManager.leaves s.patches.m_patchManager).foldl Code.patch proc.code).heap =
        (e.leaves s).map some := by
    refine (List.map_congr_left fun id hid => Code.foldl_patch_heap fun hold => ?_).trans
      halloc.heap
    exact Nat.not_lt.2 (halloc.fresh id hid).1 (s.owned.fresh id hold)
  obtain ⟨os, hos, hsites, hpatched⟩ :=
    Code.foldl_patch_leaves (List.Subset.refl (PatchManager.leaves ps)) hheap
  have hnew : ∀ o ∈ e.leaves s, o.patched = false :=
    patchLeaves_patched _ _ _ _
  refine ⟨ps, os, hm, hcode ▸ hos, hsites, hpatched, ?_⟩
  rw [mem, hcode, Code.foldl_patch_mem halloc.nodup hheap hnew, hsites,
    Engine.leaves, writeAll_writeAll]

theorem load_of_loadable_atomic (hg : e.gamedll ≠ 0) (h : e.Loadable s) :
    Atomic e s (load e s) := by
  obtain ⟨ps, proc, howned, halloc, heq⟩ := load_of_loadable hg h
  rw [heq]
  refine Or.inl ⟨rfl, ?_, applied_of_allocates halloc rfl rfl, fun p hp => ?_⟩
  · rw [e.sourceHook.installed_add, if_pos rfl]
    exact Nat.succ_pos _
  · show ConVar.m_bHasMax (if p ∈ e.rateVars then _ else _) = false
    rw [if_pos hp]
    rfl

theorem load_of_gamedll_eq_zero_atomic (h : e.gamedll = 0) : Atomic e s (load e s) := by
  rw [load_of_gamedll_eq_zero h]
  exact Or.inr ⟨rfl, rfl, rfl, rfl, rfl⟩

/-- `Load` with the hook added and something else missing is not undone. -/
theorem not_atomic_of_not_loadable (hg : e.gamedll ≠ 0) (h : ¬e.Loadable s) :
    ¬Atomic e s (load e s) := by
  rintro (⟨htrue, -⟩ | ⟨-, hunchanged⟩)
  · exact h (load_fst_iff.1 htrue).2
  · have hhooks : (load e s).2.hooks = e.sourceHook.add s.hooks e.gamedll := by
      rw [load_of_gamedll_ne_zero hg, loadPatches_hooks]
      rfl
    have hcount := congrFun hunchanged.hooks e.gamedll
    rw [hhooks, e.sourceHook.installed_add, if_pos rfl] at hcount
    exact Nat.succ_ne_self _ hcount

/-- `Load` is atomic exactly when there is no `ServerGameDLL`, or when every patch is valid
and the `ICvar` and its three variables are there. -/
theorem load_atomic_iff (e : Engine κ η) (s : L4DTickRate κ η) :
    Atomic e s (load e s) ↔ e.gamedll = 0 ∨ e.Loadable s := by
  by_cases hg : e.gamedll = 0
  · exact iff_of_true (load_of_gamedll_eq_zero_atomic hg) (Or.inl hg)
  by_cases h : e.Loadable s
  · exact iff_of_true (load_of_loadable_atomic hg h) (Or.inr h)
  · exact iff_of_false (not_atomic_of_not_loadable hg h) fun h' => h'.elim hg h

end L4DTickRate

/-! ## A function that is not found -/

/-- Hooks as the list of the hooked interfaces. -/
def listHook : SourceHook (List ℕ) where
  add hooks g := hooks ++ [g]
  remove hooks g := hooks.erase g
  installed hooks g := hooks.count g
  installed_add hooks g g' := by
    rw [List.count_append, List.count_singleton]
    congr 1
    by_cases hg : g' = g <;> simp [hg, Ne.symm]
  remove_add hooks g h := by
    rw [List.erase_append_right _ (List.count_eq_zero.1 h), List.erase_cons_head,
      List.append_nil]

/-- A game with the interface `ServerGameDLL005` and no function the plugin knows. -/
def updatedGame : Engine Unit (List ℕ) where
  build := ⟨.windows, .l4d2⟩
  fakeGlobals := ⟨0x2000, 0x2010⟩
  memUtils := ⟨fun k _ _ => (0, k), fun _ _ _ => 0⟩
  sourceHook := listHook
  interfaceFactory _ := 0x1000
  gameServerFactory name := if name = ascii "ServerGameDLL005" then 0x1000 else 0
  CVAR_INTERFACE_VERSION := ascii "VEngineCvar007"
  findVar _ _ := 0x1000

/-- The plugin before its first `Load`. -/
def newPlugin : L4DTickRate Unit (List ℕ) where
  patches := ⟨[], ⟨⟨⟨fun _ => 0, []⟩, fun _ => none⟩, 0, []⟩, ()⟩
  gamedll := 0
  engine := 0
  g_pCvar := 0
  hooks := []
  convars _ := ⟨true, 30000⟩
  errors := []
  owned := ⟨fun _ h => absurd h List.not_mem_nil, fun _ _ => rfl⟩

/-- On the updated game `Load` fails and leaves its hook. -/
theorem load_updatedGame_not_atomic :
    ¬Atomic updatedGame newPlugin (L4DTickRate.load updatedGame newPlugin) := by
  refine L4DTickRate.not_atomic_of_not_loadable ?_ fun h => h.patches.1.1 rfl
  rw [Engine.gamedll]
  decide +kernel

end TickrateEnabler
