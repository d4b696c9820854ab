import TickrateEnabler.Load
import TickrateEnabler.SymbolCache

/-!
# Cycles of `Load` and `Unload`

From an idle plugin a `Load` that succeeds and the `Unload` after it give back code
memory, the hooks and the variables (`restored_unload_load`). The lookups keep what they
found, so the next `Load` finds the same functions in the same memory, and any number of
cycles does the same (`load_unload_cycles`).
-/

namespace TickrateEnabler

open Memory

/-! ## Looking up again -/

namespace MemUtils.Persistent

variable {κ : Type*} {u : MemUtils κ} {le : κ → κ → Prop} {mem : ℕ → Byte}

theorem find_grows (h : u.Persistent le) (mem : ℕ → Byte) (k : κ) (libPtr : ℕ) (lookup : Lookup) :
    le k (u.find mem k libPtr lookup).2 := by
  cases lookup with
  | symbol name => exact h.grows k libPtr name
  | pattern sig len => exact h.refl k

theorem find_again (h : u.Persistent le) {k k' : κ} {libPtr : ℕ} {lookup : Lookup}
    (h0 : (u.find mem k libPtr lookup).1 ≠ 0) (hle : le (u.find mem k libPtr lookup).2 k') :
    (u.find mem k' libPtr lookup).1 = (u.find mem k libPtr lookup).1 := by
  cases lookup with
  | symbol name => exact h.again h0 hle
  | pattern sig len => rfl

theorem foundRates_grows (h : u.Persistent le) (engine : ℕ) (cs : List RatePatch) (k : κ) :
    le k (foundRates u mem engine cs k).2 := by
  induction cs generalizing k with
  | nil => exact h.refl k
  | cons c cs ih => exact h.trans (h.find_grows mem k engine c.lookup) (ih _)

theorem foundRates_again (h : u.Persistent le) {engine : ℕ} {cs : List RatePatch} {k k' : κ}
    (h0 : ∀ c ∈ (foundRates u mem engine cs k).1, c.2 ≠ 0)
    (hle : le (foundRates u mem engine cs k).2 k') :
    (foundRates u mem engine cs k').1 = (foundRates u mem engine cs k).1 := by
  induction cs generalizing k k' with
  | nil => rfl
  | cons c cs ih =>
    obtain ⟨hc, hcs⟩ := List.forall_mem_cons.1 h0
    have hfind : (u.find mem k' engine c.lookup).1 = (u.find mem k engine c.lookup).1 :=
      h.find_again hc (h.trans (h.foundRates_grows engine cs _) hle)
    have hle' := h.trans hle (h.find_grows mem k' engine c.lookup)
    rw [foundRates, hfind, ih hcs hle']
    rfl

/-- Valid answers are given again. -/
theorem found_again (h : u.Persistent le) {b : Build} {gamedll engine : ℕ} {k k' : κ}
    (hv : PatchesValid b mem (found b u mem gamedll engine k).1)
    (hle : le (found b u mem gamedll engine k).2 k') :
    (found b u mem gamedll engine k').1 = (found b u mem gamedll engine k).1 := by
  have hboomer : (u.find mem k' gamedll (CVomit_UpdateAbility b)).1 =
      (u.find mem k gamedll (CVomit_UpdateAbility b)).1 :=
    h.find_again hv.1.1 (h.trans (h.foundRates_grows engine (ratePatches b) _) hle)
  have hle' := h.trans hle (h.find_grows mem k' gamedll (CVomit_UpdateAbility b))
  rw [found, hboomer]
  exact congrArg (Prod.mk _) (h.foundRates_again (fun c hc => (hv.2 c hc).1) hle')

end MemUtils.Persistent

/-! ## One cycle -/

variable {κ η : Type*}

/-- Nothing is hooked or registered, and the maxima are those `Unload` sets. -/
structure Idle (e : Engine κ η) (s : L4DTickRate κ η) : Prop where
  hooks : e.sourceHook.installed s.hooks e.gamedll = 0
  patches : s.patches.m_patchManager = []
  convars : ∀ p ∈ e.rateVars, s.convars p = ⟨true, 30000⟩

/-- Nothing is registered in `s'`, and the hooks, code memory and the variables are those
of `s`. -/
structure Restored (s s' : L4DTickRate κ η) : Prop where
  hooks : s'.hooks = s.hooks
  patches : s'.patches.m_patchManager = []
  mem : s'.mem = s.mem
  convars : s'.convars = s.convars

theorem Restored.trans {s s' s'' : L4DTickRate κ η} (h : Restored s s') (h' : Restored s' s'') :
    Restored s s'' :=
  ⟨h'.hooks.trans h.hooks, h'.patches, h'.mem.trans h.mem, h'.convars.trans h.convars⟩

theorem Restored.idle {e : Engine κ η} {s s' : L4DTickRate κ η} (h : Restored s s')
    (hi : Idle e s) : Idle e s' :=
  ⟨h.hooks ▸ hi.hooks, h.patches, h.convars ▸ hi.convars⟩

namespace L4DTickRate

variable {e : Engine κ η} {s : L4DTickRate κ η}

theorem load_mem_of_idle (hi : Idle e s) (hload : (load e s).1 = .returned true) :
    (load e s).2.mem = writeAll s.mem ((e.leaves s).map PatchObject.site) := by
  obtain ⟨hg, hl⟩ := load_fst_iff.1 hload
  obtain ⟨ps, proc, howned, halloc, heq⟩ := load_of_loadable hg hl
  rw [heq]
  simp only [mem, hi.patches, List.nil_append, PatchManager.patchAll_code]
  rw [Code.foldl_patch_mem halloc.nodup halloc.heap (patchLeaves_patched _ _ _ _), Code.mem,
    halloc.world]

/-- `UnpatchAll` after `PatchAll` restores the memory the leaves were made from. -/
theorem unpatchAll_patchAll_mem {ps : PatchManager} {proc : Process}
    (hm : s.patches.m_patchManager = [])
    (halloc : s.patches.process.Allocates proc (PatchManager.leaves ps) (e.leaves s)) :
    (PatchManager.unpatchAll ps (PatchManager.patchAll ps proc)).code.mem = s.mem := by
  have howned : Owned ps proc := by
    have h := s.owned.allocates halloc
    rwa [hm] at h
  have hstart : Undoable s.mem (PatchManager.leaves ps) proc.code := by
    refine ⟨fun id o ho => ?_, fun x hx => (hx ?_).elim⟩
    · have hid : id ∈ PatchManager.leaves ps := by
        by_contra hid
        exact Option.some_ne_none o (ho.symm.trans (howned.live id hid))
      have hmem : proc.code.heap id ∈ (e.leaves s).map some :=
        halloc.heap ▸ List.mem_map_of_mem hid
      rw [ho, List.mem_map] at hmem
      obtain ⟨o', ho', heq⟩ := hmem
      obtain rfl := Option.some.inj heq
      exact (patchLeaves_constructed _ _ _ _ o' ho').savedFrom
    · rw [Code.mem, halloc.world]
  rw [PatchManager.unpatchAll_code, PatchManager.patchAll_code]
  exact (hstart.foldl_patch (List.Subset.refl _)).foldl_unpatch_mem

theorem unload_of_ne (hp : s.g_pCvar = e.icvar) (h : e.icvar ≠ 0)
    (hv : ∀ p ∈ e.rateVars, p ≠ 0) :
    unload e s = (.returned true, unloadPatches e { s with
      convars := fun p =>
        if p ∈ e.rateVars then (s.convars p).setMax true 30000 else s.convars p }) := by
  have hmax : setMaxima (e.findVar s.g_pCvar) true 30000 rateVars s.convars =
      (.returned true, fun p =>
        if p ∈ e.rateVars then (s.convars p).setMax true 30000 else s.convars p) := by
    rw [hp]
    exact setMaxima_of_ne hv
  rw [unload, if_neg (hp ▸ h)]
  simp only [hmax]

/-- `Unload` after a `Load` that succeeded. -/
theorem restored_unload_load (hi : Idle e s) (hload : (load e s).1 = .returned true) :
    (unload e (load e s).2).1 = .returned true ∧ Restored s (unload e (load e s).2).2 ∧
      (unload e (load e s).2).2.patches.cache = (e.found s).2 := by
  obtain ⟨hg, hl⟩ := load_fst_iff.1 hload
  obtain ⟨ps, proc, howned, halloc, heq⟩ := load_of_loadable hg hl
  rw [heq, unload_of_ne rfl hl.icvar hl.vars]
  refine ⟨rfl, ⟨?_, rfl, ?_, ?_⟩, rfl⟩
  · exact e.sourceHook.remove_add s.hooks e.gamedll hi.hooks
  · simp only [unloadPatches, mem, Code.mem, PatchManager.deleteAll_world, hi.patches,
      List.nil_append]
    exact unpatchAll_patchAll_mem hi.patches halloc
  · ext p : 1
    show (if p ∈ e.rateVars then
      (if p ∈ e.rateVars then (s.convars p).setMax false 0 else s.convars p).setMax true 30000
      else if p ∈ e.rateVars then (s.convars p).setMax false 0 else s.convars p) = s.convars p
    by_cases hp : p ∈ e.rateVars
    · rw [if_pos hp, if_pos hp, hi.convars p hp]
      rfl
    · rw [if_neg hp, if_neg hp]

/-! ## Any number of cycles -/

/-- `Load` and `Unload`. -/
def cycle (e : Engine κ η) (s : L4DTickRate κ η) : L4DTickRate κ η :=
  (unload e (load e s).2).2

/-- `s'` is as `s`, and the lookups from it find the same. -/
structure Renewed (e : Engine κ η) (s s' : L4DTickRate κ η) : Prop where
  idle : Idle e s'
  restored : Restored s s'
  found : (e.found s').1 = (e.found s).1

theorem Renewed.load_fst {s' : L4DTickRate κ η} (h : Renewed e s s')
    (hload : (load e s).1 = .returned true) : (load e s').1 = .returned true := by
  obtain ⟨hg, hl⟩ := load_fst_iff.1 hload
  refine load_fst_iff.2 ⟨hg, ?_, hl.icvar, hl.vars⟩
  rw [h.found, h.restored.mem]
  exact hl.patches

theorem Renewed.leaves {s' : L4DTickRate κ η} (h : Renewed e s s') :
    e.leaves s' = e.leaves s := by
  rw [Engine.leaves, h.found, h.restored.mem]
  rfl

/-- One more cycle. -/
theorem Renewed.cycle {le : κ → κ → Prop} (hu : e.memUtils.Persistent le)
    {s' : L4DTickRate κ η} (h : Renewed e s s') (hload : (load e s).1 = .returned true) :
    Renewed e s (cycle e s') := by
  have hload' := h.load_fst hload
  obtain ⟨-, hrestored, hcache⟩ := restored_unload_load h.idle hload'
  refine ⟨hrestored.idle h.idle, h.restored.trans hrestored, Eq.trans ?_ h.found⟩
  have hagain := hu.found_again (load_fst_iff.1 hload').2.patches (hu.refl _)
  rw [Engine.found, L4DTickRate.cycle, hrestored.mem, hcache]
  exact hagain

/-- Every cycle renews the state of an idle plugin. -/
theorem renewed_iterate {le : κ → κ → Prop} (hu : e.memUtils.Persistent le) (hi : Idle e s)
    (hload : (load e s).1 = .returned true) (n : ℕ) : Renewed e s ((cycle e)^[n] s) := by
  induction n with
  | zero => exact ⟨hi, ⟨rfl, hi.patches, rfl, rfl⟩, rfl⟩
  | succ n ih =>
    rw [Function.iterate_succ_apply']
    exact ih.cycle hu hload

end L4DTickRate

/-- The engine with the lookups of its build on an operating system. -/
def Engine.on (e : Engine SymTables η) (os : OperatingSystem) : Engine SymTables η :=
  { e with memUtils := os.memUtils e.build.platform }

/-- From an idle plugin on which `Load` succeeds, after any number of cycles `Load` succeeds
again, makes the same leaves on the same memory and applies them, and `Unload` gives back
code memory, the empty list, the hooks and the variables. The system may fail to open files
in the later cycles. -/
theorem load_unload_cycles (e : Engine SymTables η) (os : OperatingSystem)
    (s : L4DTickRate SymTables η) (hi : Idle (e.on os) s)
    (hload : (L4DTickRate.load (e.on os) s).1 = .returned true) (n : ℕ) :
    let s' := (L4DTickRate.cycle (e.on os))^[n] s
    let loaded := L4DTickRate.load (e.on os) s'
    let unloaded := L4DTickRate.unload (e.on os) loaded.2
    loaded.1 = .returned true ∧
      ((e.on os).leaves s').map PatchObject.site = ((e.on os).leaves s).map PatchObject.site ∧
      Loaded (e.on os) s' loaded.2 ∧
      loaded.2.mem = (L4DTickRate.load (e.on os) s).2.mem ∧
      unloaded.1 = .returned true ∧ Restored s unloaded.2 := by
  intro s' loaded unloaded
  have h := L4DTickRate.renewed_iterate (persistent_memUtils os e.build.platform) hi hload n
  have hload' := h.load_fst hload
  obtain ⟨hunload, hrestored, -⟩ := L4DTickRate.restored_unload_load h.idle hload'
  refine ⟨hload', ?_, ?_, ?_, hunload, h.restored.trans hrestored⟩
  · rw [h.leaves]
  · obtain ⟨hg, hl⟩ := L4DTickRate.load_fst_iff.1 hload'
    rcases L4DTickRate.load_of_loadable_atomic hg hl with ⟨-, hloaded⟩ | ⟨hfalse, -⟩
    · exact hloaded
    · exact absurd (hload'.symm.trans hfalse) (by simp)
  · rw [L4DTickRate.load_mem_of_idle h.idle hload', L4DTickRate.load_mem_of_idle hi hload,
      h.leaves, h.restored.mem]

/-! ## A game on Linux -/

/-- The server library and the engine library, with the functions `Load` looks up. -/
def linuxLibrary : Option Name → Option Library
  | some [0] => some ⟨0x10000, some [⟨ascii "_ZN6CVomit13UpdateAbilityEv", 0x100, 0x12, 9⟩]⟩
  | some [1] => some ⟨0x20000, some [⟨ascii "_Z15ClampClientRatei", 0x300, 0x12, 9⟩,
      ⟨ascii "_ZN8CNetChan11SetDataRateEf", 0x100, 0x12, 9⟩,
      ⟨ascii "_ZN11CGameClient7SetRateEib", 0x200, 0x12, 9⟩]⟩
  | _ => none

/-- A system that opens files for the first four lookups only. -/
def linuxSystem : OperatingSystem where
  dladdr a := some (if a = 0x10010 then ⟨some [0], 0x10000⟩ else ⟨some [1], 0x20000⟩)
  dlopen := linuxLibrary
  virtualQuery _ := none
  system n := ⟨n < 4, fun _ => true⟩

/-- The game with both interfaces and the three variables. -/
def linuxGame : Engine SymTables (List ℕ) where
  build := ⟨.linux, .l4d1⟩
  fakeGlobals := ⟨0x2000, 0x2010⟩
  memUtils := linuxSystem.memUtils .linux
  sourceHook := listHook
  interfaceFactory name :=
    if name = ascii "VEngineServer021" ∨ name = ascii "VEngineCvar007" then 0x20010 else 0
  gameServerFactory name := if name = ascii "ServerGameDLL005" then 0x10010 else 0
  CVAR_INTERFACE_VERSION := ascii "VEngineCvar007"
  findVar _ v := 0x30000 + v.length

/-- The plugin before its first `Load`, with the bytes that are checked in memory. -/
def linuxPlugin : L4DTickRate SymTables (List ℕ) where
  patches := ⟨[], ⟨⟨⟨fun a =>
    if a = 0x102DD ∨ a = 0x1048D then 0xA1
    else if a = 0x20120 then 0x77
    else if a = 0x2024E ∨ a = 0x20342 then 0xB8
    else 0, []⟩, fun _ => none⟩, 0, []⟩, ⟨[], 0, MemoryUtils.wf_nil⟩⟩
  gamedll := 0
  engine := 0
  g_pCvar := 0
  hooks := []
  convars _ := ⟨true, 30000⟩
  errors := []
  owned := ⟨fun _ h => absurd h List.not_mem_nil, fun _ _ => rfl⟩

theorem linuxGame_loadable : (linuxGame.on linuxSystem).Loadable linuxPlugin := by
  refine ⟨?_, ?_, ?_⟩
  · decide +kernel
  · decide +kernel
  · decide +kernel

/-- In the third cycle no file opens. -/
theorem load_unload_cycles_linux :
    let e := linuxGame.on linuxSystem
    let loaded := L4DTickRate.load e ((L4DTickRate.cycle e)^[2] linuxPlugin)
    loaded.1 = .returned true ∧ Restored linuxPlugin (L4DTickRate.unload e loaded.2).2 := by
  have hg : (linuxGame.on linuxSystem).gamedll ≠ 0 := by decide +kernel
  have hload : (L4DTickRate.load (linuxGame.on linuxSystem) linuxPlugin).1 = .returned true :=
    L4DTickRate.load_fst_iff.2 ⟨hg, linuxGame_loadable⟩
  have h := load_unload_cycles linuxGame linuxSystem linuxPlugin ⟨rfl, rfl, fun _ _ => rfl⟩
    hload 2
  exact ⟨h.1, h.2.2.2.2.2⟩

end TickrateEnabler
