import TickrateEnabler.Interfaces
import TickrateEnabler.Ownership
import Mathlib.Data.Rat.Defs

/-!
# The plugin

`L4DTickRate::Load` and `L4DTickRate::Unload`, over the engine they are loaded into
(`Engine`) : its interface factories, its variables, the memory utilities and the hooks.
A call of a method on `NULL` ends the process, and so does an interface search that
leaves its buffer.
-/

namespace TickrateEnabler

/-- The hooks of `GetTickInterval`, with `η` what the library keeps. `installed h g` is the
number of hooks on the interface at `g`. -/
structure SourceHook (η : Type*) where
  /-- `SH_ADD_HOOK`. -/
  add : η → ℕ → η
  /-- `SH_REMOVE_HOOK`. -/
  remove : η → ℕ → η
  installed : η → ℕ → ℕ
  installed_add : ∀ h g g', installed (add h g) g' = installed h g' + if g' = g then 1 else 0
  remove_add : ∀ h g, installed h g = 0 → remove (add h g) g = h

/-- What a call comes to. -/
inductive Outcome where
  | returned (b : Bool)
  /-- A method was called on `NULL`. -/
  | nullCall
  /-- A read outside a buffer. -/
  | outOfBounds
  deriving DecidableEq

/-- The maximum of a `ConVar`. -/
structure ConVar where
  m_bHasMax : Bool
  m_fMaxVal : ℚ
  deriving DecidableEq

/-- `ConVar::SetMax`. -/
def ConVar.setMax (set : Bool) (max : ℚ) (v : ConVar) : ConVar :=
  { v with m_bHasMax := set, m_fMaxVal := max }

/-- The variables `Load` and `Unload` set. -/
def rateVars : List Name :=
  [ascii "sv_maxrate", ascii "sv_minrate", ascii "net_splitpacket_maxrate"]

/-- `g_pCvar->FindVar(v)->SetMax(set, max)` for variables in order. -/
def setMaxima (findVar : Name → ℕ) (set : Bool) (max : ℚ) :
    List Name → (ℕ → ConVar) → Outcome × (ℕ → ConVar)
  | [], convars => (.returned true, convars)
  | v :: vs, convars =>
    let p := findVar v
    if p = 0 then (.nullCall, convars)
    else setMaxima findVar set max vs
      (Function.update convars p ((convars p).setMax set max))

/-- What a build of the plugin is loaded into. `NULL` is `0`. -/
structure Engine (κ η : Type*) where
  build : Build
  fakeGlobals : FakeGlobals
  memUtils : MemUtils κ
  sourceHook : SourceHook η
  interfaceFactory : Name → ℕ
  gameServerFactory : Name → ℕ
  /-- The name of the `ICvar` interface, from the SDK. -/
  CVAR_INTERFACE_VERSION : Name
  /-- `FindVar` of the `ICvar` at an address. -/
  findVar : ℕ → Name → ℕ

/-- The plugin, its globals, and the state of the game it changes. -/
structure L4DTickRate (κ η : Type*) where
  patches : PatchState κ
  gamedll : ℕ
  engine : ℕ
  g_pCvar : ℕ
  hooks : η
  convars : ℕ → ConVar
  /-- What was given to `Error`. -/
  errors : List String
  owned : Owned patches.m_patchManager patches.process

variable {κ η : Type*}

namespace L4DTickRate

/-- Code memory. -/
abbrev mem (s : L4DTickRate κ η) : ℕ → Byte :=
  s.patches.process.code.mem

/-- `Error`, which returns. -/
def error (s : L4DTickRate κ η) (msg : String) : L4DTickRate κ η :=
  { s with errors := s.errors ++ [msg] }

/-- `Load` from the `ICvar` interface on. -/
def loadCvars (e : Engine κ η) (s : L4DTickRate κ η) : Outcome × L4DTickRate κ η :=
  let g_pCvar := e.interfaceFactory e.CVAR_INTERFACE_VERSION
  if g_pCvar = 0 then
    (.returned false,
      ({ s with g_pCvar := g_pCvar } : L4DTickRate κ η).error
        "RecordingHelpers: Failed to get Cvar interface.\n")
  else
    let r := setMaxima (e.findVar g_pCvar) false 0 rateVars s.convars
    (r.1, { s with g_pCvar := g_pCvar, convars := r.2 })

/-- `Load` from the `try` block on. -/
def loadPatches (e : Engine κ η) (s : L4DTickRate κ η) : Outcome × L4DTickRate κ η :=
  let r := tryBlock e.build e.fakeGlobals e.memUtils s.gamedll s.engine s.patches
  let s := { s with
    patches := r.2
    owned := tryBlock_owned e.build e.fakeGlobals e.memUtils s.gamedll s.engine s.owned }
  match r.1 with
  | some x =>
    (.returned false,
      (s.error ("!!!!!\nPatch Failure: " ++ x.str ++ "\n!!!!!\n")).error
        "Failed to process all tickrate_enabler patches, bailing out.\n")
  | none => loadCvars e s

/-- `Load`. -/
def load (e : Engine κ η) (s : L4DTickRate κ η) : Outcome × L4DTickRate κ η :=
  match searchForInterfaceName e.gameServerFactory (ascii "ServerGameDLL000") with
  | none => (.outOfBounds, s)
  | some aServerGameDLL =>
    let gamedll := aServerGameDLL.pIface
    if gamedll = 0 then
      (.returned false,
        ({ s with gamedll := gamedll } : L4DTickRate κ η).error
          "Tickrate_Enabler: Failed to get a pointer on ServerGameDLL.\n")
    else
      match searchForInterfaceName e.interfaceFactory (ascii "VEngineServer000") with
      | none => (.outOfBounds, { s with gamedll := gamedll })
      | some aVEngineServer =>
        loadPatches e { s with
          gamedll := gamedll
          engine := aVEngineServer.pIface
          hooks := e.sourceHook.add s.hooks gamedll }

/-- `Unload` from `UnpatchAll` on. -/
def unloadPatches (e : Engine κ η) (s : L4DTickRate κ η) : L4DTickRate κ η :=
  let m := s.patches.m_patchManager
  { s with
    patches :=
      { s.patches with
        m_patchManager := []
        process := PatchManager.deleteAll m (PatchManager.unpatchAll m s.patches.process) }
    hooks := e.sourceHook.remove s.hooks s.gamedll
    owned := s.owned.unpatchAll.deleteAll }

/-- `Unload`. -/
def unload (e : Engine κ η) (s : L4DTickRate κ η) : Outcome × L4DTickRate κ η :=
  if s.g_pCvar = 0 then (.nullCall, s)
  else
    let r := setMaxima (e.findVar s.g_pCvar) true 30000 rateVars s.convars
    match r.1 with
    | .returned b => (.returned b, unloadPatches e { s with convars := r.2 })
    | x => (x, { s with convars := r.2 })

end L4DTickRate

end TickrateEnabler
