import TickrateEnabler.PluginRuns

/-!
# Runs of the plugin on Windows

On Windows the functions are found by their bytes, in memory that the plugin patches. When
no patch is on the headers of the engine's image, and outside of the patches only one
address can have the signature of `CNetChan::SetDataRate` (`FindsOnly`), the search finds
this address or nothing on any memory with patches, and so calls in any order restore the
memory (`windows_calls_restore`). In the engine of `windowsGame` the patch is on the
signature itself.
-/

namespace TickrateEnabler

open Memory Transition

/-! ## Headers that are not patched -/

/-- The headers `GetLibraryInfo` reads : the DOS header, and the PE headers from `e_lfanew` up to
`SizeOfImage`. -/
def peHeaders (mem : ℕ → Byte) (baseAddr : ℕ) : Set ℕ :=
  {x | Covers baseAddr 0x40 x ∨
    Covers ((baseAddr + (u32 mem (baseAddr + 0x3C)).toNat) % 2 ^ 32) 84 x}

section Headers

variable {mem mem' : ℕ → Byte} {a n x baseAddr : ℕ}

theorem u16_congr (h : ∀ y, Covers a n y → mem' y = mem y) (hle : a ≤ x) (hlt : x + 2 ≤ a + n) :
    u16 mem' x = u16 mem x := by
  rw [u16, h x ⟨hle, by omega⟩, h (x + 1) ⟨by omega, by omega⟩]
  rfl

theorem u32_congr (h : ∀ y, Covers a n y → mem' y = mem y) (hle : a ≤ x) (hlt : x + 4 ≤ a + n) :
    u32 mem' x = u32 mem x := by
  have hcell (i : ℕ) (hi : i < 4) : mem' (x + i) = mem (x + i) := h _ ⟨by omega, by omega⟩
  rw [u32, hcell 3 (by decide), hcell 2 (by decide), hcell 1 (by decide), h x ⟨hle, by omega⟩]
  rfl

/-- What is read of an image is in its headers. -/
theorem peLibraryInfo_congr (h : ∀ y ∈ peHeaders mem baseAddr, mem' y = mem y) :
    peLibraryInfo mem' baseAddr = peLibraryInfo mem baseAddr := by
  have hdos : ∀ y, Covers baseAddr 0x40 y → mem' y = mem y := fun y hy => h y (Or.inl hy)
  have hpe : ∀ y, Covers ((baseAddr + (u32 mem (baseAddr + 0x3C)).toNat) % 2 ^ 32) 84 y →
      mem' y = mem y := fun y hy => h y (Or.inr hy)
  unfold peLibraryInfo
  dsimp only
  rw [u16_congr hdos le_rfl (by omega), u32_congr hdos (by omega) le_rfl]
  generalize (baseAddr + (u32 mem (baseAddr + 0x3C)).toNat) % 2 ^ 32 = pe at hpe
  rw [u32_congr hpe le_rfl (by omega), u16_congr hpe (by omega) (by omega),
    u16_congr hpe (by omega) (by omega), u16_congr hpe (by omega) (by omega),
    u32_congr hpe (by omega) (by omega)]

end Headers

/-! ## One place for a signature -/

/-- The bytes `FindLibPattern` searches. -/
def Lookup.bytes : Lookup → List Byte
  | .symbol _ => []
  | .pattern sig len => sig.take len

/-- A byte of the pattern at `q` differs from the memory, outside of `S`. -/
def DiffersOff (mem : ℕ → Byte) (S : Set ℕ) (q : ℕ) (pattern : List Byte) : Prop :=
  ∃ i b, pattern[i]? = some b ∧ b ≠ wildcard ∧ b ≠ mem (q + i) ∧ q + i ∉ S

theorem differsOff_iff {mem : ℕ → Byte} {S : Set ℕ} {q : ℕ} {pattern : List Byte} :
    DiffersOff mem S q pattern ↔ ∃ i : Fin pattern.length,
      pattern.get i ≠ wildcard ∧ pattern.get i ≠ mem (q + i) ∧ q + i ∉ S := by
  constructor
  · rintro ⟨i, b, hb, h⟩
    obtain ⟨hi, rfl⟩ := List.getElem?_eq_some_iff.1 hb
    exact ⟨⟨i, hi⟩, h⟩
  · rintro ⟨i, h⟩
    exact ⟨i, pattern.get i, List.getElem?_eq_getElem i.isLt, h⟩

instance (mem : ℕ → Byte) (S : Set ℕ) [DecidablePred (· ∈ S)] (q : ℕ) (pattern : List Byte) :
    Decidable (DiffersOff mem S q pattern) :=
  decidable_of_iff' _ differsOff_iff

theorem DiffersOff.not_matches {M mem : ℕ → Byte} {S : Set ℕ} {q : ℕ} {pattern : List Byte}
    (h : DiffersOff M S q pattern) (hmem : Near M S mem) : ¬Matches mem q pattern := by
  obtain ⟨i, b, hb, hw, hne, hS⟩ := h
  intro hm
  rcases hm i b hb with h | h
  · exact hw h
  · exact hne (h.trans (hmem _ hS))

namespace OperatingSystem

/-- Whatever the bytes in `S` are, the image around `libPtr` is the same, and the pattern can
match in it at `p` only. -/
structure FindsOnly (os : OperatingSystem) (M : ℕ → Byte) (S : Set ℕ) (libPtr : ℕ)
    (pattern : List Byte) (p : ℕ) : Prop where
  headers : ∀ baseAddr, os.virtualQuery libPtr = some baseAddr →
    ∀ x ∈ peHeaders M baseAddr, x ∉ S
  elsewhere : ∀ lib, os.getLibraryInfo .windows M libPtr = some lib → ∀ q, lib.baseAddress ≤ q →
    q < lib.baseAddress + lib.memorySize → q ≠ p → DiffersOff M S q pattern

variable {os : OperatingSystem} {M mem : ℕ → Byte} {S : Set ℕ} {libPtr p : ℕ}
  {pattern : List Byte}

theorem FindsOnly.getLibraryInfo (h : os.FindsOnly M S libPtr pattern p) (hmem : Near M S mem) :
    os.getLibraryInfo .windows mem libPtr = os.getLibraryInfo .windows M libPtr := by
  unfold OperatingSystem.getLibraryInfo
  split_ifs
  · rfl
  · dsimp only
    cases hbase : os.virtualQuery libPtr with
    | none => rfl
    | some baseAddr =>
      exact peLibraryInfo_congr fun x hx => hmem x (h.headers baseAddr hbase x hx)

/-- The search finds `p` or nothing. -/
theorem FindsOnly.findLibPattern (h : os.FindsOnly M S libPtr pattern p) (hmem : Near M S mem) :
    os.findLibPattern .windows mem libPtr pattern = 0 ∨
      os.findLibPattern .windows mem libPtr pattern = p := by
  unfold OperatingSystem.findLibPattern
  rw [h.getLibraryInfo hmem]
  cases hlib : os.getLibraryInfo .windows M libPtr with
  | none => exact Or.inl rfl
  | some lib =>
    dsimp only
    cases hfound : (findPattern mem lib.baseAddress (lib.baseAddress + lib.memorySize)
        pattern).1 with
    | none => exact Or.inl rfl
    | some q =>
      obtain ⟨⟨hle, hlt, hm⟩, -⟩ := findPattern_eq_some_iff.1 hfound
      right
      by_contra hne
      exact (h.elsewhere lib hlib q hle hlt hne).not_matches hmem hm

/-- On Windows the lookups keep nothing. -/
theorem find_windows_snd (os : OperatingSystem) (mem : ℕ → Byte) (k : SymTables) (libPtr : ℕ)
    (lookup : Lookup) : ((os.memUtils .windows).find mem k libPtr lookup).2 = k := by
  cases lookup <;> rfl

theorem FindsOnly.findsNetChan {game : Game} {engine : ℕ} {ok : SymTables → Prop}
    (h : os.FindsOnly M S engine (SIG_CNETCHAN_SETDATARATE ⟨.windows, game⟩).bytes p) :
    (os.memUtils .windows).FindsNetChan ok M S ⟨.windows, game⟩ engine p := by
  intro mem k hmem _
  cases game <;> exact h.findLibPattern hmem

end OperatingSystem

/-! ## Runs -/

/-- The same build in the same libraries, with other interfaces and variables. -/
structure Engine.SameLibraries {κ η : Type*} (e e₀ : Engine κ η) : Prop where
  build : e.build = e₀.build
  fakeGlobals : e.fakeGlobals = e₀.fakeGlobals
  memUtils : e.memUtils = e₀.memUtils
  gamedll : e.gamedll = e₀.gamedll
  engine : e.engine = e₀.engine

/-- The bytes of the patches `Load` makes. -/
def Engine.patched {κ η : Type*} (e : Engine κ η) (s : L4DTickRate κ η) : Set ℕ :=
  {x | ∃ o ∈ e.leaves s, Covers o.site.addr o.site.len x}

/-- The build for Windows on the system, where `CNetChan::SetDataRate` can only be at `p` in the
library of the engine. -/
structure Engine.OnWindows {η : Type*} (e : Engine SymTables η) (os : OperatingSystem) (game : Game)
    (s : L4DTickRate SymTables η) (p : ℕ) : Prop where
  build : e.build = ⟨.windows, game⟩
  memUtils : e.memUtils = os.memUtils .windows
  finds : os.FindsOnly s.mem (e.patched s) e.engine
    (SIG_CNETCHAN_SETDATARATE ⟨.windows, game⟩).bytes p

section Windows

variable {η : Type*} {e₀ e : Engine SymTables η} {os : OperatingSystem} {game : Game} {p : ℕ}
  {s : L4DTickRate SymTables η}

theorem Engine.OnWindows.steady (h₀ : e₀.OnWindows os game s p) (he : e.SameLibraries e₀) :
    e.Steady ⟨.windows, game⟩ (· = s.patches.cache) s.mem (e₀.patched s) p := by
  have hu : e.memUtils = os.memUtils .windows := he.memUtils.trans h₀.memUtils
  refine ⟨he.build.trans h₀.build, ?_, ?_, ?_⟩
  · rw [hu]
    rintro mem k libPtr lookup rfl
    exact os.find_windows_snd mem _ libPtr lookup
  · rw [hu, he.engine]
    exact h₀.finds.findsNetChan
  · rintro k rfl o ho x hx
    refine ⟨o, ?_, hx⟩
    rw [Engine.leaves, Engine.found, ← he.build, ← he.fakeGlobals, ← he.memUtils, ← he.gamedll,
      ← he.engine, he.build.trans h₀.build]
    exact ho

/-- On Windows, from a plugin with nothing registered, `Load` and `Unload` are called in any
order, in the same libraries. No patch is on the headers of the engine, and outside of the
patches the signature of `CNetChan::SetDataRate` is at one address only. Once code memory is
changed every `Load` fails and writes nothing. A `Load` that returns `true` was called on the
first memory and changes it. An `Unload` that returns gives back that memory and leaves no
patch registered, and one that is aborted on `NULL` writes nothing. -/
theorem windows_calls_restore (h₀ : e₀.OnWindows os game s p)
    (hm : s.patches.m_patchManager = []) (calls : List (PluginCall SymTables η))
    (hcalls : ∀ c ∈ calls, c.engine.SameLibraries e₀) :
    let s' := run L4DTickRate.step s calls
    ∀ e : Engine SymTables η, e.SameLibraries e₀ →
      (s'.mem ≠ s.mem → (L4DTickRate.load e s').1 = .returned false ∧
        (L4DTickRate.load e s').2.mem = s'.mem) ∧
      ((L4DTickRate.load e s').1 = .returned true →
        s'.mem = s.mem ∧ (L4DTickRate.load e s').2.mem ≠ s.mem) ∧
      ((∃ r, (L4DTickRate.unload e s').1 = .returned r) →
        (L4DTickRate.unload e s').2.mem = s.mem ∧
          (L4DTickRate.unload e s').2.patches.m_patchManager = []) ∧
      ((¬∃ r, (L4DTickRate.unload e s').1 = .returned r) →
        (L4DTickRate.unload e s').2.mem = s'.mem) := by
  intro s' e he
  have hstart : Held ⟨.windows, game⟩ (· = s.patches.cache) s.mem (e₀.patched s) p s :=
    .of_nil hm rfl
  have hheld : Held ⟨.windows, game⟩ (· = s.patches.cache) s.mem (e₀.patched s) p s' :=
    hstart.run fun c hc => h₀.steady (hcalls c hc)
  exact hheld.restores (h₀.steady he)

end Windows

/-! ## A game on Windows -/

/-- The headers of a library of `size * 0x100` bytes, where they are not zero. -/
def dllHeaders (size : Byte) : List (ℕ × Byte) :=
  [(0, 0x4D), (1, 0x5A), (0x3C, 0x40), (0x40, 0x50), (0x41, 0x45), (0x44, 0x4C), (0x45, 1),
    (0x57, 0x20), (0x58, 0x0B), (0x59, 1), (0x91, size)]

/-- `CVomit::UpdateAbility` at `0xA0`, with its signature and the reads. -/
def serverImage : List (ℕ × Byte) :=
  dllHeaders 6 ++ [(0xA0, 0x81), (0xA1, 0xEC), (0xA6, 0x53), (0xA7, 0x55), (0xA8, 0x56),
    (0xA9, 0x57), (0xAA, 0x8B), (0xAB, 0xF9), (0xAC, 0x8B), (0xAD, 0x87), (0x213, 0xA1),
    (0x36D, 0xA1), (0x516, 0xA1)]

/-- `CNetChan::SetDataRate` at `0xA0` and `CGameClient::SetRate` at `0xC0`. -/
def engineImage : List (ℕ × Byte) :=
  dllHeaders 1 ++ [(0xA0, 0xF3), (0xA1, 0x0F), (0xA2, 0x10), (0xA3, 0x44), (0xA4, 0x24), (0xA5, 4),
    (0xA6, 0xF3), (0xA7, 0x0F), (0xA8, 0x10), (0xA9, 0x0D), (0xAE, 0x0F), (0xAF, 0x2F),
    (0xB0, 0xC1), (0xB1, 0x76), (0xB2, 0x10), (0xC0, 0xA1), (0xC5, 0x8B), (0xC6, 0x40),
    (0xC7, 0x30), (0xC8, 0x85), (0xC9, 0xC0), (0xCA, 0x7E), (0xCB, 0x0C), (0xCC, 0x8B),
    (0xEF, 0x3D)]

/-- A system with the two libraries. -/
def windowsSystem : OperatingSystem where
  dladdr _ := none
  dlopen _ := none
  virtualQuery a := some (if a < 0x20000 then 0x10000 else 0x20000)
  system _ := ⟨false, fun _ => false⟩

/-- The game with the same interfaces and variables as on Linux. -/
def windowsGame : Engine SymTables (List ℕ) :=
  { linuxGame with
    build := ⟨.windows, .l4d1⟩
    memUtils := windowsSystem.memUtils .windows }

/-- The plugin before its first `Load`, with the libraries in memory. -/
def windowsPlugin : L4DTickRate SymTables (List ℕ) :=
  { linuxPlugin with
    patches := ⟨[], ⟨⟨⟨fun a =>
      if a < 0x20000 then (serverImage.lookup (a - 0x10000)).getD 0
      else (engineImage.lookup (a - 0x20000)).getD 0, []⟩, fun _ => none⟩, 0, []⟩,
      ⟨[], 0, MemoryUtils.wf_nil⟩⟩
    owned := ⟨fun _ h => absurd h List.not_mem_nil, fun _ _ => rfl⟩ }

theorem windowsGame_loadable : windowsGame.Loadable windowsPlugin := by
  refine ⟨?_, ?_, ?_⟩
  · decide +kernel
  · decide +kernel
  · decide +kernel

/-- The bytes of the sites. -/
def siteBytes (sites : List (ℕ × ℕ)) : Set ℕ :=
  {x | ∃ site ∈ sites, Covers site.1 site.2 x}

instance (sites : List (ℕ × ℕ)) : DecidablePred (· ∈ siteBytes sites) :=
  fun x => inferInstanceAs (Decidable (∃ site ∈ sites, Covers site.1 site.2 x))

theorem patched_eq_siteBytes {κ η : Type*} (e : Engine κ η) (s : L4DTickRate κ η) :
    e.patched s = siteBytes ((e.leaves s).map fun o => (o.site.addr, o.site.len)) := by
  ext x
  simp only [Engine.patched, siteBytes, Set.mem_ofPred_eq, List.mem_map, exists_exists_and_eq_and]

/-- Where the patches of the game are. -/
def windowsSites : List (ℕ × ℕ) :=
  [(0x10213, 6), (0x1036D, 6), (0x10516, 6), (0x200A6, 2), (0x200EF, 2)]

theorem patched_windowsGame : windowsGame.patched windowsPlugin = siteBytes windowsSites := by
  have hsites : (windowsGame.leaves windowsPlugin).map (fun o => (o.site.addr, o.site.len)) =
      windowsSites := by
    decide +kernel
  rw [patched_eq_siteBytes, hsites]

theorem onWindows_windowsGame :
    windowsGame.OnWindows windowsSystem .l4d1 windowsPlugin 0x200A0 := by
  have hengine : windowsGame.engine = 0x20010 := by decide +kernel
  refine ⟨rfl, rfl, ?_, ?_⟩
  · rw [patched_windowsGame, hengine]
    intro baseAddr hbase x hx
    obtain rfl : 0x20000 = baseAddr := Option.some.inj hbase
    have hpe : (0x20000 + (u32 windowsPlugin.mem (0x20000 + 0x3C)).toNat) % 2 ^ 32 = 0x20040 := by
      decide +kernel
    have hapart : ∀ i < 0x94, 0x20000 + i ∉ siteBytes windowsSites := by
      decide +kernel
    rw [peHeaders, hpe] at hx
    obtain ⟨hle, hlt⟩ : 0x20000 ≤ x ∧ x < 0x20000 + 0x94 := by
      rcases hx with ⟨hle, hlt⟩ | ⟨hle, hlt⟩ <;> omega
    obtain ⟨i, rfl⟩ := Nat.exists_eq_add_of_le hle
    exact hapart i (Nat.lt_of_add_lt_add_left hlt)
  · rw [patched_windowsGame, hengine]
    intro lib hlib q hle hlt hne
    have hlib' : windowsSystem.getLibraryInfo .windows windowsPlugin.mem 0x20010 =
        some ⟨0x20000, 0x100⟩ := by
      decide +kernel
    obtain rfl := Option.some.inj (hlib'.symm.trans hlib)
    have helsewhere : ∀ i < 0x100, 0x20000 + i ≠ 0x200A0 → DiffersOff windowsPlugin.mem
        (siteBytes windowsSites) (0x20000 + i)
        (SIG_CNETCHAN_SETDATARATE ⟨.windows, .l4d1⟩).bytes := by
      decide +kernel
    obtain ⟨i, rfl⟩ := Nat.exists_eq_add_of_le hle
    exact helsewhere i (Nat.lt_of_add_lt_add_left hlt) hne

/-- The second `Load` fails, and the `Unload` after it gives back the first memory. -/
theorem windows_calls_restore_windowsGame :
    let s := run L4DTickRate.step windowsPlugin [.load windowsGame]
    s.mem ≠ windowsPlugin.mem ∧ (L4DTickRate.load windowsGame s).1 = .returned false ∧
      ((∃ r, (L4DTickRate.unload windowsGame s).1 = .returned r) →
        (L4DTickRate.unload windowsGame s).2.mem = windowsPlugin.mem) := by
  have hg : windowsGame.gamedll ≠ 0 := by decide +kernel
  have hload : (L4DTickRate.load windowsGame windowsPlugin).1 = .returned true :=
    L4DTickRate.load_fst_iff.2 ⟨hg, windowsGame_loadable⟩
  have hgame := onWindows_windowsGame
  have hm : windowsPlugin.patches.m_patchManager = [] := rfl
  generalize windowsGame = e at hload hgame
  generalize windowsPlugin = s at hload hgame hm
  have hsame : e.SameLibraries e := ⟨rfl, rfl, rfl, rfl, rfl⟩
  have hbefore := windows_calls_restore hgame hm [] (by simp) e hsame
  have hafter := windows_calls_restore hgame hm [.load e]
    (by simpa [PluginCall.engine] using hsame) e hsame
  rw [run_nil] at hbefore
  have hstep : run L4DTickRate.step s [.load e] = (L4DTickRate.load e s).2 := rfl
  dsimp only
  rw [hstep] at hafter ⊢
  have hne := (hbefore.2.1 hload).2
  exact ⟨hne, (hafter.1 hne).1, fun hr => (hafter.2.2.1 hr).1⟩

end TickrateEnabler
