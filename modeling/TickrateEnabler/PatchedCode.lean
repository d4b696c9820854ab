import TickrateEnabler.PluginRuns
import TickrateEnabler.RateClamp
import TickrateEnabler.FrameTimeRead

/-!
# The code after `Load`

What a processor does in the memory that a successful `Load` leaves. Leaves that are apart
are all there (`load_writeAll`), so a state at one of them runs the bytes of its
replacement : a frametime read gets its word from the fake globals, and at a rate patch
control goes on behind the check, or `edx` is taken without the clamp (`rateEffects`).
-/

namespace TickrateEnabler

open Memory X86

/-! ## What the replacements do -/

/-- Every state at the bytes comes to `f` of it. -/
def Performs {n : ℕ} (bytes : Fin n → Byte) (f : Cpu → Cpu) : Prop :=
  ∀ s : Cpu, StartsWith s.code bytes → ∃ k, s.steps k = some (f s)

/-- `mov eax, edx` where the clamp was. -/
def withoutClamp (s : Cpu) : Cpu :=
  clamped s (s.regs .edx) s.flags

/-- The state after each patch of `ratePatches`, in order. A jump, or the `nop` over a jump,
goes on that many bytes further and changes nothing else. -/
def rateEffects : Build → List (Cpu → Cpu)
  | ⟨.linux, .l4d1⟩ => [(·.advance 2), withoutClamp, withoutClamp]
  | ⟨.linux, .l4d2⟩ => [(·.advance 2), withoutClamp]
  | ⟨.windows, .l4d1⟩ => [(·.advance 29), (·.advance 13)]
  | ⟨.windows, .l4d2⟩ => [(·.advance 30), (·.advance 14), (·.advance 24)]

theorem steps_one {s s' : Cpu} (h : s.step = some s') : s.steps 1 = some s' := by
  rw [Cpu.steps, h]
  rfl

theorem performs_NOP_2 : Performs NOP_2 (·.advance 2) := by
  intro s h
  have h0 : s.code 0 = 0x66 := h 0
  have h1 : s.code 1 = 0x90 := h 1
  have hdecode : decode s.code = some (.nop, 2) := by
    simp [decode, h0, h1]
  exact ⟨1, steps_one (step_of_decode hdecode)⟩

theorem performs_movEaxEdx : Performs movEaxEdx withoutClamp :=
  fun _ h => ⟨3, steps_movEaxEdx h⟩

/-- A short jump over `offset` bytes. -/
theorem performs_jmp8 {offset : Byte} {n : ℕ}
    (h : 2 + offset.signExtend 32 = BitVec.ofNat 32 n) : Performs (jmp8 offset) (·.advance n) := by
  intro s hs
  refine ⟨1, steps_one ((step_jmp8 hs).trans ?_)⟩
  rw [BitVec.add_assoc, h]
  rfl

/-- Every rate patch does what it is there for. -/
theorem ratePatches_perform (b : Build) :
    List.Forall₂ (fun (c : RatePatch) f => Performs c.replacement f) (ratePatches b)
      (rateEffects b) := by
  rcases b with ⟨- | -, - | -⟩
  · exact .cons performs_NOP_2 (.cons performs_movEaxEdx (.cons performs_movEaxEdx .nil))
  · exact .cons performs_NOP_2 (.cons performs_movEaxEdx .nil)
  · exact .cons (performs_jmp8 (by decide)) (.cons (performs_jmp8 (by decide)) .nil)
  · exact .cons (performs_jmp8 (by decide)) (.cons (performs_jmp8 (by decide))
      (.cons (performs_jmp8 (by decide)) .nil))

/-! ## A processor in the memory -/

/-- The processor runs in the memory. -/
def RunsIn (mem : ℕ → Byte) (s : Cpu) : Prop :=
  ∀ a, s.mem a = mem a.toNat

theorem RunsIn.code_eq {mem : ℕ → Byte} {s : Cpu} (h : RunsIn mem s) {i : ℕ}
    (hi : s.eip.toNat + i < 2 ^ 32) : s.code i = mem (s.eip.toNat + i) := by
  have hlt : i < 2 ^ 32 := Nat.lt_of_le_of_lt (Nat.le_add_left _ _) hi
  rw [Cpu.code, h, BitVec.toNat_add, BitVec.toNat_ofNat, Nat.mod_eq_of_lt hlt,
    Nat.mod_eq_of_lt hi]

/-- A state at a block that is there has its cells as code. -/
theorem RunsIn.startsWith {mem : ℕ → Byte} {s : Cpu} (h : RunsIn mem s) {b : Block Byte}
    (hb : Memory.load mem b.addr b.len = b.cells) (hfit : b.addr + b.len ≤ 2 ^ 32)
    (heip : s.eip.toNat = b.addr) : StartsWith s.code b.cells := by
  intro i
  have hi := i.isLt
  rw [h.code_eq (by omega), heip, ← hb]
  rfl

/-! ## After `Load` -/

section Load

variable {κ η : Type*}

/-- The leaves that `Load` makes are apart, and none reaches over the end of memory. -/
structure Engine.SitesApart (e : Engine κ η) (s : L4DTickRate κ η) : Prop where
  apart : ((e.leaves s).map PatchObject.site).Pairwise Block.Apart
  fit : ∀ o ∈ e.leaves s, o.site.addr + o.site.len ≤ 2 ^ 32

/-- Where `CVomit::UpdateAbility` is found. -/
def Engine.updateAbility (e : Engine κ η) (s : L4DTickRate κ η) : ℕ :=
  (e.found s).1.1

/-- The rate patches with where their functions are found. -/
def Engine.rates (e : Engine κ η) (s : L4DTickRate κ η) : List (RatePatch × ℕ) :=
  (e.found s).1.2

variable {e : Engine κ η} {s : L4DTickRate κ η}

theorem Engine.rates_fst (e : Engine κ η) (s : L4DTickRate κ η) :
    (e.rates s).map Prod.fst = ratePatches e.build :=
  foundRates_fst ..

/-- A rate patch that is found with its effect. -/
theorem performs_of_mem_zip {c : RatePatch} {p : ℕ} {f : Cpu → Cpu}
    (h : ((c, p), f) ∈ (e.rates s).zip (rateEffects e.build)) : Performs c.replacement f := by
  have hmem : (c, f) ∈ (ratePatches e.build).zip (rateEffects e.build) := by
    rw [← e.rates_fst s, List.zip_map_left]
    exact List.mem_map_of_mem h
  exact List.forall₂_zip (ratePatches_perform e.build) hmem

namespace L4DTickRate

/-- After `Load` a processor at a leaf runs its replacement. -/
theorem startsWith_of_load (hi : Idle e s) (hload : (load e s).1 = .returned true)
    (hsites : e.SitesApart s) {o : PatchObject} (ho : o ∈ e.leaves s) {cpu : Cpu}
    (hcpu : RunsIn (load e s).2.mem cpu) (heip : cpu.eip.toNat = o.site.addr) :
    StartsWith cpu.code o.site.cells := by
  refine hcpu.startsWith ?_ (hsites.fit o ho) heip
  rw [load_mem_of_idle hi hload]
  exact load_writeAll hsites.apart (List.mem_map_of_mem ho) s.mem

/-- A successful `Load` from an idle plugin, where the patched sites are apart. In the memory
after it a processor at a frametime read, which was a `mov` from memory with the opcode `A1`
or of six bytes, loads the same register from the fake globals; at a rate patch it goes on as
`rateEffects` says; and outside the sites it finds the code from before. -/
theorem load_changes_code (hi : Idle e s) (hload : (load e s).1 = .returned true)
    (hsites : e.SitesApart s) {cpu : Cpu} (hcpu : RunsIn (load e s).2.mem cpu) :
    (∀ offs ∈ g_FrameTimeReadOffsets e.build, cpu.eip.toNat = e.updateAbility s + offs →
      ∀ d m n, decode (shift cpu.eip.toNat s.mem) = some (.mov d (.mem m), n) →
        (s.mem cpu.eip.toNat = 0xA1 ∨ (s.mem cpu.eip.toNat = 0x8B ∧ n = 6)) →
        cpu.step = some { cpu with
          regs := Function.update cpu.regs d (read32 cpu.mem (e.fakeGlobals.source e.build))
          eip := cpu.eip + BitVec.ofNat 32 n }) ∧
      (∀ c p f, ((c, p), f) ∈ (e.rates s).zip (rateEffects e.build) →
        cpu.eip.toNat = p + c.offset → ∃ k, cpu.steps k = some (f cpu)) ∧
      ∀ a, (∀ o ∈ e.leaves s, ¬o.Targets a.toNat) → cpu.mem a = s.mem a.toNat := by
  refine ⟨fun offs hoffs heip d m n hdecode hsite => ?_, fun c p f hzip heip => ?_,
    fun a ha => ?_⟩
  · have hleaf : frameTimeReadLeaf (e.fakeGlobals.source e.build) s.mem
        (e.updateAbility s + offs) ∈ e.leaves s :=
      List.mem_append_left _ (List.mem_map_of_mem hoffs)
    have hcode := startsWith_of_load hi hload hsites hleaf hcpu heip
    rw [heip] at hdecode hsite
    obtain ⟨-, hrun, -⟩ := frameTimeRead_rewritten e.build e.fakeGlobals hdecode hsite
    exact (hrun cpu.code hcode).2 cpu rfl
  · have hleaf : c.leaf s.mem p ∈ e.leaves s :=
      List.mem_append_right _ (List.mem_map_of_mem (List.of_mem_zip hzip).1)
    exact performs_of_mem_zip hzip cpu (startsWith_of_load hi hload hsites hleaf hcpu heip)
  · rw [hcpu, load_mem_of_idle hi hload]
    refine writeAll_of_not_covers (fun b hb => ?_) s.mem
    obtain ⟨o, ho, rfl⟩ := List.mem_map.1 hb
    exact ha o ho

end L4DTickRate

end Load

/-- A processor at an address of the game on Linux after `Load`. -/
def linuxCpu (eip : BitVec 32) : Cpu where
  regs _ := 60000
  eip := eip
  flags := ⟨false, false, false, false, false, false⟩
  mem a := (L4DTickRate.load (linuxGame.on linuxSystem) linuxPlugin).2.mem a.toNat

theorem runsIn_linuxCpu (eip : BitVec 32) :
    RunsIn (L4DTickRate.load (linuxGame.on linuxSystem) linuxPlugin).2.mem (linuxCpu eip) := by
  intro a
  rw [linuxCpu]

/-- The first frametime read loads `eax` from `gpp_FakeGlobals`. -/
theorem load_changes_code_linuxGame :
    (linuxCpu 0x102DD).step = some { linuxCpu 0x102DD with
      regs := Function.update (linuxCpu 0x102DD).regs .eax (read32 (linuxCpu 0x102DD).mem 0x2010)
      eip := 0x102DD + BitVec.ofNat 32 5 } := by
  have hg : (linuxGame.on linuxSystem).gamedll ≠ 0 := by decide +kernel
  have hload : (L4DTickRate.load (linuxGame.on linuxSystem) linuxPlugin).1 = .returned true :=
    L4DTickRate.load_fst_iff.2 ⟨hg, linuxGame_loadable⟩
  have hidle : Idle (linuxGame.on linuxSystem) linuxPlugin := ⟨rfl, rfl, fun _ _ => rfl⟩
  have hsites : (linuxGame.on linuxSystem).SitesApart linuxPlugin :=
    ⟨by decide +kernel, by decide +kernel⟩
  have hfound : (0x102DD : BitVec 32).toNat =
      (linuxGame.on linuxSystem).updateAbility linuxPlugin + 0x1DD := by
    decide +kernel
  have hread : linuxPlugin.mem (0x102DD : BitVec 32).toNat = 0xA1 := by decide
  have hshift : shift (0x102DD : BitVec 32).toNat linuxPlugin.mem 0 = 0xA1 := hread
  exact (L4DTickRate.load_changes_code hidle hload hsites (runsIn_linuxCpu 0x102DD)).1 0x1DD
    (by decide) hfound _ _ _ (decode_of_A1 hshift) (Or.inl hread)

end TickrateEnabler
