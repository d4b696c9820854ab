import TickrateEnabler.MaxRate
import TickrateEnabler.X86.Decode

/-!
# The rate clamps as x86 code

On Linux the clamp `eax = min(edx, 30000)` of `ClampClientRate` and, for `L4D1`,
`CGameClient::SetRate` is fourteen bytes; the replacement is `mov eax, edx` and two
`nop`s of the same size (`liftsClamp`). On Windows `CGameClient::SetRate` of `L4D1`
compares `eax` with 30000 and jumps; the replacement jumps to the same address whatever
`eax` is (`liftsCheck`).
-/

namespace TickrateEnabler

open X86

/-- The stream starts with these bytes. -/
def StartsWith {n : ℕ} (code : ℕ → BitVec 8) (bytes : Fin n → Byte) : Prop :=
  ∀ i : Fin n, code i = bytes i

/-- The documented bytes of the clamp on Linux. -/
def documentedClamp : Fin 14 → Byte :=
  ![0xB8, 0x30, 0x75, 0x00, 0x00, 0x81, 0xFA, 0x30, 0x75, 0x00, 0x00, 0x0F, 0x4E, 0xC2]

/-- The documented bytes of the check on Windows, for `L4D1`. -/
def documentedCheck : Fin 7 → Byte :=
  ![0x3D, 0x30, 0x75, 0x00, 0x00, 0x7E, 0x06]

variable {code : ℕ → BitVec 8}

theorem listing_movEaxEdx (h : StartsWith code movEaxEdx) :
    Listing code [(.mov .eax (.reg .edx), 2), (.nop, 9), (.nop, 3)] := by
  have h0 : code 0 = 0x8B := h 0
  have h1 : code 1 = 0xC2 := h 1
  have h2 : code 2 = 0x66 := h 2
  have h3 : code 3 = 0x0F := h 3
  have h4 : code 4 = 0x1F := h 4
  have h5 : code 5 = 0x84 := h 5
  have h6 : code 6 = 0x00 := h 6
  have h11 : code 11 = 0x0F := h 11
  have h12 : code 12 = 0x1F := h 12
  have h13 : code 13 = 0x00 := h 13
  refine ⟨?_, ?_, ?_, trivial⟩
  · simp [decode, decodeOperand, shift, h0, h1, modField, regField, rmField, Reg.ofBits]
  · simp [decode, decodeOperand, decodeDisp, shift, h2, h3, h4, h5, h6, modField, regField, rmField]
  · simp [decode, decodeOperand, decodeDisp, shift, h11, h12, h13, modField, regField, rmField]

theorem listing_documentedClamp (h : StartsWith code documentedClamp) :
    Listing code [(.movImm .eax 30000, 5), (.cmpImm (.reg .edx) 30000, 6),
      (.cmov .le .eax (.reg .edx), 3)] := by
  have h0 : code 0 = 0xB8 := h 0
  have h1 : code 1 = 0x30 := h 1
  have h2 : code 2 = 0x75 := h 2
  have h3 : code 3 = 0x00 := h 3
  have h4 : code 4 = 0x00 := h 4
  have h5 : code 5 = 0x81 := h 5
  have h6 : code 6 = 0xFA := h 6
  have h7 : code 7 = 0x30 := h 7
  have h8 : code 8 = 0x75 := h 8
  have h9 : code 9 = 0x00 := h 9
  have h10 : code 10 = 0x00 := h 10
  have h11 : code 11 = 0x0F := h 11
  have h12 : code 12 = 0x4E := h 12
  have h13 : code 13 = 0xC2 := h 13
  refine ⟨?_, ?_, ?_, trivial⟩
  · simp [decode, imm32, h0, h1, h2, h3, h4, rmField, Reg.ofBits]
  · simp [decode, decodeOperand, imm32, shift, h5, h6, h7, h8, h9, h10, modField, regField,
      rmField, Reg.ofBits]
  · simp [decode, decodeOperand, shift, h11, h12, h13, modField, regField, rmField, Reg.ofBits,
      Cond.ofBits]

theorem listing_documentedCheck (h : StartsWith code documentedCheck) :
    Listing code [(.cmpImm (.reg .eax) 30000, 5), (.jcc .le 6, 2)] := by
  have h0 : code 0 = 0x3D := h 0
  have h1 : code 1 = 0x30 := h 1
  have h2 : code 2 = 0x75 := h 2
  have h3 : code 3 = 0x00 := h 3
  have h4 : code 4 = 0x00 := h 4
  have h5 : code 5 = 0x7E := h 5
  have h6 : code 6 = 0x06 := h 6
  refine ⟨?_, ?_, trivial⟩
  · simp [decode, imm32, h0, h1, h2, h3, h4]
  · simp [decode, shift, h5, h6, Cond.ofBits]

/-! ## Running the code -/

/-- The state behind the clamp. -/
def clamped (s : Cpu) (eax : BitVec 32) (flags : Flags) : Cpu :=
  { s with regs := Function.update s.regs .eax eax, eip := s.eip + 14, flags := flags }

theorem advance_advance (s : Cpu) (m n : ℕ) :
    (s.advance m).advance n = s.advance (m + n) := by
  rw [Cpu.advance, Cpu.advance, Cpu.advance, BitVec.add_assoc, ← BitVec.ofNat_add]

/-- The replacement leaves `edx` in `eax`. -/
theorem steps_movEaxEdx {s : Cpu} (h : StartsWith s.code movEaxEdx) :
    s.steps 3 = some (clamped s (s.regs .edx) s.flags) := by
  have hrun := steps_of_listing (by simp [Instr.sequential]) (listing_movEaxEdx h)
  refine hrun.trans (congrArg some ?_)
  show (((s.setReg .eax (s.regs .edx)).advance 2).advance 9).advance 3 = _
  rw [advance_advance, advance_advance]
  rfl

/-- The original code leaves the smaller of `edx` and 30000 in `eax`. -/
theorem steps_documentedClamp {s : Cpu} (h : StartsWith s.code documentedClamp) :
    ∃ flags eax, s.steps 3 = some (clamped s eax flags) ∧
      eax.toInt = min (s.regs .edx).toInt 30000 := by
  have hrun := steps_of_listing (by simp [Instr.sequential]) (listing_documentedClamp h)
  set flags := cmpFlags (s.regs .edx) 30000 with hflags
  set eax := if Cond.le.holds flags then s.regs .edx else 30000 with heax
  refine ⟨flags, eax, hrun.trans (congrArg some ?_), ?_⟩
  · have hedx : Function.update s.regs .eax 30000 .edx = s.regs .edx :=
      Function.update_of_ne (by decide) ..
    simp only [List.foldl_cons, List.foldl_nil, exec, Cpu.value, Cpu.setReg, Cpu.advance, hedx,
      Function.update_self, Function.update_idem, clamped, ← hflags, ← heax, BitVec.add_assoc]
    rfl
  · have hle := le_cmpFlags (s.regs .edx) 30000
    have h30000 : (30000 : BitVec 32).toInt = 30000 := by decide
    rw [heax, hflags, hle, h30000]
    by_cases hedx : (s.regs .edx).toInt ≤ 30000
    · rw [if_pos (decide_eq_true hedx), min_eq_left hedx]
    · rw [if_neg (by simpa using hedx), min_eq_right (by omega), h30000]

/-- The original check goes on behind it when `eax` is at most 30000. -/
theorem steps_documentedCheck {s : Cpu} (h : StartsWith s.code documentedCheck)
    (heax : (s.regs .eax).toInt ≤ 30000) :
    ∃ flags, s.steps 2 = some { s with eip := s.eip + 13, flags := flags } := by
  refine ⟨cmpFlags (s.regs .eax) 30000, ?_⟩
  have h30000 : (30000 : BitVec 32).toInt = 30000 := by decide
  have hle : Cond.le.holds (cmpFlags (s.regs .eax) 30000) = true := by
    rw [le_cmpFlags, h30000]
    exact decide_eq_true heax
  rw [steps_two rfl (listing_documentedCheck h)]
  simp only [exec, Cpu.value, Cpu.advance, hle, if_true, BitVec.add_assoc]
  rfl

/-- A short jump forward changes `eip` only. -/
theorem step_jmp8 {s : Cpu} {offset : Byte} (h : StartsWith s.code (jmp8 offset)) :
    s.step = some { s with eip := s.eip + 2 + offset.signExtend 32 } := by
  have h0 : s.code 0 = 0xEB := h 0
  have h1 : s.code 1 = offset := h 1
  have hdecode : decode s.code = some (.jmp (offset.signExtend 32), 2) := by
    simp [decode, h0, h1]
  rw [step_of_decode hdecode]
  rfl

/-! ## The patches -/

/-- Where the function has the documented clamp, `GeneratePatch` makes a leaf on it, and
in any state at the clamp the bytes of the leaf are whole instructions that leave `edx`
in `eax`, and the documented ones those that leave the smaller of `edx` and 30000. -/
def LiftsClamp (c : RatePatch) : Prop :=
  ∀ (mem : ℕ → Byte) (p : ℕ), p ≠ 0 →
    StartsWith (shift (p + c.offset) mem) documentedClamp →
    ∃ o, c.generatePatch mem p = .ok o ∧ o.site.addr = p + c.offset ∧ o.site.len = 14 ∧
      ∀ (s : Cpu) (patched : BitVec 32 → BitVec 8), StartsWith s.code documentedClamp →
        StartsWith { s with mem := patched }.code o.site.cells →
        Listing { s with mem := patched }.code
            [(.mov .eax (.reg .edx), 2), (.nop, 9), (.nop, 3)] ∧
          { s with mem := patched }.steps 3 =
            some (clamped { s with mem := patched } (s.regs .edx) s.flags) ∧
          ∃ flags eax, s.steps 3 = some (clamped s eax flags) ∧
            eax.toInt = min (s.regs .edx).toInt 30000 ∧
            (s.regs .edx = eax ↔ (s.regs .edx).toInt ≤ 30000)

/-- Where the function has the documented check, `GeneratePatch` makes a leaf on it, and
in any state at the check the bytes of the leaf are a jump to where the documented ones
go with `eax` at most 30000. -/
def LiftsCheck (c : RatePatch) : Prop :=
  ∀ (mem : ℕ → Byte) (p : ℕ), p ≠ 0 →
    StartsWith (shift (p + c.offset) mem) documentedCheck →
    ∃ o, c.generatePatch mem p = .ok o ∧ o.site.addr = p + c.offset ∧
      ∀ (s : Cpu) (patched : BitVec 32 → BitVec 8), StartsWith s.code documentedCheck →
        StartsWith { s with mem := patched }.code o.site.cells →
        { s with mem := patched }.step = some { s with mem := patched, eip := s.eip + 13 } ∧
          ((s.regs .eax).toInt ≤ 30000 →
            ∃ flags, s.steps 2 = some { s with eip := s.eip + 13, flags := flags })

theorem liftsClamp {c : RatePatch} (hcheck : c.check = 0xB8)
    (hleaf : ∀ mem p, c.leaf mem p = newStatic mem (p + c.offset) movEaxEdx) : LiftsClamp c := by
  intro mem p hp hdoc
  have hvalid : c.Valid mem p := ⟨hp, (hdoc 0).trans hcheck.symm⟩
  refine ⟨_, c.generatePatch_of_valid hvalid, ?_⟩
  rw [hleaf]
  refine ⟨rfl, rfl, fun s patched hs hpatched => ?_⟩
  obtain ⟨flags, eax, hrun, heax⟩ := steps_documentedClamp hs
  refine ⟨listing_movEaxEdx hpatched, steps_movEaxEdx hpatched, flags, eax, hrun, heax, ?_⟩
  rw [← BitVec.toInt_inj, heax]
  exact ⟨fun h => h ▸ min_le_right _ _, fun h => (min_eq_left h).symm⟩

theorem liftsCheck {c : RatePatch} (hcheck : c.check = 0x3D)
    (hleaf : ∀ mem p, c.leaf mem p = newStatic mem (p + c.offset) (jmp8 0x0B)) :
    LiftsCheck c := by
  intro mem p hp hdoc
  have hvalid : c.Valid mem p := ⟨hp, (hdoc 0).trans hcheck.symm⟩
  refine ⟨_, c.generatePatch_of_valid hvalid, ?_⟩
  rw [hleaf]
  refine ⟨rfl, fun s patched hs hpatched => ⟨?_, fun heax => steps_documentedCheck hs heax⟩⟩
  rw [step_jmp8 hpatched, BitVec.add_assoc]
  rfl

/-- The rate clamps are lifted, and nothing else changes: `ClampClientRate` on Linux, and
`CGameClient::SetRate` of `L4D1` on Linux and on Windows. -/
theorem rateClamps_lifted :
    (∀ game, ∃ c, ClampClientRatePatch ⟨.linux, game⟩ = some c ∧ LiftsClamp c) ∧
      (∃ c, GameClientSetRatePatch ⟨.linux, .l4d1⟩ = some c ∧ LiftsClamp c) ∧
      ∃ c, GameClientSetRatePatch ⟨.windows, .l4d1⟩ = some c ∧ LiftsCheck c :=
  ⟨fun _ => ⟨_, rfl, liftsClamp rfl fun _ _ => rfl⟩,
    ⟨_, rfl, liftsClamp rfl fun _ _ => rfl⟩, ⟨_, rfl, liftsCheck rfl fun _ _ => rfl⟩⟩

end TickrateEnabler
