import TickrateEnabler.X86.Machine

/-!
# Decoding and running code

`decode` reads an instruction and its length from a stream of bytes : the opcode, and
for most opcodes a ModRM byte with the SIB byte and displacement it asks for
(`decodeOperand`). With the prefix `66` only the two `nop` forms are known.

`Listing code l` says that the stream starts with the instructions `l`, back to back;
a state at such code runs through them in order (`steps_of_listing`).
-/

namespace X86

/-- The stream from the byte `n` on. -/
def shift (n : ℕ) (code : ℕ → BitVec 8) : ℕ → BitVec 8 :=
  fun i => code (n + i)

/-- A little-endian word of the stream. -/
def imm32 (code : ℕ → BitVec 8) (i : ℕ) : BitVec 32 :=
  code (i + 3) ++ code (i + 2) ++ code (i + 1) ++ code i

/-- The field `mod` of a ModRM byte, or `scale` of a SIB byte. -/
def modField (b : BitVec 8) : BitVec 2 :=
  b.extractLsb' 6 2

/-- The field `reg` of a ModRM byte, or `index` of a SIB byte. -/
def regField (b : BitVec 8) : BitVec 3 :=
  b.extractLsb' 3 3

/-- The field `rm` of a ModRM byte, or `base` of a SIB byte. -/
def rmField (b : BitVec 8) : BitVec 3 :=
  b.extractLsb' 0 3

/-- The base register and displacement for `mod`, with what starts at `disp`. `absent` is
the field value that `mod = 0` replaces by a displacement. -/
def decodeDisp (code : ℕ → BitVec 8) (disp : ℕ) (mod : BitVec 2) (base : BitVec 3)
    (index : Option (Reg × BitVec 2)) : MemOperand × ℕ :=
  if mod = 0 then
    if base = 5 then (⟨none, index, imm32 code disp⟩, disp + 4)
    else (⟨some (.ofBits base), index, 0⟩, disp)
  else if mod = 1 then (⟨some (.ofBits base), index, (code disp).signExtend 32⟩, disp + 1)
  else (⟨some (.ofBits base), index, imm32 code disp⟩, disp + 4)

/-- The operand for the ModRM byte the stream starts with, and the length of its encoding. -/
def decodeOperand (code : ℕ → BitVec 8) : Operand × ℕ :=
  let mod := modField (code 0)
  let rm := rmField (code 0)
  if mod = 3 then (.reg (.ofBits rm), 1)
  else if rm = 4 then
    let index := if regField (code 1) = 4 then none
      else some (Reg.ofBits (regField (code 1)), modField (code 1))
    let r := decodeDisp code 2 mod (rmField (code 1)) index
    (.mem r.1, r.2)
  else
    let r := decodeDisp code 1 mod rm none
    (.mem r.1, r.2)

/-- The instruction the stream starts with, and its length. -/
def decode (code : ℕ → BitVec 8) : Option (Instr × ℕ) :=
  if code 0 = 0x8B then
    let r := decodeOperand (shift 1 code)
    some (.mov (.ofBits (regField (code 1))) r.1, 1 + r.2)
  else if code 0 = 0xA1 then some (.mov .eax (.mem (.absolute (imm32 code 1))), 5)
  else if (code 0).extractLsb' 3 5 = 0x17 then
    some (.movImm (.ofBits (rmField (code 0))) (imm32 code 1), 5)
  else if code 0 = 0x3D then some (.cmpImm (.reg .eax) (imm32 code 1), 5)
  else if code 0 = 0x81 ∧ regField (code 1) = 7 then
    let r := decodeOperand (shift 1 code)
    some (.cmpImm r.1 (imm32 code (1 + r.2)), 1 + r.2 + 4)
  else if (code 0).extractLsb' 4 4 = 7 then
    some (.jcc (.ofBits ((code 0).extractLsb' 0 4)) ((code 1).signExtend 32), 2)
  else if code 0 = 0xEB then some (.jmp ((code 1).signExtend 32), 2)
  else if code 0 = 0x90 then some (.nop, 1)
  else if code 0 = 0x66 ∧ code 1 = 0x90 then some (.nop, 2)
  else if code 0 = 0x66 ∧ code 1 = 0x0F ∧ code 2 = 0x1F ∧ regField (code 3) = 0 then
    some (.nop, 3 + (decodeOperand (shift 3 code)).2)
  else if code 0 = 0x0F ∧ code 1 = 0x1F ∧ regField (code 2) = 0 then
    some (.nop, 2 + (decodeOperand (shift 2 code)).2)
  else if code 0 = 0x0F ∧ (code 1).extractLsb' 4 4 = 4 then
    let r := decodeOperand (shift 2 code)
    some (.cmov (.ofBits ((code 1).extractLsb' 0 4)) (.ofBits (regField (code 2))) r.1, 2 + r.2)
  else none

/-! ## Running -/

namespace Cpu

/-- The code at `eip`. -/
def code (s : Cpu) : ℕ → BitVec 8 :=
  fun i => s.mem (s.eip + BitVec.ofNat 32 i)

/-- One instruction. -/
def step (s : Cpu) : Option Cpu :=
  (decode s.code).map fun p => exec p.2 s p.1

/-- `n` instructions. -/
def steps : ℕ → Cpu → Option Cpu
  | 0, s => some s
  | n + 1, s => s.step.bind (steps n)

end Cpu

theorem step_of_decode {s : Cpu} {i : Instr} {n : ℕ} (h : decode s.code = some (i, n)) :
    s.step = some (exec n s i) := by
  rw [Cpu.step, h]
  rfl

/-- After a sequential instruction the code is that behind it. -/
theorem code_exec {i : Instr} (h : i.sequential = true) (n : ℕ) (s : Cpu) :
    (exec n s i).code = shift n s.code := by
  ext k : 1
  rw [Cpu.code, exec_mem, exec_eip_of_sequential h, shift, Cpu.code, BitVec.add_assoc,
    ← BitVec.ofNat_add]

/-- The stream starts with these instructions, of these lengths. -/
def Listing (code : ℕ → BitVec 8) : List (Instr × ℕ) → Prop
  | [] => True
  | p :: l => decode code = some p ∧ Listing (shift p.2 code) l

/-- A state at code that starts with a listing without jumps runs through it. -/
theorem steps_of_listing {l : List (Instr × ℕ)} (hseq : ∀ p ∈ l, p.1.sequential = true) {s : Cpu}
    (h : Listing s.code l) :
    s.steps l.length = some (l.foldl (fun s p => exec p.2 s p.1) s) := by
  induction l generalizing s with
  | nil => rfl
  | cons p l ih =>
    obtain ⟨hp, hl⟩ := h
    obtain ⟨hps, hseq⟩ := List.forall_mem_cons.1 hseq
    rw [← code_exec hps] at hl
    rw [List.length_cons, Cpu.steps, step_of_decode hp, Option.bind_some, ih hseq hl]
    rfl

/-- Two instructions, the second one of any kind. -/
theorem steps_two {s : Cpu} {i j : Instr} {n k : ℕ} (hi : i.sequential = true)
    (h : Listing s.code [(i, n), (j, k)]) : s.steps 2 = some (exec k (exec n s i) j) := by
  obtain ⟨hfst, hsnd, -⟩ := h
  rw [← code_exec hi] at hsnd
  rw [Cpu.steps, step_of_decode hfst, Option.bind_some, Cpu.steps, step_of_decode hsnd]
  rfl

/-- A `mov` from an absolute address loads the word there, and changes no other register. -/
theorem exec_mov_absolute (n : ℕ) (s : Cpu) (dst : Reg) (disp : BitVec 32) :
    exec n s (.mov dst (.mem (.absolute disp))) =
      { s with regs := Function.update s.regs dst (read32 s.mem disp),
               eip := s.eip + BitVec.ofNat 32 n } := by
  have haddress : s.address (.absolute disp) = disp := by
    simp [Cpu.address, MemOperand.absolute]
  rw [exec, Cpu.value, haddress]
  rfl

end X86
