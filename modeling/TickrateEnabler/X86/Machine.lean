import Mathlib.Logic.Function.Basic
import Mathlib.Data.Nat.Basic

/-!
# A 32-bit x86 machine

Registers, arithmetic flags, operands and a few instructions with their effect : moves,
`cmp`, conditional moves and jumps, and `nop`. No instruction here writes memory
(`exec_mem`). `Cond.le` after `cmp` is the signed comparison of the two operands
(`le_cmpFlags`).
-/

namespace X86

/-- The general registers. -/
inductive Reg where
  | eax | ecx | edx | ebx | esp | ebp | esi | edi
  deriving DecidableEq, Repr

/-- The register of a three-bit field. -/
def Reg.ofBits (b : BitVec 3) : Reg :=
  match b.toNat with
  | 0 => .eax
  | 1 => .ecx
  | 2 => .edx
  | 3 => .ebx
  | 4 => .esp
  | 5 => .ebp
  | 6 => .esi
  | _ => .edi

/-- The arithmetic flags. -/
structure Flags where
  cf : Bool
  pf : Bool
  af : Bool
  zf : Bool
  sf : Bool
  of : Bool
  deriving DecidableEq

/-- The conditions of `jcc` and `cmovcc`. -/
inductive Cond where
  | o | no | b | ae | e | ne | be | a | s | ns | p | np | l | ge | le | g
  deriving DecidableEq, Repr

namespace Cond

/-- The condition of a four-bit field. -/
def ofBits (b : BitVec 4) : Cond :=
  match b.toNat with
  | 0 => .o
  | 1 => .no
  | 2 => .b
  | 3 => .ae
  | 4 => .e
  | 5 => .ne
  | 6 => .be
  | 7 => .a
  | 8 => .s
  | 9 => .ns
  | 10 => .p
  | 11 => .np
  | 12 => .l
  | 13 => .ge
  | 14 => .le
  | _ => .g

/-- Whether the condition holds. -/
def holds (f : Flags) : Cond → Bool
  | .o => f.of
  | .no => !f.of
  | .b => f.cf
  | .ae => !f.cf
  | .e => f.zf
  | .ne => !f.zf
  | .be => f.cf || f.zf
  | .a => !(f.cf || f.zf)
  | .s => f.sf
  | .ns => !f.sf
  | .p => f.pf
  | .np => !f.pf
  | .l => f.sf != f.of
  | .ge => f.sf == f.of
  | .le => f.zf || f.sf != f.of
  | .g => !(f.zf || f.sf != f.of)

end Cond

/-- A memory operand, `[base + index * 2 ^ scale + disp]`. -/
structure MemOperand where
  base : Option Reg
  index : Option (Reg × BitVec 2)
  disp : BitVec 32
  deriving DecidableEq

/-- The operand `[disp32]`. -/
def MemOperand.absolute (disp : BitVec 32) : MemOperand :=
  ⟨none, none, disp⟩

/-- A register or a memory operand. -/
inductive Operand where
  | reg (r : Reg)
  | mem (m : MemOperand)
  deriving DecidableEq

/-- The instructions. -/
inductive Instr where
  | mov (dst : Reg) (src : Operand)
  | movImm (dst : Reg) (imm : BitVec 32)
  | cmpImm (lhs : Operand) (imm : BitVec 32)
  | cmov (cc : Cond) (dst : Reg) (src : Operand)
  | jcc (cc : Cond) (rel : BitVec 32)
  | jmp (rel : BitVec 32)
  | nop
  deriving DecidableEq

/-- The state. -/
structure Cpu where
  regs : Reg → BitVec 32
  eip : BitVec 32
  flags : Flags
  mem : BitVec 32 → BitVec 8

/-- The little-endian word at an address. -/
def read32 (mem : BitVec 32 → BitVec 8) (a : BitVec 32) : BitVec 32 :=
  mem (a + 3) ++ mem (a + 2) ++ mem (a + 1) ++ mem a

namespace Cpu

/-- The address of a memory operand. -/
def address (s : Cpu) (m : MemOperand) : BitVec 32 :=
  (m.base.elim 0 s.regs) + (m.index.elim 0 fun i => s.regs i.1 <<< i.2) + m.disp

/-- The value of an operand. -/
def value (s : Cpu) : Operand → BitVec 32
  | .reg r => s.regs r
  | .mem m => read32 s.mem (s.address m)

/-- The state with a register set. -/
def setReg (s : Cpu) (r : Reg) (v : BitVec 32) : Cpu :=
  { s with regs := Function.update s.regs r v }

/-- The state `n` bytes on. -/
def advance (s : Cpu) (n : ℕ) : Cpu :=
  { s with eip := s.eip + BitVec.ofNat 32 n }

end Cpu

/-- Whether the low byte has an even number of ones. -/
def parity (v : BitVec 32) : Bool :=
  ((List.range 8).filter fun i => v.getLsbD i).length % 2 == 0

/-- The flags after `cmp a, b`. -/
def cmpFlags (a b : BitVec 32) : Flags where
  cf := BitVec.usubOverflow a b
  pf := parity (a - b)
  af := decide (a.toNat % 16 < b.toNat % 16)
  zf := a - b == 0
  sf := (a - b).msb
  of := BitVec.ssubOverflow a b

/-- The effect of an instruction of `n` bytes. -/
def exec (n : ℕ) (s : Cpu) : Instr → Cpu
  | .mov dst src => (s.setReg dst (s.value src)).advance n
  | .movImm dst imm => (s.setReg dst imm).advance n
  | .cmpImm lhs imm => { s.advance n with flags := cmpFlags (s.value lhs) imm }
  | .cmov cc dst src =>
    (s.setReg dst (if cc.holds s.flags then s.value src else s.regs dst)).advance n
  | .jcc cc rel =>
    if cc.holds s.flags then { s with eip := s.eip + BitVec.ofNat 32 n + rel } else s.advance n
  | .jmp rel => { s with eip := s.eip + BitVec.ofNat 32 n + rel }
  | .nop => s.advance n

/-- The instruction goes on to the next one. -/
def Instr.sequential : Instr → Bool
  | .jcc .. | .jmp .. => false
  | _ => true

/-- No instruction writes memory. -/
theorem exec_mem (n : ℕ) (s : Cpu) (i : Instr) : (exec n s i).mem = s.mem := by
  cases i with
  | jcc cc rel =>
    rw [exec]
    split_ifs <;> rfl
  | _ => rfl

theorem exec_eip_of_sequential {i : Instr} (h : i.sequential = true) (n : ℕ) (s : Cpu) :
    (exec n s i).eip = s.eip + BitVec.ofNat 32 n := by
  cases i with
  | jcc cc rel => exact absurd h Bool.false_ne_true
  | jmp rel => exact absurd h Bool.false_ne_true
  | _ => rfl

/-- After `cmp a, b` the condition `le` is the signed comparison. -/
theorem le_cmpFlags (a b : BitVec 32) :
    Cond.le.holds (cmpFlags a b) = decide (a.toInt ≤ b.toInt) := by
  have ha := BitVec.toInt_lt (x := a)
  have ha' := BitVec.le_toInt a
  have hb := BitVec.toInt_lt (x := b)
  have hb' := BitVec.le_toInt b
  have hsub : (a - b).toInt = (a.toInt - b.toInt).bmod (2 ^ 32) := BitVec.toInt_sub
  have hzero : a - b = 0 ↔ (a.toInt - b.toInt).bmod (2 ^ 32) = 0 := by
    rw [← BitVec.toInt_inj, hsub]
    rfl
  rw [Bool.eq_iff_iff]
  simp only [Cond.holds, cmpFlags, BitVec.msb_eq_toInt, BitVec.ssubOverflow, hsub, Bool.or_eq_true,
    beq_iff_eq, hzero, bne_iff_ne, ne_eq, ← Bool.decide_or, decide_eq_true_eq, decide_eq_decide]
  rw [Int.bmod_def]
  split_ifs <;> omega

end X86
