import TickrateEnabler.SymbolTable
import TickrateEnabler.BinPatch
import Mathlib.Data.Fin.VecNotation

/-!
# Builds, signatures and offsets

The plugin has four builds, for two games on two platforms. `sigs.h` and
`misc_asm.h` : how each build finds the functions it patches, where in them it
patches, the byte it checks there, and the instructions it writes.
-/

namespace TickrateEnabler

/-- `_LINUX` or `_WIN32`. -/
inductive Platform where
  | linux
  | windows
  deriving DecidableEq

/-- `L4D1` or `L4D2`. -/
inductive Game where
  | l4d1
  | l4d2
  deriving DecidableEq

/-- The defines of a build. -/
structure Build where
  platform : Platform
  game : Game
  deriving DecidableEq

/-- The bytes of a string literal. -/
def ascii (s : String) : Name :=
  s.toList.map fun c => BitVec.ofNat 8 c.toNat

/-- How a function is found: a symbol for `SimpleResolve`, or the first `len` bytes of a
signature for `FindLibPattern`. -/
inductive Lookup where
  | symbol (name : Name)
  | pattern (sig : List Byte) (len : ℕ)
  deriving DecidableEq

/-! ## `misc_asm.h` -/

/-- `MAX_MOV_INSTR_LEN`. -/
abbrev MAX_MOV_INSTR_LEN : ℕ :=
  6

/-- `JA_8_OPCODE`. -/
def JA_8_OPCODE : Byte :=
  0x77

/-- `JB_8_OPCODE`. -/
def JB_8_OPCODE : Byte :=
  0x72

/-- `JMP_8_OPCODE`. -/
def JMP_8_OPCODE : Byte :=
  0xEB

/-- `MOV_R32_RM32_OPCODE`. -/
def MOV_R32_RM32_OPCODE : Byte :=
  0x8B

/-- `MOV_R32_IMM32_OPCODE`. -/
def MOV_R32_IMM32_OPCODE : Byte :=
  0xB8

/-- `MODRM_REG_EAX_EDX`. -/
def MODRM_REG_EAX_EDX : Byte :=
  0xC2

/-- `MODRM_SRC_TO_DISP32(modrm)`. -/
def MODRM_SRC_TO_DISP32 (modrm : Byte) : Byte :=
  (modrm &&& 0x38) ||| 0x05

/-- `NOP_2`. -/
def NOP_2 : Fin 2 → Byte :=
  ![0x66, 0x90]

/-- `NOP_3`. -/
def NOP_3 : Fin 3 → Byte :=
  ![0x0F, 0x1F, 0x00]

/-- `NOP_9`. -/
def NOP_9 : Fin 9 → Byte :=
  ![0x66, 0x0F, 0x1F, 0x84, 0x00, 0x00, 0x00, 0x00, 0x00]

/-! ## `sigs.h` -/

/-- `LIN_CVomit_UpdateAbility_SYMBOL`, `WIN_CVomit_UpdateAbility_SIG`. -/
def CVomit_UpdateAbility : Build → Lookup
  | ⟨.linux, _⟩ => .symbol (ascii "_ZN6CVomit13UpdateAbilityEv")
  | ⟨.windows, .l4d1⟩ =>
    .pattern [0x81, 0xEC, 0x2A, 0x2A, 0x2A, 0x2A, 0x53, 0x55, 0x56, 0x57, 0x8B, 0xF9, 0x8B,
      0x87] 14
  | ⟨.windows, .l4d2⟩ =>
    .pattern [0x55, 0x8B, 0xEC, 0x81, 0xEC, 0x2A, 0x2A, 0x2A, 0x2A, 0xA1, 0x2A, 0x2A, 0x2A, 0x2A,
      0x33, 0xC5, 0x89, 0x45, 0xFC, 0x53, 0x56, 0x57, 0x8B, 0xF9, 0x8B, 0x87, 0x2A, 0x2A, 0x2A,
      0x2A, 0x83] 31

/-- `g_FrameTimeReadOffsets`. -/
def g_FrameTimeReadOffsets : Build → List ℕ
  | ⟨.linux, .l4d1⟩ => [0x1DD, 0x38D]
  | ⟨.linux, .l4d2⟩ => [0x12D, 0x5FD]
  | ⟨.windows, .l4d1⟩ => [0x173, 0x2CD, 0x476]
  | ⟨.windows, .l4d2⟩ => [0x1E3, 0x37A, 0x52B]

/-- `SIG_CNETCHAN_SETDATARATE`. -/
def SIG_CNETCHAN_SETDATARATE : Build → Lookup
  | ⟨.linux, _⟩ => .symbol (ascii "_ZN8CNetChan11SetDataRateEf")
  | ⟨.windows, .l4d1⟩ =>
    .pattern [0xF3, 0x0F, 0x10, 0x44, 0x24, 0x04, 0xF3, 0x0F, 0x10, 0x0D, 0x2A, 0x2A, 0x2A, 0x2A,
      0x0F, 0x2F, 0xC1, 0x76, 0x10] 19
  | ⟨.windows, .l4d2⟩ =>
    .pattern [0x55, 0x8B, 0xEC, 0xF3, 0x0F, 0x10, 0x45, 0x08, 0xF3, 0x0F, 0x10, 0x0D, 0x2A, 0x2A,
      0x2A, 0x2A, 0x0F, 0x2F, 0xC1, 0x76] 20

/-- `CNETCHAN_PATCH_OFFSET`. -/
def CNETCHAN_PATCH_OFFSET : Build → ℕ
  | ⟨.linux, .l4d1⟩ => 0x20
  | ⟨.linux, .l4d2⟩ => 0x18
  | ⟨.windows, .l4d1⟩ => 6
  | ⟨.windows, .l4d2⟩ => 8

/-- `CNETCHAN_PATCH_CHECK_BYTE`. -/
def CNETCHAN_PATCH_CHECK_BYTE : Build → Byte
  | ⟨.linux, .l4d1⟩ => JA_8_OPCODE
  | ⟨.linux, .l4d2⟩ => JB_8_OPCODE
  | ⟨.windows, _⟩ => 0xF3

/-- `CNETCHAN_PATCH_JUMP_OFFSET`, on Windows. -/
def CNETCHAN_PATCH_JUMP_OFFSET : Game → Byte
  | .l4d1 => 0x1B
  | .l4d2 => 0x1C

/-- `SIG_CGAMECLIENT_SETDATARATE`. -/
def SIG_CGAMECLIENT_SETDATARATE : Build → Lookup
  | ⟨.linux, _⟩ => .symbol (ascii "_ZN11CGameClient7SetRateEib")
  | ⟨.windows, .l4d1⟩ =>
    .pattern [0xA1, 0x2A, 0x2A, 0x2A, 0x2A, 0x8B, 0x40, 0x30, 0x85, 0xC0, 0x7E, 0x0C, 0x8B] 13
  | ⟨.windows, .l4d2⟩ =>
    .pattern [0x55, 0x8B, 0xEC, 0xA1, 0x2A, 0x2A, 0x2A, 0x2A, 0x8B, 0x40, 0x30, 0x85, 0xC0, 0x7E,
      0x0B] 15

/-- `CGAMECLIENT_PATCH_OFFSET`. -/
def CGAMECLIENT_PATCH_OFFSET : Build → ℕ
  | ⟨.linux, _⟩ => 0x4E
  | ⟨.windows, .l4d1⟩ => 0x2F
  | ⟨.windows, .l4d2⟩ => 0x30

/-- `CGAMECLIENT_PATCH_CHECK_BYTE`. -/
def CGAMECLIENT_PATCH_CHECK_BYTE : Platform → Byte
  | .linux => MOV_R32_IMM32_OPCODE
  | .windows => 0x3D

/-- `CGAMECLIENT_PATCH_JUMP_OFFSET`, on Windows. -/
def CGAMECLIENT_PATCH_JUMP_OFFSET : Game → Byte
  | .l4d1 => 0x0B
  | .l4d2 => 0x0C

/-- `SIG_CLAMPCLIENTRATE`. -/
def SIG_CLAMPCLIENTRATE : Platform → Lookup
  | .linux => .symbol (ascii "_Z15ClampClientRatei")
  | .windows =>
    .pattern [0x55, 0x8B, 0xEC, 0x8B, 0x45, 0x08, 0x53, 0x8B, 0x5D, 0x0C, 0x84, 0xDB, 0x75] 13

/-- `CLAMPCLIENTRATE_PATCH_OFFSET`, on Linux. -/
def CLAMPCLIENTRATE_PATCH_OFFSET_LINUX : Game → ℕ
  | .l4d1 => 0x42
  | .l4d2 => 0x38

/-- `CLAMPCLIENTRATE_PATCH_OFFSET`, for `L4D2` on Windows. -/
def CLAMPCLIENTRATE_PATCH_OFFSET_WIN32 : ℕ :=
  0x34

/-- `CLAMPCLIENTRATE_PATCH_CHECK_BYTE`. -/
def CLAMPCLIENTRATE_PATCH_CHECK_BYTE : Platform → Byte
  | .linux => MOV_R32_IMM32_OPCODE
  | .windows => 0x3D

/-- `CLAMPCLIENTRATE_PATCH_JUMP_OFFSET`, on Windows. -/
def CLAMPCLIENTRATE_PATCH_JUMP_OFFSET : Byte :=
  0x16

end TickrateEnabler
