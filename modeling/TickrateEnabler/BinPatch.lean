import TickrateEnabler.Memory
import TickrateEnabler.Transition

/-!
# Binary patches

`BasicBinPatch` and `BasicStaticBinPatch` (`basicbinpatch.h`) save the bytes of a
target and write a replacement over them. The first keeps saved bytes and replacement
in the halves of one heap buffer, the second in two member arrays;
`BasicBinPatch.toStatic` reads the halves and commutes with `patch` and `unpatch`.

`World` is the code memory with the protection requests and writes made so far.
-/

namespace TickrateEnabler

open Memory Transition

/-- `BYTE`. -/
abbrev Byte := BitVec 8

/-- What the plugin does to code memory. -/
inductive Event where
  /-- `MemoryUtils::SetMemPatchable(pAddr, nSize)` : read, write and execute. -/
  | setMemPatchable (pAddr nSize : ℕ)
  /-- `memcpy` of `size` bytes to `dest`. -/
  | memcpy (dest size : ℕ)
  deriving DecidableEq

/-- The code memory, with what was done to it so far. -/
structure World where
  mem : ℕ → Byte
  trace : List Event

namespace World

/-- `MemoryUtils::SetMemPatchable`. -/
def setMemPatchable (w : World) (pAddr nSize : ℕ) : World :=
  { w with trace := w.trace ++ [.setMemPatchable pAddr nSize] }

/-- `memcpy` into code memory. -/
def memcpy {n : ℕ} (w : World) (dest : ℕ) (src : Fin n → Byte) : World :=
  { mem := store w.mem dest src, trace := w.trace ++ [.memcpy dest n] }

@[simp] theorem setMemPatchable_mem (w : World) (a n : ℕ) : (w.setMemPatchable a n).mem = w.mem :=
  rfl

@[simp] theorem memcpy_mem {n : ℕ} (w : World) (a : ℕ) (v : Fin n → Byte) :
    (w.memcpy a v).mem = store w.mem a v :=
  rfl

end World

/-! ## The two classes -/

/-- `BasicStaticBinPatch<LENGTH>`. -/
structure BasicStaticBinPatch (LENGTH : ℕ) where
  pTarget : ℕ
  replacement : Fin LENGTH → Byte
  original : Fin LENGTH → Byte
  bFirstTime : Bool
  bPatchTimeCopy : Bool
  bPatched : Bool
  deriving DecidableEq

namespace BasicStaticBinPatch

variable {LENGTH : ℕ}

/-- The constructor. `uninit` is what `m_original` holds before anything is copied. -/
def new (mem : ℕ → Byte) (target : ℕ) (replacement : Fin LENGTH → Byte)
    (uninit : Fin LENGTH → Byte) (patchTimeCopy : Bool) : BasicStaticBinPatch LENGTH where
  pTarget := target
  replacement := replacement
  original := if patchTimeCopy then uninit else load mem target LENGTH
  bFirstTime := true
  bPatchTimeCopy := patchTimeCopy
  bPatched := false

/-- `Patch()`. -/
def patch (p : BasicStaticBinPatch LENGTH) (w : World) : BasicStaticBinPatch LENGTH × World :=
  if p.bPatched then (p, w)
  else
    let w := if p.bFirstTime then w.setMemPatchable p.pTarget LENGTH else w
    let original := if p.bPatchTimeCopy then load w.mem p.pTarget LENGTH else p.original
    ({ p with original := original, bFirstTime := false, bPatched := true },
      w.memcpy p.pTarget p.replacement)

/-- `Unpatch()`. It leaves `bPatched` as it is. -/
def unpatch (p : BasicStaticBinPatch LENGTH) (w : World) : BasicStaticBinPatch LENGTH × World :=
  if !p.bPatched then (p, w) else (p, w.memcpy p.pTarget p.original)

/-- The bytes `patch` saves. -/
def captured (p : BasicStaticBinPatch LENGTH) (mem : ℕ → Byte) : Fin LENGTH → Byte :=
  if p.bPatchTimeCopy then load mem p.pTarget LENGTH else p.original

theorem patch_of_patched {p : BasicStaticBinPatch LENGTH} (h : p.bPatched = true) (w : World) :
    p.patch w = (p, w) :=
  if_pos h

theorem patch_fst {p : BasicStaticBinPatch LENGTH} (h : p.bPatched = false) (w : World) :
    (p.patch w).1 =
      { p with original := p.captured w.mem, bFirstTime := false, bPatched := true } := by
  cases hf : p.bFirstTime <;> simp [patch, captured, h, hf]

theorem patch_mem {p : BasicStaticBinPatch LENGTH} (h : p.bPatched = false) (w : World) :
    (p.patch w).2.mem = store w.mem p.pTarget p.replacement := by
  cases hf : p.bFirstTime <;> simp [patch, h, hf]

@[simp] theorem patch_pTarget (p : BasicStaticBinPatch LENGTH) (w : World) :
    (p.patch w).1.pTarget = p.pTarget := by
  unfold patch
  split <;> rfl

@[simp] theorem patch_replacement (p : BasicStaticBinPatch LENGTH) (w : World) :
    (p.patch w).1.replacement = p.replacement := by
  unfold patch
  split <;> rfl

@[simp] theorem patch_bPatchTimeCopy (p : BasicStaticBinPatch LENGTH) (w : World) :
    (p.patch w).1.bPatchTimeCopy = p.bPatchTimeCopy := by
  unfold patch
  split <;> rfl

@[simp] theorem patch_bPatched (p : BasicStaticBinPatch LENGTH) (w : World) :
    (p.patch w).1.bPatched = true := by
  unfold patch
  split
  · assumption
  · rfl

theorem patch_original {p : BasicStaticBinPatch LENGTH} (h : p.bPatchTimeCopy = false)
    (w : World) : (p.patch w).1.original = p.original := by
  unfold patch
  split
  · rfl
  · simp [h]

theorem unpatch_of_unpatched {p : BasicStaticBinPatch LENGTH} (h : p.bPatched = false)
    (w : World) : p.unpatch w = (p, w) := by
  simp [unpatch, h]

theorem unpatch_of_patched {p : BasicStaticBinPatch LENGTH} (h : p.bPatched = true) (w : World) :
    p.unpatch w = (p, w.memcpy p.pTarget p.original) := by
  simp [unpatch, h]

@[simp] theorem unpatch_fst (p : BasicStaticBinPatch LENGTH) (w : World) :
    (p.unpatch w).1 = p := by
  unfold unpatch
  split <;> rfl

end BasicStaticBinPatch

/-- `BasicBinPatch`. `m_length` is the index, set by the constructor and never changed.
`buf` is the allocation of `length + length` bytes : `m_pOriginal` is its start,
`m_pReplacement` is `length` bytes on. -/
structure BasicBinPatch (length : ℕ) where
  pTarget : ℕ
  buf : Fin (length + length) → Byte
  bFirstTime : Bool
  bPatched : Bool
  bPatchTimeCopy : Bool

namespace BasicBinPatch

variable {length : ℕ}

/-- The bytes at `m_pOriginal`. -/
def original (p : BasicBinPatch length) : Fin length → Byte :=
  slice p.buf 0 length (by omega)

/-- The bytes at `m_pReplacement`. -/
def replacement (p : BasicBinPatch length) : Fin length → Byte :=
  slice p.buf length length le_rfl

/-- The constructor. `uninit` is what the allocation holds at first. -/
def new (mem : ℕ → Byte) (target : ℕ) (replacement : Fin length → Byte)
    (uninit : Fin (length + length) → Byte) (patchTimeCopy : Bool) : BasicBinPatch length where
  pTarget := target
  buf :=
    let buf := blit uninit length replacement
    if patchTimeCopy then buf else blit buf 0 (load mem target length)
  bFirstTime := true
  bPatched := false
  bPatchTimeCopy := patchTimeCopy

/-- `Patch()`. -/
def patch (p : BasicBinPatch length) (w : World) : BasicBinPatch length × World :=
  if p.bPatched then (p, w)
  else
    let w := if p.bFirstTime then w.setMemPatchable p.pTarget length else w
    let p' := if p.bPatchTimeCopy then { p with buf := blit p.buf 0 (load w.mem p.pTarget length) }
      else p
    ({ p' with bFirstTime := false, bPatched := true }, w.memcpy p'.pTarget p'.replacement)

/-- `Unpatch()`. It leaves `bPatched` as it is. -/
def unpatch (p : BasicBinPatch length) (w : World) : BasicBinPatch length × World :=
  if !p.bPatched then (p, w) else (p, w.memcpy p.pTarget p.original)

/-- The patch with the halves of its buffer as two arrays. -/
def toStatic (p : BasicBinPatch length) : BasicStaticBinPatch length where
  pTarget := p.pTarget
  replacement := p.replacement
  original := p.original
  bFirstTime := p.bFirstTime
  bPatchTimeCopy := p.bPatchTimeCopy
  bPatched := p.bPatched

theorem toStatic_new (mem : ℕ → Byte) (target : ℕ) (replacement : Fin length → Byte)
    (uninit : Fin (length + length) → Byte) (patchTimeCopy : Bool) :
    (new mem target replacement uninit patchTimeCopy).toStatic =
      .new mem target replacement (slice uninit 0 length (by omega)) patchTimeCopy := by
  cases patchTimeCopy <;>
    simp [new, toStatic, BasicStaticBinPatch.new, original, BasicBinPatch.replacement,
      slice_blit_of_disjoint]

/-- `Patch()` on the buffer is `Patch()` on the two arrays : saving the original bytes
leaves the replacement half as it is. -/
theorem toStatic_patch (p : BasicBinPatch length) (w : World) :
    (p.patch w).1.toStatic = (p.toStatic.patch w).1 ∧ (p.patch w).2 = (p.toStatic.patch w).2 := by
  cases hp : p.bPatched <;> cases hf : p.bFirstTime <;> cases hc : p.bPatchTimeCopy <;>
    simp [patch, BasicStaticBinPatch.patch, toStatic, original, replacement, hp, hf, hc,
      slice_blit_of_disjoint]

theorem toStatic_unpatch (p : BasicBinPatch length) (w : World) :
    (p.unpatch w).1.toStatic = (p.toStatic.unpatch w).1 ∧
      (p.unpatch w).2 = (p.toStatic.unpatch w).2 := by
  cases hp : p.bPatched <;> simp [unpatch, BasicStaticBinPatch.unpatch, toStatic, hp]

theorem patch_of_patched {p : BasicBinPatch length} (h : p.bPatched = true) (w : World) :
    p.patch w = (p, w) :=
  if_pos h

@[simp] theorem unpatch_fst (p : BasicBinPatch length) (w : World) : (p.unpatch w).1 = p := by
  unfold unpatch
  split <;> rfl

end BasicBinPatch

end TickrateEnabler
