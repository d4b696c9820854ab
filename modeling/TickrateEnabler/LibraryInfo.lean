import TickrateEnabler.FindPattern
import TickrateEnabler.ResolveSymbol
import TickrateEnabler.Sigs
import Mathlib.Order.Bounds.Basic

/-!
# Libraries in memory

`MemoryUtils::GetLibraryInfo` finds the image of a library in memory and how much of it
to search : on Windows from its PE headers, on Linux from its ELF header and the first
executable segment. `FindLibPattern` searches a pattern there. The services of the
operating system that they and `SimpleResolve` use are those of an `OperatingSystem`.
-/

namespace TickrateEnabler

/-- `Dl_info`. -/
structure DlInfo where
  dli_fname : Option Name
  dli_fbase : ℕ

/-- `DynLibInfo`. -/
structure DynLibInfo where
  baseAddress : ℕ
  memorySize : ℕ
  deriving DecidableEq

/-- What the plugin asks of the operating system. -/
structure OperatingSystem where
  /-- `dladdr`, or nothing when it fails. -/
  dladdr : ℕ → Option DlInfo
  /-- `dlopen`, with the `link_map` behind the handle. -/
  dlopen : Option Name → Option Library
  /-- `VirtualQuery`, as the `AllocationBase`. -/
  virtualQuery : ℕ → Option ℕ
  /-- What the `n`-th `ResolveSymbol` meets. -/
  system : ℕ → System

/-- The half word at `a`. -/
def u16 (mem : ℕ → Byte) (a : ℕ) : BitVec 16 :=
  mem (a + 1) ++ mem a

/-- The word at `a`. -/
def u32 (mem : ℕ → Byte) (a : ℕ) : BitVec 32 :=
  mem (a + 3) ++ mem (a + 2) ++ mem (a + 1) ++ mem a

/-! ## PE images -/

/-- `IMAGE_DOS_SIGNATURE`. -/
def IMAGE_DOS_SIGNATURE : BitVec 16 :=
  0x5A4D

/-- `IMAGE_NT_SIGNATURE`. -/
def IMAGE_NT_SIGNATURE : BitVec 32 :=
  0x00004550

/-- `IMAGE_NT_OPTIONAL_HDR32_MAGIC`. -/
def IMAGE_NT_OPTIONAL_HDR32_MAGIC : BitVec 16 :=
  0x10B

/-- `IMAGE_FILE_MACHINE_I386`. -/
def IMAGE_FILE_MACHINE_I386 : BitVec 16 :=
  0x014C

/-- `IMAGE_FILE_DLL`. -/
def IMAGE_FILE_DLL : BitVec 16 :=
  0x2000

/-- The headers at `baseAddr`, with `pe` at `e_lfanew`, the file header 4 and the optional
header 24 bytes behind. -/
def peLibraryInfo (mem : ℕ → Byte) (baseAddr : ℕ) : Option DynLibInfo :=
  let pe := (baseAddr + (u32 mem (baseAddr + 0x3C)).toNat) % 2 ^ 32
  let file := pe + 4
  let opt := pe + 24
  if u16 mem baseAddr ≠ IMAGE_DOS_SIGNATURE ∨ u32 mem pe ≠ IMAGE_NT_SIGNATURE ∨
      u16 mem opt ≠ IMAGE_NT_OPTIONAL_HDR32_MAGIC then none
  else if u16 mem file ≠ IMAGE_FILE_MACHINE_I386 then none
  else if u16 mem (file + 18) &&& IMAGE_FILE_DLL = 0 then none
  else some ⟨baseAddr, (u32 mem (opt + 56)).toNat⟩

/-! ## ELF images -/

/-- `ELFMAG`. -/
def ELFMAG : Fin 4 → Byte :=
  ![0x7F, 0x45, 0x4C, 0x46]

/-- `EV_CURRENT`. -/
def EV_CURRENT : Byte :=
  1

/-- `ELFCLASS32`. -/
def ELFCLASS32 : Byte :=
  1

/-- `ELFDATA2LSB`. -/
def ELFDATA2LSB : Byte :=
  1

/-- `EM_386`. -/
def EM_386 : BitVec 16 :=
  3

/-- `ET_DYN`. -/
def ET_DYN : BitVec 16 :=
  3

/-- `PT_LOAD`. -/
def PT_LOAD : BitVec 32 :=
  1

/-- `PF_X|PF_R`. -/
def PF_X_PF_R : BitVec 32 :=
  5

/-- `PAGE_ALIGN_UP(x)`. -/
def PAGE_ALIGN_UP (x : BitVec 32) : BitVec 32 :=
  (x + (4096 - 1)) &&& ~~~(4096 - 1)

/-- The loop over the program headers, with `n` of them from `phdr` on left. -/
def segmentSize (mem : ℕ → Byte) : ℕ → ℕ → ℕ
  | 0, _ => 0
  | n + 1, phdr =>
    if u32 mem phdr = PT_LOAD ∧ u32 mem (phdr + 24) = PF_X_PF_R then
      (PAGE_ALIGN_UP (u32 mem (phdr + 16))).toNat
    else segmentSize mem n (phdr + 32)

/-- The header at `baseAddr`, with `e_ident` at its start. -/
def elfLibraryInfo (mem : ℕ → Byte) (baseAddr : ℕ) : Option DynLibInfo :=
  let phdr := (baseAddr + (u32 mem (baseAddr + 28)).toNat) % 2 ^ 32
  if Memory.load mem baseAddr 4 ≠ ELFMAG then none
  else if mem (baseAddr + 6) ≠ EV_CURRENT then none
  else if mem (baseAddr + 4) ≠ ELFCLASS32 ∨ u16 mem (baseAddr + 18) ≠ EM_386 ∨
      mem (baseAddr + 5) ≠ ELFDATA2LSB then none
  else if u16 mem (baseAddr + 16) ≠ ET_DYN then none
  else some ⟨baseAddr, segmentSize mem (u16 mem (baseAddr + 44)).toNat phdr⟩

/-! ## Searching a library -/

namespace OperatingSystem

/-- `GetLibraryInfo`, on a `DynLibInfo` of zeros. -/
def getLibraryInfo (os : OperatingSystem) (p : Platform) (mem : ℕ → Byte) (libPtr : ℕ) :
    Option DynLibInfo :=
  if libPtr = 0 then none
  else
    match p with
    | .windows => (os.virtualQuery libPtr).bind (peLibraryInfo mem)
    | .linux =>
      match os.dladdr libPtr with
      | none => none
      | some info =>
        if info.dli_fbase = 0 ∨ info.dli_fname = none then none
        else elfLibraryInfo mem info.dli_fbase

/-- `FindLibPattern`. -/
def findLibPattern (os : OperatingSystem) (p : Platform) (mem : ℕ → Byte) (libPtr : ℕ)
    (pattern : List Byte) : ℕ :=
  match os.getLibraryInfo p mem libPtr with
  | none => 0
  | some lib =>
    (findPattern mem lib.baseAddress (lib.baseAddress + lib.memorySize) pattern).1.getD 0

end OperatingSystem

/-- `FindPattern` returns the least match, and `NULL` exactly when there is none. What
`FindLibPattern` finds is the least match in the image of the library. -/
theorem findPattern_least (mem : ℕ → Byte) (start stop : ℕ) (pattern : List Byte) :
    (∀ p, (findPattern mem start stop pattern).1 = some p ↔
        IsLeast {q | start ≤ q ∧ q < stop ∧ Matches mem q pattern} p) ∧
      ((findPattern mem start stop pattern).1 = none ↔
        ∀ q, start ≤ q → q < stop → ¬Matches mem q pattern) ∧
      ∀ (os : OperatingSystem) (platform : Platform) (libPtr : ℕ),
        os.findLibPattern platform mem libPtr pattern ≠ 0 →
          ∃ lib, os.getLibraryInfo platform mem libPtr = some lib ∧
            IsLeast {q | lib.baseAddress ≤ q ∧ q < lib.baseAddress + lib.memorySize ∧
              Matches mem q pattern} (os.findLibPattern platform mem libPtr pattern) := by
  have hleast (start stop p : ℕ) : (findPattern mem start stop pattern).1 = some p ↔
      IsLeast {q | start ≤ q ∧ q < stop ∧ Matches mem q pattern} p := by
    rw [findPattern_eq_some_iff]
    refine and_congr_right fun hp => ⟨fun h q hq => ?_, fun h q hle hlt hm => ?_⟩
    · by_contra hlt
      exact h q hq.1 (Nat.lt_of_not_le hlt) hq.2.2
    · exact Nat.not_le_of_lt hlt (h ⟨hle, hlt.trans hp.2.1, hm⟩)
  refine ⟨hleast start stop, findPattern_eq_none_iff, fun os platform libPtr h0 => ?_⟩
  unfold OperatingSystem.findLibPattern at h0 ⊢
  cases hlib : os.getLibraryInfo platform mem libPtr with
  | none =>
    rw [hlib] at h0
    exact (h0 rfl).elim
  | some lib =>
    rw [hlib] at h0
    refine ⟨lib, rfl, (hleast _ _ _).1 ?_⟩
    dsimp only at h0 ⊢
    cases hfound : (findPattern mem lib.baseAddress (lib.baseAddress + lib.memorySize)
        pattern).1 with
    | none =>
      rw [hfound] at h0
      exact (h0 rfl).elim
    | some p => rfl

/-! ## The code segment -/

/-- The bits inside and outside a mask. -/
theorem and_add_and_not (x mask : BitVec 32) : (x &&& mask) + (x &&& ~~~mask) = x := by
  rw [BitVec.add_eq_or_of_and_eq_zero]
  · ext i hi
    cases hm : mask[i] <;> simp [hm]
  · ext i hi
    cases hm : mask[i] <;> simp [hm]

/-- `PAGE_ALIGN_UP` rounds up to a multiple of the page size, and wraps. -/
theorem toNat_PAGE_ALIGN_UP (x : BitVec 32) :
    (PAGE_ALIGN_UP x).toNat = (x.toNat + 4095) % 2 ^ 32 / 4096 * 4096 := by
  have hround (y : BitVec 32) : (y &&& ~~~(4096 - 1)).toNat = y.toNat / 4096 * 4096 := by
    have hlow : (y &&& (4096 - 1)).toNat = y.toNat % 4096 := by
      rw [BitVec.toNat_and]
      exact Nat.and_two_pow_sub_one_eq_mod y.toNat 12
    have hle : (y &&& ~~~(4096 - 1)).toNat ≤ y.toNat := by
      rw [BitVec.toNat_and]
      exact Nat.and_le_left
    have hsum := congrArg BitVec.toNat (and_add_and_not y (4096 - 1))
    rw [BitVec.toNat_add, hlow] at hsum
    omega
  rw [PAGE_ALIGN_UP, hround, BitVec.toNat_add]
  rfl

/-- The program header `hdr` is one the loop looks for. -/
def IsCode (mem : ℕ → Byte) (hdr : ℕ) : Prop :=
  u32 mem hdr = PT_LOAD ∧ u32 mem (hdr + 24) = PF_X_PF_R

instance (mem : ℕ → Byte) (hdr : ℕ) : Decidable (IsCode mem hdr) :=
  inferInstanceAs (Decidable (_ ∧ _))

/-- `phdr[i]` of the image at `baseAddr`. -/
def programHeader (mem : ℕ → Byte) (baseAddr i : ℕ) : ℕ :=
  (baseAddr + (u32 mem (baseAddr + 28)).toNat) % 2 ^ 32 + 32 * i

/-- `hdr` is the first header of executable code in the image at `baseAddr`. -/
def FirstCode (mem : ℕ → Byte) (baseAddr hdr : ℕ) : Prop :=
  ∃ i < (u16 mem (baseAddr + 44)).toNat, hdr = programHeader mem baseAddr i ∧
    IsCode mem hdr ∧ ∀ j < i, ¬IsCode mem (programHeader mem baseAddr j)

/-- The loop takes the size of the first segment of code. -/
theorem segmentSize_of_first {mem : ℕ → Byte} {n phdr i : ℕ} (hi : i < n)
    (hcode : IsCode mem (phdr + 32 * i)) (hfirst : ∀ j < i, ¬IsCode mem (phdr + 32 * j)) :
    segmentSize mem n phdr = (PAGE_ALIGN_UP (u32 mem (phdr + 32 * i + 16))).toNat := by
  induction n generalizing phdr i with
  | zero => exact absurd hi (Nat.not_lt_zero i)
  | succ n ih =>
    rw [segmentSize]
    cases i with
    | zero => exact if_pos hcode
    | succ i =>
      have hstep (j : ℕ) : phdr + 32 * (j + 1) = phdr + 32 + 32 * j := by omega
      have hphdr : ¬IsCode mem phdr := hfirst 0 (Nat.succ_pos i)
      rw [hstep] at hcode ⊢
      refine (if_neg hphdr).trans (ih (Nat.lt_of_succ_lt_succ hi) hcode fun j hj => ?_)
      rw [← hstep]
      exact hfirst (j + 1) (Nat.succ_lt_succ hj)

namespace OperatingSystem

variable {os : OperatingSystem} {mem : ℕ → Byte} {libPtr hdr : ℕ} {lib : DynLibInfo}

/-- The image of a library is not at `NULL`, and its size is that of its code segment. -/
theorem memorySize_of_firstCode (hlib : os.getLibraryInfo .linux mem libPtr = some lib)
    (hhdr : FirstCode mem lib.baseAddress hdr) :
    lib.baseAddress ≠ 0 ∧ lib.memorySize = (PAGE_ALIGN_UP (u32 mem (hdr + 16))).toNat := by
  obtain ⟨i, hi, rfl, hcode, hfirst⟩ := hhdr
  unfold getLibraryInfo at hlib
  dsimp only at hlib
  split_ifs at hlib
  split at hlib
  · exact absurd hlib (by simp)
  split_ifs at hlib with hinfo
  unfold elfLibraryInfo at hlib
  dsimp only at hlib
  split_ifs at hlib
  obtain rfl := Option.some.inj hlib
  exact ⟨fun h0 => hinfo (Or.inl h0), segmentSize_of_first hi hcode hfirst⟩

/-- The range that was returned has every byte of the segment of `hdr`, and a search of it
does not miss what matches there. -/
structure CoversCode (os : OperatingSystem) (mem : ℕ → Byte) (libPtr : ℕ) (lib : DynLibInfo)
    (hdr : ℕ) : Prop where
  covers : ∀ a, lib.baseAddress + (u32 mem (hdr + 8)).toNat ≤ a →
    a < lib.baseAddress + (u32 mem (hdr + 8)).toNat + (u32 mem (hdr + 16)).toNat →
      lib.baseAddress ≤ a ∧ a < lib.baseAddress + lib.memorySize
  finds : lib.baseAddress + lib.memorySize < 2 ^ 32 → ∀ pattern a,
    lib.baseAddress + (u32 mem (hdr + 8)).toNat ≤ a →
      a < lib.baseAddress + (u32 mem (hdr + 8)).toNat + (u32 mem (hdr + 16)).toNat →
        Matches mem a pattern →
          os.findLibPattern .linux mem libPtr pattern ≠ 0 ∧
            os.findLibPattern .linux mem libPtr pattern ≤ a

/-- A match in the image is found, or one below it. -/
theorem findLibPattern_le {platform : Platform} {pattern : List Byte} {a : ℕ}
    (hlib : os.getLibraryInfo platform mem libPtr = some lib) (hbase : lib.baseAddress ≠ 0)
    (hle : lib.baseAddress ≤ a) (hlt : a < lib.baseAddress + lib.memorySize)
    (hm : Matches mem a pattern) :
    os.findLibPattern platform mem libPtr pattern ≠ 0 ∧
      os.findLibPattern platform mem libPtr pattern ≤ a := by
  cases hfound : (findPattern mem lib.baseAddress (lib.baseAddress + lib.memorySize)
      pattern).1 with
  | none => exact (findPattern_eq_none_iff.1 hfound a hle hlt hm).elim
  | some p =>
    have hp : os.findLibPattern platform mem libPtr pattern = p := by
      rw [findLibPattern, hlib]
      simp only [hfound, Option.getD_some]
    obtain ⟨⟨hle', -, -⟩, hmin⟩ := findPattern_eq_some_iff.1 hfound
    rw [hp]
    refine ⟨fun h0 => hbase (Nat.le_zero.1 (hle'.trans_eq h0)), ?_⟩
    by_contra hap
    exact hmin a hle (Nat.lt_of_not_le hap) hm

end OperatingSystem

/-- The range `GetLibraryInfo` returns on Linux has the first code segment exactly when the
segment is empty, or its size can be rounded up and it starts no further into the image
than the rounding adds. -/
theorem coversCode_iff {os : OperatingSystem} {mem : ℕ → Byte} {libPtr hdr : ℕ}
    {lib : DynLibInfo} (hlib : os.getLibraryInfo .linux mem libPtr = some lib)
    (hhdr : FirstCode mem lib.baseAddress hdr) :
    let p_vaddr := (u32 mem (hdr + 8)).toNat
    let p_filesz := (u32 mem (hdr + 16)).toNat
    os.CoversCode mem libPtr lib hdr ↔
      p_filesz = 0 ∨
        p_filesz ≤ 2 ^ 32 - 4096 ∧ p_vaddr ≤ (4096 - p_filesz % 4096) % 4096 := by
  intro p_vaddr p_filesz
  obtain ⟨hbase, hsize⟩ := OperatingSystem.memorySize_of_firstCode hlib hhdr
  rw [toNat_PAGE_ALIGN_UP] at hsize
  have hlt : p_filesz < 2 ^ 32 := BitVec.isLt _
  have hfits : p_filesz = 0 ∨ p_vaddr + p_filesz ≤ lib.memorySize ↔
      p_filesz = 0 ∨
        p_filesz ≤ 2 ^ 32 - 4096 ∧ p_vaddr ≤ (4096 - p_filesz % 4096) % 4096 := by
    rw [hsize]
    change _ ∨ _ ≤ (p_filesz + 4095) % 2 ^ 32 / 4096 * 4096 ↔ _
    omega
  rw [← hfits]
  constructor
  · intro h
    rcases Nat.eq_zero_or_pos p_filesz with h0 | hpos
    · exact Or.inl h0
    · have hlast := h.covers (lib.baseAddress + p_vaddr + (p_filesz - 1)) (Nat.le_add_right _ _)
        (Nat.add_lt_add_left (Nat.sub_lt hpos Nat.one_pos) _)
      exact Or.inr (by omega)
  · intro h
    have hcovers : ∀ a, lib.baseAddress + p_vaddr ≤ a →
        a < lib.baseAddress + p_vaddr + p_filesz →
          lib.baseAddress ≤ a ∧ a < lib.baseAddress + lib.memorySize := by
      intro a hle hlt
      omega
    refine ⟨hcovers, fun _ pattern a hle hlt hm => ?_⟩
    obtain ⟨hle, hlt⟩ := hcovers a hle hlt
    exact OperatingSystem.findLibPattern_le hlib hbase hle hlt hm

/-- An image at `0x1000` with one program header, of `p_filesz` bytes of code at `p_vaddr`. -/
def codeImage (p_vaddr p_filesz : BitVec 32) : ℕ → Byte := fun a =>
  ([0x7F, 0x45, 0x4C, 0x46, 1, 1, 1, 0, 0, 0, 0, 0, 0, 0, 0, 0, 3, 0, 3, 0, 1, 0, 0, 0, 0, 0, 0, 0,
    52, 0, 0, 0, 0, 0, 0, 0, 0, 0, 0, 0, 52, 0, 32, 0, 1, 0, 40, 0, 0, 0, 0, 0,
    1, 0, 0, 0, 0, 0, 0, 0, p_vaddr.extractLsb' 0 8, p_vaddr.extractLsb' 8 8,
    p_vaddr.extractLsb' 16 8, p_vaddr.extractLsb' 24 8, 0, 0, 0, 0, p_filesz.extractLsb' 0 8,
    p_filesz.extractLsb' 8 8, p_filesz.extractLsb' 16 8, p_filesz.extractLsb' 24 8,
    0, 0, 0, 0, 5, 0, 0, 0, 0, 0x10, 0, 0] : List Byte).getD (a - 0x1000) 0

/-- A system with one library, at `0x1000`. -/
def oneLibrary : OperatingSystem where
  dladdr := fun _ => some ⟨some [], 0x1000⟩
  dlopen := fun _ => none
  virtualQuery := fun _ => none
  system := fun _ => ⟨true, fun _ => true⟩

/-- Code at the start of the image is covered. -/
theorem coversCode_at_start :
    oneLibrary.CoversCode (codeImage 0 0x1234) 0x1500 ⟨0x1000, 0x2000⟩ 0x1034 :=
  (coversCode_iff (by decide) ⟨0, by decide, by decide, by decide, by decide⟩).2
    (Or.inr (by decide))

/-- Code one page into the image is not : the range ends where the segment starts. -/
theorem not_coversCode_second_page :
    oneLibrary.getLibraryInfo .linux (codeImage 0x1000 0x1000) 0x1500 = some ⟨0x1000, 0x1000⟩ ∧
      FirstCode (codeImage 0x1000 0x1000) 0x1000 0x1034 ∧
      ¬oneLibrary.CoversCode (codeImage 0x1000 0x1000) 0x1500 ⟨0x1000, 0x1000⟩ 0x1034 := by
  refine ⟨by decide, ⟨0, by decide, by decide, by decide, by decide⟩, fun h => ?_⟩
  have hlt := (h.covers 0x2000 (by decide) (by decide)).2
  exact absurd hlt (by decide)

end TickrateEnabler
