import TickrateEnabler.SystemCalls

/-!
# Images on macOS

`ResolveSymbol` on macOS finds the image of the handle among the loaded ones, follows its load
commands to `__LINKEDIT` and the symbol table (`symbolCommands_eq`), and scans the symbols
in memory. The scan is the one of the other platforms, on the symbols of the image
(`resolveMac_eq`). So over any run every handle is closed, and as long as the images at an
address have the same symbols the tables give the answers of fresh scans (`runMac_eq`).
`GetLibraryInfo` adds up the segments of an image, which is its range when they leave no gap
(`machLibraryInfo_covers_iff`).
-/

namespace TickrateEnabler

open Transition

/-! ## Load commands -/

/-- `LC_SEGMENT`. -/
def LC_SEGMENT : BitVec 32 :=
  1

/-- `LC_SYMTAB`. -/
def LC_SYMTAB : BitVec 32 :=
  2

/-- The load command behind the one at a pointer : they are not of a fixed size. -/
def nextCommand (mem : ℕ → Byte) (loadcmds : ℕ) : ℕ :=
  (loadcmds + (u32 mem (loadcmds + 4)).toNat) % 2 ^ 32

/-- `strcmp(seg->segname, "__LINKEDIT") == 0`. -/
def segnameIsLinkedit (mem : ℕ → Byte) (seg : ℕ) : Bool :=
  (List.range 11).map (fun i => mem (seg + 8 + i)) = ascii "__LINKEDIT" ++ [0]

/-- `linkedit_hdr` and `symtab_hdr`, as far as they were found. -/
structure SymbolCommands where
  linkedit_hdr : Option ℕ
  symtab_hdr : Option ℕ

/-- The loop over the load commands, `n` of them left. -/
def loadCommandLoop (mem : ℕ → Byte) : ℕ → ℕ → SymbolCommands → SymbolCommands
  | 0, _, h => h
  | n + 1, loadcmds, h =>
    if u32 mem loadcmds = LC_SEGMENT ∧ h.linkedit_hdr = none then
      if segnameIsLinkedit mem loadcmds then
        if h.symtab_hdr.isSome then { h with linkedit_hdr := some loadcmds }
        else loadCommandLoop mem n (nextCommand mem loadcmds)
          { h with linkedit_hdr := some loadcmds }
      else loadCommandLoop mem n (nextCommand mem loadcmds) h
    else if u32 mem loadcmds = LC_SYMTAB then
      if h.linkedit_hdr.isSome then { h with symtab_hdr := some loadcmds }
      else loadCommandLoop mem n (nextCommand mem loadcmds) { h with symtab_hdr := some loadcmds }
    else loadCommandLoop mem n (nextCommand mem loadcmds) h

/-- The first `n` load commands from a pointer on. -/
def loadCommands (mem : ℕ → Byte) : ℕ → ℕ → List ℕ
  | 0, _ => []
  | n + 1, loadcmds => loadcmds :: loadCommands mem n (nextCommand mem loadcmds)

/-- The load command is a segment `__LINKEDIT`. -/
def isLinkedit (mem : ℕ → Byte) (loadcmds : ℕ) : Bool :=
  u32 mem loadcmds = LC_SEGMENT ∧ segnameIsLinkedit mem loadcmds

/-- The load command is a symbol table. -/
def isSymtab (mem : ℕ → Byte) (loadcmds : ℕ) : Bool :=
  u32 mem loadcmds = LC_SYMTAB

/-- The last symbol table before the first `__LINKEDIT`, or else the first one behind it. -/
def nearestSymtab (mem : ℕ → Byte) (cmds : List ℕ) : Option ℕ :=
  ((cmds.takeWhile fun p => !isLinkedit mem p).filter (isSymtab mem)).getLast?.or
    ((cmds.dropWhile fun p => !isLinkedit mem p).find? (isSymtab mem))

section Loop

variable {mem : ℕ → Byte}

theorem not_isSymtab_of_isLinkedit {p : ℕ} (h : isLinkedit mem p = true) :
    isSymtab mem p = false := by
  have hseg : u32 mem p = LC_SEGMENT := (of_decide_eq_true h).1
  rw [isSymtab, hseg]
  decide

/-- With `__LINKEDIT` found the loop looks for the next symbol table. -/
theorem loadCommandLoop_of_linkedit (n p q : ℕ) :
    loadCommandLoop mem n p ⟨some q, none⟩ =
      ⟨some q, (loadCommands mem n p).find? (isSymtab mem)⟩ := by
  induction n generalizing p with
  | zero => rfl
  | succ n ih =>
    rw [loadCommandLoop, if_neg (by simp), loadCommands]
    by_cases hs : u32 mem p = LC_SYMTAB
    · have hs' : isSymtab mem p = true := decide_eq_true hs
      rw [if_pos hs, List.find?_cons_of_pos hs']
      rfl
    · have hs' : ¬isSymtab mem p = true := fun h => hs (of_decide_eq_true h)
      rw [if_neg hs, ih, List.find?_cons_of_neg hs']

/-- Before `__LINKEDIT` is found the loop keeps the last symbol table. -/
theorem loadCommandLoop_of_none (n p : ℕ) (last : Option ℕ) :
    loadCommandLoop mem n p ⟨none, last⟩ =
      ⟨(loadCommands mem n p).find? (isLinkedit mem),
        (((loadCommands mem n p).takeWhile fun p => !isLinkedit mem p).filter
          (isSymtab mem)).getLast?.or (last.or
            (((loadCommands mem n p).dropWhile fun p => !isLinkedit mem p).find?
              (isSymtab mem)))⟩ := by
  induction n generalizing p last with
  | zero => simp [loadCommandLoop, loadCommands]
  | succ n ih =>
    rw [loadCommands]
    cases hl : isLinkedit mem p with
    | true =>
      obtain ⟨hseg, hname⟩ := of_decide_eq_true hl
      have hs := not_isSymtab_of_isLinkedit hl
      rw [loadCommandLoop, if_pos ⟨hseg, rfl⟩, if_pos hname]
      cases last with
      | some q => simp [hl]
      | none => simp [hl, hs, loadCommandLoop_of_linkedit]
    | false =>
      by_cases hs : u32 mem p = LC_SYMTAB
      · have hseg : u32 mem p ≠ LC_SEGMENT := by
          rw [hs]
          decide
        have hs' : isSymtab mem p = true := decide_eq_true hs
        rw [loadCommandLoop, if_neg fun h => hseg h.1, if_pos hs]
        simp [hl, hs', ih, List.getLast?_cons]
      · have hs' : isSymtab mem p = false := decide_eq_false hs
        have hskip : loadCommandLoop mem (n + 1) p ⟨none, last⟩ =
            loadCommandLoop mem n (nextCommand mem p) ⟨none, last⟩ := by
          rw [loadCommandLoop, if_neg hs]
          split_ifs with hseg hname
          · exact absurd (hl.symm.trans (decide_eq_true ⟨hseg.1, hname⟩)) (by decide)
          · exact absurd (hl.symm.trans (decide_eq_true ⟨hseg.1, hname⟩)) (by decide)
          · rfl
          · rfl
        rw [hskip, ih]
        simp [hl, hs']

end Loop

/-- The commands of the image at `file` : the header is 28 bytes, with `ncmds` at 16. -/
def commands (mem : ℕ → Byte) (file : ℕ) : List ℕ :=
  loadCommands mem (u32 mem (file + 16)).toNat ((file + 28) % 2 ^ 32)

/-- `linkedit_hdr` and `symtab_hdr` of the image. -/
def symbolCommands (mem : ℕ → Byte) (dlbase : BitVec 32) : SymbolCommands :=
  loadCommandLoop mem (u32 mem (dlbase.toNat + 16)).toNat ((dlbase.toNat + 28) % 2 ^ 32)
    ⟨none, none⟩

/-- The loop finds the first `__LINKEDIT` and the symbol table nearest to it. -/
theorem symbolCommands_eq (mem : ℕ → Byte) (dlbase : BitVec 32) :
    symbolCommands mem dlbase = ⟨(commands mem dlbase.toNat).find? (isLinkedit mem),
      nearestSymtab mem (commands mem dlbase.toNat)⟩ :=
  loadCommandLoop_of_none _ _ none

/-! ## Symbols -/

/-- `NO_SECT`. -/
def NO_SECT : Byte :=
  0

/-- The string at a pointer, of at most `n` bytes. -/
def cstringAt (mem : ℕ → Byte) : ℕ → ℕ → Name
  | 0, _ => []
  | n + 1, p => if mem p = 0 then [] else mem p :: cstringAt mem n ((p + 1) % 2 ^ 32)

/-- `struct nlist`, with the name behind its underscore. -/
structure Nlist where
  name : Name
  n_sect : Byte
  n_value : BitVec 32

/-- `symtab[i]`, with its name in `strtab`. -/
def nlistAt (mem : ℕ → Byte) (symtab strtab : BitVec 32) (i : ℕ) : Nlist :=
  let sym := (symtab.toNat + 12 * i) % 2 ^ 32
  { name := cstringAt mem (2 ^ 32) (strtab + u32 mem sym + 1).toNat
    n_sect := mem (sym + 5)
    n_value := u32 mem (sym + 8) }

/-- The loop over the symbols from `i` on, `n` of them. -/
def nlistLoop (mem : ℕ → Byte) (dlbase : BitVec 32) (symbol : Name) (allocated : ℕ → Bool)
    (symtab strtab : BitVec 32) : ℕ → ℕ → LibSymbolTable → Option Symbol × LibSymbolTable
  | 0, _, libtable => (none, libtable)
  | n + 1, i, libtable =>
    let sym := nlistAt mem symtab strtab i
    if sym.n_sect = NO_SECT then
      nlistLoop mem dlbase symbol allocated symtab strtab n (i + 1) libtable
    else
      let r := libtable.table.internSymbol sym.name sym.name.length (dlbase + sym.n_value)
        (allocated i)
      if symbol = sym.name then (some r.1, { libtable with table := r.2, last_pos := i + 1 })
      else nlistLoop mem dlbase symbol allocated symtab strtab n (i + 1)
        { libtable with table := r.2 }

/-- A pointer into the file of the image, `offset` being `symoff` or `stroff`. -/
def linkeditPointer (mem : ℕ → Byte) (dlbase : BitVec 32) (linkedit_hdr : ℕ)
    (offset : BitVec 32) : BitVec 32 :=
  dlbase + u32 mem (linkedit_hdr + 24) + offset - u32 mem (linkedit_hdr + 32)

/-- `symtab`, `strtab` and `symbol_count` of the image, when it has a symbol table. -/
def symbolTables (mem : ℕ → Byte) (dlbase : BitVec 32) : Option (BitVec 32 × BitVec 32 × ℕ) :=
  match symbolCommands mem dlbase with
  | ⟨some linkedit_hdr, some symtab_hdr⟩ =>
    let symoff := u32 mem (symtab_hdr + 8)
    let stroff := u32 mem (symtab_hdr + 16)
    if symoff = 0 ∨ stroff = 0 then none
    else some (linkeditPointer mem dlbase linkedit_hdr symoff,
      linkeditPointer mem dlbase linkedit_hdr stroff, (u32 mem (symtab_hdr + 12)).toNat)
  | _ => none

/-- `ResolveSymbol` once it has the table of the image. -/
def LibSymbolTable.resolveMac (libtable : LibSymbolTable) (mem : ℕ → Byte) (dlbase : BitVec 32)
    (symbol : Name) (allocated : ℕ → Bool) : BitVec 32 × LibSymbolTable :=
  match libtable.table.findSymbol symbol symbol.length with
  | some symbol_entry => (symbol_entry.address, libtable)
  | none =>
    match symbolTables mem dlbase with
    | none => (0, libtable)
    | some (symtab, strtab, symbol_count) =>
      let r := nlistLoop mem dlbase symbol allocated symtab strtab
        (symbol_count - libtable.last_pos) libtable.last_pos libtable
      ((r.1.map Symbol.address).getD 0, r.2)

/-! ## The same scan -/

/-- The symbol as one of a library : with a section it is taken for a function. -/
def Nlist.toElf (sym : Nlist) : Elf32Sym where
  name := sym.name
  st_value := sym.n_value
  st_info := STT_FUNC
  st_shndx := if sym.n_sect = NO_SECT then SHN_UNDEF else 1

theorem Nlist.toElf_skipped (sym : Nlist) :
    sym.toElf.skipped = true ↔ sym.n_sect = NO_SECT := by
  unfold toElf Elf32Sym.skipped
  by_cases h : sym.n_sect = NO_SECT
  · simp [h]
  · rw [if_neg h]
    refine iff_of_false (fun hskipped => ?_) h
    have hfunc : STT_FUNC &&& 0xf = STT_FUNC := by decide
    rcases of_decide_eq_true hskipped with hndx | hother
    · exact absurd hndx (show (1 : BitVec 16) ≠ SHN_UNDEF by decide)
    · exact hother.1 hfunc

instance : DecidableEq Elf32Sym := fun sym sym' =>
  decidable_of_iff (sym.name = sym'.name ∧ sym.st_value = sym'.st_value ∧
    sym.st_info = sym'.st_info ∧ sym.st_shndx = sym'.st_shndx) (by
      cases sym
      cases sym'
      simp)

/-- The image as a library. -/
def machLibrary (mem : ℕ → Byte) (dlbase : BitVec 32) : Library where
  l_addr := dlbase
  symtab := (symbolTables mem dlbase).map fun t =>
    (List.range t.2.2).map fun i => (nlistAt mem t.1 t.2.1 i).toElf

theorem nlistLoop_eq (mem : ℕ → Byte) (dlbase : BitVec 32) (symbol : Name)
    (allocated : ℕ → Bool) (symtab strtab : BitVec 32) (n i : ℕ) (libtable : LibSymbolTable) :
    nlistLoop mem dlbase symbol allocated symtab strtab n i libtable =
      LibSymbolTable.scan dlbase symbol allocated i
        ((List.range' i n).map fun i => (nlistAt mem symtab strtab i).toElf) libtable := by
  induction n generalizing i libtable with
  | zero => rfl
  | succ n ih =>
    have hskipped := (nlistAt mem symtab strtab i).toElf_skipped
    rw [nlistLoop, List.range'_succ, List.map_cons, LibSymbolTable.scan]
    by_cases hs : (nlistAt mem symtab strtab i).n_sect = NO_SECT
    · rw [if_pos hs, if_pos (hskipped.2 hs)]
      exact ih (i + 1) libtable
    · rw [if_neg hs, if_neg (mt hskipped.1 hs)]
      dsimp only [Nlist.toElf]
      rw [ih (i + 1)]
      rfl

/-- `ResolveSymbol` on an image is that on the library. -/
theorem LibSymbolTable.resolveMac_eq (libtable : LibSymbolTable) (mem : ℕ → Byte)
    (dlbase : BitVec 32) (symbol : Name) (allocated : ℕ → Bool) :
    libtable.resolveMac mem dlbase symbol allocated =
      libtable.resolve (machLibrary mem dlbase) symbol ⟨true, allocated⟩ := by
  unfold resolveMac resolve machLibrary
  cases libtable.table.findSymbol symbol symbol.length with
  | some symbol_entry => rfl
  | none =>
    rcases symbolTables mem dlbase with - | ⟨symtab, strtab, symbol_count⟩
    · rfl
    · have hdrop : ((List.range symbol_count).map fun i =>
          (nlistAt mem symtab strtab i).toElf).drop libtable.last_pos =
          (List.range' libtable.last_pos (symbol_count - libtable.last_pos)).map fun i =>
            (nlistAt mem symtab strtab i).toElf := by
        rw [← List.map_drop, List.range_eq_range', List.drop_range', Nat.mul_one, Nat.zero_add]
      dsimp only [Option.map_some]
      rw [nlistLoop_eq, hdrop]
      rfl

/-! ## The image of a handle -/

/-- `dyld_image_info`. -/
structure ImageInfo where
  imageFilePath : Name
  imageLoadAddress : BitVec 32

namespace Kernel

/-- `dlopen`, which gave the handle. `NULL` holds nothing. -/
def dlopenNoLoad (k : Kernel) (h : ℕ) : Kernel :=
  if h = 0 then k else k.dlopen h

/-- `dlclose`. On `NULL` it fails, and does nothing. -/
def dlcloseNoLoad (k : Kernel) (h : ℕ) : Except Crash Kernel :=
  if h = 0 then .ok k else k.dlclose h

theorem dlcloseNoLoad_dlopenNoLoad (k : Kernel) (h : ℕ) :
    (k.dlopenNoLoad h).dlcloseNoLoad h = .ok k := by
  unfold dlopenNoLoad dlcloseNoLoad
  split_ifs
  · rfl
  · exact k.dlclose_dlopen h

end Kernel

/-- The loop over the images, with what `dlopen` gives for their paths without loading them. -/
def imageLoop (dlopen : Name → ℕ) (handle : ℕ) :
    List ImageInfo → Kernel → Except Crash (BitVec 32 × Kernel)
  | [], k => .ok (0, k)
  | info :: infos, k => do
    let h := dlopen info.imageFilePath
    let k := k.dlopenNoLoad h
    if h = handle then
      let k ← k.dlcloseNoLoad h
      .ok (info.imageLoadAddress, k)
    else
      let k ← k.dlcloseNoLoad h
      imageLoop dlopen handle infos k

/-- The load address of the first image that opens as the handle, or 0. -/
def imageBase (dlopen : Name → ℕ) (handle : ℕ) (infos : List ImageInfo) : BitVec 32 :=
  ((infos.find? fun info => dlopen info.imageFilePath = handle).map
    ImageInfo.imageLoadAddress).getD 0

theorem imageBase_cons (dlopen : Name → ℕ) (handle : ℕ) (info : ImageInfo)
    (infos : List ImageInfo) : imageBase dlopen handle (info :: infos) =
      if dlopen info.imageFilePath = handle then info.imageLoadAddress
      else imageBase dlopen handle infos := by
  unfold imageBase
  rw [List.find?_cons]
  by_cases h : dlopen info.imageFilePath = handle
  · rw [decide_eq_true h, if_pos h]
    rfl
  · rw [decide_eq_false h, if_neg h]

/-- The loop finds the first image and closes every handle it opens. -/
theorem imageLoop_eq (dlopen : Name → ℕ) (handle : ℕ) (infos : List ImageInfo) (k : Kernel) :
    imageLoop dlopen handle infos k = .ok (imageBase dlopen handle infos, k) := by
  induction infos with
  | nil => rfl
  | cons info infos ih =>
    have hclose := k.dlcloseNoLoad_dlopenNoLoad (dlopen info.imageFilePath)
    rw [imageLoop, imageBase_cons]
    simp only [hclose]
    split_ifs with h
    · rfl
    · exact ih

/-! ## Runs -/

/-- A call of `ResolveSymbol`, with the images that are loaded, the memory they are in, and what
`dlopen` gives for their paths. -/
structure MacCall where
  infoArray : List ImageInfo
  mem : ℕ → Byte
  dlopen : Name → ℕ
  handle : ℕ
  symbol : Name
  allocated : ℕ → Bool

namespace MacCall

/-- `dlbase`. The first image is the executable, and skipped. -/
def dlbase (c : MacCall) : BitVec 32 :=
  imageBase c.dlopen c.handle (c.infoArray.drop 1)

/-- `ResolveSymbol`. -/
def resolveSymbol (m : MemoryUtils) (c : MacCall) (k : Kernel) :
    Except Crash ((BitVec 32 × MemoryUtils) × Kernel) := do
  let r ← imageLoop c.dlopen c.handle (c.infoArray.drop 1) k
  if r.1 = 0 then .ok ((0, m), r.2)
  else
    let t := (m.tableOf r.1).resolveMac c.mem r.1 c.symbol c.allocated
    .ok ((t.1, m.putTable r.1 t.2), r.2)

/-- The calls in order, and what they return. -/
def runMac : List MacCall → MemoryUtils → Kernel → Except Crash (List (BitVec 32) × Kernel)
  | [], _, k => .ok ([], k)
  | c :: cs, m, k => do
    let r ← resolveSymbol m c k
    let rest ← runMac cs r.1.2 r.2
    .ok (r.1.1 :: rest.1, rest.2)

/-- The image of the handle as a library. -/
def library (c : MacCall) : Library :=
  machLibrary c.mem c.dlbase

/-- `ResolveSymbol` on the library, or `NULL` without an image. -/
def resolveLibrary (m : MemoryUtils) (c : MacCall) : BitVec 32 × MemoryUtils :=
  if c.dlbase = 0 then (0, m) else m.resolveSymbol c.library c.symbol ⟨true, c.allocated⟩

/-- What the calls return on the libraries. -/
def answers : MemoryUtils → List MacCall → List (BitVec 32)
  | _, [] => []
  | m, c :: cs => (resolveLibrary m c).1 :: answers (resolveLibrary m c).2 cs

/-- The answer of a scan of the image from its first symbol on, or `NULL` without an image. -/
def freshScan (c : MacCall) : BitVec 32 :=
  if c.dlbase = 0 then 0 else c.library.freshScan c.symbol

/-- The calls that find an image at one address find the same symbols there. -/
def SameImages (calls : List MacCall) : Prop :=
  ∀ c ∈ calls, ∀ c' ∈ calls, c.dlbase ≠ 0 → c.dlbase = c'.dlbase →
    c.library.symtab = c'.library.symtab

/-- A call closes the handles it opens, and is one on the library of the image. -/
theorem resolveSymbol_eq (m : MemoryUtils) (c : MacCall) (k : Kernel) :
    resolveSymbol m c k = .ok (resolveLibrary m c, k) := by
  have hloop : imageLoop c.dlopen c.handle (c.infoArray.drop 1) k = .ok (c.dlbase, k) :=
    imageLoop_eq ..
  unfold resolveSymbol resolveLibrary
  rw [hloop]
  show (if c.dlbase = 0 then _ else _) = _
  split_ifs
  · rfl
  · rw [MemoryUtils.resolveSymbol_eq_putTable, LibSymbolTable.resolveMac_eq]
    rfl

theorem runMac_eq_answers (calls : List MacCall) (m : MemoryUtils) (k : Kernel) :
    runMac calls m k = .ok (answers m calls, k) := by
  induction calls generalizing m with
  | nil => rfl
  | cons c cs ih =>
    rw [runMac, resolveSymbol_eq]
    show (runMac cs (resolveLibrary m c).2 k >>= _) = _
    rw [ih]
    rfl

/-- The symbols at each address, when the calls agree on them. -/
theorem SameImages.exists_symtab {calls : List MacCall} (h : SameImages calls) :
    ∃ symtab : BitVec 32 → Option (List Elf32Sym),
      ∀ c ∈ calls, c.dlbase ≠ 0 → c.library = ⟨c.dlbase, symtab c.dlbase⟩ := by
  classical
  refine ⟨fun l_addr => if hc : ∃ c ∈ calls, c.dlbase = l_addr then
    hc.choose.library.symtab else none, fun c hc h0 => ?_⟩
  have hex : ∃ c' ∈ calls, c'.dlbase = c.dlbase := ⟨c, hc, rfl⟩
  dsimp only
  rw [dif_pos hex, ← h c hc _ hex.choose_spec.1 h0 hex.choose_spec.2.symm]
  rfl

/-- Tables that are of the libraries answer as fresh scans of them. -/
theorem answers_eq_of_scanned {symtab : BitVec 32 → Option (List Elf32Sym)} {m : MemoryUtils}
    (hm : MemoryUtils.Scanned (fun l_addr => ⟨l_addr, symtab l_addr⟩) m) {calls : List MacCall}
    (hcalls : ∀ c ∈ calls, c.dlbase ≠ 0 → c.library = ⟨c.dlbase, symtab c.dlbase⟩) :
    answers m calls = calls.map freshScan := by
  induction calls generalizing m with
  | nil => rfl
  | cons c cs ih =>
    obtain ⟨hc, hcs⟩ := List.forall_mem_cons.1 hcalls
    rw [answers, List.map_cons, freshScan, resolveLibrary]
    split_ifs with h0
    · rw [ih hm hcs]
    · rw [hc h0]
      let call : ResolveCall (BitVec 32) := ⟨c.dlbase, c.symbol, ⟨true, c.allocated⟩⟩
      have hanswer := hm.answer call
      rw [if_pos (Or.inr rfl)] at hanswer
      exact congrArg₂ List.cons hanswer (ih (hm.step Function.injective_id call) hcs)

/-- On macOS any calls of `ResolveSymbol`, each with its own images, memory and handles, hold no
handle afterwards that was not held before, and answer what the tables return on the symbols of
the images. When the images at one address have the same symbols in all calls, these are the
answers of fresh scans. -/
theorem runMac_eq (calls : List MacCall) (k : Kernel) :
    runMac calls [] k = .ok (answers [] calls, k) ∧
      (SameImages calls → answers [] calls = calls.map freshScan) := by
  refine ⟨runMac_eq_answers calls [] k, fun h => ?_⟩
  obtain ⟨symtab, hsymtab⟩ := h.exists_symtab
  exact answers_eq_of_scanned MemoryUtils.scanned_nil hsymtab

/-- A call for `a` on an image at `0x1000` with one symbol `_a`, and a byte `code` behind it. -/
def symbolCall (n_value code : Byte) : MacCall where
  infoArray := [⟨[], 0x8000⟩, ⟨ascii "image", 0x1000⟩]
  mem a := (List.replicate 16 0 ++ [2, 0, 0, 0] ++ List.replicate 8 0 ++
    [1, 0, 0, 0, 56, 0, 0, 0] ++ ascii "__LINKEDIT" ++ List.replicate 38 0 ++
    [2, 0, 0, 0, 24, 0, 0, 0, 108, 0, 0, 0, 1, 0, 0, 0, 120, 0, 0, 0, 3, 0, 0, 0] ++
    [0, 0, 0, 0, 0x0F, 1, 0, 0, n_value, 0, 0, 0] ++ ascii "_a" ++ [0, code] : List Byte).getD
      (a - 0x1000) 0
  dlopen path := if path = ascii "image" then 5 else 0
  handle := 5
  symbol := ascii "a"
  allocated _ := true

/-- Code that is patched between the calls leaves the symbols as they are. -/
theorem runMac_eq_patched :
    runMac [symbolCall 0x40 0x77, symbolCall 0x40 0x90] [] ⟨[], [], []⟩ =
      .ok ([0x1040, 0x1040], ⟨[], [], []⟩) := by
  have hsame : SameImages [symbolCall 0x40 0x77, symbolCall 0x40 0x90] := by
    unfold SameImages
    decide +kernel
  have hfresh : [symbolCall 0x40 0x77, symbolCall 0x40 0x90].map freshScan =
      [0x1040, 0x1040] := by
    decide +kernel
  obtain ⟨hrun, hanswers⟩ :=
    runMac_eq [symbolCall 0x40 0x77, symbolCall 0x40 0x90] ⟨[], [], []⟩
  rw [hrun, hanswers hsame, hfresh]

/-- Another image at the address is answered from the cache. -/
example : answers [] [symbolCall 0x40 0, symbolCall 0x50 0] = [0x1040, 0x1040] ∧
    [symbolCall 0x40 0, symbolCall 0x50 0].map freshScan = [0x1040, 0x1050] := by
  decide +kernel

end MacCall

/-! ## The size of an image -/

/-- `MH_MAGIC`. -/
def MH_MAGIC : BitVec 32 :=
  0xFEEDFACE

/-- `CPU_TYPE_I386`. -/
def CPU_TYPE_I386 : BitVec 32 :=
  7

/-- `CPU_SUBTYPE_I386_ALL`. -/
def CPU_SUBTYPE_I386_ALL : BitVec 32 :=
  3

/-- `MH_DYLIB`. -/
def MH_DYLIB : BitVec 32 :=
  6

/-- The loop that adds up the segments, over `n` load commands. -/
def segmentLoop (mem : ℕ → Byte) : ℕ → ℕ → BitVec 32 → BitVec 32
  | 0, _, memorySize => memorySize
  | n + 1, seg, memorySize =>
    segmentLoop mem n (nextCommand mem seg)
      (if u32 mem seg = LC_SEGMENT then memorySize + u32 mem (seg + 28) else memorySize)

/-- The header at `baseAddr`, on a `DynLibInfo` of zeros. -/
def machLibraryInfo (mem : ℕ → Byte) (baseAddr : ℕ) : Option DynLibInfo :=
  if u32 mem baseAddr ≠ MH_MAGIC then none
  else if u32 mem (baseAddr + 4) ≠ CPU_TYPE_I386 ∨
      u32 mem (baseAddr + 8) ≠ CPU_SUBTYPE_I386_ALL then none
  else if u32 mem (baseAddr + 12) ≠ MH_DYLIB then none
  else
    some ⟨baseAddr, (segmentLoop mem (u32 mem (baseAddr + 16)).toNat
      ((baseAddr + 28) % 2 ^ 32) 0).toNat⟩

/-- `vmaddr` and `vmsize` of the segments among load commands. -/
def segmentsOf (mem : ℕ → Byte) (cmds : List ℕ) : List (ℕ × ℕ) :=
  (cmds.filter fun seg => u32 mem seg = LC_SEGMENT).map fun seg =>
    ((u32 mem (seg + 24)).toNat, (u32 mem (seg + 28)).toNat)

theorem toNat_segmentLoop (mem : ℕ → Byte) (n seg : ℕ) (memorySize : BitVec 32) :
    (segmentLoop mem n seg memorySize).toNat =
      (memorySize.toNat + ((segmentsOf mem (loadCommands mem n seg)).map Prod.snd).sum) %
        2 ^ 32 := by
  induction n generalizing seg memorySize with
  | zero => exact (Nat.mod_eq_of_lt memorySize.isLt).symm
  | succ n ih =>
    rw [segmentLoop, ih, loadCommands, segmentsOf, segmentsOf]
    by_cases hseg : u32 mem seg = LC_SEGMENT
    · rw [if_pos hseg, List.filter_cons_of_pos (by simpa using hseg), List.map_cons,
        List.map_cons, List.sum_cons, BitVec.toNat_add]
      omega
    · rw [if_neg hseg, List.filter_cons_of_neg (by simpa using hseg)]

namespace OperatingSystem

/-- `GetLibraryInfo` on macOS. -/
def getLibraryInfoMac (os : OperatingSystem) (mem : ℕ → Byte) (libPtr : ℕ) :
    Option DynLibInfo :=
  if libPtr = 0 then none
  else (os.dladdr libPtr).bind fun info =>
    if info.dli_fbase = 0 ∨ info.dli_fname = none then none
    else machLibraryInfo mem info.dli_fbase

/-- `FindLibPattern` on macOS. -/
def findLibPatternMac (os : OperatingSystem) (mem : ℕ → Byte) (libPtr : ℕ)
    (pattern : List Byte) : ℕ :=
  ((os.getLibraryInfoMac mem libPtr).bind fun lib =>
    (findPattern mem lib.baseAddress (lib.baseAddress + lib.memorySize) pattern).1).getD 0

variable {os : OperatingSystem} {mem : ℕ → Byte} {libPtr : ℕ} {lib : DynLibInfo}

/-- The size of an image is that of its segments together. -/
theorem memorySize_of_mac (hlib : os.getLibraryInfoMac mem libPtr = some lib) :
    lib.baseAddress ≠ 0 ∧ lib.memorySize =
      ((segmentsOf mem (commands mem lib.baseAddress)).map Prod.snd).sum % 2 ^ 32 := by
  unfold getLibraryInfoMac at hlib
  split_ifs at hlib
  obtain ⟨info, -, hinfo⟩ := Option.bind_eq_some_iff.1 hlib
  split_ifs at hinfo with h0
  unfold machLibraryInfo at hinfo
  split_ifs at hinfo
  obtain rfl := Option.some.inj hinfo
  refine ⟨fun hbase => h0 (Or.inl hbase), (toNat_segmentLoop ..).trans ?_⟩
  show (0 + _) % 2 ^ 32 = _
  rw [Nat.zero_add]
  rfl

end OperatingSystem

/-- The byte `a` is in the range that is searched. -/
def DynLibInfo.Has (lib : DynLibInfo) (a : ℕ) : Prop :=
  lib.baseAddress ≤ a ∧ a < lib.baseAddress + lib.memorySize

theorem DynLibInfo.has_iff {lib : DynLibInfo} {a : ℕ} :
    lib.Has a ↔ ∃ x < lib.memorySize, a = lib.baseAddress + x := by
  constructor
  · rintro ⟨hle, hlt⟩
    exact ⟨a - lib.baseAddress, by omega, by omega⟩
  · rintro ⟨x, hx, rfl⟩
    exact ⟨Nat.le_add_right _ _, Nat.add_lt_add_left hx _⟩

/-- The byte `a` is one of a segment of the image at `baseAddress`. -/
def InSegment (mem : ℕ → Byte) (baseAddress a : ℕ) : Prop :=
  ∃ s ∈ segmentsOf mem (commands mem baseAddress), Memory.Covers (baseAddress + s.1) s.2 a

theorem inSegment_iff {mem : ℕ → Byte} {baseAddress a : ℕ} :
    InSegment mem baseAddress a ↔
      ∃ x ∈ Memory.spanCells (segmentsOf mem (commands mem baseAddress)), a = baseAddress + x := by
  constructor
  · rintro ⟨s, hs, hle, hlt⟩
    refine ⟨a - baseAddress, Memory.mem_spanCells.2 ⟨s, hs, ?_⟩, by omega⟩
    unfold Memory.Covers
    omega
  · rintro ⟨x, hx, rfl⟩
    obtain ⟨s, hs, hle, hlt⟩ := Memory.mem_spanCells.1 hx
    refine ⟨s, hs, ?_⟩
    unfold Memory.Covers
    omega

theorem forall_offset_iff {p q : ℕ → Prop} {b : ℕ} :
    (∀ a, (∃ x, p x ∧ a = b + x) → ∃ x, q x ∧ a = b + x) ↔ ∀ x, p x → q x := by
  constructor
  · intro h x hx
    obtain ⟨y, hy, heq⟩ := h (b + x) ⟨x, hx, rfl⟩
    rwa [Nat.add_left_cancel heq]
  · rintro h a ⟨x, hx, rfl⟩
    exact ⟨x, h x hx, rfl⟩

/-- A match in the range is found, or one below it. -/
theorem OperatingSystem.findLibPatternMac_le {os : OperatingSystem} {mem : ℕ → Byte}
    {libPtr : ℕ} {lib : DynLibInfo} {pattern : List Byte} {a : ℕ}
    (hlib : os.getLibraryInfoMac mem libPtr = some lib) (ha : lib.Has a)
    (hm : Matches mem a pattern) :
    os.findLibPatternMac mem libPtr pattern ≠ 0 ∧
      os.findLibPatternMac mem libPtr pattern ≤ a := by
  have hbase := (memorySize_of_mac hlib).1
  unfold findLibPatternMac
  rw [hlib, Option.bind_some]
  cases hfound : (findPattern mem lib.baseAddress (lib.baseAddress + lib.memorySize)
      pattern).1 with
  | none => exact (findPattern_eq_none_iff.1 hfound a ha.1 ha.2 hm).elim
  | some p =>
    obtain ⟨⟨hle, -, -⟩, hmin⟩ := findPattern_eq_some_iff.1 hfound
    refine ⟨fun h0 => hbase (Nat.le_zero.1 (hle.trans_eq h0)), ?_⟩
    by_contra hap
    exact hmin a ha.1 (Nat.lt_of_not_le hap) hm

/-- Let the segments of an image be apart, with a size that fits. The range `GetLibraryInfo`
gives ends no later than they do. It has all their bytes exactly when it has no others, and then
a search misses nothing in them. -/
theorem machLibraryInfo_covers_iff {os : OperatingSystem} {mem : ℕ → Byte} {libPtr : ℕ}
    {lib : DynLibInfo} (hlib : os.getLibraryInfoMac mem libPtr = some lib)
    (hapart : (segmentsOf mem (commands mem lib.baseAddress)).Pairwise Memory.Apart)
    (hfits : ((segmentsOf mem (commands mem lib.baseAddress)).map Prod.snd).sum < 2 ^ 32) :
    (∀ n, (∀ a, InSegment mem lib.baseAddress a → a < n) → ∀ a, lib.Has a → a < n) ∧
      ((∀ a, InSegment mem lib.baseAddress a → lib.Has a) ↔
        ∀ a, lib.Has a → InSegment mem lib.baseAddress a) ∧
      ((∀ a, lib.Has a → InSegment mem lib.baseAddress a) → ∀ pattern a,
        InSegment mem lib.baseAddress a → Matches mem a pattern →
          os.findLibPatternMac mem libPtr pattern ≠ 0 ∧
            os.findLibPatternMac mem libPtr pattern ≤ a) := by
  obtain ⟨hbase, hsize⟩ := OperatingSystem.memorySize_of_mac hlib
  rw [Nat.mod_eq_of_lt hfits] at hsize
  have hgap : (∀ a, InSegment mem lib.baseAddress a → lib.Has a) ↔
      ∀ a, lib.Has a → InSegment mem lib.baseAddress a := by
    simp only [DynLibInfo.has_iff, inSegment_iff, hsize]
    exact forall_offset_iff.trans ((Memory.within_sum_iff_no_gap hapart).trans
      forall_offset_iff.symm)
  refine ⟨fun n hn a ha => ?_, hgap, fun h pattern a ha hm =>
    OperatingSystem.findLibPatternMac_le hlib (hgap.2 h a ha) hm⟩
  have hle : lib.memorySize ≤ n - lib.baseAddress := by
    rw [hsize]
    refine Memory.sum_le_of_spanCells_lt hapart fun x hx => ?_
    have hx := hn _ (inSegment_iff.2 ⟨x, hx, rfl⟩)
    omega
  obtain ⟨hle', hlt⟩ := ha
  omega

/-- An image at `0x1000` with two segments of a page : `__TEXT`, and `__LINKEDIT` at `vmaddr`. -/
def machImage (vmaddr : Byte) : ℕ → Byte := fun a =>
  ([0xCE, 0xFA, 0xED, 0xFE, 7, 0, 0, 0, 3, 0, 0, 0, 6, 0, 0, 0, 2, 0, 0, 0, 112, 0, 0, 0,
    0, 0, 0, 0] ++
    [1, 0, 0, 0, 56, 0, 0, 0] ++ ascii "__TEXT" ++ List.replicate 10 0 ++
    [0, 0, 0, 0, 0, 0x10, 0, 0] ++ List.replicate 24 0 ++
    [1, 0, 0, 0, 56, 0, 0, 0] ++ ascii "__LINKEDIT" ++ List.replicate 6 0 ++
    [0, vmaddr, 0, 0, 0, 0x10, 0, 0] ++ List.replicate 24 0 : List Byte).getD (a - 0x1000) 0

/-- An image of two pages without a gap is covered, and a name in it is found. -/
theorem machLibraryInfo_covers_two_pages :
    (∀ a, InSegment (machImage 0x10) 0x1000 a → DynLibInfo.Has ⟨0x1000, 0x2000⟩ a) ∧
      oneLibrary.findLibPatternMac (machImage 0x10) 0x1500 (ascii "__LINKEDIT") ≠ 0 ∧
      oneLibrary.findLibPatternMac (machImage 0x10) 0x1500 (ascii "__LINKEDIT") ≤ 0x105C := by
  have hlib : oneLibrary.getLibraryInfoMac (machImage 0x10) 0x1500 = some ⟨0x1000, 0x2000⟩ := by
    decide
  have hsegs : segmentsOf (machImage 0x10) (commands (machImage 0x10) 0x1000) =
      [(0, 0x1000), (0x1000, 0x1000)] := by decide
  have hapart : (segmentsOf (machImage 0x10) (commands (machImage 0x10) 0x1000)).Pairwise
      Memory.Apart := by
    rw [hsegs]
    decide
  have hfits : ((segmentsOf (machImage 0x10) (commands (machImage 0x10) 0x1000)).map
      Prod.snd).sum < 2 ^ 32 := by
    rw [hsegs]
    decide
  have hgap : ∀ a, DynLibInfo.Has ⟨0x1000, 0x2000⟩ a → InSegment (machImage 0x10) 0x1000 a := by
    intro a ha
    obtain ⟨x, hx, rfl⟩ := DynLibInfo.has_iff.1 ha
    refine inSegment_iff.2 ⟨x, Memory.mem_spanCells.2 ?_, rfl⟩
    rw [hsegs]
    rcases Nat.lt_or_ge x 0x1000 with hlt | hge
    · exact ⟨(0, 0x1000), by simp, Nat.zero_le x, by omega⟩
    · exact ⟨(0x1000, 0x1000), by simp, hge, hx⟩
  obtain ⟨-, hcovers, hfinds⟩ := machLibraryInfo_covers_iff hlib hapart hfits
  have hname : Matches (machImage 0x10) 0x105C (ascii "__LINKEDIT") := by
    have hbytes : ∀ i < 10, (ascii "__LINKEDIT")[i]? = some (machImage 0x10 (0x105C + i)) := by
      decide
    intro i b hb
    obtain ⟨hi, -⟩ := List.getElem?_eq_some_iff.1 hb
    exact Or.inr (Option.some.inj (hb.symm.trans (hbytes i hi)))
  exact ⟨hcovers.2 hgap, hfinds hgap (ascii "__LINKEDIT") 0x105C
    (hgap 0x105C ⟨by decide, by decide⟩) hname⟩

/-- With a gap the range is as long, and misses the second segment. -/
example : oneLibrary.getLibraryInfoMac (machImage 0x20) 0x1500 = some ⟨0x1000, 0x2000⟩ ∧
    segmentsOf (machImage 0x20) (commands (machImage 0x20) 0x1000) =
      [(0, 0x1000), (0x2000, 0x1000)] := by
  decide

end TickrateEnabler
