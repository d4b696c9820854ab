import TickrateEnabler.Checked
import TickrateEnabler.LibraryInfo

/-!
# The file of a library

`ResolveSymbol` on Linux maps the file of a library and follows the offsets in it : from the
file header to the section headers and their names, to `.symtab` and `.strtab`, and from
symbol to symbol to its name. It checks none of them against the size of the file, nor that
`sh_entsize` is not 0.
-/

namespace TickrateEnabler

open Checked

/-- What a walk through the file does wrong. -/
inductive Fault where
  | outOfBounds
  | divideByZero
  deriving DecidableEq

/-- A mapped file. The mapping starts at a page that is not the first, and does not wrap. -/
structure MappedFile where
  bytes : List Byte
  length_le : bytes.length ≤ 2 ^ 32 - 2 ^ 12

namespace MappedFile

variable (f : MappedFile)

/-! ## Reading -/

/-- `dlstat.st_size`. -/
def size : ℕ :=
  f.bytes.length

/-- The `n` bytes at the pointer are in the file. Pointers are offsets from `map_base`, and
wrap at `2 ^ 32`. -/
def Inside (p n : ℕ) : Prop :=
  p % 2 ^ 32 + n ≤ f.size

instance (p n : ℕ) : Decidable (f.Inside p n) :=
  inferInstanceAs (Decidable (_ ≤ _))

/-- The byte at a pointer. -/
def mem (p : ℕ) : Byte :=
  f.bytes.getD (p % 2 ^ 32) 0

/-- The bytes from a pointer on. -/
def rest (p : ℕ) : List Byte :=
  f.bytes.drop (p % 2 ^ 32)

/-- Read a byte. -/
def read8 (p : ℕ) : Except Fault Byte :=
  if f.Inside p 1 then .ok (f.mem p) else .error .outOfBounds

/-- Read a half word. -/
def read16 (p : ℕ) : Except Fault (BitVec 16) :=
  if f.Inside p 2 then .ok (u16 f.mem p) else .error .outOfBounds

/-- Read a word. -/
def read32 (p : ℕ) : Except Fault (BitVec 32) :=
  if f.Inside p 4 then .ok (u32 f.mem p) else .error .outOfBounds

/-- The division of two words. -/
def divide (a b : BitVec 32) : Except Fault ℕ :=
  if b ≠ 0 then .ok (a.toNat / b.toNat) else .error .divideByZero

/-- `strlen`, of a string whose bytes end with the file. -/
def strlen : List Byte → Except Fault ℕ
  | [] => .error .outOfBounds
  | b :: bs => if b = 0 then .ok 0 else do
    let n ← strlen bs
    .ok (n + 1)

/-- `strcmp(str, …) == 0`, with a string whose bytes end with the file. -/
def strcmp : Name → List Byte → Except Fault Bool
  | _, [] => .error .outOfBounds
  | [], b :: _ => .ok (b = 0)
  | c :: cs, b :: bs => if b = c then strcmp cs bs else .ok false

/-- The string before the zero. -/
def cstring (bs : List Byte) : Name :=
  bs.takeWhile (· ≠ 0)

theorem cstring_cons_of_ne {b : Byte} (hb : b ≠ 0) (bs : List Byte) :
    cstring (b :: bs) = b :: cstring bs :=
  List.takeWhile_cons_of_pos (decide_eq_true hb)

theorem gives_strlen (bs : List Byte) : Gives (strlen bs) (0 ∈ bs) (cstring bs).length := by
  induction bs with
  | nil => exact (Gives.of_error _ _).congr (by simp)
  | cons b bs ih =>
    by_cases hb : b = 0
    · subst hb
      exact (Gives.of_ok 0).congr (by simp)
    · have hmem : 0 ∈ bs ↔ 0 ∈ b :: bs := by
        rw [List.mem_cons, or_iff_right (Ne.symm hb)]
      rw [strlen, if_neg hb, cstring_cons_of_ne hb, List.length_cons]
      exact (ih.bind_ok _).congr hmem

/-- The comparison runs over the end exactly when what is left of the file is the beginning
of the string. -/
theorem gives_strcmp (str : Name) (bs : List Byte) :
    Gives (strcmp str bs) (¬bs <+: str) (decide (str ++ [0] <+: bs)) := by
  induction str generalizing bs with
  | nil =>
    rcases bs with - | ⟨b, bs⟩
    · exact (Gives.of_error _ _).congr (by simp)
    · have hzero : b = 0 ↔ [] ++ [0] <+: b :: bs := by
        rw [List.nil_append, List.cons_prefix_cons, and_iff_left List.nil_prefix, eq_comm]
      rw [strcmp, decide_eq_decide.2 hzero]
      exact (Gives.of_ok _).congr (by simp)
  | cons c cs ih =>
    rcases bs with - | ⟨b, bs⟩
    · exact (Gives.of_error _ _).congr (by simp)
    · rw [strcmp, List.cons_append]
      simp only [List.cons_prefix_cons]
      by_cases hb : b = c
      · subst hb
        simpa using ih bs
      · have hc : ¬c = b := Ne.symm hb
        simpa [hb, hc] using Gives.of_ok (ε := Fault) false

/-- Comparing with a whole string of the file is comparing the strings. -/
theorem append_zero_prefix_iff {str : Name} (hstr : 0 ∉ str) {bs : List Byte} (hbs : 0 ∈ bs) :
    str ++ [0] <+: bs ↔ str = cstring bs := by
  induction str generalizing bs with
  | nil =>
    rcases bs with - | ⟨b, bs⟩
    · exact absurd hbs List.not_mem_nil
    · by_cases hb : b = 0
      · subst hb
        simp [cstring]
      · rw [cstring_cons_of_ne hb, List.nil_append, List.cons_prefix_cons]
        exact iff_of_false (fun h => hb h.1.symm) (List.cons_ne_nil _ _).symm
  | cons c cs ih =>
    rcases bs with - | ⟨b, bs⟩
    · exact absurd hbs List.not_mem_nil
    · rw [List.mem_cons, not_or] at hstr
      rw [List.cons_append, List.cons_prefix_cons]
      by_cases hb : b = 0
      · subst hb
        exact iff_of_false (fun h => hstr.1 h.1.symm) (by simp [cstring])
      · have hbs' : 0 ∈ bs := (List.mem_cons.1 hbs).resolve_left (Ne.symm hb)
        rw [ih hstr.2 hbs', cstring_cons_of_ne hb, List.cons.injEq]

/-- A string that ends in the file is never the beginning of one without a zero. -/
theorem not_prefix_of_zero_mem {str : Name} (hstr : 0 ∉ str) {bs : List Byte} (hbs : 0 ∈ bs) :
    ¬bs <+: str :=
  fun h => hstr (h.subset hbs)

/-! ## The walk -/

/-- `symtab_hdr` and `strtab_hdr`, as far as they were found. -/
structure Headers where
  symtab_hdr : Option ℕ
  strtab_hdr : Option ℕ
  deriving DecidableEq

/-- One round of the loop over the sections. -/
def sectionStep (sections shstrtab i : ℕ) (h : Headers) : Except Fault Headers := do
  let hdr := sections + 40 * i
  let sh_name ← f.read32 hdr
  let section_name := f.rest (shstrtab + sh_name.toNat)
  let symtab ← strcmp (ascii ".symtab") section_name
  if symtab then .ok { h with symtab_hdr := some hdr }
  else
    let strtab ← strcmp (ascii ".strtab") section_name
    if strtab then .ok { h with strtab_hdr := some hdr } else .ok h

/-- The loop over the sections from `i` on, `n` of them. -/
def sectionLoop (sections shstrtab : ℕ) : ℕ → ℕ → Headers → Except Fault Headers
  | 0, _, h => .ok h
  | n + 1, i, h => do
    let h ← f.sectionStep sections shstrtab i h
    sectionLoop sections shstrtab n (i + 1) h

/-- The loop over the symbols from `i` on, `n` of them. -/
def symbolLoop (l_addr : BitVec 32) (symbol : Name) (allocated : ℕ → Bool) (symtab strtab : ℕ) :
    ℕ → ℕ → LibSymbolTable → Except Fault (Option Symbol × LibSymbolTable)
  | 0, _, libtable => .ok (none, libtable)
  | n + 1, i, libtable => do
    let sym := symtab + 16 * i
    let st_info ← f.read8 (sym + 12)
    let st_name ← f.read32 sym
    let st_shndx ← f.read16 (sym + 14)
    let sym_name := f.rest (strtab + st_name.toNat)
    if st_shndx = SHN_UNDEF ∨
        (st_info &&& 0xf ≠ STT_FUNC ∧ st_info &&& 0xf ≠ STT_OBJECT) then
      symbolLoop l_addr symbol allocated symtab strtab n (i + 1) libtable
    else
      let len ← strlen sym_name
      let st_value ← f.read32 (sym + 4)
      let r := libtable.table.internSymbol (sym_name.take len) len (l_addr + st_value)
        (allocated i)
      let hit ← strcmp symbol sym_name
      if hit then .ok (some r.1, { libtable with table := r.2, last_pos := i + 1 })
      else
        symbolLoop l_addr symbol allocated symtab strtab n (i + 1) { libtable with table := r.2 }

/-- The walk once it has the headers of `.symtab` and `.strtab`. -/
def scanTables (l_addr : BitVec 32) (symbol : Name) (allocated : ℕ → Bool)
    (libtable : LibSymbolTable) (symtab_hdr strtab_hdr : ℕ) :
    Except Fault (BitVec 32 × LibSymbolTable) := do
  let symtab ← f.read32 (symtab_hdr + 16)
  let strtab ← f.read32 (strtab_hdr + 16)
  let sh_size ← f.read32 (symtab_hdr + 20)
  let sh_entsize ← f.read32 (symtab_hdr + 36)
  let symbol_count ← divide sh_size sh_entsize
  let r ← f.symbolLoop l_addr symbol allocated symtab.toNat strtab.toNat
    (symbol_count - libtable.last_pos) libtable.last_pos libtable
  .ok ((r.1.map Symbol.address).getD 0, r.2)

/-- The walk once the file is known to have section headers and their names. -/
def walkSections (l_addr : BitVec 32) (symbol : Name) (allocated : ℕ → Bool)
    (libtable : LibSymbolTable) (e_shoff : BitVec 32) (e_shstrndx : BitVec 16) :
    Except Fault (BitVec 32 × LibSymbolTable) := do
  let sections := e_shoff.toNat
  let section_count ← f.read16 48
  let shstrtab ← f.read32 (sections + 40 * e_shstrndx.toNat + 16)
  let h ← f.sectionLoop sections shstrtab.toNat section_count.toNat 0 ⟨none, none⟩
  match h with
  | ⟨some symtab_hdr, some strtab_hdr⟩ =>
    f.scanTables l_addr symbol allocated libtable symtab_hdr strtab_hdr
  | _ => .ok (0, libtable)

/-- `ResolveSymbol` once the file is mapped. -/
def walk (l_addr : BitVec 32) (symbol : Name) (allocated : ℕ → Bool) (libtable : LibSymbolTable) :
    Except Fault (BitVec 32 × LibSymbolTable) := do
  let e_shoff ← f.read32 32
  if e_shoff = 0 then .ok (0, libtable)
  else
    let e_shstrndx ← f.read16 50
    if e_shstrndx = SHN_UNDEF then .ok (0, libtable)
    else f.walkSections l_addr symbol allocated libtable e_shoff e_shstrndx

/-! ## The fields the walk follows -/

/-- `e_shoff`. -/
def e_shoff : BitVec 32 :=
  u32 f.mem 32

/-- `e_shnum`. -/
def e_shnum : ℕ :=
  (u16 f.mem 48).toNat

/-- `e_shstrndx`. -/
def e_shstrndx : BitVec 16 :=
  u16 f.mem 50

/-- `&sections[i]`. -/
def sectionHeader (i : ℕ) : ℕ :=
  f.e_shoff.toNat + 40 * i

/-- `sh_offset` of the header at a pointer. -/
def sh_offset (hdr : ℕ) : ℕ :=
  (u32 f.mem (hdr + 16)).toNat

/-- `sh_size`. -/
def sh_size (hdr : ℕ) : ℕ :=
  (u32 f.mem (hdr + 20)).toNat

/-- `sh_entsize`. -/
def sh_entsize (hdr : ℕ) : BitVec 32 :=
  u32 f.mem (hdr + 36)

/-- The header of the section name table. -/
def shstrtab_hdr : ℕ :=
  f.sectionHeader f.e_shstrndx.toNat

/-- `sh_name` of the section `i`. -/
def sh_name (i : ℕ) : ℕ :=
  (u32 f.mem (f.sectionHeader i)).toNat

/-- The bytes at the name of the section `i`. -/
def sectionName (i : ℕ) : List Byte :=
  f.rest (f.sh_offset f.shstrtab_hdr + f.sh_name i)

/-- The headers with the section `i` noted. -/
def note (h : Headers) (i : ℕ) : Headers :=
  if ascii ".symtab" ++ [0] <+: f.sectionName i then
    { h with symtab_hdr := some (f.sectionHeader i) }
  else if ascii ".strtab" ++ [0] <+: f.sectionName i then
    { h with strtab_hdr := some (f.sectionHeader i) }
  else h

/-- The headers of the file. -/
def headers : Headers :=
  (List.range f.e_shnum).foldl f.note ⟨none, none⟩

/-- The symbol `i` of the tables at `symtab` and `strtab`. -/
def symbolAt (symtab strtab i : ℕ) : Elf32Sym where
  name := cstring (f.rest (strtab + (u32 f.mem (symtab + 16 * i)).toNat))
  st_value := u32 f.mem (symtab + 16 * i + 4)
  st_info := f.mem (symtab + 16 * i + 12)
  st_shndx := u16 f.mem (symtab + 16 * i + 14)

/-- `symbol_count`. -/
def symbolCount (symtab_hdr : ℕ) : ℕ :=
  f.sh_size symtab_hdr / (f.sh_entsize symtab_hdr).toNat

/-- The symbols of the tables. -/
def symbolsIn (symtab_hdr strtab_hdr : ℕ) : List Elf32Sym :=
  (List.range (f.symbolCount symtab_hdr)).map
    (f.symbolAt (f.sh_offset symtab_hdr) (f.sh_offset strtab_hdr))

/-- The symbols of the file, as a `Library` has them. -/
def symtab : Option (List Elf32Sym) :=
  if f.e_shoff = 0 ∨ f.e_shstrndx = SHN_UNDEF then none
  else
    match f.headers with
    | ⟨some symtab_hdr, some strtab_hdr⟩ =>
      some (f.symbolsIn symtab_hdr strtab_hdr)
    | _ => none

end MappedFile

end TickrateEnabler
