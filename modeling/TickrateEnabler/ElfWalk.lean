import TickrateEnabler.ElfFile

/-!
# Walks through the file of a library

The walk through the file of a library returns exactly when all offsets it follows stay in
the file and `sh_entsize` is not 0 (`Readable`), and then it does what `resolve` does on the
symbols of the file (`gives_walk`). In a well-formed file every walk does
(`WellFormed.readable`). A malformed file may lead anywhere : it is safe only when the cache
answers, or when the walk stays in the file by chance and finds nothing or the address 0
(`walksSafely_iff`).
-/

namespace TickrateEnabler

open Checked FirstWins

namespace MappedFile

variable (f : MappedFile)

/-! ## When the walk stays in the file -/

theorem gives_read8 (p : ℕ) : Gives (f.read8 p) (f.Inside p 1) (f.mem p) :=
  .check _ _

theorem gives_read16 (p : ℕ) : Gives (f.read16 p) (f.Inside p 2) (u16 f.mem p) :=
  .check _ _

theorem gives_read32 (p : ℕ) : Gives (f.read32 p) (f.Inside p 4) (u32 f.mem p) :=
  .check _ _

theorem gives_divide (a b : BitVec 32) : Gives (divide a b) (b ≠ 0) (a.toNat / b.toNat) :=
  .check _ _

/-- A section name can be compared with `.symtab` and then with `.strtab`. -/
def NameReadable (name : List Byte) : Prop :=
  ¬name <+: ascii ".symtab" ∧
    (ascii ".symtab" ++ [0] <+: name ∨ ¬name <+: ascii ".strtab")

/-- The round of the section `i` reads in the file. -/
def SectionReadable (i : ℕ) : Prop :=
  f.Inside (f.sectionHeader i) 4 ∧ NameReadable (f.sectionName i)

/-- The round of the symbol `i` does. -/
def SymbolReadable (symtab strtab i : ℕ) : Prop :=
  f.Inside (symtab + 16 * i) 16 ∧ ((f.symbolAt symtab strtab i).skipped = true ∨
    0 ∈ f.rest (strtab + (u32 f.mem (symtab + 16 * i)).toNat))

/-- The loop ends at the symbol `i`. -/
def IsHit (symbol : Name) (symtab strtab i : ℕ) : Prop :=
  (f.symbolAt symtab strtab i).skipped = false ∧ symbol = (f.symbolAt symtab strtab i).name

/-- The rounds from `i` on, `n` of them, read in the file until one is the last. -/
def SymbolsReadable (symbol : Name) (symtab strtab i n : ℕ) : Prop :=
  ∀ j, i ≤ j → j < i + n → (∀ k, i ≤ k → k < j → ¬f.IsHit symbol symtab strtab k) →
    f.SymbolReadable symtab strtab j

theorem gives_sectionStep (i : ℕ) (h : Headers) :
    Gives (f.sectionStep f.e_shoff.toNat (f.sh_offset f.shstrtab_hdr) i h) (f.SectionReadable i)
      (f.note h i) := by
  unfold sectionStep
  refine (f.gives_read32 _).bind fun _ => (gives_strcmp _ (f.sectionName i)).bind fun _ => ?_
  by_cases hsym : ascii ".symtab" ++ [0] <+: f.sectionName i
  · have hnote : f.note h i = { h with symtab_hdr := some (f.sectionHeader i) } := if_pos hsym
    rw [decide_eq_true hsym, hnote]
    exact (Gives.of_ok _).congr (iff_of_true trivial (Or.inl hsym))
  · rw [decide_eq_false hsym]
    have hreadable : ¬f.sectionName i <+: ascii ".strtab" ∧ True ↔
        ascii ".symtab" ++ [0] <+: f.sectionName i ∨ ¬f.sectionName i <+: ascii ".strtab" := by
      rw [and_true, or_iff_right hsym]
    refine ((gives_strcmp _ (f.sectionName i)).bind fun _ => ?_).congr hreadable
    rw [note, if_neg hsym]
    by_cases hstr : ascii ".strtab" ++ [0] <+: f.sectionName i
    · rw [decide_eq_true hstr, if_pos hstr]
      exact .of_ok _
    · rw [decide_eq_false hstr, if_neg hstr]
      exact .of_ok _

theorem gives_sectionLoop (n i : ℕ) (h : Headers) :
    Gives (f.sectionLoop f.e_shoff.toNat (f.sh_offset f.shstrtab_hdr) n i h)
      (∀ j, i ≤ j → j < i + n → f.SectionReadable j) ((List.range' i n).foldl f.note h) := by
  induction n generalizing i h with
  | zero => exact (Gives.of_ok _).congr (iff_of_true trivial fun j hle hlt => by omega)
  | succ n ih =>
    refine ((f.gives_sectionStep i h).bind fun _ => ih (i + 1) _).congr ?_
    constructor
    · rintro ⟨hi, hrest⟩ j hle hlt
      rcases Nat.eq_or_lt_of_le hle with rfl | hgt
      · exact hi
      · exact hrest j hgt (by omega)
    · intro hall
      exact ⟨hall i le_rfl (by omega), fun j hle hlt => hall j (by omega) (by omega)⟩

theorem take_cstring (bs : List Byte) : bs.take (cstring bs).length = cstring bs :=
  (List.prefix_iff_eq_take.1 (List.takeWhile_prefix _)).symm

/-- Part of what lies in the file lies in it : the bytes do not wrap. -/
theorem inside_part {p n k m : ℕ} (h : f.Inside p n) (hk : k + m ≤ n) : f.Inside (p + k) m := by
  have hsize : f.size ≤ 2 ^ 32 - 2 ^ 12 := f.length_le
  unfold Inside at h ⊢
  omega

/-- Reading an entry in parts is reading all its bytes : they do not wrap. -/
theorem inside_entry_iff (p : ℕ) :
    f.Inside (p + 12) 1 ∧ f.Inside p 4 ∧ f.Inside (p + 14) 2 ↔ f.Inside p 16 := by
  have hsize : f.size ≤ 2 ^ 32 - 2 ^ 12 := f.length_le
  unfold Inside
  omega

theorem inside_entry_and_iff (p : ℕ) (P : Prop) :
    f.Inside (p + 12) 1 ∧ f.Inside p 4 ∧ f.Inside (p + 14) 2 ∧ P ↔ f.Inside p 16 ∧ P := by
  rw [← inside_entry_iff, and_assoc, and_assoc]

theorem symbolsReadable_succ_iff {symbol : Name} {symtab strtab i n : ℕ} :
    f.SymbolsReadable symbol symtab strtab i (n + 1) ↔
      f.SymbolReadable symtab strtab i ∧
        (f.IsHit symbol symtab strtab i ∨ f.SymbolsReadable symbol symtab strtab (i + 1) n) := by
  constructor
  · intro h
    refine ⟨h i le_rfl (by omega) fun k hle hlt => by omega, or_iff_not_imp_left.2 fun hhit => ?_⟩
    intro j hle hlt hno
    refine h j (by omega) (by omega) fun k hk hkj => ?_
    rcases Nat.eq_or_lt_of_le hk with rfl | hgt
    · exact hhit
    · exact hno k hgt hkj
  · rintro ⟨hi, hrest⟩ j hle hlt hno
    rcases Nat.eq_or_lt_of_le hle with rfl | hgt
    · exact hi
    · exact hrest.resolve_left (hno i le_rfl hgt) j hgt (by omega) fun k hk => hno k (by omega)

/-- The loop is the scan of the symbols it reads. -/
theorem gives_symbolLoop (l_addr : BitVec 32) {symbol : Name} (hsymbol : 0 ∉ symbol)
    (allocated : ℕ → Bool) (symtab strtab n i : ℕ) (libtable : LibSymbolTable) :
    Gives (f.symbolLoop l_addr symbol allocated symtab strtab n i libtable)
      (f.SymbolsReadable symbol symtab strtab i n)
      (LibSymbolTable.scan l_addr symbol allocated i
        ((List.range' i n).map (f.symbolAt symtab strtab)) libtable) := by
  induction n generalizing i libtable with
  | zero => exact (Gives.of_ok _).congr (iff_of_true trivial fun j hle hlt => by omega)
  | succ n ih =>
    let name := f.rest (strtab + (u32 f.mem (symtab + 16 * i)).toNat)
    have hname : (f.symbolAt symtab strtab i).name = cstring name := rfl
    have hskipped : (u16 f.mem (symtab + 16 * i + 14) = SHN_UNDEF ∨
        (f.mem (symtab + 16 * i + 12) &&& 0xf ≠ STT_FUNC ∧
          f.mem (symtab + 16 * i + 12) &&& 0xf ≠ STT_OBJECT)) ↔
        (f.symbolAt symtab strtab i).skipped = true := (decide_eq_true_iff).symm
    rw [List.range'_succ, List.map_cons, LibSymbolTable.scan, symbolLoop]
    by_cases hs : (f.symbolAt symtab strtab i).skipped = true
    · rw [if_pos hs]
      refine ((f.gives_read8 _).bind fun _ => (f.gives_read32 _).bind fun _ =>
        (f.gives_read16 _).bind (Q := f.SymbolsReadable symbol symtab strtab (i + 1) n)
          fun _ => ?_).congr ?_
      · show Gives (ite _ _ _) _ _
        rw [if_pos (hskipped.2 hs)]
        exact ih (i + 1) libtable
      · have hmiss : ¬f.IsHit symbol symtab strtab i := fun hit =>
          absurd (hs.symm.trans hit.1) (by decide)
        rw [inside_entry_and_iff, symbolsReadable_succ_iff, SymbolReadable,
          and_iff_left (Or.inl hs), or_iff_right hmiss]
    · rw [if_neg hs]
      refine ((f.gives_read8 _).bind fun _ => (f.gives_read32 _).bind fun _ =>
        (f.gives_read16 _).bind (Q := 0 ∈ name ∧ (f.IsHit symbol symtab strtab i ∨
          f.SymbolsReadable symbol symtab strtab (i + 1) n)) fun _ => ?_).congr ?_
      · show Gives (ite _ _ _) _ _
        rw [if_neg (mt hskipped.1 hs)]
        refine (gives_strlen name).bind fun hzero => ?_
        have hentry : f.Inside (symtab + 16 * i) 16 := (f.inside_entry_iff _).1 ⟨‹_›, ‹_›, ‹_›⟩
        have hvalue : f.Inside (symtab + 16 * i + 4) 4 := f.inside_part hentry (by decide)
        refine ((f.gives_read32 _).bind fun _ => ?_).congr (and_iff_right hvalue)
        refine ((gives_strcmp symbol name).bind fun _ => ?_).congr
          (and_iff_right (not_prefix_of_zero_mem hsymbol hzero))
        have hcmp := append_zero_prefix_iff hsymbol hzero
        rw [take_cstring]
        by_cases hhit : symbol = (f.symbolAt symtab strtab i).name
        · rw [if_pos hhit, decide_eq_true (hcmp.2 hhit)]
          exact (Gives.of_ok _).congr
            (iff_of_true trivial (Or.inl ⟨Bool.eq_false_iff.2 hs, hhit⟩))
        · rw [if_neg hhit, decide_eq_false (mt hcmp.1 hhit)]
          exact (ih (i + 1) _).congr (or_iff_right fun hit => hhit hit.2).symm
      · rw [inside_entry_and_iff, symbolsReadable_succ_iff, SymbolReadable, or_iff_right hs,
          and_assoc]

/-- The walk reads the two tables in the file, from the symbol `last_pos` on. -/
structure TablesReadable (symbol : Name) (last_pos symtab_hdr strtab_hdr : ℕ) : Prop where
  symtab_offset : f.Inside (symtab_hdr + 16) 4
  strtab_offset : f.Inside (strtab_hdr + 16) 4
  symtab_size : f.Inside (symtab_hdr + 20) 4
  symtab_entsize : f.Inside (symtab_hdr + 36) 4
  entsize_ne_zero : f.sh_entsize symtab_hdr ≠ 0
  symbols : f.SymbolsReadable symbol (f.sh_offset symtab_hdr) (f.sh_offset strtab_hdr) last_pos
    (f.symbolCount symtab_hdr - last_pos)

/-- The walk reads the section headers, their names and the two tables in the file. -/
structure SectionsReadable (symbol : Name) (last_pos : ℕ) : Prop where
  shstrtab_offset : f.Inside (f.shstrtab_hdr + 16) 4
  sections : ∀ i < f.e_shnum, f.SectionReadable i
  tables : ∀ symtab_hdr strtab_hdr, f.headers = ⟨some symtab_hdr, some strtab_hdr⟩ →
    f.TablesReadable symbol last_pos symtab_hdr strtab_hdr

/-- All offsets the walk follows stay in the file, and it divides by no 0. -/
def Readable (symbol : Name) (last_pos : ℕ) : Prop :=
  36 ≤ f.size ∧ (f.e_shoff = 0 ∨ 52 ≤ f.size ∧
    (f.e_shstrndx = SHN_UNDEF ∨ f.SectionsReadable symbol last_pos))

theorem inside_iff_of_lt {p n : ℕ} (hp : p < 2 ^ 32) : f.Inside p n ↔ p + n ≤ f.size := by
  rw [Inside, Nat.mod_eq_of_lt hp]

theorem gives_scanTables (l_addr : BitVec 32) {symbol : Name} (hsymbol : 0 ∉ symbol)
    (allocated : ℕ → Bool) (libtable : LibSymbolTable) (symtab_hdr strtab_hdr : ℕ) :
    let r := LibSymbolTable.scan l_addr symbol allocated libtable.last_pos
      ((f.symbolsIn symtab_hdr strtab_hdr).drop libtable.last_pos) libtable
    Gives (f.scanTables l_addr symbol allocated libtable symtab_hdr strtab_hdr)
      (f.TablesReadable symbol libtable.last_pos symtab_hdr strtab_hdr)
      ((r.1.map Symbol.address).getD 0, r.2) := by
  have hdrop : (f.symbolsIn symtab_hdr strtab_hdr).drop libtable.last_pos =
      (List.range' libtable.last_pos (f.symbolCount symtab_hdr - libtable.last_pos)).map
        (f.symbolAt (f.sh_offset symtab_hdr) (f.sh_offset strtab_hdr)) := by
    rw [symbolsIn, ← List.map_drop, List.range_eq_range', List.drop_range', Nat.mul_one,
      Nat.zero_add]
  rw [hdrop]
  refine ((f.gives_read32 _).bind fun _ => (f.gives_read32 _).bind fun _ =>
    (f.gives_read32 _).bind fun _ => (f.gives_read32 _).bind fun _ =>
      (gives_divide _ _).bind fun _ =>
        (f.gives_symbolLoop l_addr hsymbol allocated _ _ _ _ libtable).bind_ok _).congr ?_
  constructor
  · rintro ⟨hsymtab, hstrtab, hsize, hentsize, hne, hsymbols⟩
    exact ⟨hsymtab, hstrtab, hsize, hentsize, hne, hsymbols⟩
  · rintro ⟨hsymtab, hstrtab, hsize, hentsize, hne, hsymbols⟩
    exact ⟨hsymtab, hstrtab, hsize, hentsize, hne, hsymbols⟩

theorem gives_walkSections (l_addr : BitVec 32) {symbol : Name} (hsymbol : 0 ∉ symbol)
    (allocated : ℕ → Bool) (libtable : LibSymbolTable) :
    Gives (f.walkSections l_addr symbol allocated libtable f.e_shoff f.e_shstrndx)
      (f.Inside 48 2 ∧ f.SectionsReadable symbol libtable.last_pos)
      (match f.headers with
        | ⟨some symtab_hdr, some strtab_hdr⟩ =>
          let r := LibSymbolTable.scan l_addr symbol allocated libtable.last_pos
            ((f.symbolsIn symtab_hdr strtab_hdr).drop libtable.last_pos) libtable
          ((r.1.map Symbol.address).getD 0, r.2)
        | _ => (0, libtable)) := by
  have hloop : Gives (f.sectionLoop f.e_shoff.toNat (f.sh_offset f.shstrtab_hdr) f.e_shnum 0
      ⟨none, none⟩) (∀ i < f.e_shnum, f.SectionReadable i) f.headers := by
    rw [headers, List.range_eq_range']
    exact (f.gives_sectionLoop _ 0 _).congr (by simp)
  refine ((f.gives_read16 _).bind fun _ => ((f.gives_read32 _).bind fun _ =>
    (hloop.bind (Q := ∀ symtab_hdr strtab_hdr, f.headers = ⟨some symtab_hdr, some strtab_hdr⟩ →
      f.TablesReadable symbol libtable.last_pos symtab_hdr strtab_hdr) fun _ => ?_)).congr ?_)
  · rcases hheaders : f.headers with ⟨- | symtab_hdr, - | strtab_hdr⟩
    · exact (Gives.of_ok _).congr (iff_of_true trivial (by simp))
    · exact (Gives.of_ok _).congr (iff_of_true trivial (by simp))
    · exact (Gives.of_ok _).congr (iff_of_true trivial (by simp))
    · refine (f.gives_scanTables l_addr hsymbol allocated libtable _ _).congr ?_
      constructor
      · rintro h a b hab
        obtain ⟨ha, hb⟩ := Headers.mk.inj hab
        obtain rfl := Option.some.inj ha
        obtain rfl := Option.some.inj hb
        exact h
      · exact fun h => h _ _ rfl
  · constructor
    · rintro ⟨hoffset, hsections, htables⟩
      exact ⟨hoffset, hsections, htables⟩
    · rintro ⟨hoffset, hsections, htables⟩
      exact ⟨hoffset, hsections, htables⟩

/-- A walk that does not fail does what `resolve` does on the symbols of the file. -/
theorem gives_walk (l_addr : BitVec 32) {symbol : Name} (hsymbol : 0 ∉ symbol)
    (allocated : ℕ → Bool) {libtable : LibSymbolTable}
    (hmiss : libtable.table.findSymbol symbol symbol.length = none) :
    Gives (f.walk l_addr symbol allocated libtable) (f.Readable symbol libtable.last_pos)
      (libtable.resolve ⟨l_addr, f.symtab⟩ symbol ⟨true, allocated⟩) := by
  have h36 : f.Inside 32 4 ↔ 36 ≤ f.size := f.inside_iff_of_lt (by decide)
  have h52 : f.Inside 50 2 ↔ 52 ≤ f.size := f.inside_iff_of_lt (by decide)
  have h50 : f.Inside 48 2 ↔ 50 ≤ f.size := f.inside_iff_of_lt (by decide)
  rw [Readable, ← h36, ← h52]
  refine (f.gives_read32 32).bind fun _ => ?_
  by_cases hoff : f.e_shoff = 0
  · have hsymtab : f.symtab = none := if_pos (Or.inl hoff)
    show Gives (ite (f.e_shoff = 0) _ _) _ _
    rw [if_pos hoff, hsymtab, LibSymbolTable.resolve_of_no_symtab hmiss]
    exact (Gives.of_ok _).congr (iff_of_true trivial (Or.inl hoff))
  · show Gives (ite (f.e_shoff = 0) _ _) _ _
    rw [if_neg hoff, or_iff_right hoff]
    refine (f.gives_read16 50).bind fun hin => ?_
    by_cases hndx : f.e_shstrndx = SHN_UNDEF
    · have hsymtab : f.symtab = none := if_pos (Or.inr hndx)
      show Gives (ite (f.e_shstrndx = SHN_UNDEF) _ _) _ _
      rw [if_pos hndx, hsymtab, LibSymbolTable.resolve_of_no_symtab hmiss]
      exact (Gives.of_ok _).congr (iff_of_true trivial (Or.inl hndx))
    · have hcount : f.Inside 48 2 := h50.2 (le_trans (by decide) (h52.1 hin))
      have hsections := f.gives_walkSections l_addr hsymbol allocated libtable
      show Gives (ite (f.e_shstrndx = SHN_UNDEF) _ _) _ _
      rw [and_iff_right hcount] at hsections
      rw [if_neg hndx, or_iff_right hndx, symtab, if_neg (not_or.2 ⟨hoff, hndx⟩)]
      rcases hheaders : f.headers with ⟨- | symtab_hdr, - | strtab_hdr⟩ <;>
        rw [hheaders] at hsections
      · exact (LibSymbolTable.resolve_of_no_symtab hmiss ..).symm ▸ hsections
      · exact (LibSymbolTable.resolve_of_no_symtab hmiss ..).symm ▸ hsections
      · exact (LibSymbolTable.resolve_of_no_symtab hmiss ..).symm ▸ hsections
      · exact (LibSymbolTable.resolve_of_symtab hmiss ..).symm ▸ hsections

/-! ## Well-formed files -/

/-- The string table is in the file and ends with a zero. -/
structure IsStringTable (hdr : ℕ) : Prop where
  pos : 0 < f.sh_size hdr
  le : f.sh_offset hdr + f.sh_size hdr ≤ f.size
  last : f.mem (f.sh_offset hdr + f.sh_size hdr - 1) = 0

/-- The two tables are in the file, the entries have a size, and their names are in the string
table. -/
structure WellFormedTables (symtab_hdr strtab_hdr : ℕ) : Prop where
  symtab : f.sh_offset symtab_hdr + f.sh_size symtab_hdr ≤ f.size
  entsize : f.sh_entsize symtab_hdr ≠ 0
  strtab : f.IsStringTable strtab_hdr
  names : ∀ i < f.symbolCount symtab_hdr,
    (u32 f.mem (f.sh_offset symtab_hdr + 16 * i)).toNat < f.sh_size strtab_hdr

/-- The headers, the section names and the two tables are where the file says. -/
structure WellFormed : Prop where
  header : 52 ≤ f.size
  sections : f.e_shoff.toNat + 40 * f.e_shnum ≤ f.size
  shstrndx : f.e_shstrndx.toNat < f.e_shnum
  shstrtab : f.IsStringTable f.shstrtab_hdr
  names : ∀ i < f.e_shnum, f.sh_name i < f.sh_size f.shstrtab_hdr
  tables : ∀ symtab_hdr strtab_hdr, f.headers = ⟨some symtab_hdr, some strtab_hdr⟩ →
    f.WellFormedTables symtab_hdr strtab_hdr

variable {f}

/-- A string that starts in a string table ends in the file. -/
theorem IsStringTable.zero_mem {hdr k : ℕ} (h : f.IsStringTable hdr) (hk : k < f.sh_size hdr) :
    0 ∈ f.rest (f.sh_offset hdr + k) := by
  obtain ⟨-, hle, hlast⟩ := h
  have hsize : f.size ≤ 2 ^ 32 - 2 ^ 12 := f.length_le
  have hlt : f.sh_offset hdr + f.sh_size hdr - 1 < f.bytes.length := by
    unfold size at hle
    omega
  rw [mem, Nat.mod_eq_of_lt (by omega), List.getD_eq_getElem?_getD,
    List.getElem?_eq_getElem hlt, Option.getD_some] at hlast
  rw [rest, Nat.mod_eq_of_lt (by omega), List.mem_drop_iff_getElem]
  refine ⟨f.sh_size hdr - 1 - k, by unfold size at hle; omega, ?_⟩
  have hindex : f.sh_offset hdr + k + (f.sh_size hdr - 1 - k) =
      f.sh_offset hdr + f.sh_size hdr - 1 := by omega
  simp only [hindex, hlast]

/-- The headers that were found are section headers. -/
theorem exists_of_headers {hdr : ℕ}
    (h : f.headers.symtab_hdr = some hdr ∨ f.headers.strtab_hdr = some hdr) :
    ∃ i < f.e_shnum, hdr = f.sectionHeader i := by
  have hall : ∀ hdr, f.headers.symtab_hdr = some hdr ∨ f.headers.strtab_hdr = some hdr →
      ∃ i < f.e_shnum, hdr = f.sectionHeader i := by
    refine List.foldlRecOn (motive := fun h : Headers => ∀ hdr, h.symtab_hdr = some hdr ∨
      h.strtab_hdr = some hdr → ∃ i < f.e_shnum, hdr = f.sectionHeader i) _ _ (by simp)
      fun h ih i hi hdr hfound => ?_
    rw [List.mem_range] at hi
    unfold note at hfound
    split_ifs at hfound
    · rcases hfound with hfound | hfound
      · exact ⟨i, hi, (Option.some.inj hfound).symm⟩
      · exact ih hdr (Or.inr hfound)
    · rcases hfound with hfound | hfound
      · exact ih hdr (Or.inl hfound)
      · exact ⟨i, hi, (Option.some.inj hfound).symm⟩
    · exact ih hdr hfound
  exact hall hdr h

/-- In a well-formed file whose symbols have at least their size, every walk stays in the
file. -/
theorem WellFormed.readable (h : f.WellFormed)
    (hentsize : ∀ symtab_hdr strtab_hdr, f.headers = ⟨some symtab_hdr, some strtab_hdr⟩ →
      16 ≤ (f.sh_entsize symtab_hdr).toNat) (symbol : Name) (last_pos : ℕ) :
    f.Readable symbol last_pos := by
  have hsize : f.size ≤ 2 ^ 32 - 2 ^ 12 := f.length_le
  have hsections := h.sections
  have hheader {i k n : ℕ} (hi : i < f.e_shnum) (hk : k + n ≤ 40) :
      f.Inside (f.sectionHeader i + k) n := by
    unfold Inside sectionHeader
    rw [Nat.mod_eq_of_lt (by omega)]
    omega
  refine ⟨le_trans (by decide) h.header, Or.inr ⟨h.header, Or.inr ⟨?_, fun i hi => ?_, ?_⟩⟩⟩
  · exact hheader h.shstrndx (by decide)
  · have hzero := h.shstrtab.zero_mem (h.names i hi)
    exact ⟨hheader (k := 0) hi (by decide), not_prefix_of_zero_mem (by decide) hzero,
      Or.inr (not_prefix_of_zero_mem (by decide) hzero)⟩
  · intro symtab_hdr strtab_hdr hheaders
    obtain ⟨a, ha, rfl⟩ : ∃ i < f.e_shnum, symtab_hdr = f.sectionHeader i :=
      exists_of_headers (Or.inl (by rw [hheaders]))
    obtain ⟨b, hb, rfl⟩ : ∃ i < f.e_shnum, strtab_hdr = f.sectionHeader i :=
      exists_of_headers (Or.inr (by rw [hheaders]))
    have htables := h.tables _ _ hheaders
    refine ⟨hheader ha (by decide), hheader hb (by decide), hheader ha (by decide),
      hheader ha (by decide), htables.entsize, fun j hle hlt _ => ⟨?_, Or.inr ?_⟩⟩
    · have hle' := htables.symtab
      have hcount : 16 * (j + 1) ≤ f.sh_size (f.sectionHeader a) :=
        calc 16 * (j + 1) ≤ (f.sh_entsize (f.sectionHeader a)).toNat * (j + 1) :=
              Nat.mul_le_mul_right _ (hentsize _ _ hheaders)
          _ ≤ (f.sh_entsize (f.sectionHeader a)).toNat * f.symbolCount (f.sectionHeader a) :=
              Nat.mul_le_mul_left _ (by omega)
          _ ≤ f.sh_size (f.sectionHeader a) := Nat.mul_div_le ..
      unfold Inside
      rw [Nat.mod_eq_of_lt (by omega)]
      omega
    · exact htables.strtab.zero_mem (htables.names j (by omega))

end MappedFile

/-! ## Resolving from the file -/

namespace LibSymbolTable

open Library

/-- What the scan of a name that is not cached finds. -/
theorem scan_fst {symbol : Name} (l_addr : BitVec 32) (allocated : ℕ → Bool)
    (syms : List Elf32Sym) (i : ℕ) {libtable : LibSymbolTable} (hwf : libtable.table.WF)
    (hnone : libtable.table.lookup symbol = none) :
    (scan l_addr symbol allocated i syms libtable).1.map Symbol.address =
      firstOf (entries l_addr syms) symbol := by
  induction syms generalizing i libtable with
  | nil => rfl
  | cons sym syms ih =>
    rw [scan, entries_cons]
    by_cases hs : sym.skipped = true
    · rw [if_pos hs, if_pos hs]
      exact ih (i + 1) hwf hnone
    · obtain ⟨hwf', hl, ha⟩ :=
        hwf.internSymbol sym.name (l_addr + sym.st_value) (allocated i)
      rw [if_neg hs, if_neg hs, firstOf_cons]
      by_cases hhit : symbol = sym.name
      · rw [← hhit, hnone] at ha
        simp only [← hhit, if_true]
        exact congrArg some ha
      · rw [if_neg hhit, if_neg hhit]
        refine ih (i + 1) hwf' ?_
        show SymbolTable.lookup _ symbol = none
        rw [hl, put, hnone, if_neg hhit]
        rfl

/-- Without a cache hit the answer is that of a fresh scan from `last_pos` on. -/
theorem resolve_fst_of_not_cached {libtable : LibSymbolTable} (hwf : libtable.table.WF)
    {symbol : Name} (hmiss : libtable.table.findSymbol symbol symbol.length = none)
    (l_addr : BitVec 32) (symtab : Option (List Elf32Sym)) (allocated : ℕ → Bool) :
    (libtable.resolve ⟨l_addr, symtab⟩ symbol ⟨true, allocated⟩).1 =
      freshScan ⟨l_addr, symtab.map (List.drop libtable.last_pos)⟩ symbol := by
  have hnone : libtable.table.lookup symbol = none := by
    rw [SymbolTable.lookup, hmiss]
    rfl
  rw [freshScan_eq]
  cases symtab with
  | none => exact congrArg Prod.fst (LibSymbolTable.resolve_of_no_symtab hmiss l_addr allocated)
  | some symtab =>
    rw [LibSymbolTable.resolve_of_symtab hmiss]
    exact congrArg (Option.getD · 0) (scan_fst l_addr allocated _ _ hwf hnone)

/-- `ResolveSymbol` on a library with this table, when the system maps its file. -/
def resolveMapped (libtable : LibSymbolTable) (f : MappedFile) (l_addr : BitVec 32)
    (symbol : Name) (allocated : ℕ → Bool) : Except Fault (BitVec 32 × LibSymbolTable) :=
  match libtable.table.findSymbol symbol symbol.length with
  | some symbol_entry => .ok (symbol_entry.address, libtable)
  | none => f.walk l_addr symbol allocated libtable

/-- On the symbols of the file this is `resolve`, unless the walk leaves the file or divides by
0. -/
theorem resolveMapped_of_readable {libtable : LibSymbolTable} {f : MappedFile} {symbol : Name}
    (hsymbol : 0 ∉ symbol) (hread : f.Readable symbol libtable.last_pos) (l_addr : BitVec 32)
    (allocated : ℕ → Bool) :
    libtable.resolveMapped f l_addr symbol allocated =
      .ok (libtable.resolve ⟨l_addr, f.symtab⟩ symbol ⟨true, allocated⟩) := by
  unfold resolveMapped
  cases hf : libtable.table.findSymbol symbol symbol.length with
  | some symbol_entry => simp only [LibSymbolTable.resolve, hf]
  | none => exact (f.gives_walk l_addr hsymbol allocated hf).ok hread

/-- The call reads only bytes of the file and divides by no 0, and what it does not find in
the cache is `NULL` when the file is malformed. -/
def WalksSafely (libtable : LibSymbolTable) (f : MappedFile) (l_addr : BitVec 32)
    (symbol : Name) (allocated : ℕ → Bool) : Prop :=
  ∃ r, libtable.resolveMapped f l_addr symbol allocated = .ok r ∧
    (libtable.cached symbol = false → ¬f.WellFormed → r.1 = 0)

end LibSymbolTable

/-- The walk is safe exactly when the name is cached, or all offsets that are followed stay in
the file, `sh_entsize` is not 0, and the file is well-formed, or the first symbol of the name
from `last_pos` on that is not skipped has the address 0, or there is none. -/
theorem walksSafely_iff (f : MappedFile) (l_addr : BitVec 32) (symbol : {str : Name // 0 ∉ str})
    (allocated : ℕ → Bool) (libtable : {t : LibSymbolTable // t.table.WF}) :
    libtable.1.WalksSafely f l_addr symbol allocated ↔
      libtable.1.cached symbol = true ∨ (f.Readable symbol libtable.1.last_pos ∧
        (f.WellFormed ∨ Library.freshScan
          ⟨l_addr, f.symtab.map (List.drop libtable.1.last_pos)⟩ symbol = 0)) := by
  obtain ⟨symbol, hsymbol⟩ := symbol
  obtain ⟨libtable, hwf⟩ := libtable
  unfold LibSymbolTable.WalksSafely LibSymbolTable.resolveMapped LibSymbolTable.cached
  dsimp only
  cases hf : libtable.table.findSymbol symbol symbol.length with
  | some symbol_entry => simp
  | none =>
    have hwalk := f.gives_walk l_addr hsymbol allocated hf
    have hfst := LibSymbolTable.resolve_fst_of_not_cached hwf hf l_addr f.symtab allocated
    rw [← hfst]
    simp only [Option.isSome_none, Bool.false_eq_true, false_or, true_implies]
    constructor
    · rintro ⟨r, hr, hnull⟩
      have hread : f.Readable symbol libtable.last_pos := hwalk.exists_ok_iff.1 ⟨r, hr⟩
      obtain rfl := Except.ok.inj ((hwalk.ok hread).symm.trans hr)
      exact ⟨hread, or_iff_not_imp_left.2 hnull⟩
    · rintro ⟨hread, hnull⟩
      exact ⟨_, hwalk.ok hread, or_iff_not_imp_left.1 hnull⟩

/-- A word, little endian. -/
def wordBytes (w : BitVec 32) : List Byte :=
  [w.extractLsb' 0 8, w.extractLsb' 8 8, w.extractLsb' 16 8, w.extractLsb' 24 8]

theorem wordBytes_length (w : BitVec 32) : (wordBytes w).length = 4 :=
  rfl

/-- A section header. -/
def sectionBytes (sh_name sh_offset sh_size sh_entsize : BitVec 32) : List Byte :=
  wordBytes sh_name ++ List.replicate 12 0 ++ wordBytes sh_offset ++ wordBytes sh_size ++
    List.replicate 12 0 ++ wordBytes sh_entsize

theorem sectionBytes_length (sh_name sh_offset sh_size sh_entsize : BitVec 32) :
    (sectionBytes sh_name sh_offset sh_size sh_entsize).length = 40 := by
  simp only [sectionBytes, List.length_append, List.length_replicate, wordBytes_length]

/-- A file with one symbol, `a`, at 0x10. The section headers are at 52, the section names at
212, `.symtab` at 229 and `.strtab` at 245. -/
def oneSymbolFile (sh_entsize strtab_size : BitVec 32) : MappedFile where
  bytes := List.replicate 32 0 ++ wordBytes 52 ++ List.replicate 12 0 ++ [4, 0, 1, 0] ++
    sectionBytes 0 0 0 0 ++ sectionBytes 0 212 17 0 ++ sectionBytes 1 229 16 sh_entsize ++
    sectionBytes 9 245 strtab_size 0 ++ [0] ++ ascii ".symtab" ++ [0] ++ ascii ".strtab" ++ [0] ++
    wordBytes 1 ++ wordBytes 0x10 ++ wordBytes 0 ++ [0x12, 0, 1, 0] ++ [0] ++ ascii "a" ++ [0]
  length_le := by
    have hsymtab : (ascii ".symtab").length = 7 := by decide
    have hstrtab : (ascii ".strtab").length = 7 := by decide
    have ha : (ascii "a").length = 1 := by decide
    simp only [List.length_append, List.length_replicate, List.length_cons, List.length_nil,
      sectionBytes_length, wordBytes_length, hsymtab, hstrtab, ha]
    decide

/-- A file of four bytes. -/
def truncatedFile : MappedFile where
  bytes := [0x7F, 0x45, 0x4C, 0x46]
  length_le := by decide

/-- The walk leaves a truncated file, divides by an `sh_entsize` of 0, and finds the symbol in a
file whose string table does not end in it. -/
theorem not_walksSafely_malformed :
    ¬(LibSymbolTable.new 0x1000).WalksSafely truncatedFile 0x1000 (ascii "a") (fun _ => true) ∧
      ¬(LibSymbolTable.new 0x1000).WalksSafely (oneSymbolFile 0 3) 0x1000 (ascii "a")
        (fun _ => true) ∧
      ¬(LibSymbolTable.new 0x1000).WalksSafely (oneSymbolFile 16 1000) 0x1000 (ascii "a")
        (fun _ => true) := by
  have hmalformed : ¬(oneSymbolFile 16 1000).WellFormed := by
    intro h
    have hheaders : (oneSymbolFile 16 1000).headers = ⟨some 132, some 172⟩ := by decide +kernel
    exact absurd (h.tables 132 172 hheaders).strtab.le (by decide +kernel)
  have htruncated : ((LibSymbolTable.new 0x1000).resolveMapped truncatedFile 0x1000 (ascii "a")
      (fun _ => true)).map Prod.fst = .error .outOfBounds := by decide +kernel
  have hzero : ((LibSymbolTable.new 0x1000).resolveMapped (oneSymbolFile 0 3) 0x1000 (ascii "a")
      (fun _ => true)).map Prod.fst = .error .divideByZero := by decide +kernel
  have hfound : ((LibSymbolTable.new 0x1000).resolveMapped (oneSymbolFile 16 1000) 0x1000
      (ascii "a") (fun _ => true)).map Prod.fst = .ok 0x1010 := by decide +kernel
  refine ⟨?_, ?_, ?_⟩
  · rintro ⟨r, hr, -⟩
    rw [hr] at htruncated
    cases htruncated
  · rintro ⟨r, hr, -⟩
    rw [hr] at hzero
    cases hzero
  · rintro ⟨r, hr, hnull⟩
    rw [hr] at hfound
    have hr : r.1 = 0x1010 := Except.ok.inj hfound
    rw [hnull (by decide +kernel) hmalformed] at hr
    exact absurd hr (by decide)

end TickrateEnabler
