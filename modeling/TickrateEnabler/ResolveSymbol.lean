import TickrateEnabler.SymbolTable
import TickrateEnabler.Transition
import Mathlib.Data.List.Induction

/-!
# Resolving symbols

`MemoryUtils::ResolveSymbol` on Linux. Each library has a `LibSymbolTable`, a cache
that its scans fill, and `last_pos`, the position behind the last symbol it found.

`Scanned` relates a table to the symbols of its library: the table maps the names as
the first `k` symbols do, where `k` is `last_pos`, or the number of all symbols once a
scan found nothing. So a scan from `last_pos` on, over symbols it may have seen before,
and a hit in the cache both give what a scan without a cache gives
whatever was resolved before
(`resolveSymbol_eq_freshScan`).
-/

namespace TickrateEnabler

open FirstWins Transition

/-- `SHN_UNDEF`. -/
def SHN_UNDEF : BitVec 16 :=
  0

/-- `STT_OBJECT`. -/
def STT_OBJECT : BitVec 8 :=
  1

/-- `STT_FUNC`. -/
def STT_FUNC : BitVec 8 :=
  2

/-- `Elf32_Sym`, with the name in the string table for `st_name`. -/
structure Elf32Sym where
  name : Name
  st_value : BitVec 32
  st_info : BitVec 8
  st_shndx : BitVec 16

/-- `ELF32_ST_TYPE(sym.st_info)`. -/
def Elf32Sym.type (sym : Elf32Sym) : BitVec 8 :=
  sym.st_info &&& 0xf

/-- The symbols that are skipped. -/
def Elf32Sym.skipped (sym : Elf32Sym) : Bool :=
  sym.st_shndx = SHN_UNDEF ∨ (sym.type ≠ STT_FUNC ∧ sym.type ≠ STT_OBJECT)

/-- A `link_map` with the symbols of the file at `l_name`. `symtab` is `none` when the
file has no section headers, no `.symtab` or no `.strtab`. -/
structure Library where
  l_addr : BitVec 32
  symtab : Option (List Elf32Sym)

/-- `LibSymbolTable`. -/
structure LibSymbolTable where
  table : SymbolTable
  lib_base : BitVec 32
  last_pos : ℕ

/-- What the system does in one call: whether the file can be opened and mapped, and
whether a table that is resized at the symbol `i` gets its memory. -/
structure System where
  opens : Bool
  allocated : ℕ → Bool

namespace LibSymbolTable

/-- A new table. -/
def new (lib_base : BitVec 32) : LibSymbolTable :=
  ⟨.initializeTable, lib_base, 0⟩

/-- The loop of `ResolveSymbol` over the symbols from `i` on. -/
def scan (l_addr : BitVec 32) (symbol : Name) (allocated : ℕ → Bool) :
    ℕ → List Elf32Sym → LibSymbolTable → Option Symbol × LibSymbolTable
  | _, [], libtable => (none, libtable)
  | i, sym :: syms, libtable =>
    if sym.skipped then scan l_addr symbol allocated (i + 1) syms libtable
    else
      let r := libtable.table.internSymbol sym.name sym.name.length (l_addr + sym.st_value)
        (allocated i)
      if symbol = sym.name then (some r.1, { libtable with table := r.2, last_pos := i + 1 })
      else scan l_addr symbol allocated (i + 1) syms { libtable with table := r.2 }

/-- `ResolveSymbol` once it has the table of the library. -/
def resolve (libtable : LibSymbolTable) (dlmap : Library) (symbol : Name) (sys : System) :
    BitVec 32 × LibSymbolTable :=
  match libtable.table.findSymbol symbol symbol.length with
  | some symbol_entry => (symbol_entry.address, libtable)
  | none =>
    if !sys.opens then (0, libtable)
    else
      match dlmap.symtab with
      | none => (0, libtable)
      | some symtab =>
        let r := scan dlmap.l_addr symbol sys.allocated libtable.last_pos
          (symtab.drop libtable.last_pos) libtable
        ((r.1.map Symbol.address).getD 0, r.2)

end LibSymbolTable

/-- `MemoryUtils`, that is its `m_SymTables`. -/
abbrev MemoryUtils :=
  List LibSymbolTable

namespace MemoryUtils

/-- The position of the table of a library, or the end. -/
def tableIndex (m : MemoryUtils) (l_addr : BitVec 32) : ℕ :=
  m.findIdx fun libtable => libtable.lib_base = l_addr

/-- `ResolveSymbol`. A library without a table gets one at the end. -/
def resolveSymbol (m : MemoryUtils) (dlmap : Library) (symbol : Name) (sys : System) :
    BitVec 32 × MemoryUtils :=
  let i := m.tableIndex dlmap.l_addr
  match m[i]? with
  | some libtable =>
    let r := libtable.resolve dlmap symbol sys
    (r.1, m.set i r.2)
  | none =>
    let r := (LibSymbolTable.new dlmap.l_addr).resolve dlmap symbol sys
    (r.1, m ++ [r.2])

/-- The table a call on the library works with. -/
def tableOf (m : MemoryUtils) (l_addr : BitVec 32) : LibSymbolTable :=
  (m[m.tableIndex l_addr]?).getD (.new l_addr)

end MemoryUtils

/-! ## A scan without a cache -/

namespace Library

/-- The symbols of the library. -/
def symbols (dlmap : Library) : List Elf32Sym :=
  dlmap.symtab.getD []

/-- The address of the first defined function or object of the name, else `NULL`. -/
def freshScan (dlmap : Library) (symbol : Name) : BitVec 32 :=
  match dlmap.symbols.find? fun sym => !sym.skipped && sym.name = symbol with
  | some sym => dlmap.l_addr + sym.st_value
  | none => 0

/-- The names and addresses of symbols that are not skipped. -/
def entries (l_addr : BitVec 32) (syms : List Elf32Sym) : List (Name × BitVec 32) :=
  (syms.filter fun sym => !sym.skipped).map fun sym => (sym.name, l_addr + sym.st_value)

theorem entries_cons (l_addr : BitVec 32) (sym : Elf32Sym) (syms : List Elf32Sym) :
    entries l_addr (sym :: syms) =
      if sym.skipped then entries l_addr syms
      else (sym.name, l_addr + sym.st_value) :: entries l_addr syms := by
  unfold entries
  by_cases h : sym.skipped = true
  · rw [if_pos h, List.filter_cons_of_neg (by simpa using h)]
  · rw [if_neg h, List.filter_cons_of_pos (by simpa using h)]
    rfl

theorem entries_append (l_addr : BitVec 32) (syms syms' : List Elf32Sym) :
    entries l_addr (syms ++ syms') = entries l_addr syms ++ entries l_addr syms' := by
  rw [entries, List.filter_append, List.map_append]
  rfl

theorem firstOf_entries (l_addr : BitVec 32) (syms : List Elf32Sym) (symbol : Name) :
    firstOf (entries l_addr syms) symbol =
      (syms.find? fun sym => !sym.skipped && sym.name = symbol).map
        fun sym => l_addr + sym.st_value := by
  rw [firstOf, entries, List.find?_map, List.find?_filter, Option.map_map]
  simp only [Function.comp_def, Bool.decide_and, Bool.decide_eq_true]

theorem freshScan_eq (dlmap : Library) (symbol : Name) :
    dlmap.freshScan symbol = (firstOf (entries dlmap.l_addr dlmap.symbols) symbol).getD 0 := by
  rw [firstOf_entries, freshScan]
  cases List.find? _ dlmap.symbols <;> rfl

end Library

/-! ## The cache of a library -/

/-- The table maps the names as the first `k` symbols do, `k` being `i` or all of them. -/
structure ScannedTo (dlmap : Library) (i : ℕ) (table : SymbolTable) : Prop where
  le : i ≤ dlmap.symbols.length
  wf : table.WF
  lookup_eq : ∃ k, (k = i ∨ k = dlmap.symbols.length) ∧
    table.lookup = firstOf (Library.entries dlmap.l_addr (dlmap.symbols.take k))

namespace ScannedTo

open Library

variable {dlmap : Library} {i : ℕ} {table : SymbolTable} {sym : Elf32Sym}

theorem zero (dlmap : Library) : ScannedTo dlmap 0 .initializeTable := by
  refine ⟨Nat.zero_le _, SymbolTable.wf_initializeTable, 0, Or.inl rfl, ?_⟩
  ext symbol : 1
  rfl

/-- An answer of the table is the answer of a fresh scan. -/
theorem firstOf_of_lookup (h : ScannedTo dlmap i table) {symbol : Name} {a : BitVec 32}
    (ha : table.lookup symbol = some a) :
    firstOf (entries dlmap.l_addr dlmap.symbols) symbol = some a := by
  obtain ⟨k, -, hk⟩ := h.lookup_eq
  rw [hk] at ha
  rw [← List.take_append_drop k dlmap.symbols, entries_append, firstOf_append, ha]
  rfl

/-- A table that has seen all symbols has the answers of a fresh scan. -/
theorem lookup_of_length (h : ScannedTo dlmap dlmap.symbols.length table) :
    table.lookup = firstOf (entries dlmap.l_addr dlmap.symbols) := by
  obtain ⟨k, hk, hl⟩ := h.lookup_eq
  rw [or_self_iff] at hk
  rw [hl, hk, List.take_length]

/-- Once all symbols are seen it does not matter where the next scan starts. -/
theorem restart (h : ScannedTo dlmap dlmap.symbols.length table) (hi : i ≤ dlmap.symbols.length) :
    ScannedTo dlmap i table := by
  refine ⟨hi, h.wf, dlmap.symbols.length, Or.inr rfl, ?_⟩
  rw [h.lookup_of_length, List.take_length]

/-- The entries of `sym` are put into the table, as the scan goes on to the next symbol. -/
theorem next (h : ScannedTo dlmap i table) (hsym : dlmap.symbols[i]? = some sym)
    {table' : SymbolTable} (hwf : table'.WF)
    (hput : table'.lookup = putAll table.lookup (entries dlmap.l_addr [sym])) :
    ScannedTo dlmap (i + 1) table' := by
  have hlt : i < dlmap.symbols.length := (List.getElem?_eq_some_iff.1 hsym).1
  obtain ⟨k, hk, hl⟩ := h.lookup_eq
  rw [hl] at hput
  rcases hk with rfl | rfl
  · refine ⟨hlt, hwf, k + 1, Or.inl rfl, ?_⟩
    rw [hput, putAll_firstOf, ← entries_append, List.take_add_one, hsym]
    rfl
  · refine ⟨hlt, hwf, dlmap.symbols.length, Or.inr rfl, ?_⟩
    rw [hput, List.take_length]
    have hsub : [sym] ⊆ dlmap.symbols := by
      simpa using List.mem_of_getElem? hsym
    exact putAll_firstOf_of_subset (List.map_subset _ (List.filter_subset _ hsub))

theorem skip (h : ScannedTo dlmap i table) (hsym : dlmap.symbols[i]? = some sym)
    (hs : sym.skipped = true) : ScannedTo dlmap (i + 1) table := by
  refine h.next hsym h.wf ?_
  rw [entries_cons, if_pos hs]
  rfl

theorem intern (h : ScannedTo dlmap i table) (hsym : dlmap.symbols[i]? = some sym)
    (hs : ¬ sym.skipped = true) (allocated : Bool) :
    ScannedTo dlmap (i + 1) (table.internSymbol sym.name sym.name.length
      (dlmap.l_addr + sym.st_value) allocated).2 := by
  obtain ⟨hwf, hl, -⟩ := h.wf.internSymbol sym.name (dlmap.l_addr + sym.st_value) allocated
  refine h.next hsym hwf ?_
  rw [hl, entries_cons, if_neg hs]
  rfl

end ScannedTo

namespace LibSymbolTable

open Library

/-- What the scan of a name that is not cached finds, and what it leaves. -/
theorem scan_spec {dlmap : Library} {symbol : Name} (allocated : ℕ → Bool)
    (syms : List Elf32Sym) (i : ℕ) (libtable : LibSymbolTable)
    (hsyms : dlmap.symbols.drop i = syms) (h : ScannedTo dlmap i libtable.table)
    (hpos : libtable.last_pos ≤ i) (hnone : libtable.table.lookup symbol = none) :
    (scan dlmap.l_addr symbol allocated i syms libtable).1.map Symbol.address =
        firstOf (entries dlmap.l_addr dlmap.symbols) symbol ∧
      ScannedTo dlmap (scan dlmap.l_addr symbol allocated i syms libtable).2.last_pos
        (scan dlmap.l_addr symbol allocated i syms libtable).2.table := by
  induction syms generalizing i libtable with
  | nil =>
    have hi : i = dlmap.symbols.length :=
      Nat.le_antisymm h.le (List.drop_eq_nil_iff.1 hsyms)
    subst hi
    refine ⟨?_, h.restart hpos⟩
    rw [← h.lookup_of_length, hnone]
    rfl
  | cons sym syms ih =>
    have hsym : dlmap.symbols[i]? = some sym := by
      rw [← List.head?_drop, hsyms]
      rfl
    have hrest : dlmap.symbols.drop (i + 1) = syms := by
      rw [← List.tail_drop, hsyms]
      rfl
    by_cases hs : sym.skipped = true
    · rw [scan, if_pos hs]
      exact ih (i + 1) libtable hrest (h.skip hsym hs) (Nat.le_succ_of_le hpos) hnone
    · rw [scan, if_neg hs]
      have hnext := h.intern hsym hs (allocated i)
      obtain ⟨-, hl, ha⟩ :=
        h.wf.internSymbol sym.name (dlmap.l_addr + sym.st_value) (allocated i)
      by_cases hhit : symbol = sym.name
      · rw [if_pos hhit]
        refine ⟨?_, hnext⟩
        have hfound := put_self libtable.table.lookup sym.name (dlmap.l_addr + sym.st_value)
        rw [← hl, ← ha] at hfound
        rw [hhit]
        exact (hnext.firstOf_of_lookup hfound).symm
      · rw [if_neg hhit]
        refine ih (i + 1) _ hrest hnext (Nat.le_succ_of_le hpos) ?_
        show SymbolTable.lookup _ symbol = none
        rw [hl, put, hnone, if_neg hhit]
        rfl

/-- The invariant of a library's table. -/
def Scanned (dlmap : Library) (libtable : LibSymbolTable) : Prop :=
  ScannedTo dlmap libtable.last_pos libtable.table

/-- Whether the name is cached. -/
def cached (libtable : LibSymbolTable) (symbol : Name) : Bool :=
  (libtable.table.findSymbol symbol symbol.length).isSome

theorem scan_lib_base (l_addr : BitVec 32) (symbol : Name) (allocated : ℕ → Bool)
    (syms : List Elf32Sym) (i : ℕ) (libtable : LibSymbolTable) :
    (scan l_addr symbol allocated i syms libtable).2.lib_base = libtable.lib_base := by
  fun_induction scan l_addr symbol allocated i syms libtable with
  | case1 => rfl
  | case2 i sym syms libtable hs ih => exact ih
  | case3 => rfl
  | case4 i sym syms libtable hs r hne ih => exact ih

theorem resolve_lib_base (libtable : LibSymbolTable) (dlmap : Library) (symbol : Name)
    (sys : System) : (libtable.resolve dlmap symbol sys).2.lib_base = libtable.lib_base := by
  unfold resolve
  split
  · rfl
  · split_ifs
    · rfl
    · split
      · rfl
      · exact scan_lib_base ..

theorem resolve_of_not_opens (libtable : LibSymbolTable) (dlmap : Library) (symbol : Name)
    {sys : System} (h : sys.opens = false) : (libtable.resolve dlmap symbol sys).2 = libtable := by
  unfold resolve
  rw [h]
  split <;> rfl

section NotCached

variable {libtable : LibSymbolTable} {symbol : Name}
  (hmiss : libtable.table.findSymbol symbol symbol.length = none) (l_addr : BitVec 32)
  (allocated : ℕ → Bool)

include hmiss

theorem resolve_of_no_symtab :
    libtable.resolve ⟨l_addr, none⟩ symbol ⟨true, allocated⟩ = (0, libtable) := by
  rw [LibSymbolTable.resolve, hmiss]
  rfl

theorem resolve_of_symtab (symtab : List Elf32Sym) :
    libtable.resolve ⟨l_addr, some symtab⟩ symbol ⟨true, allocated⟩ =
      let r := scan l_addr symbol allocated libtable.last_pos (symtab.drop libtable.last_pos)
        libtable
      ((r.1.map Symbol.address).getD 0, r.2) := by
  rw [LibSymbolTable.resolve, hmiss]
  rfl

end NotCached

/-- A call keeps the invariant, and answers what a fresh scan does, unless the name is not
cached and the file does not open. -/
theorem Scanned.resolve {dlmap : Library} {libtable : LibSymbolTable}
    (h : Scanned dlmap libtable) (symbol : Name) (sys : System) :
    Scanned dlmap (libtable.resolve dlmap symbol sys).2 ∧
      (libtable.resolve dlmap symbol sys).1 =
        if libtable.cached symbol ∨ sys.opens then dlmap.freshScan symbol else 0 := by
  rw [freshScan_eq, cached]
  cases hf : libtable.table.findSymbol symbol symbol.length with
  | some symbol_entry =>
    have hl : libtable.table.lookup symbol = some symbol_entry.address := by
      rw [SymbolTable.lookup, hf]
      rfl
    have hres : libtable.resolve dlmap symbol sys = (symbol_entry.address, libtable) := by
      simp only [LibSymbolTable.resolve, hf]
    rw [hres, if_pos (Or.inl Option.isSome_some), h.firstOf_of_lookup hl]
    exact ⟨h, rfl⟩
  | none =>
    have hl : libtable.table.lookup symbol = none := by
      rw [SymbolTable.lookup, hf]
      rfl
    by_cases ho : sys.opens = true
    · rw [if_pos (Or.inr ho)]
      cases hsymtab : dlmap.symtab with
      | none =>
        have hres : libtable.resolve dlmap symbol sys = (0, libtable) := by
          simp only [LibSymbolTable.resolve, hf, ho, hsymtab]
          rfl
        have hsymbols : dlmap.symbols = [] := by
          rw [symbols, hsymtab]
          rfl
        rw [hres, hsymbols]
        exact ⟨h, rfl⟩
      | some symtab =>
        have hsymbols : dlmap.symbols = symtab := by
          rw [symbols, hsymtab]
          rfl
        obtain ⟨ha, hscan⟩ :=
          scan_spec sys.allocated _ libtable.last_pos libtable rfl h (Nat.le_refl _) hl
        rw [hsymbols] at ha hscan
        simp only [LibSymbolTable.resolve, hf, ho, hsymtab]
        refine ⟨hscan, ?_⟩
        rw [hsymbols, ← ha]
        rfl
    · have hres : libtable.resolve dlmap symbol sys = (0, libtable) := by
        simp only [LibSymbolTable.resolve, hf, ho]
        rfl
      rw [hres, if_neg (by simp [ho])]
      exact ⟨h, rfl⟩

end LibSymbolTable

/-! ## The tables of all libraries -/

namespace MemoryUtils

open LibSymbolTable

theorem tableOf_cons (t : LibSymbolTable) (m : MemoryUtils) (a : BitVec 32) :
    tableOf (t :: m) a = if t.lib_base = a then t else m.tableOf a := by
  unfold tableOf tableIndex
  by_cases h : t.lib_base = a <;> simp [List.findIdx_cons, h]

theorem resolveSymbol_cons (t : LibSymbolTable) (m : MemoryUtils) (dlmap : Library)
    (symbol : Name) (sys : System) :
    resolveSymbol (t :: m) dlmap symbol sys =
      if t.lib_base = dlmap.l_addr then
        ((t.resolve dlmap symbol sys).1, (t.resolve dlmap symbol sys).2 :: m)
      else ((m.resolveSymbol dlmap symbol sys).1, t :: (m.resolveSymbol dlmap symbol sys).2) := by
  unfold resolveSymbol tableIndex
  by_cases h : t.lib_base = dlmap.l_addr
  · simp [List.findIdx_cons, h]
  · simp only [List.findIdx_cons, h, decide_false, cond_false, List.getElem?_cons_succ, if_false]
    cases m[List.findIdx _ m]? <;> rfl

/-- A call answers what the table of its library answers. -/
theorem resolveSymbol_fst (m : MemoryUtils) (dlmap : Library) (symbol : Name) (sys : System) :
    (m.resolveSymbol dlmap symbol sys).1 =
      ((m.tableOf dlmap.l_addr).resolve dlmap symbol sys).1 := by
  induction m with
  | nil => rfl
  | cons t m ih =>
    rw [resolveSymbol_cons, tableOf_cons]
    split_ifs
    · rfl
    · exact ih

/-- A call changes the table of its library only. -/
theorem tableOf_resolveSymbol (m : MemoryUtils) (dlmap : Library) (symbol : Name) (sys : System)
    (a : BitVec 32) :
    (m.resolveSymbol dlmap symbol sys).2.tableOf a =
      if a = dlmap.l_addr then ((m.tableOf a).resolve dlmap symbol sys).2 else m.tableOf a := by
  induction m with
  | nil =>
    show tableOf [((new dlmap.l_addr).resolve dlmap symbol sys).2] a = _
    rw [tableOf_cons, resolve_lib_base]
    split_ifs with h h' h'
    · rw [h']
      rfl
    · exact (h' h.symm).elim
    · exact (h h'.symm).elim
    · rfl
  | cons t m ih =>
    rw [resolveSymbol_cons, tableOf_cons]
    by_cases h : t.lib_base = dlmap.l_addr
    · rw [if_pos h, tableOf_cons, resolve_lib_base, h]
      by_cases ha : a = dlmap.l_addr
      · rw [if_pos ha.symm, if_pos ha.symm, if_pos ha]
      · rw [if_neg (Ne.symm ha), if_neg (Ne.symm ha), if_neg ha]
    · rw [if_neg h, tableOf_cons, ih]
      by_cases ha : t.lib_base = a
      · rw [if_pos ha, if_pos ha, if_neg (ha ▸ h)]
      · rw [if_neg ha, if_neg ha]

end MemoryUtils

/-! ## Any history of calls -/

/-- A call on one of the libraries. -/
structure ResolveCall (ι : Type*) where
  lib : ι
  symbol : Name
  sys : System

namespace MemoryUtils

open LibSymbolTable

variable {ι : Type*} (lib : ι → Library)

/-- The answer to a call. -/
def answer (m : MemoryUtils) (c : ResolveCall ι) : BitVec 32 :=
  (m.resolveSymbol (lib c.lib) c.symbol c.sys).1

/-- The tables after a call. -/
def step (m : MemoryUtils) (c : ResolveCall ι) : MemoryUtils :=
  (m.resolveSymbol (lib c.lib) c.symbol c.sys).2

/-- The answers to calls in order. -/
def answers : MemoryUtils → List (ResolveCall ι) → List (BitVec 32)
  | _, [] => []
  | m, c :: cs => m.answer lib c :: answers (m.step lib c) cs

/-- Whether a call would be answered from the cache. -/
def cached (m : MemoryUtils) (c : ResolveCall ι) : Bool :=
  (m.tableOf (lib c.lib).l_addr).cached c.symbol

/-- Every table is that of its library. -/
def Scanned (m : MemoryUtils) : Prop :=
  ∀ i, LibSymbolTable.Scanned (lib i) (m.tableOf (lib i).l_addr)

variable {lib}

theorem scanned_nil : Scanned lib [] :=
  fun i => ScannedTo.zero (lib i)

theorem Scanned.step (hinj : Function.Injective fun i => (lib i).l_addr) {m : MemoryUtils}
    (h : Scanned lib m) (c : ResolveCall ι) : Scanned lib (m.step lib c) := by
  intro i
  rw [MemoryUtils.step, tableOf_resolveSymbol]
  split_ifs with ha
  · obtain rfl : i = c.lib := hinj ha
    exact ((h c.lib).resolve c.symbol c.sys).1
  · exact h i

theorem Scanned.answer {m : MemoryUtils} (h : Scanned lib m) (c : ResolveCall ι) :
    m.answer lib c =
      if m.cached lib c ∨ c.sys.opens then (lib c.lib).freshScan c.symbol else 0 := by
  rw [MemoryUtils.answer, resolveSymbol_fst]
  exact ((h c.lib).resolve c.symbol c.sys).2

/-- The answers depend on the table of each library only. -/
theorem answers_congr {m m' : MemoryUtils} (h : m.tableOf = m'.tableOf)
    (cs : List (ResolveCall ι)) : m.answers lib cs = m'.answers lib cs := by
  induction cs generalizing m m' with
  | nil => rfl
  | cons c cs ih =>
    have hstep : (m.step lib c).tableOf = (m'.step lib c).tableOf := by
      ext a : 1
      rw [step, step, tableOf_resolveSymbol, tableOf_resolveSymbol, h]
    rw [answers, answers, ih hstep, answer, answer, resolveSymbol_fst, resolveSymbol_fst, h]

theorem tableOf_step_of_not_opens (m : MemoryUtils) {c : ResolveCall ι}
    (h : c.sys.opens = false) : (m.step lib c).tableOf = m.tableOf := by
  ext a : 1
  rw [step, tableOf_resolveSymbol, resolve_of_not_opens _ _ _ h, ite_self]

/-- The tables after any calls. -/
theorem scanned_run (hinj : Function.Injective fun i => (lib i).l_addr)
    (calls : List (ResolveCall ι)) : Scanned lib (run (step lib) [] calls) := by
  induction calls using List.reverseRecOn with
  | nil => exact scanned_nil
  | append_singleton calls c ih =>
    rw [run_append]
    exact ih.step hinj c

end MemoryUtils

/-- After any calls on libraries at different addresses, a call that is answered from the
cache or gets its file answers what a fresh scan does, any other `NULL`, and a call that
does not get its file leaves all later answers as they are. -/
theorem resolveSymbol_eq_freshScan {ι : Type*} (lib : ι → Library)
    (hinj : Function.Injective fun i => (lib i).l_addr) (calls : List (ResolveCall ι))
    (c : ResolveCall ι) :
    let m := run (MemoryUtils.step lib) [] calls
    (m.answer lib c =
        if m.cached lib c ∨ c.sys.opens then (lib c.lib).freshScan c.symbol else 0) ∧
      (c.sys.opens = false → ∀ later, (m.step lib c).answers lib later = m.answers lib later) := by
  intro m
  have hm : MemoryUtils.Scanned lib m := MemoryUtils.scanned_run hinj calls
  refine ⟨hm.answer c, fun ho later => ?_⟩
  exact MemoryUtils.answers_congr (m.tableOf_step_of_not_opens ho) later

/-- Two libraries; the first has an undefined, an untyped and two defined symbols `a`. -/
def twoLibraries (second : Bool) : Library where
  l_addr := if second then 0x2000 else 0x1000
  symtab := some [⟨[97], 0x10, 0x12, 0⟩, ⟨[97], 0x20, 0x10, 1⟩, ⟨[98], 0x30, 0x11, 1⟩,
    ⟨[97], 0x40, 0x12, 1⟩, ⟨[97], 0x50, 0x12, 1⟩]

theorem resolveSymbol_eq_freshScan_twoLibraries :
    (run (MemoryUtils.step twoLibraries) [] [⟨false, [98], ⟨true, fun _ => true⟩⟩,
        ⟨true, [99], ⟨true, fun _ => false⟩⟩, ⟨false, [97], ⟨false, fun _ => true⟩⟩]).answer
      twoLibraries ⟨false, [97], ⟨true, fun _ => true⟩⟩ = 0x1040 := by
  have hinj : Function.Injective fun i => (twoLibraries i).l_addr := by
    unfold Function.Injective
    decide
  rw [(resolveSymbol_eq_freshScan twoLibraries hinj _ _).1, if_pos (Or.inr rfl)]
  decide

end TickrateEnabler
