import TickrateEnabler.Destructor
import TickrateEnabler.ResolveSymbol
import Mathlib.Data.List.Forall2

/-!
# All tables in one heap

`MemoryUtils` with its pointers. The symbols of all libraries are in the heap of the
process, and `malloc` gives a symbol a block apart from those in use, whichever table
they belong to. The blocks are noted with the address of their library and their name.

Each table has its own symbols, and a scan works on those : beside the symbols of other
tables it does what it does alone and leaves them as they are, or it faults, exactly when
`malloc` has no block for a new symbol (`scan_beside`).
-/

namespace TickrateEnabler

open Chains Memory Transition

/-- `LibSymbolTable` in memory, its symbols in the heap. -/
structure LinkedLibrary where
  nbuckets : BitVec 32
  nused : BitVec 32
  bucketmask : BitVec 32
  buckets : List Ptr
  lib_base : BitVec 32
  last_pos : ℕ

/-- What the system does in one call. `kvs i` is what `malloc` gives for the symbol `i`,
`initialized` whether it gives the buckets of a new table. -/
structure LinkedSystem extends System where
  kvs : ℕ → Ptr
  initialized : Bool

namespace LinkedLibrary

/-- The table with a heap. -/
def table (libtable : LinkedLibrary) (heap : SymbolHeap) : LinkedTable where
  nbuckets := libtable.nbuckets
  nused := libtable.nused
  bucketmask := libtable.bucketmask
  memory := ⟨libtable.buckets, heap⟩

/-- What a table is, without its heap. -/
def ofTable (t : LinkedTable) (lib_base : BitVec 32) (last_pos : ℕ) : LinkedLibrary where
  nbuckets := t.nbuckets
  nused := t.nused
  bucketmask := t.bucketmask
  buckets := t.memory.buckets
  lib_base := lib_base
  last_pos := last_pos

/-- A new table after `Initialize`. Without its buckets it keeps the zeros it is born with. -/
def new (lib_base : BitVec 32) (initialized : Bool) : LinkedLibrary :=
  if initialized then ofTable LinkedTable.initializeTable lib_base 0
  else ⟨0, 0, 0, [], lib_base, 0⟩

/-- The loop of `ResolveSymbol` over the symbols from `i` on. -/
def scan (l_addr : BitVec 32) (symbol : Name) (sys : LinkedSystem) :
    ℕ → List Elf32Sym → ℕ → LinkedTable → Option (Ptr × ℕ × LinkedTable)
  | _, [], last_pos, table => some (0, last_pos, table)
  | i, sym :: syms, last_pos, table =>
    if sym.skipped then scan l_addr symbol sys (i + 1) syms last_pos table
    else do
      let r ← table.internSymbol sym.name sym.name.length (l_addr + sym.st_value) (sys.kvs i)
        (sys.allocated i)
      if symbol = sym.name then some (r.1, i + 1, r.2)
      else scan l_addr symbol sys (i + 1) syms last_pos r.2

/-- `symbol_entry->address`. -/
def addressOf (table : LinkedTable) (symbol_entry : Ptr) : Option (BitVec 32) :=
  (table.memory.symbolAt symbol_entry).map Symbol.address

/-- `ResolveSymbol` once it has the table of the library. -/
def resolve (last_pos : ℕ) (table : LinkedTable) (dlmap : Library) (symbol : Name)
    (sys : LinkedSystem) : Option (BitVec 32 × ℕ × LinkedTable) := do
  let symbol_entry ← table.findSymbol symbol symbol.length
  if symbol_entry ≠ 0 then
    let address ← addressOf table symbol_entry
    some (address, last_pos, table)
  else if !sys.opens then some (0, last_pos, table)
  else
    match dlmap.symtab with
    | none => some (0, last_pos, table)
    | some symtab => do
      let r ← scan dlmap.l_addr symbol sys last_pos (symtab.drop last_pos) last_pos table
      if r.1 = 0 then some (0, r.2)
      else
        let address ← addressOf r.2.2 r.1
        some (address, r.2)

end LinkedLibrary

/-- `MemoryUtils` in memory. -/
structure LinkedUtils where
  heap : SymbolHeap
  m_SymTables : List LinkedLibrary

namespace LinkedUtils

/-- `ResolveSymbol`. -/
def resolveSymbol (m : LinkedUtils) (dlmap : Library) (symbol : Name) (sys : LinkedSystem) :
    Option (BitVec 32 × LinkedUtils) := do
  let i := m.m_SymTables.findIdx fun libtable => libtable.lib_base = dlmap.l_addr
  let m_SymTables := if i < m.m_SymTables.length then m.m_SymTables
    else m.m_SymTables ++ [.new dlmap.l_addr sys.initialized]
  let libtable ← m_SymTables[i]?
  let r ← LinkedLibrary.resolve libtable.last_pos (libtable.table m.heap) dlmap symbol sys
  some (r.1, ⟨r.2.2.memory.heap,
    m_SymTables.set i (.ofTable r.2.2 libtable.lib_base r.2.1)⟩)

/-- `~MemoryUtils`. -/
def destroy (m : LinkedUtils) : Option SymbolHeap :=
  m.m_SymTables.foldlM (fun heap libtable =>
    (libtable.table heap).destroy.map SymbolMemory.heap) m.heap

end LinkedUtils

/-! ## The blocks in use -/

/-- The symbols allocated, each with its library, its name and its address. -/
abbrev Blocks :=
  List ((BitVec 32 × Name) × Ptr)

namespace Blocks

open LinkedTable (TableCall noteCall span symbolSize)

/-- The symbols of one library. -/
def of (blocks : Blocks) (l : BitVec 32) : List (Name × Ptr) :=
  (blocks.filter fun e => e.1.1 = l).map fun e => (e.1.2, e.2)

/-- The cells of a block. -/
def cells (e : (BitVec 32 × Name) × Ptr) : ℕ × ℕ :=
  span (e.1.2, e.2)

/-- The blocks after a call on the table of the library `l`. -/
def note (l : BitVec 32) (blocks : Blocks) : TableCall → Blocks
  | .intern str _ kvs _ =>
    if (l, str) ∈ blocks.map Prod.fst then blocks else ((l, str), kvs) :: blocks
  | .find _ => blocks

/-- `malloc` gives `NULL` or a block of the size, apart from all those in use. -/
def MallocOk (l : BitVec 32) (blocks : Blocks) : TableCall → Prop
  | .intern str _ kvs _ => (l, str) ∉ blocks.map Prod.fst → kvs ≠ 0 →
    kvs.toNat + symbolSize str.length ≤ 2 ^ 32 ∧
      ∀ e ∈ blocks, Apart (span (str, kvs)) (cells e)
  | .find _ => True

/-- A new symbol gets a block. -/
def Served (l : BitVec 32) (blocks : Blocks) : TableCall → Prop
  | .intern str _ kvs _ => (l, str) ∉ blocks.map Prod.fst → kvs ≠ 0
  | .find _ => True

instance (l : BitVec 32) (blocks : Blocks) : ∀ c, Decidable (MallocOk l blocks c)
  | .intern .. => inferInstanceAs (Decidable (_ → _ → _ ∧ _))
  | .find _ => inferInstanceAs (Decidable True)

instance (l : BitVec 32) (blocks : Blocks) : ∀ c, Decidable (Served l blocks c)
  | .intern .. => inferInstanceAs (Decidable (_ → _))
  | .find _ => inferInstanceAs (Decidable True)

/-- The blocks are apart and in the address space. -/
structure Valid (blocks : Blocks) : Prop where
  apart : (blocks.map cells).Pairwise Apart
  fits : ∀ e ∈ blocks, e.2.toNat + symbolSize e.1.2.length ≤ 2 ^ 32

variable {blocks : Blocks} {l l' : BitVec 32}

theorem mem_fst_of (str : Name) :
    str ∈ (blocks.of l).map Prod.fst ↔ (l, str) ∈ blocks.map Prod.fst := by
  simp only [of, List.map_map, List.mem_map, List.mem_filter, decide_eq_true_eq,
    Function.comp_apply]
  constructor
  · rintro ⟨e, ⟨he, rfl⟩, rfl⟩
    exact ⟨e, he, rfl⟩
  · rintro ⟨e, he, hle⟩
    obtain ⟨rfl, rfl⟩ := Prod.mk.inj hle
    exact ⟨e, ⟨he, rfl⟩, rfl⟩

theorem mem_snd_of (p : Ptr) :
    p ∈ (blocks.of l).map Prod.snd ↔ ∃ e ∈ blocks, e.1.1 = l ∧ e.2 = p := by
  simp only [of, List.map_map, List.mem_map, List.mem_filter, decide_eq_true_eq,
    Function.comp_apply, and_assoc]

theorem of_note (c : TableCall) : (note l blocks c).of l = noteCall (blocks.of l) c := by
  cases c with
  | find str => rfl
  | intern str address kvs allocated =>
    simp only [note, noteCall, mem_fst_of]
    split_ifs
    · rfl
    · simp [of]

theorem of_note_of_ne (h : l' ≠ l) (c : TableCall) : (note l blocks c).of l' = blocks.of l' := by
  cases c with
  | find str => rfl
  | intern str address kvs allocated =>
    simp only [note]
    split_ifs
    · rfl
    · simp [of, h.symm]

/-- No address is that of two blocks. -/
theorem Valid.nodup (h : blocks.Valid) : (blocks.map Prod.snd).Nodup := by
  refine List.pairwise_map.2 ((List.pairwise_map.1 h.apart).imp fun {e e'} hee' heq => ?_)
  simp only [Apart, cells, span, symbolSize, heq] at hee'
  omega

theorem Valid.note (h : blocks.Valid) {c : TableCall} (hm : MallocOk l blocks c)
    (hs : Served l blocks c) : (note l blocks c).Valid := by
  cases c with
  | find str => exact h
  | intern str address kvs allocated =>
    rw [Blocks.note]
    split_ifs with hmem
    · exact h
    · obtain ⟨hfits, hapart⟩ := hm hmem (hs hmem)
      refine ⟨List.pairwise_cons.2 ⟨List.forall_mem_map.2 hapart, h.apart⟩, ?_⟩
      exact List.forall_mem_cons.2 ⟨hfits, h.fits⟩

/-- No address is that of a block of two libraries. -/
theorem Valid.notMem_of (h : blocks.Valid) {p : Ptr} (hp : p ∈ (blocks.of l).map Prod.snd)
    (hl : l' ≠ l) : p ∉ (blocks.of l').map Prod.snd := by
  rw [mem_snd_of] at hp ⊢
  obtain ⟨e, he, rfl, rfl⟩ := hp
  rintro ⟨e', he', rfl, heq⟩
  exact hl (congrArg (fun e => e.1.1) (List.inj_on_of_nodup_map h.nodup he' he heq))

end Blocks

/-! ## One scan -/

namespace LinkedTable

variable {live : List (Name × Ptr)} {t : LinkedTable} {T : SymbolTable} {chain : ℕ → List Ptr}

/-- A new symbol that gets no block is a fault, whatever else is in the heap. -/
theorem Represents.internSymbol_null_beside (h : Represents t T chain) (hT : T.WF) {str : Name}
    (hf : T.findSymbol str str.length = none) (address : BitVec 32) (allocated : Bool)
    (g : SymbolHeap) : (t.beside g).internSymbol str str.length address 0 allocated = none := by
  obtain ⟨p, hp, -, hnull⟩ :=
    h.deref_linkAt (T.findSymbolBucket str str.length (hashString str str.length)) (hT.slot_lt _)
  obtain rfl : p = 0 := hnull.2 hf
  have hp' := SymbolMemory.deref_beside hp g
  rw [LinkedTable.internSymbol, findSymbolBucket_beside (h.findSymbolBucket hT ..)]
  simp only [Option.bind_eq_bind, Option.bind_some, beside, hp', ne_eq, not_true_eq_false,
    if_false, if_true]

/-- `InternSymbol` with the symbols of other tables in the heap. -/
theorem Tracks.internSymbol_beside (h : Tracks live t T chain) {str : Name}
    {address : BitVec 32} {kvs : Ptr} {allocated : Bool}
    (hm : MallocOk live (.intern str address kvs allocated)) (g : SymbolHeap) :
    (Served live (.intern str address kvs allocated) ∧ ∃ p t' chain',
        (t.beside g).internSymbol str str.length address kvs allocated =
          some (p, t'.beside g) ∧
        t'.memory.symbolAt p = some (T.internSymbol str str.length address allocated).1 ∧
        Tracks (noteCall live (.intern str address kvs allocated)) t'
          (T.internSymbol str str.length address allocated).2 chain') ∨
      ¬Served live (.intern str address kvs allocated) ∧
        (t.beside g).internSymbol str str.length address kvs allocated = none := by
  by_cases hmem : str ∈ live.map Prod.fst
  · obtain ⟨s, hf⟩ := Option.ne_none_iff_exists'.1 ((h.notMem_names_iff str).not_right.1 hmem)
    obtain ⟨p, hp, hs⟩ := h.represents.internSymbol_of_some h.wf hf address kvs allocated
    rw [noteCall, if_pos hmem, SymbolTable.internSymbol_of_some hf]
    exact Or.inl ⟨fun hnew => (hnew hmem).elim, p, t, chain, LinkedTable.internSymbol_beside hp g,
      hs, h⟩
  · have hf := (h.notMem_names_iff str).1 hmem
    rw [noteCall, if_neg hmem]
    by_cases hkvs : kvs = 0
    · subst hkvs
      refine Or.inr ⟨fun hs => hs hmem rfl, ?_⟩
      exact h.represents.internSymbol_null_beside h.wf hf address allocated g
    · obtain ⟨hfits, hapart⟩ := hm hmem hkvs
      obtain ⟨t', chain', ht', h'⟩ := h.internSymbol hmem hkvs hfits hapart address allocated
      obtain ⟨t₁, -, ht₁, hsymbolAt, -⟩ := h.represents.internSymbol_of_none h.wf hf address
        hkvs (h.symbolAt_eq_none hapart) h.nused_lt allocated
      obtain rfl := (Prod.mk.inj (Option.some.inj (ht₁.symm.trans ht'))).2
      refine Or.inl ⟨fun _ => hkvs, kvs, t₁, chain', LinkedTable.internSymbol_beside ht' g, ?_, h'⟩
      rw [hsymbolAt, Function.update_self, SymbolTable.internSymbol_of_none hf]

end LinkedTable

namespace LinkedLibrary

open LinkedTable (TableCall Tracks)

/-- The calls that a scan makes on the table. -/
def internCalls (l_addr : BitVec 32) (symbol : Name) (sys : LinkedSystem) :
    ℕ → List Elf32Sym → List TableCall
  | _, [] => []
  | i, sym :: syms =>
    if sym.skipped then internCalls l_addr symbol sys (i + 1) syms
    else
      .intern sym.name (l_addr + sym.st_value) (sys.kvs i) (sys.allocated i) ::
        if symbol = sym.name then [] else internCalls l_addr symbol sys (i + 1) syms

/-- The calls that `ResolveSymbol` makes on the table to cache symbols. -/
def resolveCalls (libtable : LibSymbolTable) (dlmap : Library) (symbol : Name)
    (sys : LinkedSystem) : List TableCall :=
  if libtable.cached symbol ∨ !sys.opens then []
  else internCalls dlmap.l_addr symbol sys libtable.last_pos
    (dlmap.symbols.drop libtable.last_pos)

theorem mallocOk_of {blocks : Blocks} {l : BitVec 32} {c : TableCall}
    (h : blocks.MallocOk l c) : LinkedTable.MallocOk (blocks.of l) c := by
  cases c with
  | find str => trivial
  | intern str address kvs allocated =>
    intro hnew hkvs
    obtain ⟨hfits, hapart⟩ := h ((Blocks.mem_fst_of str).not.1 hnew) hkvs
    refine ⟨hfits, fun e he => ?_⟩
    obtain ⟨e', he', rfl⟩ := List.mem_map.1 he
    exact hapart e' (List.mem_filter.1 he').1

theorem served_iff_of {blocks : Blocks} {l : BitVec 32} (c : TableCall) :
    LinkedTable.Served (blocks.of l) c ↔ blocks.Served l c := by
  cases c with
  | find str => exact Iff.rfl
  | intern str address kvs allocated =>
    exact imp_congr_left (Blocks.mem_fst_of str).not

/-- The scan of a library's table, with the symbols of other tables in the heap. -/
theorem scan_beside {l : BitVec 32} {symbol : Name} {sys : LinkedSystem} (g : SymbolHeap)
    (syms : List Elf32Sym) (i : ℕ) {blocks : Blocks} {t : LinkedTable}
    {libtable : LibSymbolTable} {chain : ℕ → List Ptr}
    (h : Tracks (blocks.of l) t libtable.table chain)
    (hm : Along (Blocks.note l) (Blocks.MallocOk l) blocks (internCalls l symbol sys i syms)) :
    let r := LibSymbolTable.scan l symbol sys.allocated i syms libtable
    let blocks' := run (Blocks.note l) blocks (internCalls l symbol sys i syms)
    (Along (Blocks.note l) (Blocks.Served l) blocks (internCalls l symbol sys i syms) ∧
        ∃ p t' chain',
          scan l symbol sys i syms libtable.last_pos (t.beside g) =
            some (p, r.2.last_pos, t'.beside g) ∧
          t'.memory.symbolAt p = r.1 ∧ (r.1 = none → p = 0) ∧
          Tracks (blocks'.of l) t' r.2.table chain') ∨
      ¬Along (Blocks.note l) (Blocks.Served l) blocks (internCalls l symbol sys i syms) ∧
        scan l symbol sys i syms libtable.last_pos (t.beside g) = none := by
  induction syms generalizing i blocks t libtable chain with
  | nil => exact Or.inl ⟨trivial, 0, t, chain, rfl, h.represents.symbolAt_zero, fun _ => rfl, h⟩
  | cons sym syms ih =>
    rw [internCalls] at hm ⊢
    rw [scan, LibSymbolTable.scan]
    by_cases hskip : sym.skipped = true
    · rw [if_pos hskip] at hm ⊢
      rw [if_pos hskip, if_pos hskip]
      exact ih (i + 1) h hm
    · rw [if_neg hskip] at hm ⊢
      rw [if_neg hskip, if_neg hskip]
      rcases h.internSymbol_beside (mallocOk_of hm.1) g with
        ⟨hserved, p, t₁, chain₁, ht₁, hs, h₁⟩ | ⟨hserved, hnone⟩
      · rw [← Blocks.of_note] at h₁
        simp only [ht₁, Option.bind_eq_bind, Option.bind_some]
        by_cases hhit : symbol = sym.name
        · simp only [if_pos hhit] at hm ⊢
          exact Or.inl ⟨⟨(served_iff_of _).1 hserved, trivial⟩, p, t₁, chain₁, rfl, hs,
            fun hnone => (Option.some_ne_none _ hnone).elim, h₁⟩
        · simp only [if_neg hhit] at hm ⊢
          have h₁' : Tracks _ t₁ ({ libtable with table := _ } : LibSymbolTable).table chain₁ := h₁
          rcases ih (i + 1) h₁' hm.2 with ⟨hall, hrest⟩ | ⟨hall, hnone⟩
          · exact Or.inl ⟨⟨(served_iff_of _).1 hserved, hall⟩, hrest⟩
          · exact Or.inr ⟨fun h => hall h.2, hnone⟩
      · refine Or.inr ⟨fun h => hserved ((served_iff_of _).2 h.1), ?_⟩
        rw [hnone]
        rfl

theorem addressOf_beside {t : LinkedTable} {p : Ptr} {s : Symbol}
    (h : t.memory.symbolAt p = some s) (g : SymbolHeap) :
    addressOf (t.beside g) p = some s.address := by
  obtain ⟨node, hnode, rfl⟩ := SymbolMemory.exists_node h
  have hnode' := SymbolMemory.heap_beside hnode g
  rw [addressOf, LinkedTable.beside, SymbolMemory.symbolAt, hnode']
  rfl

section NotCached

variable {dlmap : Library} {symbol : Name} {sys : LinkedSystem}

/-- A name that is not cached is scanned for, if the file opens. -/
theorem resolve_of_opens {t : LinkedTable} (hmiss : t.findSymbol symbol symbol.length = some 0)
    (ho : sys.opens = true) (last_pos : ℕ) :
    resolve last_pos t dlmap symbol sys =
      (scan dlmap.l_addr symbol sys last_pos (dlmap.symbols.drop last_pos) last_pos t).bind
        fun r => if r.1 = 0 then some (0, r.2)
          else (addressOf r.2.2 r.1).bind fun address => some (address, r.2) := by
  simp only [resolve, hmiss, Option.bind_eq_bind, Option.bind_some, ne_eq, not_true_eq_false,
    if_false, ho, Bool.not_true, Bool.false_eq_true, Library.symbols]
  cases dlmap.symtab with
  | none =>
    rw [Option.getD_none, List.drop_nil]
    rfl
  | some symtab => rfl

theorem libSymbolTable_resolve_of_opens {libtable : LibSymbolTable}
    (hmiss : libtable.table.findSymbol symbol symbol.length = none) (ho : sys.opens = true) :
    libtable.resolve dlmap symbol sys.toSystem =
      let r := LibSymbolTable.scan dlmap.l_addr symbol sys.allocated libtable.last_pos
        (dlmap.symbols.drop libtable.last_pos) libtable
      ((r.1.map Symbol.address).getD 0, r.2) := by
  simp only [LibSymbolTable.resolve, hmiss, ho, Bool.not_true, Bool.false_eq_true, if_false,
    Library.symbols]
  cases dlmap.symtab with
  | none =>
    rw [Option.getD_none, List.drop_nil]
    rfl
  | some symtab => rfl

end NotCached

/-- `ResolveSymbol` on a library's table, with the symbols of other tables in the heap. -/
theorem resolve_beside {dlmap : Library} {symbol : Name} {sys : LinkedSystem} (g : SymbolHeap)
    {blocks : Blocks} {t : LinkedTable} {libtable : LibSymbolTable} {chain : ℕ → List Ptr}
    (h : Tracks (blocks.of dlmap.l_addr) t libtable.table chain)
    (hm : Along (Blocks.note dlmap.l_addr) (Blocks.MallocOk dlmap.l_addr) blocks
      (resolveCalls libtable dlmap symbol sys)) :
    let r := libtable.resolve dlmap symbol sys.toSystem
    let calls := resolveCalls libtable dlmap symbol sys
    let blocks' := run (Blocks.note dlmap.l_addr) blocks calls
    (Along (Blocks.note dlmap.l_addr) (Blocks.Served dlmap.l_addr) blocks calls ∧ ∃ t' chain',
        resolve libtable.last_pos (t.beside g) dlmap symbol sys =
          some (r.1, r.2.last_pos, t'.beside g) ∧
        Tracks (blocks'.of dlmap.l_addr) t' r.2.table chain') ∨
      ¬Along (Blocks.note dlmap.l_addr) (Blocks.Served dlmap.l_addr) blocks calls ∧
        resolve libtable.last_pos (t.beside g) dlmap symbol sys = none := by
  obtain ⟨p, hp, hsymbol, hnull⟩ := h.represents.findSymbol h.wf symbol symbol.length
  have hfind := LinkedTable.findSymbol_beside hp g
  cases hf : libtable.table.findSymbol symbol symbol.length with
  | some s =>
    have hcached : libtable.cached symbol = true := by
      rw [LibSymbolTable.cached, hf]
      rfl
    have hne : p ≠ 0 := fun hp0 => Option.some_ne_none _ (hf.symm.trans (hnull.1 hp0))
    have hres : libtable.resolve dlmap symbol sys.toSystem = (s.address, libtable) := by
      simp only [LibSymbolTable.resolve, hf]
    rw [resolveCalls, if_pos (Or.inl hcached), hres]
    refine Or.inl ⟨trivial, t, chain, ?_, h⟩
    simp only [resolve, hfind, Option.bind_eq_bind, Option.bind_some, if_pos hne,
      addressOf_beside (hsymbol.trans hf)]
  | none =>
    have hcached : ¬libtable.cached symbol = true := by
      rw [LibSymbolTable.cached, hf]
      exact Bool.false_ne_true
    obtain rfl : p = 0 := hnull.2 hf
    by_cases ho : sys.opens = true
    · have hcalls : ¬(libtable.cached symbol = true ∨ (!sys.opens) = true) := by
        simp [hcached, ho]
      rw [resolveCalls, if_neg hcalls] at hm
      rw [resolveCalls, if_neg hcalls, libSymbolTable_resolve_of_opens hf ho,
        resolve_of_opens hfind ho]
      rcases scan_beside g _ _ h hm with
        ⟨hserved, p, t', chain', hscan, hs, hp0, h'⟩ | ⟨hserved, hnone⟩
      · refine Or.inl ⟨hserved, t', chain', ?_, h'⟩
        simp only [hscan, Option.bind_some]
        cases hr : (LibSymbolTable.scan dlmap.l_addr symbol sys.allocated libtable.last_pos
            (dlmap.symbols.drop libtable.last_pos) libtable).1 with
        | none =>
          rw [if_pos (hp0 hr)]
          rfl
        | some s =>
          rw [hr] at hs
          have hne : p ≠ 0 := by
            rintro rfl
            exact Option.some_ne_none s (hs.symm.trans h'.represents.symbolAt_zero)
          rw [if_neg hne, addressOf_beside hs]
          rfl
      · refine Or.inr ⟨hserved, ?_⟩
        rw [hnone]
        rfl
    · have hres : libtable.resolve dlmap symbol sys.toSystem = (0, libtable) := by
        simp only [LibSymbolTable.resolve, hf, ho, Bool.not_false, if_true]
      have hcalls : libtable.cached symbol = true ∨ (!sys.opens) = true := by
        simp [ho]
      rw [resolveCalls, if_pos hcalls, hres]
      refine Or.inl ⟨trivial, t, chain, ?_, h⟩
      simp only [resolve, hfind, Option.bind_eq_bind, Option.bind_some, ne_eq,
        not_true_eq_false, if_false, ho, Bool.not_false, if_true]

end LinkedLibrary

end TickrateEnabler
