import TickrateEnabler.SharedHeap

/-!
# Runs over the shared heap

`Represents` relates `MemoryUtils` in memory to its tables without pointers : every
table is `Owned`, that is, its table with its own symbols alone is the one without
pointers. A call on one library leaves the symbols of the others, and their tables, as
they are (`Represents.resolve_table`).

So any calls in memory fault exactly when a symbol or the buckets of a new table get no
memory. Otherwise they answer what the tables without pointers answer, and `~MemoryUtils`
then frees every symbol, none of them twice (`run_refines`).
-/

namespace TickrateEnabler

open Chains Memory Transition

open SymbolHeap (within without)

namespace Blocks

open LinkedTable (TableCall)

/-- The addresses of the symbols of a library. -/
def addresses (blocks : Blocks) (l : BitVec 32) : List Ptr :=
  (blocks.of l).map Prod.snd

theorem of_run_of_ne {l l' : BitVec 32} (h : l' ≠ l) (blocks : Blocks) (calls : List TableCall) :
    (run (note l) blocks calls).of l' = blocks.of l' := by
  induction calls generalizing blocks with
  | nil => rfl
  | cons c calls ih => exact (ih _).trans (of_note_of_ne h c)

theorem Valid.run {blocks : Blocks} (h : blocks.Valid) {l : BitVec 32} {calls : List TableCall}
    (hm : Along (Blocks.note l) (MallocOk l) blocks calls)
    (hs : Along (Blocks.note l) (Served l) blocks calls) :
    (Transition.run (Blocks.note l) blocks calls).Valid := by
  induction calls generalizing blocks with
  | nil => exact h
  | cons c calls ih => exact ih (h.note hm.1 hs.1) hm.2 hs.2

end Blocks

namespace LinkedUtils

open LinkedTable (Tracks)
open LinkedLibrary (resolveCalls)

/-! ## What the memory represents -/

/-- `libtable` with its own symbols is the table `T`. -/
structure Owned (heap : SymbolHeap) (blocks : Blocks) (libtable : LinkedLibrary)
    (T : LibSymbolTable) : Prop where
  lib_base : libtable.lib_base = T.lib_base
  last_pos : libtable.last_pos = T.last_pos
  tracks : ∃ chain, Tracks (blocks.of T.lib_base)
    (libtable.table (within heap (blocks.addresses T.lib_base))) T.table chain

/-- `m` has the tables `M`, its symbols in `blocks`. -/
structure Represents (m : LinkedUtils) (M : MemoryUtils) (blocks : Blocks) : Prop where
  valid : blocks.Valid
  bases : (M.map LibSymbolTable.lib_base).Nodup
  tables : List.Forall₂ (Owned m.heap blocks) m.m_SymTables M
  inUse : ∀ p, m.heap p ≠ none → ∃ l, p ∈ blocks.addresses l
  known : ∀ l, l ∉ M.map LibSymbolTable.lib_base → blocks.of l = []

theorem table_eq_beside (libtable : LinkedLibrary) (heap : SymbolHeap) (l : List Ptr) :
    libtable.table heap = (libtable.table (within heap l)).beside (without heap l) := by
  unfold LinkedLibrary.table LinkedTable.beside SymbolMemory.beside
  simp only [SymbolHeap.within_or_without]

/-- A table keeps its symbols where these stay as they are. -/
theorem Owned.congr {heap heap' : SymbolHeap} {blocks blocks' : Blocks}
    {libtable : LinkedLibrary} {T : LibSymbolTable} (h : Owned heap blocks libtable T)
    (hof : blocks'.of T.lib_base = blocks.of T.lib_base)
    (hheap : ∀ p ∈ blocks.addresses T.lib_base, heap' p = heap p) :
    Owned heap' blocks' libtable T := by
  refine ⟨h.lib_base, h.last_pos, ?_⟩
  have hwithin : within heap' (blocks.addresses T.lib_base) =
      within heap (blocks.addresses T.lib_base) := by
    ext p : 1
    exact if_ctx_congr Iff.rfl (fun hp => hheap p hp) fun _ => rfl
  rw [Blocks.addresses, hof]
  rw [← Blocks.addresses, hwithin]
  exact h.tracks

/-- The symbols after a call on the table of the library `l` : those of the table as it is
then, and those of the other tables. -/
theorem exists_parts {heap : SymbolHeap} {blocks blocks' : Blocks} {l : BitVec 32}
    {T : SymbolTable} {t' : LinkedTable} {chain : ℕ → List Ptr}
    (hinUse : ∀ p, heap p ≠ none → ∃ l, p ∈ blocks.addresses l) (hvalid : blocks.Valid)
    (hvalid' : blocks'.Valid) (hof : ∀ l', l' ≠ l → blocks'.of l' = blocks.of l')
    (h : Tracks (blocks'.of l) t' T chain) :
    let heap' := (t'.beside (without heap (blocks.addresses l))).memory.heap
    within heap' (blocks'.addresses l) = t'.memory.heap ∧
      (∀ l', l' ≠ l → ∀ p ∈ blocks.addresses l', heap' p = heap p) ∧
      ∀ p, heap' p ≠ none → ∃ l, p ∈ blocks'.addresses l := by
  intro heap'
  have hown : ∀ p, t'.memory.heap p ≠ none → p ∈ blocks'.addresses l := fun p hp =>
    h.blocks p fun hs => hp (Option.map_eq_none_iff.1 hs)
  have hrest : ∀ p, without heap (blocks.addresses l) p ≠ none →
      ∃ l', l' ≠ l ∧ p ∈ blocks'.addresses l' := by
    intro p hp
    obtain ⟨hpl, hp⟩ : p ∉ blocks.addresses l ∧ heap p ≠ none := by
      by_cases hpl : p ∈ blocks.addresses l
      · exact (hp (if_pos hpl)).elim
      · exact ⟨hpl, by rwa [without, if_neg hpl] at hp⟩
    obtain ⟨l', hl'⟩ := hinUse p hp
    have hne : l' ≠ l := fun heq => hpl (heq ▸ hl')
    refine ⟨l', hne, ?_⟩
    rwa [Blocks.addresses, hof l' hne]
  refine ⟨?_, fun l' hne p hp => ?_, fun p hp => ?_⟩
  · ext p : 1
    by_cases hpl : p ∈ blocks'.addresses l
    · have hnone : without heap (blocks.addresses l) p = none := by
        by_contra hsome
        obtain ⟨l', hne, hl'⟩ := hrest p hsome
        exact hvalid'.notMem_of hpl hne hl'
      refine (if_pos hpl).trans ?_
      show (t'.memory.heap p).or _ = _
      rw [hnone, Option.or_none]
    · exact (if_neg hpl).trans (by_contra fun hne => hpl (hown p (Ne.symm hne)))
  · have hpl : p ∉ blocks'.addresses l := by
      rw [Blocks.addresses, ← hof l' hne] at hp
      exact hvalid'.notMem_of hp hne.symm
    have hnone : t'.memory.heap p = none := by_contra fun hsome => hpl (hown p hsome)
    show (t'.memory.heap p).or _ = _
    rw [hnone, Option.none_or]
    exact if_neg (hvalid.notMem_of hp hne.symm)
  · by_cases hnone : t'.memory.heap p = none
    · change (t'.memory.heap p).or _ ≠ none at hp
      rw [hnone, Option.none_or] at hp
      obtain ⟨l', -, hl'⟩ := hrest p hp
      exact ⟨l', hl'⟩
    · exact ⟨l, hown p hnone⟩

/-! ## One call -/

variable {m : LinkedUtils} {M : MemoryUtils} {blocks : Blocks}

/-- What a call on the `i`-th table gives, and what it leaves. -/
theorem Represents.resolve_table (h : Represents m M blocks) {i : ℕ} {libtable : LinkedLibrary}
    {T : LibSymbolTable} (hlib : m.m_SymTables[i]? = some libtable) (hT : M[i]? = some T)
    {dlmap : Library} (hbase : T.lib_base = dlmap.l_addr) {symbol : Name} {sys : LinkedSystem}
    (hm : Along (Blocks.note dlmap.l_addr) (Blocks.MallocOk dlmap.l_addr) blocks
      (resolveCalls T dlmap symbol sys)) :
    let r := T.resolve dlmap symbol sys.toSystem
    let calls := resolveCalls T dlmap symbol sys
    let blocks' := run (Blocks.note dlmap.l_addr) blocks calls
    let res := LinkedLibrary.resolve libtable.last_pos (libtable.table m.heap) dlmap symbol sys
    (Along (Blocks.note dlmap.l_addr) (Blocks.Served dlmap.l_addr) blocks calls ∧ ∃ t',
        res = some (r.1, r.2.last_pos, t') ∧
        Represents ⟨t'.memory.heap,
          m.m_SymTables.set i (.ofTable t' libtable.lib_base r.2.last_pos)⟩ (M.set i r.2)
          blocks') ∨
      ¬Along (Blocks.note dlmap.l_addr) (Blocks.Served dlmap.l_addr) blocks calls ∧
        res = none := by
  intro r calls blocks' res
  obtain ⟨hlt, rfl⟩ := List.getElem?_eq_some_iff.1 hlib
  obtain ⟨hlt', rfl⟩ := List.getElem?_eq_some_iff.1 hT
  obtain ⟨hlength, hall⟩ := List.forall₂_iff_get.1 h.tables
  have howned : Owned m.heap blocks m.m_SymTables[i] M[i] := hall i hlt hlt'
  obtain ⟨chain, htracks⟩ := howned.tracks
  have hres : res = LinkedLibrary.resolve M[i].last_pos
      ((m.m_SymTables[i].table (within m.heap (blocks.addresses dlmap.l_addr))).beside
        (without m.heap (blocks.addresses dlmap.l_addr))) dlmap symbol sys := by
    rw [← table_eq_beside, ← howned.last_pos]
  rw [hbase] at htracks
  rw [hres]
  rcases LinkedLibrary.resolve_beside (without m.heap (blocks.addresses dlmap.l_addr)) htracks hm
    with ⟨hserved, t', chain', ht', htracks'⟩ | hfault
  · have hof : ∀ l', l' ≠ dlmap.l_addr → blocks'.of l' = blocks.of l' :=
      fun l' hne => Blocks.of_run_of_ne hne blocks calls
    have hvalid' : blocks'.Valid := h.valid.run hm hserved
    obtain ⟨hwithin, hothers, hinUse⟩ := exists_parts h.inUse h.valid hvalid' hof htracks'
    have hbases : (M.set i r.2).map LibSymbolTable.lib_base = M.map LibSymbolTable.lib_base := by
      have hi : i < (M.map LibSymbolTable.lib_base).length := by rwa [List.length_map]
      rw [List.map_set, LibSymbolTable.resolve_lib_base,
        show M[i].lib_base = (M.map LibSymbolTable.lib_base)[i] by simp, List.set_getElem_self]
    refine Or.inl ⟨hserved, _, ht', hvalid', ?_, ?_, hinUse, fun l hl => ?_⟩
    · rw [hbases]
      exact h.bases
    · refine List.forall₂_iff_get.2 ⟨by simpa using hlength, fun j hj hj' => ?_⟩
      simp only [List.get_eq_getElem, List.getElem_set]
      rw [List.length_set] at hj hj'
      by_cases hij : i = j
      · rw [if_pos hij, if_pos hij]
        have hbase' : r.2.lib_base = dlmap.l_addr :=
          (LibSymbolTable.resolve_lib_base ..).trans hbase
        refine ⟨howned.lib_base.trans (hbase.trans hbase'.symm), rfl, chain', ?_⟩
        rw [hbase', hwithin]
        exact htracks'
      · rw [if_neg hij, if_neg hij]
        have hne : M[j].lib_base ≠ dlmap.l_addr := by
          intro heq
          have hi : i < (M.map LibSymbolTable.lib_base).length := by rwa [List.length_map]
          have hj : j < (M.map LibSymbolTable.lib_base).length := by rwa [List.length_map]
          have hbases : (M.map LibSymbolTable.lib_base)[i] =
              (M.map LibSymbolTable.lib_base)[j] := by
            rw [List.getElem_map, List.getElem_map, hbase, heq]
          exact hij (h.bases.getElem_inj_iff.1 hbases)
        exact (hall j hj hj').congr (hof _ hne) (hothers _ hne)
    · rw [hbases] at hl
      have hne : l ≠ dlmap.l_addr := by
        rintro rfl
        exact hl (hbase ▸ List.mem_map_of_mem (List.getElem_mem hlt'))
      rw [hof l hne]
      exact h.known l hl
  · exact Or.inr hfault

/-- A library without a table gets one. -/
theorem Represents.push (h : Represents m M blocks) {l : BitVec 32}
    (hl : l ∉ M.map LibSymbolTable.lib_base) :
    Represents ⟨m.heap, m.m_SymTables ++ [.new l true]⟩ (M ++ [.new l]) blocks := by
  have hof := h.known l hl
  refine ⟨h.valid, ?_, ?_, h.inUse, fun l' hl' => ?_⟩
  · rw [List.map_append, List.map_singleton]
    exact List.nodup_append_comm.1 (List.nodup_cons.2 ⟨hl, h.bases⟩)
  · refine List.rel_append h.tables (List.Forall₂.cons ⟨rfl, rfl, fun _ => [], ?_⟩ .nil)
    have hwithin : within m.heap (blocks.addresses l) = fun _ => none := by
      rw [Blocks.addresses, hof]
      exact funext fun p => if_neg List.not_mem_nil
    show Tracks (blocks.of l) _ _ _
    rw [hof]
    show Tracks [] (LinkedLibrary.table _ (within m.heap (blocks.addresses l))) _ _
    rw [hwithin]
    exact LinkedTable.tracks_initializeTable
  · rw [List.map_append, List.mem_append, not_or] at hl'
    exact h.known l' hl'.1

theorem Represents.map_lib_base (h : Represents m M blocks) :
    m.m_SymTables.map LinkedLibrary.lib_base = M.map LibSymbolTable.lib_base :=
  List.forall₂_eq_eq_eq ▸ List.forall₂_map_left_iff.2
    (List.forall₂_map_right_iff.2 (h.tables.imp fun _ _ howned => howned.lib_base))

/-- The position of the table of a library. -/
theorem Represents.findIdx_eq (h : Represents m M blocks) (l : BitVec 32) :
    (m.m_SymTables.findIdx fun libtable => libtable.lib_base = l) = M.tableIndex l := by
  have hmap : ∀ {α : Type} (f : α → BitVec 32) (xs : List α),
      xs.findIdx (fun x => f x = l) = (xs.map f).findIdx fun b => b = l := by
    intro α f xs
    rw [List.findIdx_map]
    rfl
  exact (hmap LinkedLibrary.lib_base _).trans
    ((congrArg _ h.map_lib_base).trans (hmap LibSymbolTable.lib_base _).symm)

theorem Represents.length_eq (h : Represents m M blocks) : m.m_SymTables.length = M.length :=
  h.tables.length_eq

/-- Whether the system gives all the memory that a call asks for. -/
def CallServed (M : MemoryUtils) (blocks : Blocks) (dlmap : Library) (symbol : Name)
    (sys : LinkedSystem) : Prop :=
  (dlmap.l_addr ∈ M.map LibSymbolTable.lib_base ∨ sys.initialized = true) ∧
    Along (Blocks.note dlmap.l_addr) (Blocks.Served dlmap.l_addr) blocks
      (resolveCalls (M.tableOf dlmap.l_addr) dlmap symbol sys)

/-- Without its buckets a new table is a fault. -/
theorem resolve_new_false (heap : SymbolHeap) (dlmap : Library) (symbol : Name)
    (sys : LinkedSystem) (last_pos : ℕ) :
    LinkedLibrary.resolve last_pos ((LinkedLibrary.new dlmap.l_addr false).table heap) dlmap
      symbol sys = none := by
  have hfind : ((LinkedLibrary.new dlmap.l_addr false).table heap).findSymbol symbol
      symbol.length = none := by
    have hlimit : LinkedTable.WALK_LIMIT = (2 ^ 32 - 1) + 1 := rfl
    rw [LinkedTable.findSymbol, LinkedTable.findSymbolBucket, hlimit, LinkedTable.findLoop]
    rfl
  rw [LinkedLibrary.resolve, hfind]
  rfl

/-- A call answers what the tables without pointers answer, or faults for lack of memory. -/
def Follows (m : LinkedUtils) (M : MemoryUtils) (blocks : Blocks) (dlmap : Library)
    (symbol : Name) (sys : LinkedSystem) : Prop :=
  (CallServed M blocks dlmap symbol sys ∧ ∃ m',
      m.resolveSymbol dlmap symbol sys =
        some ((M.resolveSymbol dlmap symbol sys.toSystem).1, m') ∧
      Represents m' (M.resolveSymbol dlmap symbol sys.toSystem).2
        (run (Blocks.note dlmap.l_addr) blocks
          (resolveCalls (M.tableOf dlmap.l_addr) dlmap symbol sys))) ∨
    ¬CallServed M blocks dlmap symbol sys ∧ m.resolveSymbol dlmap symbol sys = none

section Call

variable {dlmap : Library} {symbol : Name} {sys : LinkedSystem}

/-- `ResolveSymbol` once the table is known to be the `i`-th, of the `tables` there are then. -/
theorem resolveSymbol_of_getElem? {i : ℕ} {tables : List LinkedLibrary} {libtable : LinkedLibrary}
    (hidx : (m.m_SymTables.findIdx fun libtable => libtable.lib_base = dlmap.l_addr) = i)
    (htables : (if i < m.m_SymTables.length then m.m_SymTables
      else m.m_SymTables ++ [.new dlmap.l_addr sys.initialized]) = tables)
    (hlib : tables[i]? = some libtable) :
    m.resolveSymbol dlmap symbol sys =
      (LinkedLibrary.resolve libtable.last_pos (libtable.table m.heap) dlmap symbol sys).bind
        fun r => some (r.1, ⟨r.2.2.memory.heap,
          tables.set i (.ofTable r.2.2 libtable.lib_base r.2.1)⟩) := by
  simp only [resolveSymbol, hidx, htables, hlib, Option.bind_eq_bind, Option.bind_some]

/-- A call on a library that has a table. -/
theorem Represents.follows_of_lt (h : Represents m M blocks)
    (hlt : M.tableIndex dlmap.l_addr < M.length)
    (hm : Along (Blocks.note dlmap.l_addr) (Blocks.MallocOk dlmap.l_addr) blocks
      (resolveCalls (M.tableOf dlmap.l_addr) dlmap symbol sys)) :
    Follows m M blocks dlmap symbol sys := by
  have hidx := h.findIdx_eq dlmap.l_addr
  set i := M.tableIndex dlmap.l_addr with hi
  have hT : M[i]? = some M[i] := List.getElem?_eq_getElem hlt
  have hlt' : i < m.m_SymTables.length := h.length_eq.symm ▸ hlt
  have hlib : m.m_SymTables[i]? = some m.m_SymTables[i] := List.getElem?_eq_getElem hlt'
  have hbase : M[i].lib_base = dlmap.l_addr :=
    of_decide_eq_true (List.findIdx_getElem (w := hlt))
  have hof : M.tableOf dlmap.l_addr = M[i] := by
    rw [MemoryUtils.tableOf, ← hi, hT]
    rfl
  have hr : M.resolveSymbol dlmap symbol sys.toSystem =
      ((M[i].resolve dlmap symbol sys.toSystem).1,
        M.set i (M[i].resolve dlmap symbol sys.toSystem).2) := by
    simp only [MemoryUtils.resolveSymbol, ← hi, hT]
  have hknown : dlmap.l_addr ∈ M.map LibSymbolTable.lib_base :=
    hbase ▸ List.mem_map_of_mem (List.getElem_mem hlt)
  rw [hof] at hm
  rw [Follows, CallServed, hof, hr, resolveSymbol_of_getElem? hidx (if_pos hlt') hlib]
  rcases h.resolve_table hlib hT hbase hm with ⟨hserved, t', ht', h'⟩ | ⟨hserved, hnone⟩
  · rw [ht']
    exact Or.inl ⟨⟨Or.inl hknown, hserved⟩, _, rfl, h'⟩
  · rw [hnone]
    exact Or.inr ⟨fun hall => hserved hall.2, rfl⟩

/-- A call on a library that has no table yet. -/
theorem Represents.follows_of_not_lt (h : Represents m M blocks)
    (hlt : ¬M.tableIndex dlmap.l_addr < M.length)
    (hm : Along (Blocks.note dlmap.l_addr) (Blocks.MallocOk dlmap.l_addr) blocks
      (resolveCalls (M.tableOf dlmap.l_addr) dlmap symbol sys)) :
    Follows m M blocks dlmap symbol sys := by
  have hidx := h.findIdx_eq dlmap.l_addr
  set i := M.tableIndex dlmap.l_addr with hi
  have hi' : i = M.length := Nat.le_antisymm List.findIdx_le_length (Nat.not_lt.1 hlt)
  have hnone : M[i]? = none := List.getElem?_eq_none (Nat.not_lt.1 hlt)
  have hnew : dlmap.l_addr ∉ M.map LibSymbolTable.lib_base := by
    intro hmem
    obtain ⟨T, hT, hbase⟩ := List.mem_map.1 hmem
    exact hlt (List.findIdx_lt_length_of_exists ⟨T, hT, decide_eq_true hbase⟩)
  have hT : (M ++ [LibSymbolTable.new dlmap.l_addr])[i]? = some (.new dlmap.l_addr) := by
    rw [hi']
    exact List.getElem?_concat_length
  have hlib : (m.m_SymTables ++ [LinkedLibrary.new dlmap.l_addr sys.initialized])[i]? =
      some (.new dlmap.l_addr sys.initialized) := by
    rw [hi', ← h.length_eq]
    exact List.getElem?_concat_length
  have hof : M.tableOf dlmap.l_addr = .new dlmap.l_addr := by
    rw [MemoryUtils.tableOf, ← hi, hnone]
    rfl
  have hr : M.resolveSymbol dlmap symbol sys.toSystem =
      (((LibSymbolTable.new dlmap.l_addr).resolve dlmap symbol sys.toSystem).1,
        (M ++ [LibSymbolTable.new dlmap.l_addr]).set i
          ((LibSymbolTable.new dlmap.l_addr).resolve dlmap symbol sys.toSystem).2) := by
    simp only [MemoryUtils.resolveSymbol, ← hi, hnone]
    rw [hi', List.set_append_right _ _ (Nat.le_refl _), Nat.sub_self]
    rfl
  rw [hof] at hm
  rw [Follows, CallServed, hof, hr,
    resolveSymbol_of_getElem? hidx (if_neg (h.length_eq.symm ▸ hlt)) hlib]
  cases hinit : sys.initialized with
  | false =>
    rw [resolve_new_false]
    exact Or.inr ⟨fun hall => hall.1.elim hnew Bool.false_ne_true, rfl⟩
  | true =>
    rw [hinit] at hlib
    rcases (h.push hnew).resolve_table hlib hT rfl hm with
      ⟨hserved, t', ht', h'⟩ | ⟨hserved, hfault⟩
    · rw [show LinkedLibrary.resolve _ _ dlmap symbol sys = _ from ht']
      exact Or.inl ⟨⟨Or.inr rfl, hserved⟩, _, rfl, h'⟩
    · rw [show LinkedLibrary.resolve _ _ dlmap symbol sys = _ from hfault]
      exact Or.inr ⟨fun hall => hserved hall.2, rfl⟩

theorem Represents.follows (h : Represents m M blocks)
    (hm : Along (Blocks.note dlmap.l_addr) (Blocks.MallocOk dlmap.l_addr) blocks
      (resolveCalls (M.tableOf dlmap.l_addr) dlmap symbol sys)) :
    Follows m M blocks dlmap symbol sys := by
  by_cases hlt : M.tableIndex dlmap.l_addr < M.length
  · exact h.follows_of_lt hlt hm
  · exact h.follows_of_not_lt hlt hm

end Call

/-! ## The destructor -/

/-- Destroying the tables `tables` of a heap frees their symbols. -/
theorem destroy_tables {heap : SymbolHeap} {tables : List LinkedLibrary} {M : List LibSymbolTable}
    (hvalid : blocks.Valid) (hbases : (M.map LibSymbolTable.lib_base).Nodup)
    (htables : List.Forall₂ (Owned heap blocks) tables M)
    (hinUse : ∀ p, heap p ≠ none →
      ∃ l ∈ M.map LibSymbolTable.lib_base, p ∈ blocks.addresses l) :
    tables.foldlM (fun heap libtable =>
      (libtable.table heap).destroy.map SymbolMemory.heap) heap = some fun _ => none := by
  induction tables generalizing heap M with
  | nil =>
    obtain rfl := List.forall₂_nil_left_iff.1 htables
    refine congrArg some (funext fun p => ?_)
    by_contra hp
    obtain ⟨l, hl, -⟩ := hinUse p hp
    exact List.not_mem_nil hl
  | cons libtable tables ih =>
    obtain ⟨T, M, howned, hrest, rfl⟩ := List.forall₂_cons_left_iff.1 htables
    obtain ⟨hT, hbases⟩ := List.nodup_cons.1 hbases
    obtain ⟨chain, htracks⟩ := howned.tracks
    set own := blocks.addresses T.lib_base with hown
    have hdisjoint : ∀ p, within heap own p = none ∨ without heap own p = none := by
      intro p
      by_cases hp : p ∈ own
      · exact Or.inr (if_pos hp)
      · exact Or.inl (if_neg hp)
    obtain ⟨x, hx, hheap⟩ := htracks.represents.destroy_beside htracks.wf hdisjoint
    rw [← table_eq_beside] at hx
    have htables' : List.Forall₂ (Owned (without heap own) blocks) tables M := by
      obtain ⟨hlength, hall⟩ := List.forall₂_iff_get.1 hrest
      refine List.forall₂_iff_get.2 ⟨hlength, fun i hi hi' => ?_⟩
      refine (hall i hi hi').congr rfl fun p hp => if_neg (hvalid.notMem_of hp ?_)
      rintro heq
      exact hT (heq ▸ List.mem_map_of_mem (List.getElem_mem hi'))
    have hinUse' : ∀ p, without heap own p ≠ none →
        ∃ l ∈ M.map LibSymbolTable.lib_base, p ∈ blocks.addresses l := by
      intro p hp
      have hpown : p ∉ own := fun hmem => hp (if_pos hmem)
      rw [without, if_neg hpown] at hp
      obtain ⟨l, hl, hpl⟩ := hinUse p hp
      rcases List.mem_cons.1 hl with rfl | hl
      · exact (hpown hpl).elim
      · exact ⟨l, hl, hpl⟩
    rw [List.foldlM_cons, hx, Option.map_some, hheap]
    exact ih hbases htables' hinUse'

theorem Represents.destroy (h : Represents m M blocks) : m.destroy = some fun _ => none := by
  refine destroy_tables h.valid h.bases h.tables fun p hp => ?_
  obtain ⟨l, hl⟩ := h.inUse p hp
  refine ⟨l, ?_, hl⟩
  by_contra hnew
  rw [Blocks.addresses, h.known l hnew] at hl
  exact List.not_mem_nil hl

/-! ## Runs -/

/-- A call on one of the libraries. -/
structure LinkedCall (ι : Type*) where
  lib : ι
  symbol : Name
  sys : LinkedSystem

/-- The call on the tables without pointers. -/
def LinkedCall.toCall {ι : Type*} (c : LinkedCall ι) : ResolveCall ι :=
  ⟨c.lib, c.symbol, c.sys.toSystem⟩

/-- The tables without pointers, and the blocks in use. -/
structure Shadow where
  tables : MemoryUtils
  blocks : Blocks

namespace Shadow

variable {ι : Type*} (lib : ι → Library)

/-- The calls that `ResolveSymbol` makes on the table of its library. -/
def calls (s : Shadow) (c : LinkedCall ι) : List LinkedTable.TableCall :=
  resolveCalls (s.tables.tableOf (lib c.lib).l_addr) (lib c.lib) c.symbol c.sys

/-- The tables and the blocks after a call. -/
def note (s : Shadow) (c : LinkedCall ι) : Shadow where
  tables := s.tables.step lib c.toCall
  blocks := run (Blocks.note (lib c.lib).l_addr) s.blocks (s.calls lib c)

/-- `malloc` answers every request of a call as it may. -/
def MallocOk (s : Shadow) (c : LinkedCall ι) : Prop :=
  Along (Blocks.note (lib c.lib).l_addr) (Blocks.MallocOk (lib c.lib).l_addr) s.blocks
    (s.calls lib c)

/-- `malloc` gives a call the symbols and the buckets it asks for. -/
def Served (s : Shadow) (c : LinkedCall ι) : Prop :=
  CallServed s.tables s.blocks (lib c.lib) c.symbol c.sys

instance (s : Shadow) (c : LinkedCall ι) : Decidable (s.MallocOk lib c) :=
  inferInstanceAs (Decidable (Along _ _ _ _))

instance (s : Shadow) (c : LinkedCall ι) : Decidable (s.Served lib c) :=
  inferInstanceAs (Decidable ((_ ∨ _) ∧ Along _ _ _ _))

end Shadow

section Runs

variable {ι : Type*} (lib : ι → Library)

/-- The answers to calls in order, and the memory after them. -/
def run : LinkedUtils → List (LinkedCall ι) → Option (List (BitVec 32) × LinkedUtils)
  | m, [] => some ([], m)
  | m, c :: cs => do
    let r ← m.resolveSymbol (lib c.lib) c.symbol c.sys
    let rs ← run r.2 cs
    some (r.1 :: rs.1, rs.2)

/-- `MemoryUtils` at the start. -/
def empty : LinkedUtils where
  heap := fun _ => none
  m_SymTables := []

theorem represents_empty : Represents empty [] [] where
  valid := ⟨List.Pairwise.nil, fun _ he => (List.not_mem_nil he).elim⟩
  bases := List.nodup_nil
  tables := List.Forall₂.nil
  inUse := fun _ hp => (hp rfl).elim
  known := fun _ _ => rfl

variable {lib}

theorem Represents.run (h : Represents m M blocks) {calls : List (LinkedCall ι)}
    (hm : Along (Shadow.note lib) (Shadow.MallocOk lib) ⟨M, blocks⟩ calls) :
    (Along (Shadow.note lib) (Shadow.Served lib) ⟨M, blocks⟩ calls ∧ ∃ m' M' blocks',
        LinkedUtils.run lib m calls = some (M.answers lib (calls.map LinkedCall.toCall), m') ∧
        Represents m' M' blocks') ∨
      ¬Along (Shadow.note lib) (Shadow.Served lib) ⟨M, blocks⟩ calls ∧
        LinkedUtils.run lib m calls = none := by
  induction calls generalizing m M blocks with
  | nil => exact Or.inl ⟨trivial, m, M, blocks, rfl, h⟩
  | cons c calls ih =>
    rw [LinkedUtils.run]
    rcases h.follows hm.1 with ⟨hserved, m₁, hm₁, h₁⟩ | ⟨hserved, hnone⟩
    · rw [hm₁]
      rcases ih h₁ hm.2 with ⟨hall, m', M', blocks', hrun, h'⟩ | ⟨hall, hnone⟩
      · refine Or.inl ⟨⟨hserved, hall⟩, m', M', blocks', ?_, h'⟩
        simp only [Option.bind_eq_bind, Option.bind_some, hrun]
        rfl
      · refine Or.inr ⟨fun h => hall h.2, ?_⟩
        simp only [Option.bind_eq_bind, Option.bind_some, hnone, Option.bind_none]
    · rw [hnone]
      exact Or.inr ⟨fun h => hserved h.1, rfl⟩

end Runs

/-- `MemoryUtils` with its pointers is `MemoryUtils` without. Calls in any order fault exactly
when a symbol or the buckets of a new table get no memory. Otherwise the answers are those of
the tables without pointers, and `~MemoryUtils` frees every symbol and none twice. -/
theorem run_refines {ι : Type*} (lib : ι → Library) (calls : List (LinkedCall ι))
    (h : Along (Shadow.note lib) (Shadow.MallocOk lib) ⟨[], []⟩ calls) :
    ((∃ r, run lib empty calls = some r) ↔
        Along (Shadow.note lib) (Shadow.Served lib) ⟨[], []⟩ calls) ∧
      ∀ answers m, run lib empty calls = some (answers, m) →
        answers = MemoryUtils.answers lib [] (calls.map LinkedCall.toCall) ∧
          m.destroy = some fun _ => none := by
  rcases represents_empty.run h with ⟨hserved, m', M', blocks', hrun, h'⟩ | ⟨hserved, hnone⟩
  · refine ⟨iff_of_true ⟨_, hrun⟩ hserved, fun answers m hm => ?_⟩
    obtain ⟨rfl, rfl⟩ := Prod.mk.inj (Option.some.inj (hrun.symm.trans hm))
    exact ⟨rfl, h'.destroy⟩
  · have hno : ∀ r, run lib empty calls ≠ some r := fun r hr =>
      Option.some_ne_none r (hr.symm.trans hnone)
    exact ⟨iff_of_false (not_exists.2 hno) hserved, fun answers m hm => (hno _ hm).elim⟩

/-- Calls on two libraries, of which the second finds its name in the cache. -/
def fourCalls : List (LinkedCall Bool) :=
  [⟨false, [98], ⟨⟨true, fun _ => true⟩, fun i => 0x1000 + 0x20 * BitVec.ofNat 32 i, true⟩⟩,
    ⟨false, [98], ⟨⟨false, fun _ => true⟩, fun _ => 0, false⟩⟩,
    ⟨true, [97], ⟨⟨true, fun _ => true⟩, fun i => 0x2000 + 0x20 * BitVec.ofNat 32 i, true⟩⟩,
    ⟨false, [97], ⟨⟨true, fun _ => true⟩, fun i => 0x3000 + 0x20 * BitVec.ofNat 32 i, false⟩⟩]

theorem run_refines_fourCalls :
    ∃ m, run twoLibraries empty fourCalls = some ([0x1030, 0x1030, 0x2040, 0x1040], m) ∧
      m.destroy = some fun _ => none := by
  obtain ⟨hrun, hanswers⟩ := run_refines twoLibraries fourCalls (by decide)
  obtain ⟨⟨answers, m⟩, hm⟩ := hrun.2 (by decide)
  obtain ⟨rfl, hdestroy⟩ := hanswers answers m hm
  refine ⟨m, hm.trans ?_, hdestroy⟩
  have hlist : MemoryUtils.answers twoLibraries [] (fourCalls.map LinkedCall.toCall) =
      [0x1030, 0x1030, 0x2040, 0x1040] := by decide
  rw [hlist]

end LinkedUtils

end TickrateEnabler
