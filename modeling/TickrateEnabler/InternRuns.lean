import TickrateEnabler.LinkedIntern
import TickrateEnabler.Memory
import TickrateEnabler.Transition
import Mathlib.Data.Set.Card

/-!
# Runs of the symbol table

`run` makes a list of `InternSymbol` and `FindSymbol` calls on a new table. `malloc`
answers a call for a symbol with `NULL` or with a block of that size apart from those in
use (`MallocOk`), and a call for a larger bucket array as it likes. The blocks together
fit in the address space, so no counter and no size wraps around (`Tracks.nused_lt`).

A run faults exactly when a symbol gets no block, and otherwise the table is well formed
(`LinkedTable.WF`) and is the first-write-wins map of the pairs interned
(`run_firstWriteWins`).
-/

namespace TickrateEnabler

open Chains FirstWins Memory Transition

namespace LinkedTable

/-! ## Well-formed tables -/

/-- The table in memory is well formed. -/
structure WF (t : LinkedTable) : Prop where
  pow : ∃ k, t.nbuckets.toNat = 2 ^ k
  mask : t.bucketmask = t.nbuckets - 1
  length : t.memory.buckets.length = t.nbuckets.toNat
  chained : ∃ chain : ℕ → List Ptr,
    (∀ i < t.nbuckets.toNat, Chain 0 Link.next t.memory.deref (.bucket i) (chain i)) ∧
    ∀ p s, t.memory.symbolAt p = some s → ∀ i < t.nbuckets.toNat,
      (chain i).count p = if i = (s.hash &&& t.bucketmask).toNat then 1 else 0
  named : ∀ p s, t.memory.symbolAt p = some s → s.WF
  distinct : ∀ p q s s', t.memory.symbolAt p = some s → t.memory.symbolAt q = some s' →
    s.name = s'.name → p = q
  count : t.nused.toNat = {p | t.memory.symbolAt p ≠ none}.ncard

namespace Represents

variable {t : LinkedTable} {T : SymbolTable} {chain : ℕ → List Ptr}

/-- An allocated symbol is in the chain of its bucket, as a symbol of that bucket. -/
theorem mem_chain (h : Represents t T chain) (hT : T.WF) {p : Ptr} {s : Symbol}
    (hs : t.memory.symbolAt p = some s) : p ∈ chain (T.slot s.hash) ∧ s ∈ T.symbols := by
  obtain ⟨i, hi, hp⟩ := h.live p (by rw [hs]; exact Option.some_ne_none s)
  obtain ⟨s', hs', hps'⟩ := h.holds.exists_symbol hi hp
  obtain rfl := Option.some.inj (hs.symm.trans hps')
  rw [hT.placed i s hs']
  exact ⟨hp, (sublist_symbols hi).subset hs'⟩

/-- The addresses of the symbols. -/
theorem setOf_symbolAt (h : Represents t T chain) :
    {p | t.memory.symbolAt p ≠ none} = ↑((List.range T.nbuckets).flatMap chain).toFinset := by
  ext p
  rw [Set.mem_ofPred_eq, List.coe_toFinset, Set.mem_ofPred_eq, List.mem_flatMap]
  constructor
  · intro hp
    obtain ⟨i, hi, hpi⟩ := h.live p hp
    exact ⟨i, List.mem_range.2 hi, hpi⟩
  · rintro ⟨i, hi, hpi⟩
    obtain ⟨s, -, hs⟩ := h.holds.exists_symbol (List.mem_range.1 hi) hpi
    rw [hs]
    exact Option.some_ne_none s

theorem length_flatMap_chain (h : Represents t T chain) :
    ((List.range T.nbuckets).flatMap chain).length = T.symbols.length := by
  rw [SymbolTable.symbols, SymbolTable.total, List.length_flatMap, List.length_flatMap]
  refine congrArg List.sum (List.map_congr_left fun i hi => ?_)
  exact h.length_chain (List.mem_range.1 hi)

/-- What represents a well-formed table is well formed. -/
theorem wf (h : Represents t T chain) (hT : T.WF) : t.WF where
  pow := h.nbuckets ▸ hT.pow
  mask := by
    obtain ⟨k, hk⟩ := hT.pow
    have hpos : 0 < t.nbuckets.toNat := by rw [h.nbuckets, hk]; exact Nat.two_pow_pos k
    have hmask : t.bucketmask.toNat = t.nbuckets.toNat - 1 := by
      rw [h.bucketmask, hT.mask, h.nbuckets]
    bv_omega
  length := h.holds.length.trans h.nbuckets.symm
  chained := by
    rw [h.nbuckets]
    refine ⟨chain, h.holds.chains, fun p s hs i hi => ?_⟩
    rw [h.slot_eq, (h.nodup_chain hT hi).count]
    refine if_congr ⟨fun hp => ?_, ?_⟩ rfl rfl
    · obtain ⟨s', hs', hps'⟩ := h.holds.exists_symbol hi hp
      obtain rfl := Option.some.inj (hs.symm.trans hps')
      exact (hT.placed i s hs').symm
    · rintro rfl
      exact (h.mem_chain hT hs).1
  named := fun p s hs => hT.named s (h.mem_chain hT hs).2
  distinct := by
    intro p q s s' hp hq hname
    obtain ⟨hpc, hps⟩ := h.mem_chain hT hp
    obtain ⟨hqc, hqs⟩ := h.mem_chain hT hq
    obtain rfl := hT.eq_of_name_eq hps hqs hname
    have hnodup := h.nodup_map_symbolAt hT (hT.slot_lt s.hash)
    exact List.inj_on_of_nodup_map hnodup hpc hqc (hp.trans hq.symm)
  count := by
    rw [h.setOf_symbolAt, Set.ncard_coe_finset, List.toFinset_card_of_nodup
      (h.nodup_flatMap_chain hT), h.length_flatMap_chain, h.nused, hT.count]

end Represents

/-! ## Calls -/

/-- The calls on the table. In `intern`, `kvs` is what `malloc` gives for the symbol and
`allocated` whether it gives a larger bucket array, where it is called. -/
inductive TableCall where
  | intern (str : Name) (address : BitVec 32) (kvs : Ptr) (allocated : Bool)
  | find (str : Name)

/-- One call. -/
def step (t : LinkedTable) : TableCall → Option LinkedTable
  | .intern str address kvs allocated =>
    (t.internSymbol str str.length address kvs allocated).map Prod.snd
  | .find str => (t.findSymbol str str.length).map fun _ => t

/-- The calls in order, on a new table. -/
def run (calls : List TableCall) : Option LinkedTable :=
  calls.foldlM step initializeTable

/-- The cache of `ResolveSymbol` : the address of the symbol that `FindSymbol` returns, if
it returns one. -/
def cached (t : LinkedTable) (str : Name) : Option (Option (BitVec 32)) := do
  let symbol_entry ← t.findSymbol str str.length
  if symbol_entry = 0 then some none
  else
    let node ← t.memory.heap symbol_entry
    some (some node.symbol.address)

/-- The pair a call interns. -/
def pairs : TableCall → List (Name × BitVec 32)
  | .intern str address _ _ => [(str, address)]
  | .find _ => []

/-- The pairs interned, in order. -/
def interned (calls : List TableCall) : List (Name × BitVec 32) :=
  calls.flatMap pairs

/-! ## What malloc gives -/

/-- `sizeof(Symbol) + sizeof(char) * (len + 1)`. The name and its copy lie in the 32-bit
address space, so this does not wrap around. -/
def symbolSize (len : ℕ) : ℕ :=
  16 + (len + 1)

/-- The cells of the symbol of a name at an address. -/
def span (e : Name × Ptr) : ℕ × ℕ :=
  (e.2.toNat, symbolSize e.1.length)

/-- The blocks after a call : `malloc` is asked for one when the name is new. -/
def noteCall (live : List (Name × Ptr)) : TableCall → List (Name × Ptr)
  | .intern str _ kvs _ => if str ∈ live.map Prod.fst then live else (str, kvs) :: live
  | .find _ => live

/-- `malloc` gives `NULL` or a block of the size, apart from those in use. -/
def MallocOk (live : List (Name × Ptr)) : TableCall → Prop
  | .intern str _ kvs _ => str ∉ live.map Prod.fst → kvs ≠ 0 →
    kvs.toNat + symbolSize str.length ≤ 2 ^ 32 ∧ ∀ e ∈ live, Apart (span (str, kvs)) (span e)
  | .find _ => True

/-- A new symbol gets a block. -/
def Served (live : List (Name × Ptr)) : TableCall → Prop
  | .intern str _ kvs _ => str ∉ live.map Prod.fst → kvs ≠ 0
  | .find _ => True

instance (live : List (Name × Ptr)) : ∀ c, Decidable (MallocOk live c)
  | .intern .. => inferInstanceAs (Decidable (_ → _ → _ ∧ _))
  | .find _ => inferInstanceAs (Decidable True)

instance (live : List (Name × Ptr)) : ∀ c, Decidable (Served live c)
  | .intern .. => inferInstanceAs (Decidable (_ → _))
  | .find _ => inferInstanceAs (Decidable True)

/-- `t` is the table `T`, whose symbols are in the blocks `live`. -/
structure Tracks (live : List (Name × Ptr)) (t : LinkedTable) (T : SymbolTable)
    (chain : ℕ → List Ptr) : Prop where
  wf : T.WF
  represents : Represents t T chain
  names : (live.map Prod.fst).Perm (T.symbols.map Symbol.name)
  blocks : ∀ p, t.memory.symbolAt p ≠ none → p ∈ live.map Prod.snd
  apart : (live.map span).Pairwise Apart
  fits : ∀ e ∈ live, e.2.toNat + symbolSize e.1.length ≤ 2 ^ 32

namespace Tracks

variable {live : List (Name × Ptr)} {t : LinkedTable} {T : SymbolTable} {chain : ℕ → List Ptr}

/-- There are fewer symbols than the address space has room for. -/
theorem nused_lt (h : Tracks live t T chain) : T.nused < 2 ^ 28 := by
  have hlength : T.nused = (live.map span).length := by
    rw [h.wf.count, List.length_map]
    simpa using h.names.length_eq.symm
  have hroom : (live.map span).length * 17 ≤ 2 ^ 32 := by
    refine length_mul_le_of_pairwise_apart h.apart ?_ ?_
    · rintro _ hs
      obtain ⟨e, he, rfl⟩ := List.mem_map.1 hs
      exact h.fits e he
    · rintro _ hs
      obtain ⟨e, -, rfl⟩ := List.mem_map.1 hs
      show 17 ≤ 16 + (e.1.length + 1)
      omega
  omega

/-- The names with blocks are those the table has. -/
theorem notMem_names_iff (h : Tracks live t T chain) (str : Name) :
    str ∉ live.map Prod.fst ↔ T.findSymbol str str.length = none := by
  rw [h.wf.findSymbol_eq_none_iff, h.names.mem_iff, List.mem_map]
  push Not
  rfl

/-- A block apart from those in use is free. -/
theorem symbolAt_eq_none (h : Tracks live t T chain) {str : Name} {kvs : Ptr}
    (hapart : ∀ e ∈ live, Apart (span (str, kvs)) (span e)) : t.memory.symbolAt kvs = none := by
  by_contra hne
  obtain ⟨e, he, rfl⟩ := List.mem_map.1 (h.blocks kvs hne)
  have := hapart e he
  simp only [Apart, span, symbolSize] at this
  omega

/-- `InternSymbol` of a new name, in the block it gets. -/
theorem internSymbol (h : Tracks live t T chain) {str : Name} {kvs : Ptr}
    (hnew : str ∉ live.map Prod.fst) (hkvs : kvs ≠ 0)
    (hfits : kvs.toNat + symbolSize str.length ≤ 2 ^ 32)
    (hapart : ∀ e ∈ live, Apart (span (str, kvs)) (span e)) (address : BitVec 32)
    (allocated : Bool) :
    ∃ t' chain', t.internSymbol str str.length address kvs allocated = some (kvs, t') ∧
      Tracks ((str, kvs) :: live) t'
        (T.internSymbol str str.length address allocated).2 chain' := by
  have hf := (h.notMem_names_iff str).1 hnew
  obtain ⟨hwf, hperm⟩ := h.wf.internSymbol_of_none hf address allocated
  obtain ⟨t', chain', ht', hsymbolAt, hrep⟩ := h.represents.internSymbol_of_none h.wf hf address
    hkvs (h.symbolAt_eq_none hapart) h.nused_lt allocated
  refine ⟨t', chain', ht', hwf, hrep, ?_, fun p hp => ?_, ?_, ?_⟩
  · refine List.Perm.trans ?_ (hperm.map Symbol.name).symm
    rw [List.map_cons, List.map_cons, Symbol.name_intern]
    exact h.names.cons str
  · rw [List.map_cons, List.mem_cons]
    refine or_iff_not_imp_left.2 fun hne => h.blocks p ?_
    rwa [hsymbolAt, Function.update_of_ne hne] at hp
  · exact List.pairwise_cons.2 ⟨List.forall_mem_map.2 hapart, h.apart⟩
  · exact List.forall_mem_cons.2 ⟨hfits, h.fits⟩

/-- One call, if a new symbol gets a block. -/
theorem step (h : Tracks live t T chain) {c : TableCall} (hm : MallocOk live c)
    (hs : Served live c) :
    ∃ t' T' chain', LinkedTable.step t c = some t' ∧ Tracks (noteCall live c) t' T' chain' ∧
      T'.lookup = putAll T.lookup (pairs c) := by
  cases c with
  | find str =>
    obtain ⟨p, hp, -⟩ := h.represents.findSymbol h.wf str str.length
    exact ⟨t, T, chain, congrArg (Option.map _) hp, h, rfl⟩
  | intern str address kvs allocated =>
    have hput := (h.wf.internSymbol str address allocated).2.1
    by_cases hmem : str ∈ live.map Prod.fst
    · obtain ⟨s, hf⟩ := Option.ne_none_iff_exists'.1
        ((h.notMem_names_iff str).not_right.1 hmem)
      obtain ⟨p, hp, -⟩ := h.represents.internSymbol_of_some h.wf hf address kvs allocated
      rw [SymbolTable.internSymbol_of_some hf] at hput
      refine ⟨t, T, chain, congrArg (Option.map _) hp, ?_, hput⟩
      rw [noteCall, if_pos hmem]
      exact h
    · obtain ⟨hfits, hapart⟩ := hm hmem (hs hmem)
      obtain ⟨t', chain', ht', h'⟩ :=
        h.internSymbol hmem (hs hmem) hfits hapart address allocated
      refine ⟨t', _, chain', congrArg (Option.map _) ht', ?_, hput⟩
      rw [noteCall, if_neg hmem]
      exact h'

/-- A new symbol that gets no block is a fault. -/
theorem step_eq_none (h : Tracks live t T chain) {c : TableCall} (hs : ¬Served live c) :
    LinkedTable.step t c = none := by
  cases c with
  | find str => exact (hs trivial).elim
  | intern str address kvs allocated =>
    unfold Served at hs
    push Not at hs
    obtain ⟨hnew, rfl⟩ := hs
    have hf := (h.notMem_names_iff str).1 hnew
    exact congrArg (Option.map _) (h.represents.internSymbol_null h.wf hf address allocated)

/-- The calls of a list, one after the other. -/
theorem foldlM_step (h : Tracks live t T chain) {calls : List TableCall}
    (hm : Along noteCall MallocOk live calls) :
    (Along noteCall Served live calls ∧ ∃ live' t' T' chain',
        calls.foldlM LinkedTable.step t = some t' ∧ Tracks live' t' T' chain' ∧
          T'.lookup = putAll T.lookup (interned calls)) ∨
      ¬Along noteCall Served live calls ∧ calls.foldlM LinkedTable.step t = none := by
  induction calls generalizing live t T chain with
  | nil => exact Or.inl ⟨trivial, live, t, T, chain, rfl, h, rfl⟩
  | cons c calls ih =>
    rw [List.foldlM_cons]
    by_cases hs : Served live c
    · obtain ⟨t₁, T₁, chain₁, ht₁, h₁, hput⟩ := h.step hm.1 hs
      rw [ht₁]
      rcases ih h₁ hm.2 with ⟨hserved, live', t', T', chain', ht', h', hput'⟩ | ⟨hserved, ht'⟩
      · refine Or.inl ⟨⟨hs, hserved⟩, live', t', T', chain', ht', h', hput'.trans ?_⟩
        rw [hput, interned, interned, List.flatMap_cons, putAll, putAll, putAll, List.foldl_append]
      · exact Or.inr ⟨fun hall => hserved hall.2, ht'⟩
    · rw [h.step_eq_none hs]
      exact Or.inr ⟨fun hall => hs hall.1, rfl⟩

end Tracks

/-- A new table. -/
theorem tracks_initializeTable :
    Tracks [] initializeTable SymbolTable.initializeTable fun _ => [] where
  wf := SymbolTable.wf_initializeTable
  represents := by
    refine ⟨rfl, rfl, rfl, ⟨List.length_replicate, fun i hi => ?_, fun _ _ => rfl⟩, ?_⟩
    · exact List.getElem?_replicate_of_lt hi
    · exact fun p hp => (hp rfl).elim
  names := List.Perm.of_eq (List.map_eq_nil_iff.2 SymbolTable.symbols_initializeTable).symm
  blocks := fun p hp => (hp rfl).elim
  apart := List.Pairwise.nil
  fits := fun e he => (List.not_mem_nil he).elim

theorem lookup_initializeTable : SymbolTable.initializeTable.lookup = firstOf [] := by
  ext str : 1
  have hwf := SymbolTable.wf_initializeTable
  rw [SymbolTable.lookup, (hwf.findSymbol_eq_none_iff str).2, firstOf_nil, Option.map_none]
  rw [SymbolTable.symbols_initializeTable]
  exact fun s hs => (List.not_mem_nil hs).elim

/-- The cache reads what the table it represents has. -/
theorem Represents.cached {t : LinkedTable} {T : SymbolTable} {chain : ℕ → List Ptr}
    (h : Represents t T chain) (hT : T.WF) (str : Name) :
    t.cached str = some (T.lookup str) := by
  obtain ⟨p, hp, hsymbol, hnull⟩ := h.findSymbol hT str str.length
  simp only [LinkedTable.cached, hp, Option.bind_eq_bind, Option.bind_some, SymbolTable.lookup]
  cases hf : T.findSymbol str str.length with
  | none => exact if_pos (hnull.2 hf)
  | some s =>
    obtain ⟨node, hnode, rfl⟩ := SymbolMemory.exists_node (hsymbol.trans hf)
    have hne : p ≠ 0 := fun hp0 => Option.some_ne_none _ (hf.symm.trans (hnull.1 hp0))
    rw [if_neg hne, hnode]
    rfl

/-- The table is a first-write-wins map. A list of calls on a new table faults exactly
when `malloc` gives no block for a new symbol ; the resizes may fail. After it the table
is well formed, `FindSymbol` finds the address the name was first interned with, or
nothing, and `InternSymbol` of a name that has a symbol returns it and changes nothing. -/
theorem run_firstWriteWins (calls : List TableCall) (h : Along noteCall MallocOk [] calls) :
    ((∃ t, run calls = some t) ↔ Along noteCall Served [] calls) ∧
      ∀ t, run calls = some t → t.WF ∧
        (∀ str, t.cached str = some (firstOf (interned calls) str)) ∧
        ∀ str address kvs allocated, firstOf (interned calls) str ≠ none →
          ∃ p, t.internSymbol str str.length address kvs allocated = some (p, t) ∧
            (t.memory.symbolAt p).map Symbol.address = firstOf (interned calls) str := by
  have hrun := tracks_initializeTable.foldlM_step h
  rcases hrun with ⟨hserved, live, t, T, chain, ht, htracks, hput⟩ | ⟨hserved, hnone⟩
  · have hlookup : T.lookup = firstOf (interned calls) := by
      rw [hput, lookup_initializeTable, putAll_firstOf, List.nil_append]
    refine ⟨iff_of_true ⟨t, ht⟩ hserved, fun t' ht' => ?_⟩
    obtain rfl := Option.some.inj (ht.symm.trans ht')
    refine ⟨htracks.represents.wf htracks.wf, fun str => ?_, fun str address kvs allocated hk => ?_⟩
    · rw [htracks.represents.cached htracks.wf, hlookup]
    · rw [← hlookup] at hk ⊢
      obtain ⟨s, hf⟩ := Option.ne_none_iff_exists'.1 fun hf => hk (congrArg (Option.map _) hf)
      obtain ⟨p, hp, hps⟩ :=
        htracks.represents.internSymbol_of_some htracks.wf hf address kvs allocated
      refine ⟨p, hp, ?_⟩
      rw [hps, SymbolTable.lookup, hf]
  · have hno : ∀ t, run calls ≠ some t := fun t ht => Option.some_ne_none t (ht.symm.trans hnone)
    exact ⟨iff_of_false (not_exists.2 hno) hserved, fun t ht => (hno t ht).elim⟩

/-- Two names, the first of them interned twice, with `malloc` out of memory at last. -/
def twoNames : List TableCall :=
  [.intern [97] 0x10 0x1000 true, .find [98], .intern [98] 0x30 0x1020 false,
    .intern [97] 0x20 0 true]

theorem run_firstWriteWins_twoNames :
    ∃ t, run twoNames = some t ∧ t.WF ∧ t.cached [97] = some (some 0x10) ∧
      t.cached [98] = some (some 0x30) ∧ t.cached [99] = some none := by
  obtain ⟨hrun, htable⟩ := run_firstWriteWins twoNames (by decide)
  obtain ⟨t, ht⟩ := hrun.2 (by decide)
  obtain ⟨hwf, hcached, -⟩ := htable t ht
  exact ⟨t, ht, hwf, hcached [97], hcached [98], hcached [99]⟩

end LinkedTable

end TickrateEnabler
