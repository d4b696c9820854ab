import TickrateEnabler.Chains
import TickrateEnabler.SymbolTable

/-!
# The symbol table in memory

`SymbolTable` (`sm_symtable.h`) with its pointers. A symbol is a node at an address, a
chain is linked by `tbl_next`, and `FindSymbolBucket` returns a `Symbol **`, the address
of a bucket or of the `tbl_next` of a symbol, through which `InternSymbol` links the new
symbol. `ResizeSymbolTable` overwrites the links of a chain while it walks it. A read or
write where there is no object, and a walk that does not end, are `none`.

`Represents` relates a table to a `SymbolTable` by the addresses of its chains. The link
that `FindSymbolBucket` returns is the one of the list (`Represents.findSymbolBucket`), and
a symbol written to it ends the chain (`Represents.setLink`).
-/

namespace TickrateEnabler

open Chains

/-- A `Symbol *`. `NULL` is zero. -/
abbrev Ptr :=
  BitVec 32

/-- `Symbol` in memory. -/
structure Node where
  symbol : Symbol
  tbl_next : Ptr

/-- A `Symbol **` : `&buckets[i]` or `&kvs->tbl_next`. -/
inductive Link where
  | bucket (i : ℕ)
  | next (kvs : Ptr)
  deriving DecidableEq

/-- The bucket array, a block of its own, and the allocated symbols. -/
structure SymbolMemory where
  buckets : List Ptr
  heap : Ptr → Option Node

namespace SymbolMemory

/-- `*link`. -/
def deref (x : SymbolMemory) : Link → Option Ptr
  | .bucket i => x.buckets[i]?
  | .next kvs => (x.heap kvs).map Node.tbl_next

/-- `*link = p`. -/
def store (x : SymbolMemory) : Link → Ptr → Option SymbolMemory
  | .bucket i, p =>
    if i < x.buckets.length then some { x with buckets := x.buckets.set i p } else none
  | .next kvs, p => (x.heap kvs).map fun node =>
    { x with heap := Function.update x.heap kvs (some { node with tbl_next := p }) }

/-- `node` written to the block that `malloc` gives at `kvs`. -/
def new (x : SymbolMemory) (kvs : Ptr) (node : Node) : SymbolMemory :=
  { x with heap := Function.update x.heap kvs (some node) }

/-- The symbol at an address. -/
def symbolAt (x : SymbolMemory) (p : Ptr) : Option Symbol :=
  (x.heap p).map Node.symbol

variable {x : SymbolMemory}

theorem exists_node {p : Ptr} {s : Symbol} (h : x.symbolAt p = some s) :
    ∃ node, x.heap p = some node ∧ node.symbol = s :=
  Option.map_eq_some_iff.1 h

/-- A link that can be read can be written, and only what it holds changes. -/
theorem exists_store {k : Link} {q : Ptr} (h : x.deref k = some q) (p : Ptr) :
    ∃ x', x.store k p = some x' ∧ x'.deref = Function.update x.deref k (some p) ∧
      x'.symbolAt = x.symbolAt ∧ x'.buckets.length = x.buckets.length := by
  cases k with
  | bucket i =>
    have hi : i < x.buckets.length := (List.getElem?_eq_some_iff.1 h).1
    refine ⟨_, if_pos hi, funext fun k => ?_, rfl, List.length_set⟩
    rcases eq_or_ne k (.bucket i) with rfl | hk
    · rw [Function.update_self]
      exact List.getElem?_set_self hi
    · rw [Function.update_of_ne hk]
      cases k with
      | bucket j => exact List.getElem?_set_ne fun hij => hk (congrArg Link.bucket hij.symm)
      | next a => rfl
  | next a =>
    obtain ⟨node, hnode, -⟩ := Option.map_eq_some_iff.1 h
    refine ⟨_, congrArg (Option.map _) hnode, funext fun k => ?_, funext fun b => ?_, rfl⟩
    · rcases eq_or_ne k (.next a) with rfl | hk
      · rw [Function.update_self]
        simp [deref]
      · rw [Function.update_of_ne hk]
        cases k with
        | bucket j => rfl
        | next b => simp [deref, show b ≠ a from fun hb => hk (congrArg Link.next hb)]
    · rcases eq_or_ne b a with rfl | hb
      · simp [symbolAt, hnode]
      · simp [symbolAt, hb]

theorem deref_new (kvs : Ptr) (node : Node) :
    (x.new kvs node).deref = Function.update x.deref (.next kvs) (some node.tbl_next) := by
  ext k : 1
  rcases eq_or_ne k (.next kvs) with rfl | hk
  · simp [deref, new]
  · rw [Function.update_of_ne hk]
    cases k with
    | bucket i => rfl
    | next a => simp [deref, new, show a ≠ kvs from fun ha => hk (congrArg Link.next ha)]

theorem symbolAt_new (kvs : Ptr) (node : Node) :
    (x.new kvs node).symbolAt = Function.update x.symbolAt kvs (some node.symbol) := by
  ext p : 1
  rcases eq_or_ne p kvs with rfl | hp
  · simp [symbolAt, new]
  · simp [symbolAt, new, hp]

end SymbolMemory

/-- `SymbolTable` in memory. -/
structure LinkedTable where
  nbuckets : BitVec 32
  nused : BitVec 32
  bucketmask : BitVec 32
  memory : SymbolMemory

namespace LinkedTable

open SymbolTable (matchesName)

/-- `Initialize`, when the allocation succeeds. -/
def initializeTable : LinkedTable where
  nbuckets := BitVec.ofNat 32 KESTRING_TABLE_START_SIZE
  nused := 0
  bucketmask := BitVec.ofNat 32 KESTRING_TABLE_START_SIZE - 1
  memory := ⟨List.replicate KESTRING_TABLE_START_SIZE 0, fun _ => none⟩

/-- Steps a walk may take. A chain that does not end in `NULL` before has a cycle. -/
def WALK_LIMIT : ℕ :=
  2 ^ 32

/-- The loop of `FindSymbolBucket`, from `pkvs`. -/
def findLoop (x : SymbolMemory) (str : Name) (len : ℕ) : ℕ → Link → Option Link
  | 0, _ => none
  | fuel + 1, pkvs => do
    let kvs ← x.deref pkvs
    if kvs = 0 then some pkvs
    else
      let node ← x.heap kvs
      if matchesName str len node.symbol then some pkvs
      else findLoop x str len fuel (.next kvs)

/-- `FindSymbolBucket`. -/
def findSymbolBucket (t : LinkedTable) (str : Name) (len : ℕ) (hash : BitVec 32) : Option Link :=
  let bucket := hash &&& t.bucketmask
  findLoop t.memory str len WALK_LIMIT (.bucket bucket.toNat)

/-- `FindSymbol`. -/
def findSymbol (t : LinkedTable) (str : Name) (len : ℕ) : Option Ptr := do
  let hash := hashString str len
  let pkvs ← t.findSymbolBucket str len hash
  t.memory.deref pkvs

/-- The inner loop of `ResizeSymbolTable`, from `sym`. -/
def relinkLoop (xbucketmask : BitVec 32) : ℕ → SymbolMemory → Ptr → Option SymbolMemory
  | 0, _, _ => none
  | fuel + 1, x, sym =>
    if sym = 0 then some x
    else do
      let next ← x.deref (.next sym)
      let node ← x.heap sym
      let bucket := (node.symbol.hash &&& xbucketmask).toNat
      let head ← x.deref (.bucket bucket)
      let x ← x.store (.next sym) head
      let x ← x.store (.bucket bucket) sym
      relinkLoop xbucketmask fuel x next

/-- `ResizeSymbolTable`. `allocated` tells whether `malloc` gives the new array, which is
cleared. Its size in bytes is a `size_t`. -/
def resizeSymbolTable (t : LinkedTable) (allocated : Bool) : Option LinkedTable :=
  let xnbuckets := t.nbuckets * 2
  if !allocated then some t
  else do
    let xbuckets := List.replicate ((4 * xnbuckets).toNat / 4) 0
    let xbucketmask := xnbuckets - 1
    let x ← (List.range t.nbuckets.toNat).foldlM (fun x i => do
      let sym ← t.memory.buckets[i]?
      relinkLoop xbucketmask WALK_LIMIT x sym) { t.memory with buckets := xbuckets }
    some { t with nbuckets := xnbuckets, bucketmask := xbucketmask, memory := x }

/-- `InternSymbol`. `kvs` is what `malloc` gives for the symbol, if it is called ; there is
no test for `NULL`. `allocated` is the outcome of the resize, if one is due. -/
def internSymbol (t : LinkedTable) (str : Name) (len : ℕ) (address : BitVec 32) (kvs : Ptr)
    (allocated : Bool) : Option (Ptr × LinkedTable) := do
  let hash := hashString str len
  let pkvs ← t.findSymbolBucket str len hash
  let found ← t.memory.deref pkvs
  if found ≠ 0 then some (found, t)
  else if kvs = 0 then none
  else
    let memory := t.memory.new kvs ⟨Symbol.intern str len address, 0⟩
    let memory ← memory.store pkvs kvs
    let t := { t with memory := memory, nused := t.nused + 1 }
    if t.nbuckets < t.nused ∧ t.nbuckets.toNat ≤ INT_MAX / 2 then
      let t ← t.resizeSymbolTable allocated
      some (kvs, t)
    else some (kvs, t)

/-! ## What the memory represents -/

/-- The chain of each of the `n` buckets of `x` has the symbols of `buckets`, at the
addresses `chain`. -/
structure Holds (x : SymbolMemory) (n : ℕ) (buckets : ℕ → List Symbol)
    (chain : ℕ → List Ptr) : Prop where
  length : x.buckets.length = n
  chains : ∀ i < n, Chain 0 Link.next x.deref (.bucket i) (chain i)
  symbols : ∀ i < n, (chain i).map x.symbolAt = (buckets i).map some

/-- `t` is the table `T`, at the addresses `chain`. -/
structure Represents (t : LinkedTable) (T : SymbolTable) (chain : ℕ → List Ptr) : Prop where
  nbuckets : t.nbuckets.toNat = T.nbuckets
  nused : t.nused.toNat = T.nused
  bucketmask : t.bucketmask.toNat = T.bucketmask
  holds : Holds t.memory T.nbuckets T.buckets chain
  live : ∀ p, t.memory.symbolAt p ≠ none → ∃ i < T.nbuckets, p ∈ chain i

/-- The symbols of a list of addresses, one by one. -/
theorem exists_of_map_symbolAt {x : SymbolMemory} {a : Ptr} {l : List Ptr} {ss : List Symbol}
    (h : (a :: l).map x.symbolAt = ss.map some) :
    ∃ s ss', ss = s :: ss' ∧ x.symbolAt a = some s ∧ l.map x.symbolAt = ss'.map some := by
  cases ss with
  | nil => exact (List.cons_ne_nil _ _ h).elim
  | cons s ss =>
    obtain ⟨ha, hl⟩ := List.cons_eq_cons.1 h
    exact ⟨s, ss, rfl, ha, hl⟩

/-! ## Finding -/

/-- The loop ends at the link to the first symbol that matches, or at the last link. -/
theorem findLoop_of_chain {x : SymbolMemory} (str : Name) (len : ℕ) {fuel : ℕ} {k : Link}
    {l : List Ptr} {ss : List Symbol} (h : Chain 0 Link.next x.deref k l)
    (hs : l.map x.symbolAt = ss.map some) (hfuel : l.length < fuel) :
    findLoop x str len fuel k =
      some (linkAt Link.next k l (ss.findIdx (matchesName str len))) := by
  induction l generalizing fuel k ss with
  | nil =>
    obtain ⟨fuel, rfl⟩ := Nat.exists_eq_succ_of_ne_zero (Nat.ne_zero_of_lt hfuel)
    have hk : x.deref k = some 0 := h
    simp [findLoop, hk, linkAt]
  | cons a l ih =>
    obtain ⟨s, ss, rfl, ha, hrest⟩ := exists_of_map_symbolAt hs
    obtain ⟨node, hnode, rfl⟩ := SymbolMemory.exists_node ha
    obtain ⟨fuel, rfl⟩ := Nat.exists_eq_succ_of_ne_zero (Nat.ne_zero_of_lt hfuel)
    have hl := ih h.2.2 hrest (Nat.lt_of_succ_lt_succ hfuel)
    have hstep : findLoop x str len (fuel + 1) k =
        if matchesName str len node.symbol then some k
        else findLoop x str len fuel (.next a) := by
      simp only [findLoop, h.1, Option.bind_eq_bind, Option.bind_some, if_neg h.2.1, hnode]
    rw [hstep, List.findIdx_cons]
    cases matchesName str len node.symbol with
    | true => rfl
    | false => exact hl

theorem bucket_mem_links {i j : ℕ} {l : List Ptr} :
    Link.bucket j ∈ links Link.next (.bucket i) l ↔ j = i := by
  simp [mem_links]

theorem next_mem_links {i : ℕ} {a : Ptr} {l : List Ptr} :
    Link.next a ∈ links Link.next (.bucket i) l ↔ a ∈ l := by
  simp [mem_links]

theorem Holds.exists_symbol {x : SymbolMemory} {n i : ℕ} {buckets : ℕ → List Symbol}
    {chain : ℕ → List Ptr} {p : Ptr} (h : Holds x n buckets chain) (hi : i < n)
    (hp : p ∈ chain i) : ∃ s ∈ buckets i, x.symbolAt p = some s := by
  have hmem : x.symbolAt p ∈ (buckets i).map some := by
    rw [← h.symbols i hi]
    exact List.mem_map_of_mem hp
  obtain ⟨s, hs, hps⟩ := List.mem_map.1 hmem
  exact ⟨s, hs, hps.symm⟩

/-- One address more in one of the chains. -/
theorem exists_mem_update {n b : ℕ} {chain : ℕ → List Ptr} {l : List Ptr} {a c : Ptr} (hb : b < n)
    (hl : ∀ c, c ∈ l ↔ c = a ∨ c ∈ chain b) :
    (∃ i < n, c ∈ Function.update chain b l i) ↔ c = a ∨ ∃ i < n, c ∈ chain i := by
  constructor
  · rintro ⟨i, hi, hc⟩
    rcases eq_or_ne i b with rfl | hne
    · rw [Function.update_self, hl] at hc
      exact hc.imp_right fun hc => ⟨i, hi, hc⟩
    · rw [Function.update_of_ne hne] at hc
      exact Or.inr ⟨i, hi, hc⟩
  · intro h
    by_cases hcl : c ∈ l
    · exact ⟨b, hb, by rwa [Function.update_self]⟩
    · obtain ⟨hca, hcb⟩ := not_or.1 ((not_congr (hl c)).1 hcl)
      obtain ⟨i, hi, hc⟩ := h.resolve_left hca
      have hne : i ≠ b := fun hib => hcb (hib ▸ hc)
      exact ⟨i, hi, by rwa [Function.update_of_ne hne]⟩

theorem sublist_symbols {T : SymbolTable} {i : ℕ} (hi : i < T.nbuckets) :
    (T.buckets i).Sublist T.symbols := by
  rw [SymbolTable.symbols, SymbolTable.total, List.flatMap_def]
  exact List.sublist_flatten_of_mem (List.mem_map_of_mem (List.mem_range.2 hi))

namespace Represents

variable {t : LinkedTable} {T : SymbolTable} {chain : ℕ → List Ptr}

theorem slot_eq (h : Represents t T chain) (hash : BitVec 32) :
    (hash &&& t.bucketmask).toNat = T.slot hash := by
  rw [BitVec.toNat_and, h.bucketmask, SymbolTable.slot]

theorem length_chain (h : Represents t T chain) {i : ℕ} (hi : i < T.nbuckets) :
    (chain i).length = (T.buckets i).length := by
  simpa using congrArg List.length (h.holds.symbols i hi)

/-- A chain is shorter than the address space. -/
theorem length_chain_lt (h : Represents t T chain) (hT : T.WF) {i : ℕ} (hi : i < T.nbuckets) :
    (chain i).length < WALK_LIMIT := by
  calc (chain i).length = (T.buckets i).length := h.length_chain hi
    _ ≤ T.symbols.length := (sublist_symbols hi).length_le
    _ = t.nused.toNat := by rw [h.nused, hT.count]
    _ < WALK_LIMIT := t.nused.isLt

/-- `FindSymbolBucket` returns the link that holds the symbol, or the last one. -/
theorem findSymbolBucket (h : Represents t T chain) (hT : T.WF) (str : Name) (len : ℕ)
    (hash : BitVec 32) :
    let pkvs := T.findSymbolBucket str len hash
    t.findSymbolBucket str len hash =
      some (linkAt Link.next (.bucket pkvs.1) (chain pkvs.1) pkvs.2) := by
  have hi := hT.slot_lt hash
  unfold LinkedTable.findSymbolBucket
  dsimp only
  rw [h.slot_eq]
  exact findLoop_of_chain str len (h.holds.chains _ hi) (h.holds.symbols _ hi)
    (h.length_chain_lt hT hi)

/-- `NULL` is no symbol. -/
theorem symbolAt_zero (h : Represents t T chain) : t.memory.symbolAt 0 = none := by
  by_contra hlive
  obtain ⟨i, hi, hmem⟩ := h.live 0 hlive
  exact (h.holds.chains i hi).ne_null hmem

/-- A link of the table holds the address of the symbol there, or `NULL`. -/
theorem deref_linkAt (h : Represents t T chain) (link : ℕ × ℕ) (hi : link.1 < T.nbuckets) :
    ∃ p, t.memory.deref (linkAt Link.next (.bucket link.1) (chain link.1) link.2) = some p ∧
      t.memory.symbolAt p = T.deref link ∧ (p = 0 ↔ T.deref link = none) := by
  refine ⟨_, (h.holds.chains _ hi).apply_linkAt link.2, ?_⟩
  have hsymbol : (chain link.1)[link.2]?.map t.memory.symbolAt = (T.deref link).map some := by
    rw [SymbolTable.deref, ← List.getElem?_map, ← List.getElem?_map, h.holds.symbols _ hi]
  cases hp : (chain link.1)[link.2]? with
  | none =>
    rw [hp] at hsymbol
    have hnone : T.deref link = none := Option.map_eq_none_iff.1 hsymbol.symm
    rw [hnone]
    exact ⟨h.symbolAt_zero, iff_of_true rfl rfl⟩
  | some p =>
    rw [hp] at hsymbol
    obtain ⟨s, hs, hps⟩ := Option.map_eq_some_iff.1 hsymbol.symm
    have hne : p ≠ 0 :=
      ne_of_mem_of_not_mem (List.mem_of_getElem? hp) (h.holds.chains _ hi).ne_null
    rw [hs]
    exact ⟨hps.symm, iff_of_false hne (Option.some_ne_none s)⟩

/-- `FindSymbol` returns the address of the symbol, or `NULL`. -/
theorem findSymbol (h : Represents t T chain) (hT : T.WF) (str : Name) (len : ℕ) :
    ∃ p, t.findSymbol str len = some p ∧ t.memory.symbolAt p = T.findSymbol str len ∧
      (p = 0 ↔ T.findSymbol str len = none) := by
  obtain ⟨p, hp, hsymbol⟩ :=
    h.deref_linkAt (T.findSymbolBucket str len (hashString str len)) (hT.slot_lt _)
  refine ⟨p, ?_, hsymbol⟩
  rw [LinkedTable.findSymbol, h.findSymbolBucket hT]
  exact hp

/-! ## Linking a symbol -/

/-- A chain has no two equal symbols. -/
theorem nodup_map_symbolAt (h : Represents t T chain) (hT : T.WF) {i : ℕ}
    (hi : i < T.nbuckets) : ((chain i).map t.memory.symbolAt).Nodup := by
  rw [h.holds.symbols i hi]
  exact (hT.nodup.of_map.sublist (sublist_symbols hi)).map (Option.some_injective _)

theorem nodup_chain (h : Represents t T chain) (hT : T.WF) {i : ℕ} (hi : i < T.nbuckets) :
    (chain i).Nodup :=
  (h.nodup_map_symbolAt hT hi).of_map

/-- No two links of a chain are the same. -/
theorem nodup_links (h : Represents t T chain) (hT : T.WF) {i : ℕ} (hi : i < T.nbuckets) :
    (links Link.next (.bucket i) (chain i)).Nodup := by
  refine List.nodup_cons.2 ⟨fun hmem => ?_, (h.nodup_chain hT hi).map fun _ _ => Link.next.inj⟩
  obtain ⟨a, -, ha⟩ := List.mem_map.1 hmem
  exact Link.noConfusion ha

/-- No link is in two chains. -/
theorem eq_of_mem_links (h : Represents t T chain) (hT : T.WF) {i j : ℕ} {k : Link}
    (hi : i < T.nbuckets) (hj : j < T.nbuckets) (hki : k ∈ links Link.next (.bucket i) (chain i))
    (hkj : k ∈ links Link.next (.bucket j) (chain j)) : i = j := by
  cases k with
  | bucket b => exact (bucket_mem_links.1 hki).symm.trans (bucket_mem_links.1 hkj)
  | next a =>
    obtain ⟨s, hs, has⟩ := h.holds.exists_symbol hi (next_mem_links.1 hki)
    obtain ⟨s', hs', has'⟩ := h.holds.exists_symbol hj (next_mem_links.1 hkj)
    obtain rfl := Option.some.inj (has.symm.trans has')
    exact (hT.placed i s hs).symm.trans (hT.placed j s hs')

theorem notMem_chain (h : Represents t T chain) {kvs : Ptr} (hfree : t.memory.symbolAt kvs = none)
    {i : ℕ} (hi : i < T.nbuckets) : kvs ∉ chain i := by
  intro hmem
  obtain ⟨s, -, hs⟩ := h.holds.exists_symbol hi hmem
  exact Option.some_ne_none s (hs.symm.trans hfree)

/-- The chains after a new symbol is written to the last link of chain `i`. -/
theorem holds_setLink (h : Represents t T chain) (hT : T.WF) {i : ℕ} {kvs : Ptr} (s : Symbol)
    (hi : i < T.nbuckets) (hkvs : kvs ≠ 0) (hfree : t.memory.symbolAt kvs = none) :
    ∃ x, (t.memory.new kvs ⟨s, 0⟩).store
        (linkAt Link.next (.bucket i) (chain i) (chain i).length) kvs = some x ∧
      x.symbolAt = Function.update t.memory.symbolAt kvs (some s) ∧
      Holds x T.nbuckets (Function.update T.buckets i (T.buckets i ++ [s]))
        (Function.update chain i (chain i ++ [kvs])) := by
  have hnext : ∀ j < T.nbuckets, Link.next kvs ∉ links Link.next (.bucket j) (chain j) :=
    fun j hj => next_mem_links.not.2 (h.notMem_chain hfree hj)
  have hchains : ∀ j < T.nbuckets,
      Chain 0 Link.next (t.memory.new kvs ⟨s, 0⟩).deref (.bucket j) (chain j) := by
    intro j hj
    rw [SymbolMemory.deref_new]
    exact (h.holds.chains j hj).update_of_notMem (hnext j hj) _
  obtain ⟨x, hx, hderef, hsymbolAt, hlength⟩ :=
    SymbolMemory.exists_store ((hchains i hi).apply_linkAt (chain i).length) kvs
  rw [SymbolMemory.symbolAt_new] at hsymbolAt
  have hold : ∀ j < T.nbuckets, (chain j).map x.symbolAt = (T.buckets j).map some := by
    intro j hj
    rw [← h.holds.symbols j hj, hsymbolAt]
    refine List.map_congr_left fun p hp => Function.update_of_ne ?_ _ _
    exact ne_of_mem_of_not_mem hp (h.notMem_chain hfree hj)
  refine ⟨x, hx, hsymbolAt, hlength.trans h.holds.length, fun j hj => ?_, fun j hj => ?_⟩
  · rw [hderef]
    rcases eq_or_ne j i with rfl | hne
    · rw [Function.update_self]
      refine (hchains j hj).append (h.nodup_links hT hj) hkvs ?_ (hnext j hj)
      rw [SymbolMemory.deref_new, Function.update_self]
    · rw [Function.update_of_ne hne]
      refine (hchains j hj).update_of_notMem (fun hmem => hne ?_) _
      exact h.eq_of_mem_links hT hj hi hmem (linkAt_mem_links ..)
  · rcases eq_or_ne j i with rfl | hne
    · rw [Function.update_self, Function.update_self, List.map_append, hold j hj, List.map_append,
        List.map_singleton, List.map_singleton, hsymbolAt, Function.update_self]
    · rw [Function.update_of_ne hne, Function.update_of_ne hne, hold j hj]

/-- A new symbol written to the last link of a chain ends it. -/
theorem setLink (h : Represents t T chain) (hT : T.WF) {link : ℕ × ℕ} {kvs : Ptr} (s : Symbol)
    (hi : link.1 < T.nbuckets) (hend : link.2 = (T.buckets link.1).length) (hkvs : kvs ≠ 0)
    (hfree : t.memory.symbolAt kvs = none) (hroom : T.nused + 1 < 2 ^ 32) :
    ∃ x, (t.memory.new kvs ⟨s, 0⟩).store
        (linkAt Link.next (.bucket link.1) (chain link.1) link.2) kvs = some x ∧
      x.symbolAt = Function.update t.memory.symbolAt kvs (some s) ∧
      Represents { t with memory := x, nused := t.nused + 1 }
        { T.setLink link s with nused := T.nused + 1 }
        (Function.update chain link.1 (chain link.1 ++ [kvs])) := by
  obtain ⟨i, j⟩ := link
  obtain rfl : j = (chain i).length := hend.trans (h.length_chain hi).symm
  obtain ⟨x, hx, hsymbolAt, hholds⟩ := h.holds_setLink hT s hi hkvs hfree
  refine ⟨x, hx, hsymbolAt, h.nbuckets, ?_, h.bucketmask, ?_, fun p hp => ?_⟩
  · show (t.nused + 1).toNat = T.nused + 1
    rw [BitVec.toNat_add, h.nused]
    exact Nat.mod_eq_of_lt hroom
  · unfold SymbolTable.setLink
    rwa [List.take_of_length_le (Nat.le_of_eq (h.length_chain hi).symm)]
  · change x.symbolAt p ≠ none at hp
    have hl : ∀ c, c ∈ chain i ++ [kvs] ↔ c = kvs ∨ c ∈ chain i := fun c => by
      rw [List.mem_append, List.mem_singleton, or_comm]
    refine (exists_mem_update hi hl).2 (or_iff_not_imp_left.2 fun hne => h.live p ?_)
    rwa [hsymbolAt, Function.update_of_ne hne] at hp

end Represents

end LinkedTable

end TickrateEnabler
