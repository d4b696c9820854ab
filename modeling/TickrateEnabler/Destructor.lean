import TickrateEnabler.InternRuns

/-!
# Destroying a symbol table

`~SymbolTable` walks the chains and frees their symbols. It reads `tbl_next` before it
frees the symbol that holds it. `free` of an address without a symbol is a fault, so a
walk that does not fault frees nothing twice. What is left is the memory without the
symbols of the chains (`foldlM_freeLoop`, `destroy_beside`).

The tables of a process share its heap. `beside` adds the symbols of other tables to a
memory, and an operation that does not fault does the same with them there, and leaves
them as they are (`findSymbol_beside`, `internSymbol_beside`).
-/

namespace TickrateEnabler

open Chains

/-- The symbols in the heap. -/
abbrev SymbolHeap :=
  Ptr → Option Node

namespace SymbolHeap

/-- The symbols at the addresses `l`. -/
def within (heap : SymbolHeap) (l : List Ptr) : SymbolHeap :=
  fun p => if p ∈ l then heap p else none

/-- The symbols at other addresses. -/
def without (heap : SymbolHeap) (l : List Ptr) : SymbolHeap :=
  fun p => if p ∈ l then none else heap p

theorem within_or_without (heap : SymbolHeap) (l : List Ptr) (p : Ptr) :
    (within heap l p).or (without heap l p) = heap p := by
  by_cases h : p ∈ l <;> simp [within, without, h]

theorem without_nil (heap : SymbolHeap) : without heap [] = heap :=
  funext fun _ => if_neg List.not_mem_nil

end SymbolHeap

namespace SymbolMemory

/-- `free(sym)`. -/
def free (x : SymbolMemory) (sym : Ptr) : Option SymbolMemory :=
  (x.heap sym).map fun _ => { x with heap := Function.update x.heap sym none }

/-- The memory without the symbols at `l`. -/
def without (x : SymbolMemory) (l : List Ptr) : SymbolMemory :=
  { x with heap := SymbolHeap.without x.heap l }

/-- The memory with other symbols in the heap. -/
def beside (x : SymbolMemory) (g : SymbolHeap) : SymbolMemory :=
  { x with heap := fun p => (x.heap p).or (g p) }

variable {x : SymbolMemory}

theorem without_nil (x : SymbolMemory) : x.without [] = x := by
  rw [without, SymbolHeap.without_nil]

theorem without_without (x : SymbolMemory) (l l' : List Ptr) :
    (x.without l).without l' = x.without (l ++ l') := by
  unfold without SymbolHeap.without
  congr 1
  ext p : 1
  by_cases h : p ∈ l <;> simp [h]

theorem free_of_deref {a q : Ptr} (h : x.deref (.next a) = some q) :
    x.free a = some (x.without [a]) := by
  obtain ⟨node, hnode, -⟩ := Option.map_eq_some_iff.1 h
  rw [free, hnode, Option.map_some, without]
  congr 2
  ext p : 1
  simp [Function.update_apply, SymbolHeap.without]

theorem deref_without {k : Link} {l : List Ptr} (hk : ∀ a ∈ l, k ≠ .next a) :
    (x.without l).deref k = x.deref k := by
  cases k with
  | bucket i => rfl
  | next a => simp [deref, without, SymbolHeap.without, show a ∉ l from fun ha => hk a ha rfl]

theorem deref_beside {k : Link} {q : Ptr} (h : x.deref k = some q) (g : SymbolHeap) :
    (x.beside g).deref k = some q := by
  cases k with
  | bucket i => exact h
  | next a =>
    obtain ⟨node, hnode, rfl⟩ := Option.map_eq_some_iff.1 h
    simp [deref, beside, hnode]

theorem heap_beside {p : Ptr} {node : Node} (h : x.heap p = some node) (g : SymbolHeap) :
    (x.beside g).heap p = some node := by
  simp [beside, h]

theorem store_beside {x' : SymbolMemory} {k : Link} {p : Ptr} (h : x.store k p = some x')
    (g : SymbolHeap) : (x.beside g).store k p = some (x'.beside g) := by
  cases k with
  | bucket i =>
    obtain ⟨hi, hx⟩ := Option.ite_none_right_eq_some.1 h
    obtain rfl := Option.some.inj hx
    exact if_pos hi
  | next a =>
    obtain ⟨node, hnode, rfl⟩ := Option.map_eq_some_iff.1 h
    rw [store, heap_beside hnode, Option.map_some]
    congr 2
    ext b : 1
    rcases eq_or_ne b a with rfl | hb
    · simp [beside]
    · simp [beside, hb]

theorem new_beside (x : SymbolMemory) (kvs : Ptr) (node : Node) (g : SymbolHeap) :
    (x.beside g).new kvs node = (x.new kvs node).beside g := by
  unfold new beside
  congr 1
  ext p : 1
  rcases eq_or_ne p kvs with rfl | hp
  · simp
  · simp [hp]

end SymbolMemory

namespace LinkedTable

open SymbolTable (matchesName)

/-- The table with the symbols of other tables in the heap. -/
def beside (t : LinkedTable) (g : SymbolHeap) : LinkedTable :=
  { t with memory := t.memory.beside g }

/-! ## The destructor -/

/-- The inner loop of `~SymbolTable`, from `sym`. -/
def freeLoop : ℕ → SymbolMemory → Ptr → Option SymbolMemory
  | 0, _, _ => none
  | fuel + 1, x, sym =>
    if sym = 0 then some x
    else do
      let next ← x.deref (.next sym)
      let x ← x.free sym
      freeLoop fuel x next

/-- `~SymbolTable`, up to `free(buckets)`. -/
def destroy (t : LinkedTable) : Option SymbolMemory :=
  (List.range t.nbuckets.toNat).foldlM (fun x i => do
    let sym ← x.buckets[i]?
    freeLoop WALK_LIMIT x sym) t.memory

/-- The inner loop frees the symbols of its chain. -/
theorem freeLoop_of_chain {x : SymbolMemory} {fuel : ℕ} {sym : Ptr} {l : List Ptr}
    (h : ChainFrom 0 Link.next x.deref sym l) (hnodup : l.Nodup) (hfuel : l.length < fuel) :
    freeLoop fuel x sym = some (x.without l) := by
  induction l generalizing fuel x sym with
  | nil =>
    obtain ⟨fuel, rfl⟩ := Nat.exists_eq_succ_of_ne_zero (Nat.ne_zero_of_lt hfuel)
    rw [SymbolMemory.without_nil]
    exact if_pos h
  | cons a l ih =>
    obtain ⟨fuel, rfl⟩ := Nat.exists_eq_succ_of_ne_zero (Nat.ne_zero_of_lt hfuel)
    obtain ⟨rfl, hne, hchain⟩ := h
    obtain ⟨next, hnext, hfrom⟩ := chain_iff.1 hchain
    obtain ⟨hal, hnodup⟩ := List.nodup_cons.1 hnodup
    have hfrom' : ChainFrom 0 Link.next (x.without [sym]).deref next l := by
      refine hfrom.congr fun b hb => SymbolMemory.deref_without fun c hc => ?_
      rw [List.mem_singleton.1 hc, Ne, Link.next.injEq]
      exact ne_of_mem_of_not_mem hb hal
    have hrest := ih hfrom' hnodup (Nat.lt_of_succ_lt_succ hfuel)
    rw [SymbolMemory.without_without] at hrest
    rw [freeLoop, if_neg hne, hnext, SymbolMemory.free_of_deref hnext]
    exact hrest

/-- The outer loop frees the symbols of the chains it comes to. -/
theorem foldlM_freeLoop {x : SymbolMemory} {chain : ℕ → List Ptr} {is : List ℕ}
    (h : ∀ i ∈ is, Chain 0 Link.next x.deref (.bucket i) (chain i))
    (hlength : ∀ i ∈ is, (chain i).length < WALK_LIMIT) (hnodup : (is.flatMap chain).Nodup) :
    is.foldlM (fun x i => do
      let sym ← x.buckets[i]?
      freeLoop WALK_LIMIT x sym) x = some (x.without (is.flatMap chain)) := by
  induction is generalizing x with
  | nil =>
    rw [List.flatMap_nil, SymbolMemory.without_nil]
    rfl
  | cons i is ih =>
    rw [List.flatMap_cons] at hnodup ⊢
    obtain ⟨hchain, hrest, hdisj⟩ := List.nodup_append'.1 hnodup
    obtain ⟨sym, hsym, hfrom⟩ := chain_iff.1 (h i List.mem_cons_self)
    have hloop := freeLoop_of_chain hfrom hchain (hlength i List.mem_cons_self)
    have h' : ∀ j ∈ is, Chain 0 Link.next (x.without (chain i)).deref (.bucket j) (chain j) := by
      intro j hj
      refine (h j (List.mem_cons_of_mem _ hj)).congr fun k hk => ?_
      refine SymbolMemory.deref_without fun a ha hka => hdisj ha ?_
      rw [hka, next_mem_links] at hk
      exact List.mem_flatMap.2 ⟨j, hj, hk⟩
    have hfold := ih h' (fun j hj => hlength j (List.mem_cons_of_mem _ hj)) hrest
    rw [SymbolMemory.without_without] at hfold
    rw [List.foldlM_cons, show x.buckets[i]? = some sym from hsym]
    simp only [Option.bind_eq_bind, Option.bind_some, hloop]
    exact hfold

namespace Represents

variable {t : LinkedTable} {T : SymbolTable} {chain : ℕ → List Ptr}

/-- `~SymbolTable` with the symbols of other tables in the heap leaves these. -/
theorem destroy_beside (h : Represents t T chain) (hT : T.WF) {g : SymbolHeap}
    (hg : ∀ p, t.memory.heap p = none ∨ g p = none) :
    ∃ x, (t.beside g).destroy = some x ∧ x.heap = g := by
  have hchains : ∀ i ∈ List.range T.nbuckets,
      Chain 0 Link.next (t.memory.beside g).deref (.bucket i) (chain i) := by
    intro i hi
    exact (h.holds.chains i (List.mem_range.1 hi)).mono fun k v hk =>
      SymbolMemory.deref_beside hk g
  have hfold := foldlM_freeLoop hchains
    (fun i hi => h.length_chain_lt hT (List.mem_range.1 hi)) (h.nodup_flatMap_chain hT)
  refine ⟨(t.memory.beside g).without ((List.range T.nbuckets).flatMap chain), ?_,
    funext fun p => ?_⟩
  · rw [destroy, beside, h.nbuckets]
    exact hfold
  · by_cases hp : p ∈ (List.range T.nbuckets).flatMap chain
    · obtain ⟨i, hi, hpi⟩ := List.mem_flatMap.1 hp
      obtain ⟨s, -, hs⟩ := h.holds.exists_symbol (List.mem_range.1 hi) hpi
      obtain ⟨node, hnode, -⟩ := SymbolMemory.exists_node hs
      have hgp := (hg p).resolve_left (by rw [hnode]; exact Option.some_ne_none node)
      exact (if_pos hp).trans hgp.symm
    · have hfree : t.memory.heap p = none := by
        by_contra hne
        obtain ⟨i, hi, hpi⟩ := h.live p fun hs => hne (Option.map_eq_none_iff.1 hs)
        exact hp (List.mem_flatMap.2 ⟨i, List.mem_range.2 hi, hpi⟩)
      refine (if_neg hp).trans ?_
      show (t.memory.heap p).or (g p) = g p
      rw [hfree, Option.none_or]

end Represents

/-! ## Other symbols in the heap -/

theorem findLoop_beside {x : SymbolMemory} {str : Name} {len fuel : ℕ} {k k' : Link}
    (h : findLoop x str len fuel k = some k') (g : SymbolHeap) :
    findLoop (x.beside g) str len fuel k = some k' := by
  induction fuel generalizing k with
  | zero => exact h
  | succ fuel ih =>
    obtain ⟨kvs, hkvs, h⟩ := Option.bind_eq_some_iff.1 h
    rw [findLoop, SymbolMemory.deref_beside hkvs]
    by_cases hnull : kvs = 0
    · rw [if_pos hnull] at h
      exact (if_pos hnull).trans h
    · rw [if_neg hnull] at h
      obtain ⟨node, hnode, h⟩ := Option.bind_eq_some_iff.1 h
      simp only [Option.bind_eq_bind, Option.bind_some, if_neg hnull,
        SymbolMemory.heap_beside hnode]
      split_ifs at h ⊢
      · exact h
      · exact ih h

theorem findSymbolBucket_beside {t : LinkedTable} {str : Name} {len : ℕ} {hash : BitVec 32}
    {k : Link} (h : t.findSymbolBucket str len hash = some k) (g : SymbolHeap) :
    (t.beside g).findSymbolBucket str len hash = some k :=
  findLoop_beside h g

/-- `FindSymbol` reads the symbols of its own table. -/
theorem findSymbol_beside {t : LinkedTable} {str : Name} {len : ℕ} {p : Ptr}
    (h : t.findSymbol str len = some p) (g : SymbolHeap) :
    (t.beside g).findSymbol str len = some p := by
  obtain ⟨k, hk, hp⟩ := Option.bind_eq_some_iff.1 h
  rw [findSymbol, findSymbolBucket_beside hk]
  exact SymbolMemory.deref_beside hp g

theorem relinkLoop_beside {mask : BitVec 32} {x x' : SymbolMemory} {fuel : ℕ} {sym : Ptr}
    (h : relinkLoop mask fuel x sym = some x') (g : SymbolHeap) :
    relinkLoop mask fuel (x.beside g) sym = some (x'.beside g) := by
  induction fuel generalizing x sym with
  | zero => exact (Option.some_ne_none x' h.symm).elim
  | succ fuel ih =>
    rw [relinkLoop] at h ⊢
    by_cases hnull : sym = 0
    · rw [if_pos hnull] at h ⊢
      obtain rfl := Option.some.inj h
      rfl
    · rw [if_neg hnull] at h ⊢
      obtain ⟨next, hnext, h⟩ := Option.bind_eq_some_iff.1 h
      obtain ⟨node, hnode, h⟩ := Option.bind_eq_some_iff.1 h
      obtain ⟨head, hhead, h⟩ := Option.bind_eq_some_iff.1 h
      obtain ⟨x₁, hx₁, h⟩ := Option.bind_eq_some_iff.1 h
      obtain ⟨x₂, hx₂, h⟩ := Option.bind_eq_some_iff.1 h
      simp only [Option.bind_eq_bind, Option.bind_some, SymbolMemory.deref_beside hnext,
        SymbolMemory.heap_beside hnode, SymbolMemory.deref_beside hhead,
        SymbolMemory.store_beside hx₁, SymbolMemory.store_beside hx₂]
      exact ih h

theorem foldlM_relinkLoop_beside {mask : BitVec 32} {old : List Ptr} {is : List ℕ}
    {x x' : SymbolMemory}
    (h : is.foldlM (fun x i => do
      let sym ← old[i]?
      relinkLoop mask WALK_LIMIT x sym) x = some x') (g : SymbolHeap) :
    is.foldlM (fun x i => do
      let sym ← old[i]?
      relinkLoop mask WALK_LIMIT x sym) (x.beside g) = some (x'.beside g) := by
  induction is generalizing x with
  | nil =>
    obtain rfl := Option.some.inj h
    rfl
  | cons i is ih =>
    rw [List.foldlM_cons] at h ⊢
    obtain ⟨x₁, hx₁, h⟩ := Option.bind_eq_some_iff.1 h
    obtain ⟨sym, hsym, hx₁⟩ := Option.bind_eq_some_iff.1 hx₁
    simp only [hsym, Option.bind_eq_bind, Option.bind_some, relinkLoop_beside hx₁]
    exact ih h

theorem resizeSymbolTable_beside {t t' : LinkedTable} {allocated : Bool}
    (h : t.resizeSymbolTable allocated = some t') (g : SymbolHeap) :
    (t.beside g).resizeSymbolTable allocated = some (t'.beside g) := by
  cases allocated with
  | false =>
    obtain rfl := Option.some.inj h
    rfl
  | true =>
    obtain ⟨x, hx, h⟩ := Option.bind_eq_some_iff.1 h
    obtain rfl := Option.some.inj h
    have hfold := foldlM_relinkLoop_beside hx g
    simp only [resizeSymbolTable, Bool.not_true, Bool.false_eq_true, if_false]
    exact Option.bind_eq_some_iff.2 ⟨_, hfold, rfl⟩

/-- `InternSymbol` works on the symbols of its own table. -/
theorem internSymbol_beside {t t' : LinkedTable} {str : Name} {len : ℕ} {address : BitVec 32}
    {kvs p : Ptr} {allocated : Bool}
    (h : t.internSymbol str len address kvs allocated = some (p, t')) (g : SymbolHeap) :
    (t.beside g).internSymbol str len address kvs allocated = some (p, t'.beside g) := by
  obtain ⟨k, hk, h⟩ := Option.bind_eq_some_iff.1 h
  obtain ⟨found, hfound, h⟩ := Option.bind_eq_some_iff.1 h
  have hfound' : (t.beside g).memory.deref k = some found := SymbolMemory.deref_beside hfound g
  rw [internSymbol, findSymbolBucket_beside hk]
  simp only [Option.bind_eq_bind, Option.bind_some, hfound']
  by_cases hnull : found ≠ 0
  · rw [if_pos hnull] at h ⊢
    obtain ⟨rfl, rfl⟩ := Prod.mk.inj (Option.some.inj h)
    rfl
  · rw [if_neg hnull] at h ⊢
    by_cases hkvs : kvs = 0
    · rw [if_pos hkvs] at h
      exact (Option.some_ne_none _ h.symm).elim
    · rw [if_neg hkvs] at h ⊢
      obtain ⟨x, hx, h⟩ := Option.bind_eq_some_iff.1 h
      have hx' : ((t.beside g).memory.new kvs ⟨Symbol.intern str len address, 0⟩).store k kvs =
          some (x.beside g) := by
        rw [beside, SymbolMemory.new_beside]
        exact SymbolMemory.store_beside hx g
      simp only [hx', Option.bind_some]
      by_cases hdue : t.nbuckets < t.nused + 1 ∧ t.nbuckets.toNat ≤ INT_MAX / 2
      · rw [if_pos hdue] at h
        obtain ⟨t₁, ht₁, h⟩ := Option.bind_eq_some_iff.1 h
        obtain ⟨rfl, rfl⟩ := Prod.mk.inj (Option.some.inj h)
        exact (if_pos hdue).trans (Option.bind_eq_some_iff.2
          ⟨_, resizeSymbolTable_beside ht₁ g, rfl⟩)
      · rw [if_neg hdue] at h
        obtain ⟨rfl, rfl⟩ := Prod.mk.inj (Option.some.inj h)
        exact if_neg hdue

end LinkedTable

end TickrateEnabler
