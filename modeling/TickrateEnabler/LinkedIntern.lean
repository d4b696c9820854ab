import TickrateEnabler.LinkedTable

/-!
# Resizing and interning in memory

`ResizeSymbolTable` walks every chain of the old array and puts its symbols, one by one,
at the head of a chain of the new one. It reads `tbl_next` before it overwrites it, and
the links of the symbols it has not come to are as they were (`Moved`). The loops give
what relinking the lists gives (`relinkLoop_of_chain`, `foldlM_relinkLoop`), so a table
that represents a `SymbolTable` does so after the resize
(`Represents.resizeSymbolTable`), and after `InternSymbol`
(`Represents.internSymbol_of_some`, `Represents.internSymbol_of_none`).
-/

namespace TickrateEnabler

open Chains

namespace LinkedTable

/-! ## Resizing -/

/-- From `x` to `x'` the symbols at `l` have joined the chains `y`, which are then `y'`.
Other symbols have the links they had. -/
structure Moved (n : ℕ) (l : List Ptr) (x x' : SymbolMemory) (y y' : ℕ → List Ptr) : Prop where
  symbolAt : x'.symbolAt = x.symbolAt
  next : ∀ a ∉ l, x'.deref (.next a) = x.deref (.next a)
  mem : ∀ a, (∃ i < n, a ∈ y' i) ↔ a ∈ l ∨ ∃ i < n, a ∈ y i

section Resize

variable {n : ℕ} {mask : BitVec 32} {x x' x'' : SymbolMemory} {y y' y'' : ℕ → List Ptr}

theorem Moved.refl (x : SymbolMemory) (y : ℕ → List Ptr) : Moved n [] x x y y :=
  ⟨rfl, fun _ _ => rfl, fun _ => by simp⟩

theorem Moved.trans {l l' : List Ptr} (h : Moved n l x x' y y') (h' : Moved n l' x' x'' y' y'') :
    Moved n (l ++ l') x x'' y y'' := by
  refine ⟨h'.symbolAt.trans h.symbolAt, fun a ha => ?_, fun a => ?_⟩
  · rw [List.mem_append, not_or] at ha
    rw [h'.next a ha.2, h.next a ha.1]
  · rw [h'.mem, h.mem, List.mem_append, ← or_assoc, or_comm (a := a ∈ l')]

/-- The two writes of the inner loop. -/
theorem exists_relink {a head : Ptr} {b : ℕ} {s : Symbol} (hs : x.symbolAt a = some s)
    (hhead : x.deref (.bucket b) = some head) :
    ∃ x₁ x₂, x.store (.next a) head = some x₁ ∧ x₁.store (.bucket b) a = some x₂ ∧
      x₂.deref = Function.update (Function.update x.deref (.next a) (x.deref (.bucket b)))
        (.bucket b) (some a) ∧
      x₂.symbolAt = x.symbolAt ∧ x₂.buckets.length = x.buckets.length := by
  obtain ⟨node, hnode, -⟩ := SymbolMemory.exists_node hs
  have hnext : x.deref (.next a) = some node.tbl_next := congrArg (Option.map _) hnode
  obtain ⟨x₁, hx₁, hderef₁, hsymbolAt₁, hlength₁⟩ := SymbolMemory.exists_store hnext head
  have hhead₁ : x₁.deref (.bucket b) = some head := by
    rw [hderef₁, Function.update_of_ne Link.noConfusion, hhead]
  obtain ⟨x₂, hx₂, hderef₂, hsymbolAt₂, hlength₂⟩ := SymbolMemory.exists_store hhead₁ a
  rw [hderef₁, ← hhead] at hderef₂
  exact ⟨x₁, x₂, hx₁, hx₂, hderef₂, hsymbolAt₂.trans hsymbolAt₁, hlength₂.trans hlength₁⟩

/-- One symbol becomes the head of its new chain. -/
theorem Holds.relink {buckets : ℕ → List Symbol} {a : Ptr} {s : Symbol}
    (h : Holds x n buckets y) (hslot : ∀ hash : BitVec 32, (hash &&& mask).toNat < n)
    (ha : a ≠ 0) (hs : x.symbolAt a = some s) (hnew : ∀ i < n, a ∉ y i) :
    ∃ head x₁ x₂ y', x.deref (.bucket (s.hash &&& mask).toNat) = some head ∧
      x.store (.next a) head = some x₁ ∧
      x₁.store (.bucket (s.hash &&& mask).toNat) a = some x₂ ∧
      Holds x₂ n (SymbolTable.relink mask.toNat buckets s) y' ∧ Moved n [a] x x₂ y y' := by
  set b := (s.hash &&& mask).toNat with hb
  have hbn : b < n := hslot s.hash
  obtain ⟨head, hhead, -⟩ := chain_iff.1 (h.chains b hbn)
  obtain ⟨x₁, x₂, hx₁, hx₂, hderef, hsymbolAt, hlength⟩ := exists_relink hs hhead
  have hlinks : ∀ i < n, Link.next a ∉ links Link.next (.bucket i) (y i) :=
    fun i hi => next_mem_links.not.2 (hnew i hi)
  have hrelink : SymbolTable.relink mask.toNat buckets s =
      Function.update buckets b (s :: buckets b) := by
    rw [SymbolTable.relink, hb, BitVec.toNat_and]
  refine ⟨head, x₁, x₂, Function.update y b (a :: y b), hhead, hx₁, hx₂, ⟨?_, ?_, ?_⟩, ?_, ?_, ?_⟩
  · rw [hlength, h.length]
  · intro i hi
    rw [hderef]
    rcases eq_or_ne i b with rfl | hne
    · rw [Function.update_self]
      exact (h.chains _ hi).push (fun _ _ => Link.noConfusion) ha (hlinks _ hi)
    · rw [Function.update_of_ne hne]
      refine ((h.chains i hi).update_of_notMem (hlinks i hi) _).update_of_notMem ?_ _
      exact bucket_mem_links.not.2 hne.symm
  · intro i hi
    rw [hrelink, hsymbolAt]
    rcases eq_or_ne i b with rfl | hne
    · rw [Function.update_self, Function.update_self, List.map_cons, List.map_cons, hs,
        h.symbols _ hi]
    · rw [Function.update_of_ne hne, Function.update_of_ne hne, h.symbols i hi]
  · exact hsymbolAt
  · intro c hc
    have hca : Link.next c ≠ Link.next a := fun heq =>
      hc (List.mem_singleton.2 (Link.next.inj heq))
    rw [hderef, Function.update_of_ne Link.noConfusion, Function.update_of_ne hca]
  · intro c
    rw [List.mem_singleton]
    exact exists_mem_update hbn fun _ => List.mem_cons

/-- The inner loop moves the symbols of a chain, whose links it overwrites on its way. -/
theorem relinkLoop_of_chain (hslot : ∀ hash : BitVec 32, (hash &&& mask).toNat < n) {fuel : ℕ}
    {buckets : ℕ → List Symbol} {sym : Ptr} {l : List Ptr} {ss : List Symbol}
    (h : Holds x n buckets y) (hl : ChainFrom 0 Link.next x.deref sym l) (hnodup : l.Nodup)
    (hs : l.map x.symbolAt = ss.map some) (hnew : ∀ a ∈ l, ∀ i < n, a ∉ y i)
    (hfuel : l.length < fuel) :
    ∃ x' y', relinkLoop mask fuel x sym = some x' ∧
      Holds x' n (ss.foldl (SymbolTable.relink mask.toNat) buckets) y' ∧
      Moved n l x x' y y' := by
  induction l generalizing fuel x y buckets sym ss with
  | nil =>
    obtain ⟨fuel, rfl⟩ := Nat.exists_eq_succ_of_ne_zero (Nat.ne_zero_of_lt hfuel)
    obtain rfl : ss = [] := List.map_eq_nil_iff.1 hs.symm
    exact ⟨x, y, if_pos hl, h, Moved.refl x y⟩
  | cons a l ih =>
    obtain ⟨fuel, rfl⟩ := Nat.exists_eq_succ_of_ne_zero (Nat.ne_zero_of_lt hfuel)
    obtain ⟨s, ss, rfl, ha, hrest⟩ := exists_of_map_symbolAt hs
    obtain ⟨node, hnode, rfl⟩ := SymbolMemory.exists_node ha
    obtain ⟨rfl, hne, hchain⟩ := hl
    obtain ⟨next, hnext, hfrom⟩ := chain_iff.1 hchain
    obtain ⟨hal, hnodup⟩ := List.nodup_cons.1 hnodup
    obtain ⟨head, x₁, x₂, y₁, hhead, hx₁, hx₂, h₁, hmoved⟩ :=
      h.relink hslot hne ha fun i hi => hnew _ List.mem_cons_self i hi
    have hfrom' : ChainFrom 0 Link.next x₂.deref next l := hfrom.congr fun c hc =>
      hmoved.next c (List.mem_singleton.not.2 (ne_of_mem_of_not_mem hc hal))
    have hnew' : ∀ c ∈ l, ∀ i < n, c ∉ y₁ i := by
      intro c hc i hi hmem
      rcases (hmoved.mem c).1 ⟨i, hi, hmem⟩ with hca | ⟨j, hj, hcj⟩
      · exact hal (List.mem_singleton.1 hca ▸ hc)
      · exact hnew c (List.mem_cons_of_mem _ hc) j hj hcj
    obtain ⟨x', y', hloop, h', hmoved'⟩ := ih h₁ hfrom' hnodup (hmoved.symbolAt ▸ hrest) hnew'
      (Nat.lt_of_succ_lt_succ hfuel)
    refine ⟨x', y', ?_, h', hmoved.trans hmoved'⟩
    rw [relinkLoop, if_neg hne, hnext, hnode]
    simp only [Option.bind_eq_bind, Option.bind_some, hhead, hx₁, hx₂]
    exact hloop

/-- The outer loop moves the symbols of the chains it has not come to. -/
theorem foldlM_relinkLoop (hslot : ∀ hash : BitVec 32, (hash &&& mask).toNat < n)
    {old : List Ptr} {chain : ℕ → List Ptr} {symbols buckets : ℕ → List Symbol} {is : List ℕ}
    (h : Holds x n buckets y)
    (hold : ∀ i ∈ is, ∃ sym, old[i]? = some sym ∧
      ChainFrom 0 Link.next x.deref sym (chain i) ∧ (chain i).length < WALK_LIMIT)
    (hnodup : (is.flatMap chain).Nodup)
    (hs : ∀ i ∈ is, (chain i).map x.symbolAt = (symbols i).map some)
    (hnew : ∀ a ∈ is.flatMap chain, ∀ i < n, a ∉ y i) :
    ∃ x' y', is.foldlM (fun x i => do
        let sym ← old[i]?
        relinkLoop mask WALK_LIMIT x sym) x = some x' ∧
      Holds x' n (is.foldl (fun z i => (symbols i).foldl (SymbolTable.relink mask.toNat) z)
        buckets) y' ∧
      Moved n (is.flatMap chain) x x' y y' := by
  induction is generalizing x y buckets with
  | nil => exact ⟨x, y, rfl, h, Moved.refl x y⟩
  | cons i is ih =>
    rw [List.flatMap_cons] at hnodup hnew ⊢
    obtain ⟨hchain, hrest, hdisj⟩ := List.nodup_append'.1 hnodup
    obtain ⟨sym, hsym, hfrom, hlength⟩ := hold i List.mem_cons_self
    obtain ⟨x₁, y₁, hloop, h₁, hmoved⟩ := relinkLoop_of_chain hslot h hfrom hchain
      (hs i List.mem_cons_self) (fun a ha => hnew a (List.mem_append_left _ ha)) hlength
    have hold₁ : ∀ j ∈ is, ∃ sym, old[j]? = some sym ∧
        ChainFrom 0 Link.next x₁.deref sym (chain j) ∧ (chain j).length < WALK_LIMIT := by
      intro j hj
      obtain ⟨sym, hsym, hfrom, hlength⟩ := hold j (List.mem_cons_of_mem _ hj)
      refine ⟨sym, hsym, hfrom.congr fun c hc => hmoved.next c fun hci => ?_, hlength⟩
      exact hdisj hci (List.mem_flatMap.2 ⟨j, hj, hc⟩)
    have hs₁ : ∀ j ∈ is, (chain j).map x₁.symbolAt = (symbols j).map some := by
      intro j hj
      rw [hmoved.symbolAt, hs j (List.mem_cons_of_mem _ hj)]
    have hnew₁ : ∀ a ∈ is.flatMap chain, ∀ j < n, a ∉ y₁ j := by
      intro a ha j hj hmem
      rcases (hmoved.mem a).1 ⟨j, hj, hmem⟩ with hai | ⟨k, hk, hak⟩
      · exact hdisj hai ha
      · exact hnew a (List.mem_append_right _ ha) k hk hak
    obtain ⟨x', y', hfold, h', hmoved'⟩ := ih h₁ hold₁ hrest hs₁ hnew₁
    refine ⟨x', y', ?_, h', hmoved.trans hmoved'⟩
    rw [List.foldlM_cons, hsym]
    simp only [Option.bind_eq_bind, Option.bind_some, hloop]
    exact hfold

end Resize

/-- The number of buckets, the size and the mask of the new array. -/
theorem toNat_double {n : BitVec 32} (hpos : 0 < n.toNat) (hn : n.toNat < 2 ^ 29) :
    (n * 2).toNat = n.toNat * 2 ∧ (4 * (n * 2)).toNat / 4 = n.toNat * 2 ∧
      (n * 2 - 1).toNat = n.toNat * 2 - 1 := by
  refine ⟨?_, ?_, ?_⟩ <;> bv_omega

namespace Represents

variable {t : LinkedTable} {T : SymbolTable} {chain : ℕ → List Ptr}

theorem nodup_flatMap_chain (h : Represents t T chain) (hT : T.WF) :
    ((List.range T.nbuckets).flatMap chain).Nodup := by
  refine List.nodup_flatMap.2 ⟨fun i hi => ?_, ?_⟩
  · exact h.nodup_chain hT (List.mem_range.1 hi)
  · refine List.nodup_range.pairwise_of_forall_ne fun i hi j hj hne a hai haj => hne ?_
    exact h.eq_of_mem_links hT (List.mem_range.1 hi) (List.mem_range.1 hj)
      (next_mem_links.2 hai) (next_mem_links.2 haj)

/-- `ResizeSymbolTable`. The size of the new array in bytes has to be below `2 ^ 32`. -/
theorem resizeSymbolTable (h : Represents t T chain) (hT : T.WF) (hroom : T.nbuckets < 2 ^ 29)
    (allocated : Bool) :
    ∃ t' chain', t.resizeSymbolTable allocated = some t' ∧
      t'.memory.symbolAt = t.memory.symbolAt ∧
      Represents t' (T.resizeSymbolTable allocated) chain' := by
  cases allocated with
  | false => exact ⟨t, chain, rfl, rfl, h⟩
  | true =>
    obtain ⟨k, hk⟩ := hT.pow
    have hpos : 0 < T.nbuckets := hk ▸ Nat.two_pow_pos k
    obtain ⟨hn, hbytes, hmask⟩ := toNat_double (h.nbuckets ▸ hpos) (h.nbuckets ▸ hroom)
    rw [h.nbuckets] at hn hbytes hmask
    have hslot : ∀ hash : BitVec 32,
        (hash &&& (t.nbuckets * 2 - 1)).toNat < T.nbuckets * 2 := by
      intro hash
      rw [BitVec.toNat_and, hmask]
      exact SymbolTable.and_sub_one_lt (by rw [hk, ← Nat.pow_succ]) hash.toNat
    have hempty : Holds { t.memory with buckets := List.replicate (T.nbuckets * 2) 0 }
        (T.nbuckets * 2) (fun _ => []) (fun _ => []) :=
      ⟨List.length_replicate, fun i hi => List.getElem?_replicate_of_lt hi, fun _ _ => rfl⟩
    have hold : ∀ i ∈ List.range T.nbuckets, ∃ sym, t.memory.buckets[i]? = some sym ∧
        ChainFrom 0 Link.next t.memory.deref sym (chain i) ∧ (chain i).length < WALK_LIMIT := by
      intro i hi
      rw [List.mem_range] at hi
      obtain ⟨sym, hsym, hfrom⟩ := chain_iff.1 (h.holds.chains i hi)
      exact ⟨sym, hsym, hfrom, h.length_chain_lt hT hi⟩
    obtain ⟨x, y, hfold, hholds, hmoved⟩ := foldlM_relinkLoop hslot hempty
      (fun i hi => (hold i hi).imp fun _ hi => ⟨hi.1, hi.2.1.congr fun _ _ => rfl, hi.2.2⟩)
      (h.nodup_flatMap_chain hT) (fun i hi => h.holds.symbols i (List.mem_range.1 hi))
      fun _ _ _ _ => List.not_mem_nil
    refine ⟨⟨t.nbuckets * 2, t.nused, t.nbuckets * 2 - 1, x⟩, y, ?_, hmoved.symbolAt, hn,
      h.nused, hmask, ?_, fun p hp => ?_⟩
    · simp only [LinkedTable.resizeSymbolTable, Bool.not_true, Bool.false_eq_true, if_false,
        hbytes, h.nbuckets]
      rw [hfold]
      rfl
    · rw [hmask] at hholds
      exact hholds
    · change x.symbolAt p ≠ none at hp
      rw [hmoved.symbolAt] at hp
      obtain ⟨i, hi, hpi⟩ := h.live p hp
      exact (hmoved.mem p).2 (Or.inl (List.mem_flatMap.2 ⟨i, List.mem_range.2 hi, hpi⟩))

/-! ## Interning -/

/-- `InternSymbol` of a name that has a symbol returns it. -/
theorem internSymbol_of_some (h : Represents t T chain) (hT : T.WF) {str : Name} {len : ℕ}
    {s : Symbol} (hf : T.findSymbol str len = some s) (address : BitVec 32) (kvs : Ptr)
    (allocated : Bool) :
    ∃ p, t.internSymbol str len address kvs allocated = some (p, t) ∧
      t.memory.symbolAt p = some s := by
  obtain ⟨p, hp, hsymbol, hnull⟩ :=
    h.deref_linkAt (T.findSymbolBucket str len (hashString str len)) (hT.slot_lt _)
  have hne : p ≠ 0 := fun hp0 => Option.some_ne_none s (hf.symm.trans (hnull.1 hp0))
  refine ⟨p, ?_, hsymbol.trans hf⟩
  rw [LinkedTable.internSymbol, h.findSymbolBucket hT]
  simp only [Option.bind_eq_bind, Option.bind_some, hp, if_pos hne]

/-- `InternSymbol` of a new name faults if `malloc` gives `NULL`. -/
theorem internSymbol_null (h : Represents t T chain) (hT : T.WF) {str : Name} {len : ℕ}
    (hf : T.findSymbol str len = none) (address : BitVec 32) (allocated : Bool) :
    t.internSymbol str len address 0 allocated = none := by
  obtain ⟨p, hp, -, hnull⟩ :=
    h.deref_linkAt (T.findSymbolBucket str len (hashString str len)) (hT.slot_lt _)
  obtain rfl : p = 0 := hnull.2 hf
  rw [LinkedTable.internSymbol, h.findSymbolBucket hT]
  simp only [Option.bind_eq_bind, Option.bind_some, hp, ne_eq, not_true_eq_false, if_false,
    if_true]

/-- `InternSymbol` of a new name writes to what `malloc` gives. -/
theorem internSymbol_of_none (h : Represents t T chain) (hT : T.WF) {str : Name}
    (hf : T.findSymbol str str.length = none) (address : BitVec 32) {kvs : Ptr} (hkvs : kvs ≠ 0)
    (hfree : t.memory.symbolAt kvs = none) (hroom : T.nused < 2 ^ 28) (allocated : Bool) :
    ∃ t' chain', t.internSymbol str str.length address kvs allocated = some (kvs, t') ∧
      t'.memory.symbolAt =
        Function.update t.memory.symbolAt kvs (some (Symbol.intern str str.length address)) ∧
      Represents t' (T.internSymbol str str.length address allocated).2 chain' := by
  set link := T.findSymbolBucket str str.length (hashString str str.length) with hlink
  set s := Symbol.intern str str.length address with hs
  have hi : link.1 < T.nbuckets := hT.slot_lt _
  have hend : link.2 = (T.buckets link.1).length :=
    le_antisymm List.findIdx_le_length (List.getElem?_eq_none_iff.1 hf)
  obtain ⟨p, hp, -, hnull⟩ := h.deref_linkAt link hi
  obtain rfl : p = 0 := hnull.2 hf
  obtain ⟨x, hx, hsymbolAt, h'⟩ := h.setLink hT s hi hend hkvs hfree (by omega)
  obtain ⟨hT', -⟩ := hT.setLink address hf
  have hdue : t.nbuckets < t.nused + 1 ∧ t.nbuckets.toNat ≤ INT_MAX / 2 ↔
      T.nused + 1 > T.nbuckets ∧ T.nbuckets ≤ INT_MAX / 2 := by
    rw [BitVec.lt_def, h'.nused, h.nbuckets]
  have hintern : (T.internSymbol str str.length address allocated).2 =
      if T.nused + 1 > T.nbuckets ∧ T.nbuckets ≤ INT_MAX / 2 then
        SymbolTable.resizeSymbolTable { T.setLink link s with nused := T.nused + 1 } allocated
      else { T.setLink link s with nused := T.nused + 1 } :=
    congrArg Prod.snd (SymbolTable.internSymbol_of_none hf address allocated)
  rw [hintern, LinkedTable.internSymbol, h.findSymbolBucket hT]
  simp only [Option.bind_eq_bind, Option.bind_some, hp, hx, hdue, ← hlink, ← hs, ne_eq,
    not_true_eq_false, if_false, if_neg hkvs]
  by_cases hd : T.nused + 1 > T.nbuckets ∧ T.nbuckets ≤ INT_MAX / 2
  · have hbuckets : T.nbuckets < 2 ^ 29 := by omega
    obtain ⟨t', chain', ht', hsymbolAt', hrep⟩ :=
      h'.resizeSymbolTable hT' hbuckets allocated
    simp only [if_pos hd, ht']
    exact ⟨t', chain', rfl, hsymbolAt'.trans hsymbolAt, hrep⟩
  · simp only [if_neg hd]
    exact ⟨_, _, rfl, hsymbolAt, h'⟩

end Represents

end LinkedTable

end TickrateEnabler
