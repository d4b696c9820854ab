import TickrateEnabler.FirstWins
import Mathlib.Algebra.Ring.Nat
import Mathlib.Data.List.Basic
import Mathlib.Data.List.Perm.Basic
import Mathlib.Data.List.Nodup
import Mathlib.Logic.Function.Basic

/-!
# The symbol table

`SymbolTable` (`sm_symtable.h`) is a chained hash table. A bucket is its chain in
`tbl_next` order, a link into a chain is a bucket with a position, and the position
past the end is the link that holds `NULL`. Names are the bytes before the
terminating zero.

`SymbolTable.WF` is the invariant: the number of buckets is a power of two, every
symbol is in the bucket of its hash, no two have the same name, and `nused` counts
them. `InternSymbol` keeps it, with or without a resize (`WF.internSymbol`), and on
well-formed tables it is a first-write-wins `put`.
-/

namespace TickrateEnabler

open FirstWins

/-- A `char *` as its bytes before the terminating zero. -/
abbrev Name :=
  List (BitVec 8)

/-- `get16bits`, little endian. -/
def get16bits (d : Name) : BitVec 32 :=
  (d.getD 0 0).setWidth 32 + ((d.getD 1 0).setWidth 32 <<< 8)

/-- The main loop of `HashString`, `len` rounds of four bytes. -/
def hashLoop : ℕ → Name → BitVec 32 → Name × BitVec 32
  | 0, data, hash => (data, hash)
  | len + 1, data, hash =>
    let hash := hash + get16bits data
    let tmp := (get16bits (data.drop 2) <<< 11) ^^^ hash
    let hash := (hash <<< 16) ^^^ tmp
    hashLoop len (data.drop 4) (hash + (hash >>> 11))

/-- The end cases of `HashString`, `rem` bytes. A lone `char` is signed. -/
def hashRest (rem : ℕ) (data : Name) (hash : BitVec 32) : BitVec 32 :=
  match rem with
  | 3 =>
    let hash := hash + get16bits data
    let hash := hash ^^^ (hash <<< 16)
    let hash := hash ^^^ ((data.getD 2 0).signExtend 32 <<< 18)
    hash + (hash >>> 11)
  | 2 =>
    let hash := hash + get16bits data
    let hash := hash ^^^ (hash <<< 11)
    hash + (hash >>> 17)
  | 1 =>
    let hash := hash + (data.getD 0 0).signExtend 32
    let hash := hash ^^^ (hash <<< 10)
    hash + (hash >>> 1)
  | _ => hash

/-- `SymbolTable::HashString`. -/
def hashString (data : Name) (len : ℕ) : BitVec 32 :=
  if len = 0 then 0
  else
    let r := hashLoop (len / 4) data (BitVec.ofNat 32 len)
    let hash := hashRest (len % 4) r.1 r.2
    let hash := hash ^^^ (hash <<< 3)
    let hash := hash + (hash >>> 5)
    let hash := hash ^^^ (hash <<< 4)
    let hash := hash + (hash >>> 17)
    let hash := hash ^^^ (hash <<< 25)
    hash + (hash >>> 6)

/-- `Symbol`, without `tbl_next`. `buffer` has the terminating zero. -/
structure Symbol where
  length : ℕ
  hash : BitVec 32
  address : BitVec 32
  buffer : Name
  deriving DecidableEq

namespace Symbol

/-- The bytes of the name. -/
def name (s : Symbol) : Name :=
  s.buffer.take s.length

/-- Length, hash and buffer are those of the name. -/
def WF (s : Symbol) : Prop :=
  s.length = s.name.length ∧ s.hash = hashString s.name s.name.length ∧ s.buffer = s.name ++ [0]

/-- The symbol `InternSymbol` allocates. -/
def intern (str : Name) (len : ℕ) (address : BitVec 32) : Symbol :=
  ⟨len, hashString str len, address, str.take len ++ [0]⟩

theorem name_intern (str : Name) (address : BitVec 32) :
    (intern str str.length address).name = str := by
  simp [name, intern]

theorem wf_intern (str : Name) (address : BitVec 32) : (intern str str.length address).WF := by
  refine ⟨?_, ?_, ?_⟩ <;> rw [name_intern]
  · rfl
  · rfl
  · simp [intern]

end Symbol

/-- `SymbolTable`. A 32-bit process has room for fewer symbols than `uint32_t` counts. -/
structure SymbolTable where
  nbuckets : ℕ
  nused : ℕ
  bucketmask : ℕ
  buckets : ℕ → List Symbol

/-- `KESTRING_TABLE_START_SIZE`. -/
def KESTRING_TABLE_START_SIZE : ℕ :=
  65536

/-- `INT_MAX`. -/
def INT_MAX : ℕ :=
  2147483647

namespace SymbolTable

/-- `Initialize`, when the allocation succeeds. -/
def initializeTable : SymbolTable where
  nbuckets := KESTRING_TABLE_START_SIZE
  nused := 0
  bucketmask := KESTRING_TABLE_START_SIZE - 1
  buckets := fun _ => []

/-- The test of `FindSymbolBucket` : same length and `memcmp` finds no difference. -/
def matchesName (str : Name) (len : ℕ) (kvs : Symbol) : Bool :=
  len = kvs.length ∧ str.take len = kvs.buffer.take len

/-- `FindSymbolBucket` : the link to the symbol, or the last link of its chain. -/
def findSymbolBucket (t : SymbolTable) (str : Name) (len : ℕ) (hash : BitVec 32) : ℕ × ℕ :=
  let bucket := hash.toNat &&& t.bucketmask
  (bucket, (t.buckets bucket).findIdx (matchesName str len))

/-- What a link holds. -/
def deref (t : SymbolTable) (link : ℕ × ℕ) : Option Symbol :=
  (t.buckets link.1)[link.2]?

/-- `*pkvs = kvs`, with `kvs->tbl_next` the end of the chain. -/
def setLink (t : SymbolTable) (link : ℕ × ℕ) (kvs : Symbol) : SymbolTable :=
  { t with buckets :=
      Function.update t.buckets link.1 ((t.buckets link.1).take link.2 ++ [kvs]) }

/-- The inner step of `ResizeSymbolTable` : `sym` becomes the head of its new chain. -/
def relink (xbucketmask : ℕ) (xbuckets : ℕ → List Symbol) (sym : Symbol) : ℕ → List Symbol :=
  let bucket := sym.hash.toNat &&& xbucketmask
  Function.update xbuckets bucket (sym :: xbuckets bucket)

/-- `ResizeSymbolTable`. `allocated` tells whether `malloc` gives the new array. -/
def resizeSymbolTable (t : SymbolTable) (allocated : Bool) : SymbolTable :=
  if !allocated then t
  else
    let xnbuckets := t.nbuckets * 2
    let xbucketmask := xnbuckets - 1
    { t with
      nbuckets := xnbuckets
      bucketmask := xbucketmask
      buckets := (List.range t.nbuckets).foldl
        (fun x i => (t.buckets i).foldl (relink xbucketmask) x) fun _ => [] }

/-- `FindSymbol`. -/
def findSymbol (t : SymbolTable) (str : Name) (len : ℕ) : Option Symbol :=
  t.deref (t.findSymbolBucket str len (hashString str len))

/-- `InternSymbol`. `allocated` is the outcome of the resize, if one is due. -/
def internSymbol (t : SymbolTable) (str : Name) (len : ℕ) (address : BitVec 32)
    (allocated : Bool) : Symbol × SymbolTable :=
  let hash := hashString str len
  let pkvs := t.findSymbolBucket str len hash
  match t.deref pkvs with
  | some kvs => (kvs, t)
  | none =>
    let kvs := Symbol.intern str len address
    let t := t.setLink pkvs kvs
    let t := { t with nused := t.nused + 1 }
    if t.nused > t.nbuckets ∧ t.nbuckets ≤ INT_MAX / 2 then
      (kvs, t.resizeSymbolTable allocated)
    else (kvs, t)

/-! ## The invariant -/

/-- The symbols of the first `n` buckets. -/
def total (n : ℕ) (buckets : ℕ → List Symbol) : List Symbol :=
  (List.range n).flatMap buckets

/-- Adding a symbol to one of the buckets adds it to all of them. -/
theorem total_update_perm {n b : ℕ} (hb : b < n) (f : ℕ → List Symbol) {chain : List Symbol}
    {s : Symbol} (h : chain.Perm (s :: f b)) :
    (total n (Function.update f b chain)).Perm (s :: total n f) := by
  have key : ∀ l : List ℕ, l.Nodup → b ∈ l →
      (l.flatMap (Function.update f b chain)).Perm (s :: l.flatMap f) := by
    intro l
    induction l with
    | nil => simp
    | cons i l ih =>
      intro hnd hmem
      obtain ⟨hi, hnd⟩ := List.nodup_cons.1 hnd
      rw [List.flatMap_cons, List.flatMap_cons]
      rcases eq_or_ne i b with rfl | hne
      · have hrest : l.flatMap (Function.update f i chain) = l.flatMap f :=
          List.flatMap_congr fun j hj => Function.update_of_ne (ne_of_mem_of_not_mem hj hi) ..
        rw [Function.update_self, hrest]
        exact h.append_right _
      · rw [Function.update_of_ne hne]
        have hl := ih hnd ((List.mem_cons.1 hmem).resolve_left (Ne.symm hne))
        exact (hl.append_left _).trans List.perm_middle
  exact key _ List.nodup_range (List.mem_range.2 hb)

/-- All symbols of the table. -/
def symbols (t : SymbolTable) : List Symbol :=
  total t.nbuckets t.buckets

/-- The bucket of a hash. -/
def slot (t : SymbolTable) (hash : BitVec 32) : ℕ :=
  hash.toNat &&& t.bucketmask

/-- The table is well formed. -/
structure WF (t : SymbolTable) : Prop where
  pow : ∃ k, t.nbuckets = 2 ^ k
  mask : t.bucketmask = t.nbuckets - 1
  placed : ∀ i, ∀ s ∈ t.buckets i, t.slot s.hash = i
  named : ∀ s ∈ t.symbols, s.WF
  nodup : (t.symbols.map Symbol.name).Nodup
  count : t.nused = t.symbols.length

/-- A number masked to a power of two. -/
theorem and_sub_one_lt {n k : ℕ} (hn : n = 2 ^ k) (x : ℕ) : x &&& (n - 1) < n := by
  rw [hn, Nat.and_two_pow_sub_one_eq_mod]
  exact Nat.mod_lt _ (Nat.two_pow_pos k)

namespace WF

variable {t : SymbolTable}

theorem slot_lt (h : t.WF) (hash : BitVec 32) : t.slot hash < t.nbuckets := by
  obtain ⟨k, hk⟩ := h.pow
  rw [slot, h.mask]
  exact and_sub_one_lt hk _

theorem mem_symbols_iff (h : t.WF) (s : Symbol) :
    s ∈ t.symbols ↔ s ∈ t.buckets (t.slot s.hash) := by
  simp only [symbols, total, List.mem_flatMap, List.mem_range]
  constructor
  · rintro ⟨i, -, hs⟩
    rwa [h.placed i s hs]
  · exact fun hs => ⟨_, h.slot_lt _, hs⟩

theorem eq_of_name_eq (h : t.WF) {s s' : Symbol} (hs : s ∈ t.symbols) (hs' : s' ∈ t.symbols)
    (hn : s.name = s'.name) : s = s' :=
  List.inj_on_of_nodup_map h.nodup hs hs' hn

end WF

theorem matchesName_iff {s : Symbol} (h : s.WF) (str : Name) :
    matchesName str str.length s = true ↔ s.name = str := by
  simp only [matchesName, decide_eq_true_eq, List.take_length]
  constructor
  · rintro ⟨hlen, hstr⟩
    rw [Symbol.name, ← hlen]
    exact hstr.symm
  · rintro rfl
    refine ⟨h.1.symm, ?_⟩
    rw [← h.1]
    rfl

theorem findSymbol_eq_find? (t : SymbolTable) (str : Name) (len : ℕ) :
    t.findSymbol str len =
      (t.buckets (t.slot (hashString str len))).find? (matchesName str len) :=
  List.find?_eq_getElem?_findIdx.symm

/-- `FindSymbol` finds the symbol with the name. -/
theorem WF.findSymbol_eq_some_iff {t : SymbolTable} (h : t.WF) (str : Name) (s : Symbol) :
    t.findSymbol str str.length = some s ↔ s ∈ t.symbols ∧ s.name = str := by
  have hmem : ∀ s' ∈ t.buckets (t.slot (hashString str str.length)), s' ∈ t.symbols := by
    intro s' hs'
    rw [h.mem_symbols_iff, h.placed _ s' hs']
    exact hs'
  rw [findSymbol_eq_find?]
  constructor
  · intro hf
    have hs := hmem s (List.mem_of_find?_eq_some hf)
    exact ⟨hs, (matchesName_iff (h.named s hs) str).1 (List.find?_some hf)⟩
  · rintro ⟨hs, rfl⟩
    have hbucket : s ∈ t.buckets (t.slot (hashString s.name s.name.length)) := by
      rw [← (h.named s hs).2.1]
      exact (h.mem_symbols_iff s).1 hs
    cases hf : (t.buckets (t.slot (hashString s.name s.name.length))).find?
        (matchesName s.name s.name.length) with
    | none =>
      have hno := List.find?_eq_none.1 hf s hbucket
      exact (hno ((matchesName_iff (h.named s hs) s.name).2 rfl)).elim
    | some s' =>
      have hs' := hmem s' (List.mem_of_find?_eq_some hf)
      have hn := (matchesName_iff (h.named s' hs') s.name).1 (List.find?_some hf)
      rw [h.eq_of_name_eq hs' hs hn]

theorem symbols_initializeTable : initializeTable.symbols = [] :=
  List.flatMap_eq_nil_iff.2 fun _ _ => rfl

theorem wf_initializeTable : initializeTable.WF := by
  refine ⟨⟨16, rfl⟩, rfl, fun i s hs => (List.not_mem_nil hs).elim, ?_, ?_, ?_⟩
  · rw [symbols_initializeTable]; simp
  · rw [symbols_initializeTable]; exact List.nodup_nil
  · rw [symbols_initializeTable]; rfl

theorem WF.findSymbol_eq_none_iff {t : SymbolTable} (h : t.WF) (str : Name) :
    t.findSymbol str str.length = none ↔ ∀ s ∈ t.symbols, s.name ≠ str := by
  rw [Option.eq_none_iff_forall_not_mem]
  exact forall_congr' fun s => (not_congr (h.findSymbol_eq_some_iff str s)).trans not_and

/-! ## Resizing -/

/-- Relinking symbols adds them to the new buckets. -/
theorem total_foldl_relink {n mask : ℕ} (hn : ∀ h : BitVec 32, h.toNat &&& mask < n)
    (l : List Symbol) (x : ℕ → List Symbol) :
    (total n (l.foldl (relink mask) x)).Perm (l ++ total n x) := by
  induction l generalizing x with
  | nil => exact List.Perm.refl _
  | cons s l ih =>
    have hs : (total n (relink mask x s)).Perm (s :: total n x) :=
      total_update_perm (hn s.hash) x (List.Perm.refl _)
    exact (ih _).trans ((hs.append_left l).trans List.perm_middle)

/-- Relinking puts every symbol in the bucket of its hash. -/
theorem placed_foldl_relink {mask : ℕ} (l : List Symbol) {x : ℕ → List Symbol}
    (hx : ∀ i, ∀ s ∈ x i, s.hash.toNat &&& mask = i) :
    ∀ i, ∀ s ∈ l.foldl (relink mask) x i, s.hash.toNat &&& mask = i := by
  induction l generalizing x with
  | nil => exact hx
  | cons s l ih =>
    refine ih fun i s' hs' => ?_
    unfold relink at hs'
    rcases eq_or_ne i (s.hash.toNat &&& mask) with rfl | hne
    · rw [Function.update_self, List.mem_cons] at hs'
      rcases hs' with rfl | hs'
      · rfl
      · exact hx _ s' hs'
    · rw [Function.update_of_ne hne] at hs'
      exact hx i s' hs'

/-- A resize keeps the table well formed and its symbols. -/
theorem WF.resizeSymbolTable {t : SymbolTable} (h : t.WF) (allocated : Bool) :
    (t.resizeSymbolTable allocated).WF ∧
      (t.resizeSymbolTable allocated).symbols.Perm t.symbols := by
  cases allocated with
  | false => exact ⟨h, List.Perm.refl _⟩
  | true =>
    obtain ⟨k, hk⟩ := h.pow
    have hpow : t.nbuckets * 2 = 2 ^ (k + 1) := by rw [hk, Nat.pow_succ]
    have hslot : ∀ hash : BitVec 32, hash.toNat &&& (t.nbuckets * 2 - 1) < t.nbuckets * 2 :=
      fun hash => and_sub_one_lt hpow hash.toNat
    have hbuckets : (t.resizeSymbolTable true).buckets =
        t.symbols.foldl (relink (t.nbuckets * 2 - 1)) fun _ => [] := List.foldl_flatMap.symm
    have hempty : total (t.nbuckets * 2) (fun _ => []) = [] :=
      List.flatMap_eq_nil_iff.2 fun _ _ => rfl
    have hperm : (t.resizeSymbolTable true).symbols.Perm t.symbols := by
      have hadd := total_foldl_relink hslot t.symbols fun _ => []
      rw [hempty, List.append_nil] at hadd
      rw [symbols, hbuckets]
      exact hadd
    refine ⟨⟨⟨k + 1, hpow⟩, rfl, ?_, ?_, ?_, ?_⟩, hperm⟩
    · rw [hbuckets]
      exact placed_foldl_relink _ fun i s hs => (List.not_mem_nil hs).elim
    · exact fun s hs => h.named s (hperm.mem_iff.1 hs)
    · exact (hperm.map Symbol.name).nodup_iff.2 h.nodup
    · exact h.count.trans hperm.length_eq.symm

/-! ## Interning -/

/-- Linking a symbol with a new name at the end of its chain. -/
theorem WF.setLink {t : SymbolTable} (h : t.WF) {str : Name} (address : BitVec 32)
    (hnew : t.findSymbol str str.length = none) :
    let kvs := Symbol.intern str str.length address
    let t' := t.setLink (t.findSymbolBucket str str.length (hashString str str.length)) kvs
    WF { t' with nused := t'.nused + 1 } ∧ t'.symbols.Perm (kvs :: t.symbols) := by
  intro kvs t'
  set b := t.slot (hashString str str.length) with hb
  have hchain : t'.buckets = Function.update t.buckets b (t.buckets b ++ [kvs]) := by
    have hend : (t.buckets b).length ≤ (t.buckets b).findIdx (matchesName str str.length) :=
      List.getElem?_eq_none_iff.1 hnew
    show Function.update t.buckets b
      ((t.buckets b).take ((t.buckets b).findIdx (matchesName str str.length)) ++ [kvs]) = _
    rw [List.take_of_length_le hend]
  have hperm : t'.symbols.Perm (kvs :: t.symbols) := by
    rw [symbols, hchain]
    exact total_update_perm (h.slot_lt _) t.buckets (List.perm_append_singleton _ _)
  have hname : kvs.name = str := Symbol.name_intern str address
  refine ⟨⟨h.pow, h.mask, fun i s hs => ?_, fun s hs => ?_, ?_, ?_⟩, hperm⟩
  · change s ∈ t'.buckets i at hs
    rw [hchain] at hs
    rcases eq_or_ne i b with rfl | hne
    · rw [Function.update_self, List.mem_append, List.mem_singleton] at hs
      rcases hs with hs | rfl
      · exact h.placed _ s hs
      · rfl
    · rw [Function.update_of_ne hne] at hs
      exact h.placed i s hs
  · rcases List.mem_cons.1 (hperm.mem_iff.1 hs) with rfl | hs
    · exact Symbol.wf_intern str address
    · exact h.named s hs
  · refine (hperm.map Symbol.name).nodup_iff.2 (List.nodup_cons.2 ⟨fun hmem => ?_, h.nodup⟩)
    obtain ⟨s, hs, hsn⟩ := List.mem_map.1 hmem
    exact (h.findSymbol_eq_none_iff str).1 hnew s hs (hsn.trans hname)
  · show t.nused + 1 = t'.symbols.length
    rw [hperm.length_eq, List.length_cons, h.count]

/-- The address of a name. -/
def lookup (t : SymbolTable) (str : Name) : Option (BitVec 32) :=
  (t.findSymbol str str.length).map Symbol.address

theorem WF.lookup_eq_some_iff {t : SymbolTable} (h : t.WF) (str : Name) (a : BitVec 32) :
    t.lookup str = some a ↔ ∃ s ∈ t.symbols, s.name = str ∧ s.address = a := by
  simp only [lookup, Option.map_eq_some_iff, h.findSymbol_eq_some_iff, and_assoc]

/-- A table with one more symbol, of a new name. -/
theorem WF.lookup_of_perm {t t' : SymbolTable} (h : t.WF) (h' : t'.WF) {kvs : Symbol}
    (hperm : t'.symbols.Perm (kvs :: t.symbols)) (hnew : ∀ s ∈ t.symbols, s.name ≠ kvs.name) :
    t'.lookup = put t.lookup kvs.name kvs.address := by
  ext str : 1
  refine Option.ext fun a => ?_
  rw [h'.lookup_eq_some_iff, put, Option.or_eq_some_iff]
  simp only [hperm.mem_iff, List.exists_mem_cons_iff, ← h.lookup_eq_some_iff]
  rcases eq_or_ne str kvs.name with rfl | hne
  · have hnone : t.lookup kvs.name = none := by
      rw [lookup, (h.findSymbol_eq_none_iff _).2 hnew]
      rfl
    simp [hnone]
  · simp [hne, hne.symm]

theorem internSymbol_of_some {t : SymbolTable} {str : Name} {len : ℕ} {kvs : Symbol}
    (hf : t.findSymbol str len = some kvs) (address : BitVec 32) (allocated : Bool) :
    t.internSymbol str len address allocated = (kvs, t) := by
  simp only [findSymbol] at hf
  simp only [internSymbol, hf]

theorem internSymbol_of_none {t : SymbolTable} {str : Name} {len : ℕ}
    (hf : t.findSymbol str len = none) (address : BitVec 32) (allocated : Bool) :
    let kvs := Symbol.intern str len address
    let t' := t.setLink (t.findSymbolBucket str len (hashString str len)) kvs
    let t' := { t' with nused := t'.nused + 1 }
    t.internSymbol str len address allocated =
      (kvs, if t'.nused > t'.nbuckets ∧ t'.nbuckets ≤ INT_MAX / 2 then
        t'.resizeSymbolTable allocated else t') := by
  simp only [findSymbol] at hf
  simp only [internSymbol, hf]
  split_ifs <;> rfl

/-- `InternSymbol` of a new name adds its symbol, whether or not a resize is due. -/
theorem WF.internSymbol_of_none {t : SymbolTable} (h : t.WF) {str : Name}
    (hf : t.findSymbol str str.length = none) (address : BitVec 32) (allocated : Bool) :
    (t.internSymbol str str.length address allocated).2.WF ∧
      (t.internSymbol str str.length address allocated).2.symbols.Perm
        (Symbol.intern str str.length address :: t.symbols) := by
  obtain ⟨hwf, hperm⟩ := h.setLink address hf
  obtain ⟨hwf', hperm'⟩ := hwf.resizeSymbolTable allocated
  rw [SymbolTable.internSymbol_of_none hf]
  dsimp only
  split_ifs
  · exact ⟨hwf', hperm'.trans hperm⟩
  · exact ⟨hwf, hperm⟩

/-- What `InternSymbol` does to a well-formed table. -/
theorem WF.internSymbol {t : SymbolTable} (h : t.WF) (str : Name) (address : BitVec 32)
    (allocated : Bool) :
    (t.internSymbol str str.length address allocated).2.WF ∧
      (t.internSymbol str str.length address allocated).2.lookup = put t.lookup str address ∧
      (t.internSymbol str str.length address allocated).1.address =
        (t.lookup str).getD address := by
  cases hf : t.findSymbol str str.length with
  | some kvs =>
    have hl : t.lookup str = some kvs.address := by rw [lookup, hf]; rfl
    rw [internSymbol_of_some hf, hl, put_of_some hl]
    exact ⟨h, rfl, rfl⟩
  | none =>
    have hl : t.lookup str = none := by rw [lookup, hf]; rfl
    have hname := Symbol.name_intern str address
    obtain ⟨hwf, hperm⟩ := h.internSymbol_of_none hf address allocated
    have hput := h.lookup_of_perm hwf hperm (hname.symm ▸ (h.findSymbol_eq_none_iff str).1 hf)
    rw [hname] at hput
    refine ⟨hwf, hput, ?_⟩
    rw [SymbolTable.internSymbol_of_none hf, hl]
    rfl

end SymbolTable

end TickrateEnabler
