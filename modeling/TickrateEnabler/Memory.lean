import Mathlib.Data.Fin.Basic
import Mathlib.Logic.Function.Basic
import Mathlib.Data.Fintype.Pi
import Mathlib.Data.List.Nodup
import Mathlib.Algebra.Order.BigOperators.Group.List
import Mathlib.Algebra.Order.Ring.Nat

/-!
# Flat memory and blocks

A memory gives every address its cell, a block is an array of cells. `load` reads a
block, `store` writes one, and `blit`, `slice` do the same inside another array.
`store_eq_self_iff` : writing a block changes nothing exactly when it is already
there. `writeAll` writes a list of blocks in order; the cell at an address is the one
of the last block that covers it (`writeAll_apply`). Spans of cells that are apart have
together no more cells than the memory (`sum_le_of_pairwise_apart`), and blocks that are
apart are all there after `writeAll` (`load_writeAll`).
-/

namespace Memory

variable {β : Type*} {n k : ℕ}

/-- The address `x` lies in the `n` cells from `a` on. -/
def Covers (a n x : ℕ) : Prop :=
  a ≤ x ∧ x < a + n

instance (a n x : ℕ) : Decidable (Covers a n x) :=
  inferInstanceAs (Decidable (_ ∧ _))

theorem covers_add (a : ℕ) (i : Fin n) : Covers a n (a + i) :=
  ⟨Nat.le_add_right _ _, Nat.add_lt_add_left i.isLt a⟩

/-- The `n` cells from `a` on. -/
def load (m : ℕ → β) (a n : ℕ) : Fin n → β :=
  fun i => m (a + i)

/-- `m` with the block `v` written at `a`. -/
def store (m : ℕ → β) (a : ℕ) (v : Fin n → β) : ℕ → β :=
  fun x => if h : Covers a n x then v ⟨x - a, by unfold Covers at h; omega⟩ else m x

@[simp] theorem load_apply (m : ℕ → β) (a n : ℕ) (i : Fin n) : load m a n i = m (a + i) :=
  rfl

theorem store_of_covers {m : ℕ → β} {a x : ℕ} {v : Fin n → β} (h : Covers a n x) :
    store m a v x = v ⟨x - a, by unfold Covers at h; omega⟩ :=
  dif_pos h

theorem store_of_not_covers {m : ℕ → β} {a x : ℕ} {v : Fin n → β} (h : ¬Covers a n x) :
    store m a v x = m x :=
  dif_neg h

@[simp] theorem store_add (m : ℕ → β) (a : ℕ) (v : Fin n → β) (i : Fin n) :
    store m a v (a + i) = v i := by
  rw [store_of_covers (covers_add a i)]
  congr 1
  exact Fin.ext (Nat.add_sub_cancel_left a i)

/-- A block reads back as it was written. -/
@[simp] theorem load_store (m : ℕ → β) (a : ℕ) (v : Fin n → β) : load (store m a v) a n = v :=
  funext fun i => store_add m a v i

/-- Writing the cells of `M` over `m` gives those of `M` on the block. -/
theorem store_load_apply (m M : ℕ → β) (a n x : ℕ) :
    store m a (load M a n) x = if Covers a n x then M x else m x := by
  split_ifs with h
  · rw [store_of_covers h, load_apply]
    exact congrArg M (Nat.add_sub_cancel' h.1)
  · exact store_of_not_covers h

/-- Writing a block changes nothing exactly when it is already there. -/
theorem store_eq_self_iff {m : ℕ → β} {a : ℕ} {v : Fin n → β} :
    store m a v = m ↔ load m a n = v := by
  constructor
  · intro h
    rw [← h, load_store]
  · rintro rfl
    ext x : 1
    rw [store_load_apply, ite_self]

theorem store_inj {m : ℕ → β} {a : ℕ} {v w : Fin n → β} :
    store m a v = store m a w ↔ v = w := by
  constructor
  · intro h
    rw [← load_store m a v, h, load_store]
  · rintro rfl
    rfl

/-! ## Blocks inside an array -/

/-- The `n` cells of `b` from `off` on. -/
def slice (b : Fin k → β) (off n : ℕ) (h : off + n ≤ k) : Fin n → β :=
  fun i => b ⟨off + i, by omega⟩

/-- `b` with the block `v` written at `off`. -/
def blit (b : Fin k → β) (off : ℕ) (v : Fin n → β) : Fin k → β :=
  fun i => if h : Covers off n i then v ⟨i - off, by unfold Covers at h; omega⟩ else b i

@[simp] theorem slice_blit (b : Fin k → β) (off : ℕ) (v : Fin n → β) (h : off + n ≤ k) :
    slice (blit b off v) off n h = v := by
  ext i : 1
  unfold slice blit
  rw [dif_pos (covers_add off i)]
  congr 1
  exact Fin.ext (Nat.add_sub_cancel_left off i)

/-- A write leaves every block that ends before it, or starts after it, as it was. -/
theorem slice_blit_of_disjoint (b : Fin k → β) {off off' n' : ℕ} (v : Fin n → β)
    (h : off' + n' ≤ k) (hd : off' + n' ≤ off ∨ off + n ≤ off') :
    slice (blit b off v) off' n' h = slice b off' n' h := by
  ext i : 1
  unfold slice blit
  rw [dif_neg]
  unfold Covers
  have := i.isLt
  dsimp only
  omega

/-! ## Lists of blocks -/

/-- A block of cells with its address. -/
structure Block (β : Type*) where
  addr : ℕ
  len : ℕ
  cells : Fin len → β

namespace Block

/-- Write the block at its address. -/
def write (m : ℕ → β) (b : Block β) : ℕ → β :=
  store m b.addr b.cells

/-- The block's cell at `x`, when it has one. -/
def cellAt (b : Block β) (x : ℕ) : Option β :=
  if h : Covers b.addr b.len x then
    some (b.cells ⟨x - b.addr, by unfold Covers at h; omega⟩)
  else none

theorem write_apply (m : ℕ → β) (b : Block β) (x : ℕ) :
    b.write m x = (b.cellAt x).getD (m x) := by
  unfold write cellAt store
  split <;> rfl

end Block

theorem cellAt_load (m : ℕ → β) (a n x : ℕ) :
    Block.cellAt ⟨a, n, load m a n⟩ x = if Covers a n x then some (m x) else none := by
  unfold Block.cellAt
  split_ifs with h
  · exact congrArg (some ∘ m) (Nat.add_sub_cancel' h.1)
  · rfl

theorem cellAt_eq_none_iff {b : Block β} {x : ℕ} :
    b.cellAt x = none ↔ ¬Covers b.addr b.len x := by
  unfold Block.cellAt
  split_ifs with h
  · simp [h]
  · simp [h]

theorem covers_of_cellAt {b : Block β} {x : ℕ} {v : β} (h : b.cellAt x = some v) :
    Covers b.addr b.len x := by
  by_contra hn
  rw [cellAt_eq_none_iff.2 hn] at h
  exact Option.some_ne_none v h.symm

/-- Write the blocks in order. -/
def writeAll (m : ℕ → β) (bs : List (Block β)) : ℕ → β :=
  bs.foldl Block.write m

@[simp] theorem writeAll_nil (m : ℕ → β) : writeAll m [] = m :=
  rfl

@[simp] theorem writeAll_cons (m : ℕ → β) (b : Block β) (bs : List (Block β)) :
    writeAll m (b :: bs) = writeAll (b.write m) bs :=
  rfl

/-- The cell at `x` of the last block that covers it. -/
def lastCell (bs : List (Block β)) (x : ℕ) : Option β :=
  (bs.reverse.findSome? fun b => b.cellAt x)

theorem lastCell_cons (b : Block β) (bs : List (Block β)) (x : ℕ) :
    lastCell (b :: bs) x = (lastCell bs x).or (b.cellAt x) := by
  simp [lastCell, List.findSome?_append]

theorem lastCell_append_singleton (bs : List (Block β)) (b : Block β) (x : ℕ) :
    lastCell (bs ++ [b]) x = (b.cellAt x).or (lastCell bs x) := by
  rw [lastCell, List.reverse_append, List.reverse_singleton, List.singleton_append,
    List.findSome?_cons]
  cases b.cellAt x <;> rfl

/-- The order of blocks that agree at `x` does not matter there. -/
theorem lastCell_congr {bs bs' : List (Block β)} {x : ℕ} (hmem : ∀ b, b ∈ bs ↔ b ∈ bs')
    (hagree : ∀ b ∈ bs, ∀ b' ∈ bs, ∀ v v', b.cellAt x = some v → b'.cellAt x = some v' → v = v') :
    lastCell bs x = lastCell bs' x := by
  have hbs : ∀ b, b ∈ bs.reverse ↔ b ∈ bs'.reverse := fun b => by
    rw [List.mem_reverse, List.mem_reverse, hmem]
  unfold lastCell
  cases h : bs.reverse.findSome? fun b => b.cellAt x with
  | none =>
    symm
    rw [List.findSome?_eq_none_iff] at h ⊢
    exact fun b hb => h b ((hbs b).2 hb)
  | some v =>
    obtain ⟨b, hb, hv⟩ := List.exists_of_findSome?_eq_some h
    cases h' : bs'.reverse.findSome? fun b => b.cellAt x with
    | none =>
      rw [List.findSome?_eq_none_iff] at h'
      exact absurd (hv.symm.trans (h' b ((hbs b).1 hb))) (Option.some_ne_none v)
    | some v' =>
      obtain ⟨b', hb', hv'⟩ := List.exists_of_findSome?_eq_some h'
      exact congrArg some (hagree b (List.mem_reverse.1 hb) b'
        (List.mem_reverse.1 ((hbs b').2 hb')) v v' hv hv')

/-- After `writeAll` every cell is the one of the last block that covers it. -/
theorem writeAll_apply (bs : List (Block β)) (m : ℕ → β) (x : ℕ) :
    writeAll m bs x = (lastCell bs x).getD (m x) := by
  induction bs generalizing m with
  | nil => rfl
  | cons b bs ih =>
    rw [writeAll_cons, ih, lastCell_cons, Block.write_apply]
    cases lastCell bs x <;> rfl

/-- Where the first block has a cell, the cell after `writeAll` is one of the blocks. -/
theorem exists_cellAt_writeAll {b : Block β} {x : ℕ} (h : Covers b.addr b.len x)
    (bs : List (Block β)) (m : ℕ → β) :
    ∃ b' ∈ b :: bs, b'.cellAt x = some (writeAll m (b :: bs) x) := by
  have hlast : lastCell (b :: bs) x ≠ none := by
    rw [lastCell_cons, Ne, Option.or_eq_none_iff, cellAt_eq_none_iff]
    exact fun hnone => hnone.2 h
  obtain ⟨v, hv⟩ := Option.ne_none_iff_exists'.1 hlast
  obtain ⟨b', hb', hcell⟩ := List.exists_of_findSome?_eq_some hv
  refine ⟨b', List.mem_reverse.1 hb', hcell.trans ?_⟩
  rw [writeAll_apply, hv]
  rfl

/-- Writing the same blocks again changes nothing. -/
theorem writeAll_writeAll (bs : List (Block β)) (m : ℕ → β) :
    writeAll (writeAll m bs) bs = writeAll m bs := by
  ext x : 1
  rw [writeAll_apply, writeAll_apply]
  cases lastCell bs x <;> rfl

/-! ## Spans -/

/-- The `s.2` cells from `s.1` on end before those of `r`, or start after them. -/
def Apart (s r : ℕ × ℕ) : Prop :=
  s.1 + s.2 ≤ r.1 ∨ r.1 + r.2 ≤ s.1

instance (s r : ℕ × ℕ) : Decidable (Apart s r) :=
  inferInstanceAs (Decidable (_ ∨ _))

/-- The addresses of the cells of spans. -/
def spanCells (l : List (ℕ × ℕ)) : List ℕ :=
  l.flatMap fun s => List.range' s.1 s.2

theorem mem_spanCells {l : List (ℕ × ℕ)} {x : ℕ} :
    x ∈ spanCells l ↔ ∃ s ∈ l, Covers s.1 s.2 x := by
  simp only [spanCells, List.mem_flatMap, List.mem_range'_1, Covers]

theorem length_spanCells (l : List (ℕ × ℕ)) : (spanCells l).length = (l.map Prod.snd).sum := by
  rw [spanCells, List.length_flatMap, List.map_congr_left fun s _ => List.length_range']

theorem nodup_spanCells {l : List (ℕ × ℕ)} (hl : l.Pairwise Apart) : (spanCells l).Nodup := by
  refine List.nodup_flatMap.2 ⟨fun s _ => List.nodup_range', hl.imp fun {s r} hsr x hs hr => ?_⟩
  rw [List.mem_range'_1] at hs hr
  unfold Apart at hsr
  omega

theorem sum_le_of_spanCells_lt {l : List (ℕ × ℕ)} {n : ℕ} (hl : l.Pairwise Apart)
    (hn : ∀ x ∈ spanCells l, x < n) : (l.map Prod.snd).sum ≤ n := by
  have hsub : spanCells l ⊆ List.range n := fun x hx => List.mem_range.2 (hn x hx)
  have hlen := (nodup_spanCells hl).length_le_of_subset hsub
  rwa [length_spanCells, List.length_range] at hlen

/-- Spans apart in a memory of `n` cells have at most `n` cells together. -/
theorem sum_le_of_pairwise_apart {l : List (ℕ × ℕ)} {n : ℕ} (hl : l.Pairwise Apart)
    (hn : ∀ s ∈ l, s.1 + s.2 ≤ n) : (l.map Prod.snd).sum ≤ n := by
  refine sum_le_of_spanCells_lt hl fun x hx => ?_
  obtain ⟨s, hs, hxs⟩ := mem_spanCells.1 hx
  exact Nat.lt_of_lt_of_le hxs.2 (hn s hs)

/-- Spans apart lie in as many first cells as they have exactly when they leave no gap there. -/
theorem within_sum_iff_no_gap {l : List (ℕ × ℕ)} (hl : l.Pairwise Apart) :
    (∀ x ∈ spanCells l, x < (l.map Prod.snd).sum) ↔
      ∀ x < (l.map Prod.snd).sum, x ∈ spanCells l := by
  have hlen : (List.range (l.map Prod.snd).sum).length = (spanCells l).length := by
    rw [List.length_range, length_spanCells]
  constructor
  · intro h x hx
    have hsub : spanCells l ⊆ List.range (l.map Prod.snd).sum := fun y hy =>
      List.mem_range.2 (h y hy)
    have hperm := ((nodup_spanCells hl).subperm hsub).perm_of_length_le hlen.le
    exact hperm.mem_iff.2 (List.mem_range.2 hx)
  · intro h x hx
    have hsub : List.range (l.map Prod.snd).sum ⊆ spanCells l := fun y hy =>
      h y (List.mem_range.1 hy)
    have hperm := (List.nodup_range.subperm hsub).perm_of_length_le hlen.ge
    exact List.mem_range.1 (hperm.mem_iff.2 hx)

/-- Spans apart of at least `d` cells each. -/
theorem length_mul_le_of_pairwise_apart {l : List (ℕ × ℕ)} {n d : ℕ} (hl : l.Pairwise Apart)
    (hn : ∀ s ∈ l, s.1 + s.2 ≤ n) (hd : ∀ s ∈ l, d ≤ s.2) : l.length * d ≤ n := by
  have hsum := List.card_nsmul_le_sum (l.map Prod.snd) d fun x hx => by
    obtain ⟨s, hs, rfl⟩ := List.mem_map.1 hx
    exact hd s hs
  rw [List.length_map, Nat.nsmul_eq_mul] at hsum
  exact hsum.trans (sum_le_of_pairwise_apart hl hn)

/-! ## Blocks apart -/

/-- The blocks share no cell. -/
def Block.Apart (b b' : Block β) : Prop :=
  Memory.Apart (b.addr, b.len) (b'.addr, b'.len)

instance (b b' : Block β) : Decidable (b.Apart b') :=
  inferInstanceAs (Decidable (Memory.Apart ..))

/-- A cell that no block covers stays as it is. -/
theorem writeAll_of_not_covers {bs : List (Block β)} {x : ℕ}
    (h : ∀ b ∈ bs, ¬Covers b.addr b.len x) (m : ℕ → β) : writeAll m bs x = m x := by
  induction bs generalizing m with
  | nil => rfl
  | cons b bs ih =>
    obtain ⟨hb, hbs⟩ := List.forall_mem_cons.1 h
    rw [writeAll_cons, ih hbs]
    exact store_of_not_covers hb

/-- Blocks apart from each other are all there after `writeAll`. -/
theorem load_writeAll {bs : List (Block β)} (hbs : bs.Pairwise Block.Apart) {b : Block β}
    (hb : b ∈ bs) (m : ℕ → β) : load (writeAll m bs) b.addr b.len = b.cells := by
  induction bs generalizing m with
  | nil => exact absurd hb List.not_mem_nil
  | cons b' bs ih =>
    obtain ⟨hb', hbs⟩ := List.pairwise_cons.1 hbs
    rcases List.mem_cons.1 hb with rfl | hb
    · ext i : 1
      have hout : ∀ b' ∈ bs, ¬Covers b'.addr b'.len (b.addr + i) := by
        intro b' hmem hcovers
        have hapart : b.addr + b.len ≤ b'.addr ∨ b'.addr + b'.len ≤ b.addr := hb' b' hmem
        have hi := i.isLt
        unfold Covers at hcovers
        omega
      rw [load_apply, writeAll_cons, writeAll_of_not_covers hout]
      exact store_add m b.addr b.cells i
    · exact ih hbs hb (b'.write m)

end Memory
