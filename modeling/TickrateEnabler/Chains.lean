import Mathlib.Data.List.Nodup
import Mathlib.Logic.Function.Basic

/-!
# Linked chains

A memory of links gives each link the address it holds, or nothing where the link does
not exist. `next a` is the link inside the object at `a`. `Chain m k l` : following the
links from `k` meets the objects `l` and then `null`. `linkAt k l j` is the link that
holds the `j`-th of them, so a search that returns a pointer to a link returns one of
these.

A chain reads only its own links (`Chain.congr`), and is extended at its end by writing
its last link (`Chain.append`), at its front by writing the new object's link and then
the first (`Chain.push`).
-/

namespace Chains

variable {L A : Type*} {null : A} {next : A → L}

section

variable (null : A) (next : A → L)

/-- The links from `k` on lead through the objects `l` to `null`. -/
def Chain (m : L → Option A) : L → List A → Prop
  | k, [] => m k = some null
  | k, a :: l => m k = some a ∧ a ≠ null ∧ Chain m (next a) l

/-- The chain of an address, which is that of its first object. -/
def ChainFrom (m : L → Option A) (p : A) : List A → Prop
  | [] => p = null
  | a :: l => p = a ∧ a ≠ null ∧ Chain null next m (next a) l

end

/-- The links of a chain, the last of them the one that holds `null`. -/
def links (next : A → L) (k : L) (l : List A) : List L :=
  k :: l.map next

/-- The link that holds the `j`-th object, and the last link past them. -/
def linkAt (next : A → L) : L → List A → ℕ → L
  | k, [], _ => k
  | k, _ :: _, 0 => k
  | _, a :: l, j + 1 => linkAt next (next a) l j

theorem mem_links {k k' : L} {l : List A} :
    k' ∈ links next k l ↔ k' = k ∨ ∃ a ∈ l, next a = k' := by
  rw [links, List.mem_cons, List.mem_map]

theorem linkAt_mem_links (k : L) (l : List A) (j : ℕ) : linkAt next k l j ∈ links next k l := by
  induction l generalizing k j with
  | nil => exact List.mem_cons_self
  | cons a l ih =>
    cases j with
    | zero => exact List.mem_cons_self
    | succ j => exact List.mem_cons_of_mem _ (ih (next a) j)

variable {m m' : L → Option A}

theorem chain_iff {k : L} {l : List A} :
    Chain null next m k l ↔ ∃ p, m k = some p ∧ ChainFrom null next m p l := by
  cases l with
  | nil =>
    constructor
    · exact fun h => ⟨null, h, rfl⟩
    · rintro ⟨_, hp, rfl⟩
      exact hp
  | cons a l =>
    constructor
    · exact fun h => ⟨a, h.1, rfl, h.2⟩
    · rintro ⟨_, hp, rfl, hl⟩
      exact ⟨hp, hl⟩

theorem Chain.ne_null {k : L} {l : List A} (h : Chain null next m k l) : null ∉ l := by
  induction l generalizing k with
  | nil => exact List.not_mem_nil
  | cons a l ih =>
    rw [List.mem_cons, not_or]
    exact ⟨h.2.1.symm, ih h.2.2⟩

/-- A chain depends on its own links only. -/
theorem Chain.congr {k : L} {l : List A} (h : Chain null next m k l)
    (hm : ∀ k' ∈ links next k l, m' k' = m k') : Chain null next m' k l := by
  induction l generalizing k with
  | nil => exact (hm k List.mem_cons_self).trans h
  | cons a l ih =>
    refine ⟨(hm k List.mem_cons_self).trans h.1, h.2.1, ih h.2.2 fun k' hk' => ?_⟩
    exact hm k' (List.mem_cons_of_mem _ hk')

/-- A chain stays where the links that exist keep what they hold. -/
theorem Chain.mono {k : L} {l : List A} (h : Chain null next m k l)
    (hm : ∀ k' v, m k' = some v → m' k' = some v) : Chain null next m' k l := by
  induction l generalizing k with
  | nil => exact hm k null h
  | cons a l ih => exact ⟨hm k a h.1, h.2.1, ih h.2.2⟩

theorem ChainFrom.congr {p : A} {l : List A} (h : ChainFrom null next m p l)
    (hm : ∀ a ∈ l, m' (next a) = m (next a)) : ChainFrom null next m' p l := by
  cases l with
  | nil => exact h
  | cons a l =>
    refine ⟨h.1, h.2.1, h.2.2.congr fun k' hk' => ?_⟩
    rcases mem_links.1 hk' with rfl | ⟨b, hb, rfl⟩
    · exact hm a List.mem_cons_self
    · exact hm b (List.mem_cons_of_mem _ hb)

/-- What the links of a chain hold. -/
theorem Chain.apply_linkAt {k : L} {l : List A} (h : Chain null next m k l) (j : ℕ) :
    m (linkAt next k l j) = some (l[j]?.getD null) := by
  induction l generalizing k j with
  | nil => exact h
  | cons a l ih =>
    cases j with
    | zero => exact h.1
    | succ j => exact ih h.2.2 j

section Writes

variable [DecidableEq L]

/-- Writing a link of no object of the chain, nor its first, leaves the chain. -/
theorem Chain.update_of_notMem {k k' : L} {l : List A} (h : Chain null next m k l)
    (hk : k' ∉ links next k l) (v : Option A) :
    Chain null next (Function.update m k' v) k l :=
  h.congr fun _ hk'' => Function.update_of_ne (ne_of_mem_of_not_mem hk'' hk) _ _

theorem ChainFrom.update_of_notMem {p : A} {k' : L} {l : List A}
    (h : ChainFrom null next m p l) (hk : ∀ a ∈ l, next a ≠ k') (v : Option A) :
    ChainFrom null next (Function.update m k' v) p l :=
  h.congr fun a ha => Function.update_of_ne (hk a ha) _ _

/-- An object whose link holds `null`, written to the last link, ends the chain. -/
theorem Chain.append {k : L} {l : List A} {b : A} (h : Chain null next m k l)
    (hl : (links next k l).Nodup) (hb : b ≠ null) (hend : m (next b) = some null)
    (hnew : next b ∉ links next k l) :
    Chain null next (Function.update m (linkAt next k l l.length) (some b)) k (l ++ [b]) := by
  induction l generalizing k with
  | nil =>
    have hne : next b ≠ k := fun hk => hnew (hk ▸ List.mem_cons_self)
    exact ⟨Function.update_self .., hb, (Function.update_of_ne hne ..).trans hend⟩
  | cons a l ih =>
    obtain ⟨hk, hl⟩ := List.nodup_cons.1 hl
    have hlast : k ≠ linkAt next (next a) l l.length :=
      fun heq => hk (heq ▸ linkAt_mem_links ..)
    refine ⟨(Function.update_of_ne hlast ..).trans h.1, h.2.1, ih h.2.2 hl fun hmem => ?_⟩
    exact hnew (List.mem_cons_of_mem _ hmem)

/-- An object whose link takes what the first link holds, written to the first link,
heads the chain. -/
theorem Chain.push {k : L} {l : List A} {a : A} (h : Chain null next m k l)
    (hk : ∀ b ∈ l, next b ≠ k) (ha : a ≠ null) (hnew : next a ∉ links next k l) :
    Chain null next (Function.update (Function.update m (next a) (m k)) k (some a)) k
      (a :: l) := by
  have hne : next a ≠ k := fun hk => hnew (hk ▸ List.mem_cons_self)
  obtain ⟨p, hp, hfrom⟩ := chain_iff.1 h
  refine ⟨Function.update_self .., ha, chain_iff.2 ⟨p, ?_, ?_⟩⟩
  · rw [Function.update_of_ne hne, Function.update_self, hp]
  · refine (hfrom.update_of_notMem (fun b hb heq => hnew ?_) _).update_of_notMem hk _
    exact mem_links.2 (Or.inr ⟨b, hb, heq⟩)

end Writes

end Chains
