import Mathlib.Data.List.Basic
import Mathlib.Data.Option.Basic

/-!
# First-write-wins maps

A map as the function from keys to values, where `put` keeps a value that is there.
`firstOf` is the map of a list of pairs, the first pair of a key winning. Putting the
pairs of a list in order joins them behind what was there (`putAll_apply`), so a
map filled from a list is the map of the part of the list read so far
(`putAll_firstOf`), and putting pairs again changes nothing (`putAll_firstOf_of_subset`).
What has a value keeps it (`extends_put`).
-/

namespace FirstWins

variable {κ ν : Type*}

/-- `g` has the values of `f`. -/
def Extends (f g : κ → Option ν) : Prop :=
  ∀ x v, f x = some v → g x = some v

theorem Extends.refl (f : κ → Option ν) : Extends f f :=
  fun _ _ h => h

theorem Extends.trans {f g h : κ → Option ν} (hfg : Extends f g) (hgh : Extends g h) :
    Extends f h :=
  fun x v hx => hgh x v (hfg x v hx)

variable [DecidableEq κ]

/-- `f` with `v` at `k`, unless `k` has a value. -/
def put (f : κ → Option ν) (k : κ) (v : ν) : κ → Option ν :=
  fun x => (f x).or (if x = k then some v else none)

/-- Put the pairs in order. -/
def putAll (f : κ → Option ν) (l : List (κ × ν)) : κ → Option ν :=
  l.foldl (fun f p => put f p.1 p.2) f

/-- The value of the first pair with the key. -/
def firstOf (l : List (κ × ν)) (x : κ) : Option ν :=
  (l.find? fun p => p.1 = x).map Prod.snd

@[simp] theorem firstOf_nil (x : κ) : firstOf ([] : List (κ × ν)) x = none :=
  rfl

theorem firstOf_cons (p : κ × ν) (l : List (κ × ν)) (x : κ) :
    firstOf (p :: l) x = if x = p.1 then some p.2 else firstOf l x := by
  unfold firstOf
  by_cases h : p.1 = x
  · rw [List.find?_cons_of_pos (by simpa using h), if_pos h.symm]
    rfl
  · rw [List.find?_cons_of_neg (by simpa using h), if_neg (Ne.symm h)]

theorem firstOf_append (l r : List (κ × ν)) (x : κ) :
    firstOf (l ++ r) x = (firstOf l x).or (firstOf r x) := by
  unfold firstOf
  rw [List.find?_append]
  cases List.find? (fun p => decide (p.1 = x)) l <;> rfl

theorem put_of_some {f : κ → Option ν} {k : κ} {w : ν} (h : f k = some w) (v : ν) :
    put f k v = f := by
  ext x : 1
  unfold put
  split_ifs with hx
  · rw [hx, h]
    rfl
  · exact Option.or_none

theorem put_self (f : κ → Option ν) (k : κ) (v : ν) : put f k v k = some ((f k).getD v) := by
  unfold put
  rw [if_pos rfl]
  cases f k <;> rfl

/-- What has a value keeps it. -/
theorem extends_put (f : κ → Option ν) (k : κ) (v : ν) : Extends f (put f k v) := by
  intro x w hx
  rw [put, hx]
  rfl

/-- Pairs put in order join behind what was there. -/
theorem putAll_apply (l : List (κ × ν)) (f : κ → Option ν) (x : κ) :
    putAll f l x = (f x).or (firstOf l x) := by
  induction l generalizing f with
  | nil => exact Option.or_none.symm
  | cons p l ih =>
    show putAll (put f p.1 p.2) l x = _
    rw [ih, firstOf_cons, put, Option.or_assoc]
    split_ifs <;> rfl

/-- Filling the map of `l` with `r` gives the map of `l ++ r`. -/
theorem putAll_firstOf (l r : List (κ × ν)) : putAll (firstOf l) r = firstOf (l ++ r) :=
  funext fun x => (putAll_apply r (firstOf l) x).trans (firstOf_append l r x).symm

theorem firstOf_eq_none_iff {l : List (κ × ν)} {x : κ} :
    firstOf l x = none ↔ ∀ p ∈ l, p.1 ≠ x := by
  simp [firstOf]

/-- Pairs whose keys have values change nothing. -/
theorem putAll_of_forall {f : κ → Option ν} {l : List (κ × ν)}
    (h : ∀ p ∈ l, f p.1 ≠ none) : putAll f l = f := by
  induction l with
  | nil => rfl
  | cons p l ih =>
    obtain ⟨w, hw⟩ := Option.ne_none_iff_exists'.1 (h p List.mem_cons_self)
    show putAll (put f p.1 p.2) l = f
    rw [put_of_some hw]
    exact ih fun q hq => h q (List.mem_cons_of_mem _ hq)

/-- Putting pairs of `l` into the map of `l` changes nothing. -/
theorem putAll_firstOf_of_subset {l r : List (κ × ν)} (h : r ⊆ l) :
    putAll (firstOf l) r = firstOf l :=
  putAll_of_forall fun p hp hn => firstOf_eq_none_iff.1 hn p (h hp) rfl

end FirstWins
