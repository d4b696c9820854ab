import TickrateEnabler.Sigs

/-!
# Interface search

`SearchForInterfaceName` counts up the three digits at the end of an interface name, in
the buffer of the name, and asks a factory for each. The search gives `none` when the
loop leaves the buffer.

From a name with a character before its three digits the inner loop counts up by one,
modulo 1000 (`increment_decimal`), so the search asks for the next versions in order and
stops at the first that is there, or after a hundred (`searchForInterfaceName_counts`).
-/

namespace TickrateEnabler

/-- Subtraction of `size_t`. -/
def sizeSub (a b : ℕ) : ℕ :=
  (a + 2 ^ 32 - b) % 2 ^ 32

/-- The inner loop, from the index `i` down to `lo`. -/
def increment (name : Name) (lo : ℕ) (i : ℕ) : Option Name :=
  if i < lo then some name
  else
    match name[i]? with
    | none => none
    | some c =>
      if c = 0x39 then
        match i with
        | 0 => none
        | i + 1 => increment (name.set (i + 1) 0x30) lo i
      else some (name.set i (c + 1))

/-- What a search gives: the interface, `NULL` being `0`, the name in the buffer, and the
names it asked the factory for. -/
structure Search where
  pIface : ℕ
  name : Name
  asked : List Name
  deriving DecidableEq

/-- The outer loop, for `n` more versions, with the inner one from `hi` down to `lo`. -/
def searchLoop (factory : Name → ℕ) (lo hi : ℕ) : ℕ → Name → Option Search
  | 0, name => some ⟨0, name, []⟩
  | n + 1, name =>
    match increment name lo hi with
    | none => none
    | some name =>
      if factory name ≠ 0 then some ⟨factory name, name, [name]⟩
      else (searchLoop factory lo hi n name).map fun r => { r with asked := name :: r.asked }

/-- `SearchForInterfaceName`. -/
def searchForInterfaceName (factory : Name → ℕ) (name : Name) : Option Search :=
  searchLoop factory (sizeSub name.length 3) (sizeSub name.length 1) 100 name

theorem sizeSub_of_le {a b : ℕ} (hle : b ≤ a) (ha : a < 2 ^ 32) : sizeSub a b = a - b := by
  unfold sizeSub
  omega

/-- A decimal digit. -/
def Digit (c : BitVec 8) : Prop :=
  0x30 ≤ c ∧ c ≤ 0x39

instance (c : BitVec 8) : Decidable (Digit c) :=
  inferInstanceAs (Decidable (_ ∧ _))

/-- A prefix and three digits. -/
def Versioned (pre name : Name) : Prop :=
  ∃ a b c, name = pre ++ [a, b, c] ∧ Digit a ∧ Digit b ∧ Digit c

theorem increment_of_ne {name : Name} {lo i : ℕ} {c : BitVec 8} (hi : lo ≤ i)
    (hc : name[i]? = some c) (h9 : c ≠ 0x39) : increment name lo i = some (name.set i (c + 1)) := by
  rw [increment.eq_def, if_neg (Nat.not_lt.2 hi), hc]
  exact if_neg h9

theorem increment_of_nine {name : Name} {lo i : ℕ} (hi : lo ≤ i + 1)
    (hc : name[i + 1]? = some 0x39) :
    increment name lo (i + 1) = increment (name.set (i + 1) 0x30) lo i := by
  rw [increment.eq_def, if_neg (Nat.not_lt.2 hi), hc]
  rfl

/-! ## Versions -/

/-- The digit `d`, in ASCII. -/
def asciiDigit (d : ℕ) : BitVec 8 :=
  BitVec.ofNat 8 (0x30 + d)

/-- The last three decimal digits of `n`. -/
def decimal (n : ℕ) : Name :=
  [asciiDigit (n / 100 % 10), asciiDigit (n / 10 % 10), asciiDigit (n % 10)]

theorem decimal_mod (n : ℕ) : decimal (n % 1000) = decimal n := by
  have h100 : n % 1000 / 100 % 10 = n / 100 % 10 := by omega
  have h10 : n % 1000 / 10 % 10 = n / 10 % 10 := by omega
  have h1 : n % 1000 % 10 = n % 10 := by omega
  rw [decimal, h100, h10, h1, decimal]

theorem digit_asciiDigit : ∀ d < 10, Digit (asciiDigit d) := by
  decide

theorem asciiDigit_succ (d : ℕ) : asciiDigit d + 1 = asciiDigit (d + 1) :=
  (BitVec.ofNat_add (0x30 + d) 1).symm

theorem asciiDigit_eq_nine_iff : ∀ d < 10, asciiDigit d = 0x39 ↔ d = 9 := by
  decide

theorem Digit.exists_eq : ∀ {c : BitVec 8}, Digit c → ∃ d < 10, c = asciiDigit d := by
  decide

/-- Three digits are the decimal digits of a number. -/
theorem versioned_iff {pre name : Name} :
    Versioned pre name ↔ ∃ n < 1000, name = pre ++ decimal n := by
  constructor
  · rintro ⟨a, b, c, rfl, ha, hb, hc⟩
    obtain ⟨x, hx, rfl⟩ := ha.exists_eq
    obtain ⟨y, hy, rfl⟩ := hb.exists_eq
    obtain ⟨z, hz, rfl⟩ := hc.exists_eq
    have h100 : (100 * x + 10 * y + z) / 100 % 10 = x := by omega
    have h10 : (100 * x + 10 * y + z) / 10 % 10 = y := by omega
    have h1 : (100 * x + 10 * y + z) % 10 = z := by omega
    exact ⟨100 * x + 10 * y + z, by omega, by rw [decimal, h100, h10, h1]⟩
  · rintro ⟨n, -, rfl⟩
    have hdigit (m : ℕ) : Digit (asciiDigit (m % 10)) :=
      digit_asciiDigit _ (Nat.mod_lt _ (by decide))
    exact ⟨_, _, _, rfl, hdigit _, hdigit _, hdigit _⟩

/-- The inner loop counts up in the three digits, from `999` to `000`. -/
theorem increment_decimal {pre : Name} (hpre : pre ≠ []) (n : ℕ) :
    increment (pre ++ decimal n) pre.length (pre.length + 2) = some (pre ++ decimal (n + 1)) := by
  have hget (l : Name) (i : ℕ) : (pre ++ l)[pre.length + i]? = l[i]? := by
    rw [List.getElem?_append_right (Nat.le_add_right _ _), Nat.add_sub_cancel_left]
  have hset (l : Name) (i : ℕ) (d : BitVec 8) :
      (pre ++ l).set (pre.length + i) d = pre ++ l.set i d := by
    rw [List.set_append_right _ _ (Nat.le_add_right _ _), Nat.add_sub_cancel_left]
  have hdigit (m : ℕ) : asciiDigit (m % 10) = 0x39 ↔ m % 10 = 9 :=
    asciiDigit_eq_nine_iff _ (Nat.mod_lt _ (by decide))
  unfold decimal
  by_cases h1 : n % 10 = 9
  · have hn1 : (n + 1) % 10 = 0 := by omega
    rw [increment_of_nine (Nat.le_add_right _ 2)
      ((hget _ 2).trans (congrArg some ((hdigit n).2 h1))), hset _ 2]
    by_cases h10 : n / 10 % 10 = 9
    · have hn10 : (n + 1) / 10 % 10 = 0 := by omega
      rw [increment_of_nine (Nat.le_add_right _ 1)
        ((hget _ 1).trans (congrArg some ((hdigit (n / 10)).2 h10))), hset _ 1]
      by_cases h100 : n / 100 % 10 = 9
      · have hn100 : (n + 1) / 100 % 10 = 0 := by omega
        obtain ⟨m, hm⟩ := Nat.exists_eq_succ_of_ne_zero (mt List.length_eq_zero_iff.1 hpre)
        have h0 := hget [asciiDigit (n / 100 % 10), 0x30, 0x30] 0
        have hs := hset [asciiDigit (n / 100 % 10), 0x30, 0x30] 0 0x30
        rw [Nat.add_zero, hm] at h0 hs
        show increment (pre ++ [asciiDigit (n / 100 % 10), 0x30, 0x30]) pre.length pre.length = _
        rw [hm, increment_of_nine (Nat.le_refl _)
          (h0.trans (congrArg some ((hdigit (n / 100)).2 h100))), hs, increment.eq_def,
          if_pos (Nat.lt_succ_self m), hn1, hn10, hn100]
        rfl
      · have hn100 : (n + 1) / 100 % 10 = n / 100 % 10 + 1 := by omega
        rw [increment_of_ne (Nat.le_refl _) (hget _ 0) (mt (hdigit (n / 100)).1 h100),
          asciiDigit_succ, hn1, hn10, hn100]
        exact congrArg some (hset _ 0 _)
    · have hn10 : (n + 1) / 10 % 10 = n / 10 % 10 + 1 := by omega
      have hn100 : (n + 1) / 100 % 10 = n / 100 % 10 := by omega
      rw [increment_of_ne (Nat.le_add_right _ 1) (hget _ 1) (mt (hdigit (n / 10)).1 h10), hset _ 1,
        asciiDigit_succ, hn1, hn10, hn100]
      rfl
  · have hn1 : (n + 1) % 10 = n % 10 + 1 := by omega
    have hn10 : (n + 1) / 10 % 10 = n / 10 % 10 := by omega
    have hn100 : (n + 1) / 100 % 10 = n / 100 % 10 := by omega
    rw [increment_of_ne (Nat.le_add_right _ 2) (hget _ 2) (mt (hdigit n).1 h1), hset _ 2,
      asciiDigit_succ, hn1, hn10, hn100]
    rfl

/-- The search stopped at the version `k` of at most `limit`. -/
structure Search.StopsAt (r : Search) (factory : Name → ℕ) (version : ℕ → Name)
    (limit k : ℕ) : Prop where
  pos : 0 < k
  le : k ≤ limit
  pIface : r.pIface = factory (version k)
  name : r.name = version k
  asked : r.asked = (List.range k).map fun j => version (j + 1)
  absent : ∀ j, 0 < j → j < k → factory (version j) = 0
  last : r.pIface = 0 → k = limit

/-- The outer loop asks for the versions in order, and stops at the first that is there. -/
theorem searchLoop_decimal (factory : Name → ℕ) {pre : Name} (hpre : pre ≠ []) (limit n : ℕ) :
    ∃ r k, searchLoop factory pre.length (pre.length + 2) (limit + 1) (pre ++ decimal n) = some r ∧
      r.StopsAt factory (fun k => pre ++ decimal (n + k)) (limit + 1) k := by
  induction limit generalizing n with
  | zero =>
    rw [searchLoop, increment_decimal hpre]
    dsimp only
    split_ifs with hf
    · exact ⟨_, 1, rfl, Nat.one_pos, le_rfl, rfl, rfl, rfl, fun j hj hlt => by omega, fun _ => rfl⟩
    · refine ⟨_, 1, rfl, Nat.one_pos, le_rfl, ?_, rfl, rfl, fun j hj hlt => by omega, fun _ => rfl⟩
      exact (not_not.1 hf).symm
  | succ limit ih =>
    rw [searchLoop, increment_decimal hpre]
    dsimp only
    split_ifs with hf
    · exact ⟨_, 1, rfl, Nat.one_pos, Nat.le_add_left _ _, rfl, rfl, rfl,
        fun j hj hlt => by omega, fun h0 => (hf h0).elim⟩
    · obtain ⟨r, k, hr, h⟩ := ih (n + 1)
      have hshift (j : ℕ) : n + 1 + j = n + (j + 1) := by omega
      simp only [hshift] at h
      rw [hr]
      refine ⟨_, k + 1, rfl, Nat.succ_pos k, Nat.succ_le_succ h.le, h.pIface, h.name, ?_, ?_,
        fun h0 => congrArg Nat.succ (h.last h0)⟩
      · show _ :: r.asked = _
        rw [h.asked, List.range_succ_eq_map, List.map_cons, List.map_map]
        rfl
      · intro j hj hlt
        rcases j with - | j
        · exact absurd hj (Nat.lt_irrefl 0)
        rcases Nat.eq_zero_or_pos j with rfl | hpos
        · exact not_not.1 hf
        · exact h.absent j hpos (Nat.lt_of_succ_lt_succ hlt)

/-- The bounds of the inner loop are the three digits. -/
theorem searchForInterfaceName_decimal (factory : Name → ℕ) {pre : Name} (n : ℕ)
    (hlen : pre.length + 3 < 2 ^ 32) :
    searchForInterfaceName factory (pre ++ decimal n) =
      searchLoop factory pre.length (pre.length + 2) 100 (pre ++ decimal n) := by
  have hname : (pre ++ decimal n).length = pre.length + 3 := List.length_append
  have hlo : sizeSub (pre ++ decimal n).length 3 = pre.length := by
    rw [hname, sizeSub_of_le (Nat.le_add_left _ _) hlen, Nat.add_sub_cancel]
  have hhi : sizeSub (pre ++ decimal n).length 1 = pre.length + 2 := by
    rw [hname, sizeSub_of_le (by omega) hlen]
    rfl
  rw [searchForInterfaceName, hlo, hhi]

/-! ## What the loops touch -/

/-- The indices the inner loop reads, and writes where it writes, from `i` down to `lo`. -/
def incrementIndices (name : Name) (lo : ℕ) (i : ℕ) : List ℕ :=
  if i < lo then []
  else
    match name[i]? with
    | none => [i]
    | some c =>
      if c = 0x39 then
        match i with
        | 0 => [0]
        | i + 1 => (i + 1) :: incrementIndices (name.set (i + 1) 0x30) lo i
      else [i]

/-- The indices the outer loop touches. -/
def searchIndices (factory : Name → ℕ) (lo hi : ℕ) : ℕ → Name → List ℕ
  | 0, _ => []
  | n + 1, name =>
    incrementIndices name lo hi ++
      match increment name lo hi with
      | none => []
      | some name => if factory name ≠ 0 then [] else searchIndices factory lo hi n name

theorem incrementIndices_bounds {name : Name} {lo i j : ℕ}
    (hj : j ∈ incrementIndices name lo i) : lo ≤ j ∧ j ≤ i := by
  induction i generalizing name with
  | zero =>
    rw [incrementIndices] at hj
    split_ifs at hj with hlo
    · exact absurd hj List.not_mem_nil
    · have h0 : j = 0 := by
        split at hj
        · exact List.mem_singleton.1 hj
        · split_ifs at hj <;> exact List.mem_singleton.1 hj
      omega
  | succ i ih =>
    rw [incrementIndices] at hj
    split_ifs at hj with hlo
    · exact absurd hj List.not_mem_nil
    · have hcases : j = i + 1 ∨ lo ≤ j ∧ j ≤ i := by
        split at hj
        · exact Or.inl (List.mem_singleton.1 hj)
        · split_ifs at hj
          · exact (List.mem_cons.1 hj).imp_right ih
          · exact Or.inl (List.mem_singleton.1 hj)
      omega

theorem searchIndices_bounds {factory : Name → ℕ} {lo hi n j : ℕ} {name : Name}
    (hj : j ∈ searchIndices factory lo hi n name) : lo ≤ j ∧ j ≤ hi := by
  induction n generalizing name with
  | zero => exact absurd hj List.not_mem_nil
  | succ n ih =>
    rw [searchIndices] at hj
    rcases List.mem_append.1 hj with hj | hj
    · exact incrementIndices_bounds hj
    · split at hj
      · exact absurd hj List.not_mem_nil
      · split_ifs at hj
        · exact absurd hj List.not_mem_nil
        · exact ih hj

/-- From a prefix and three digits the search asks for the next versions in order, counting
modulo 1000, and stops at the first that is there, or after a hundred. -/
theorem searchForInterfaceName_of_versioned (factory : Name → ℕ) {pre name : Name}
    (hpre : pre ≠ []) (hlen : name.length < 2 ^ 32) (h : Versioned pre name) :
    ∃ n < 1000, name = pre ++ decimal n ∧
      ∃ r k, searchForInterfaceName factory name = some r ∧
        r.StopsAt factory (fun k => pre ++ decimal ((n + k) % 1000)) 100 k := by
  obtain ⟨n, hn, rfl⟩ := versioned_iff.1 h
  refine ⟨n, hn, rfl, ?_⟩
  rw [List.length_append] at hlen
  simp only [decimal_mod, searchForInterfaceName_decimal factory n hlen]
  exact searchLoop_decimal factory hpre 99 n

/-- The search asks for the versions after the one in the name, counting modulo 1000, in order,
and stops at the first that is there or after a hundred, with that version in the buffer.
It gives `NULL` exactly when none of the hundred is there, and touches the three digits
only. -/
theorem searchForInterfaceName_counts (factory : Name → ℕ) {pre name : Name}
    (hpre : pre ≠ []) (hlen : name.length < 2 ^ 32) (h : Versioned pre name) :
    ∃ n < 1000, name = pre ++ decimal n ∧
      ∃ r k, searchForInterfaceName factory name = some r ∧
        r.StopsAt factory (fun k => pre ++ decimal ((n + k) % 1000)) 100 k ∧
        (r.pIface = 0 ↔
          ∀ j, 0 < j → j ≤ 100 → factory (pre ++ decimal ((n + j) % 1000)) = 0) ∧
        ∀ j ∈ searchIndices factory (sizeSub name.length 3) (sizeSub name.length 1) 100 name,
          pre.length ≤ j ∧ j < pre.length + 3 := by
  obtain ⟨n, hn, rfl, r, k, hr, hstop⟩ :=
    searchForInterfaceName_of_versioned factory hpre hlen h
  refine ⟨n, hn, rfl, r, k, hr, hstop, ⟨fun h0 j hj hle => ?_, fun hall => ?_⟩, fun j hj => ?_⟩
  · obtain rfl := hstop.last h0
    rcases Nat.lt_or_eq_of_le hle with hlt | rfl
    · exact hstop.absent j hj hlt
    · exact hstop.pIface.symm.trans h0
  · exact hstop.pIface.trans (hall k hstop.pos hstop.le)
  · have hname : (pre ++ decimal n).length = pre.length + 3 := List.length_append
    have hbounds := searchIndices_bounds hj
    rw [sizeSub_of_le (by omega) hlen, sizeSub_of_le (by omega) hlen] at hbounds
    omega

/-- A factory with version 5 of the game's interface. -/
def gameFactory (v : Name) : ℕ :=
  if v = ascii "ServerGameDLL005" then 0x5000 else 0

theorem searchForInterfaceName_counts_serverGameDLL :
    ∃ r k, searchForInterfaceName gameFactory (ascii "ServerGameDLL000") = some r ∧
      0 < k ∧ k ≤ 100 ∧ r.pIface = gameFactory r.name := by
  have h : Versioned (ascii "ServerGameDLL") (ascii "ServerGameDLL000") :=
    ⟨0x30, 0x30, 0x30, by decide, by decide, by decide, by decide⟩
  obtain ⟨n, -, -, r, k, hr, hstop, -⟩ :=
    searchForInterfaceName_counts gameFactory (by decide) (by decide) h
  exact ⟨r, k, hr, hstop.pos, hstop.le, hstop.pIface.trans (congrArg gameFactory hstop.name.symm)⟩

end TickrateEnabler
