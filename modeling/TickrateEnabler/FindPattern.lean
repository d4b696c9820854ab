import TickrateEnabler.BinPatch

/-!
# Pattern search

`MemoryUtils::FindPattern` slides a pattern with wildcards over `[start, end)`. The
bound is on the candidate only : the inner loop goes on for the length of the pattern.

`findPattern` also gives the addresses it reads. It finds the least match
(`findPattern_eq_some_iff`), and it stays inside `[start, end)` exactly when a match
lies inside, or each candidate less than the pattern's length before `end` has a
mismatch before `end` (`inBounds_iff`).
-/

namespace TickrateEnabler

/-- The byte of a pattern that matches any byte, `'\x2A'`. -/
def wildcard : Byte :=
  0x2A

/-- The inner loop, from the address `ptr + i` and `pattern[i]` on : what `found` is after
it, and the addresses it reads. -/
def matchLoop (mem : ℕ → Byte) : ℕ → List Byte → Bool × List ℕ
  | _, [] => (true, [])
  | addr, b :: pattern =>
    if b = wildcard then matchLoop mem (addr + 1) pattern
    else if b ≠ mem addr then (false, [addr])
    else ((matchLoop mem (addr + 1) pattern).1, addr :: (matchLoop mem (addr + 1) pattern).2)

/-- The outer loop, with `n` candidates from `ptr` on left. -/
def scanLoop (mem : ℕ → Byte) (pattern : List Byte) : ℕ → ℕ → Option ℕ × List ℕ
  | 0, _ => (none, [])
  | n + 1, ptr =>
    let m := matchLoop mem ptr pattern
    if m.1 then (some ptr, m.2)
    else ((scanLoop mem pattern n (ptr + 1)).1, m.2 ++ (scanLoop mem pattern n (ptr + 1)).2)

/-- `FindPattern`, with the addresses it reads. -/
def findPattern (mem : ℕ → Byte) (start stop : ℕ) (pattern : List Byte) : Option ℕ × List ℕ :=
  scanLoop mem pattern (stop - start) start

/-! ## Matches -/

/-- The pattern matches at `p`. -/
def Matches (mem : ℕ → Byte) (p : ℕ) (pattern : List Byte) : Prop :=
  ∀ i b, pattern[i]? = some b → b = wildcard ∨ b = mem (p + i)

/-- A byte of the pattern at `p` differs from the memory, before `stop`. -/
def DiffersBefore (mem : ℕ → Byte) (stop p : ℕ) (pattern : List Byte) : Prop :=
  ∃ i b, pattern[i]? = some b ∧ p + i < stop ∧ b ≠ wildcard ∧ b ≠ mem (p + i)

variable {mem : ℕ → Byte} {stop p : ℕ} {b : Byte} {pattern : List Byte}

theorem matches_nil : Matches mem p [] := by
  intro i b hb
  simp at hb

theorem matches_cons :
    Matches mem p (b :: pattern) ↔ (b = wildcard ∨ b = mem p) ∧ Matches mem (p + 1) pattern := by
  constructor
  · intro h
    refine ⟨h 0 b rfl, fun i c hc => ?_⟩
    have hi := h (i + 1) c hc
    rwa [Nat.add_comm i 1, ← Nat.add_assoc] at hi
  · rintro ⟨hb, h⟩ (_ | i) c hc
    · obtain rfl := Option.some.inj hc
      exact hb
    · have hi := h i c hc
      rwa [Nat.add_assoc, Nat.add_comm 1 i] at hi

theorem differsBefore_cons :
    DiffersBefore mem stop p (b :: pattern) ↔
      (p < stop ∧ b ≠ wildcard ∧ b ≠ mem p) ∨ DiffersBefore mem stop (p + 1) pattern := by
  constructor
  · rintro ⟨_ | i, c, hc, h⟩
    · obtain rfl := Option.some.inj hc
      exact Or.inl h
    · rw [Nat.add_comm i 1, ← Nat.add_assoc] at h
      exact Or.inr ⟨i, c, hc, h⟩
  · rintro (h | ⟨i, c, hc, h⟩)
    · exact ⟨0, b, rfl, h⟩
    · rw [Nat.add_assoc, Nat.add_comm 1 i] at h
      exact ⟨i + 1, c, hc, h⟩

theorem DiffersBefore.lt (h : DiffersBefore mem stop p pattern) : p < stop := by
  obtain ⟨i, b, -, hlt, -⟩ := h
  omega

/-- A pattern that does not match differs somewhere in its length. -/
theorem differsBefore_of_not_matches (h : ¬Matches mem p pattern)
    (hle : p + pattern.length ≤ stop) : DiffersBefore mem stop p pattern := by
  simp only [Matches, not_forall, not_or] at h
  obtain ⟨i, b, hb, hw, hm⟩ := h
  have hi : i < pattern.length := (List.getElem?_eq_some_iff.1 hb).1
  exact ⟨i, b, hb, by omega, hw, hm⟩

theorem Matches.not_differsBefore (h : Matches mem p pattern) :
    ¬DiffersBefore mem stop p pattern := by
  rintro ⟨i, b, hb, -, hw, hm⟩
  rcases h i b hb with h | h
  · exact hw h
  · exact hm h

/-! ## The loops -/

theorem matchLoop_fst : (matchLoop mem p pattern).1 = true ↔ Matches mem p pattern := by
  fun_induction matchLoop mem p pattern with
  | case1 => exact ⟨fun _ => matches_nil, fun _ => rfl⟩
  | case2 p pattern ih =>
    rw [ih, matches_cons]
    exact ⟨fun h => ⟨Or.inl rfl, h⟩, fun h => h.2⟩
  | case3 p b pattern hw hm => simp [matches_cons, hw, hm]
  | case4 p b pattern hw hm ih =>
    rw [ih, matches_cons]
    exact ⟨fun h => ⟨Or.inr (not_not.1 hm), h⟩, fun h => h.2⟩

/-- The inner loop reads addresses of the pattern's length from the candidate on. -/
theorem matchLoop_snd {a : ℕ} (ha : a ∈ (matchLoop mem p pattern).2) :
    p ≤ a ∧ a < p + pattern.length := by
  fun_induction matchLoop mem p pattern with
  | case1 => simp at ha
  | case2 p pattern ih =>
    have := ih ha
    rw [List.length_cons]
    omega
  | case3 p b pattern hw hm =>
    rw [List.mem_singleton] at ha
    rw [List.length_cons]
    omega
  | case4 p b pattern hw hm ih =>
    rw [List.length_cons]
    rcases List.mem_cons.1 ha with rfl | ha
    · omega
    · have := ih ha
      omega

/-- At a candidate that does not match, the inner loop stays before `stop` exactly when there
is a mismatch before `stop`. -/
theorem matchLoop_snd_lt (h : ¬Matches mem p pattern) :
    (∀ a ∈ (matchLoop mem p pattern).2, a < stop) ↔ DiffersBefore mem stop p pattern := by
  fun_induction matchLoop mem p pattern with
  | case1 => exact (h matches_nil).elim
  | case2 p pattern ih =>
    rw [matches_cons] at h
    rw [ih fun hp => h ⟨Or.inl rfl, hp⟩, differsBefore_cons]
    simp
  | case3 p b pattern hw hm =>
    rw [differsBefore_cons]
    simp only [List.mem_singleton, forall_eq]
    constructor
    · exact fun hlt => Or.inl ⟨hlt, hw, hm⟩
    · rintro (⟨hlt, -⟩ | hd)
      · exact hlt
      · have := hd.lt
        omega
  | case4 p b pattern hw hm ih =>
    have hm := not_not.1 hm
    rw [matches_cons] at h
    rw [List.forall_mem_cons, ih fun hp => h ⟨Or.inr hm, hp⟩, differsBefore_cons]
    constructor
    · exact fun hd => Or.inr hd.2
    · rintro (⟨-, -, hne⟩ | hd)
      · exact (hne hm).elim
      · have := hd.lt
        exact ⟨by omega, hd⟩

/-- The outer loop returns the first candidate that matches. -/
theorem scanLoop_fst (n ptr p : ℕ) :
    (scanLoop mem pattern n ptr).1 = some p ↔
      (ptr ≤ p ∧ p < ptr + n ∧ Matches mem p pattern) ∧
        ∀ q, ptr ≤ q → q < p → ¬Matches mem q pattern := by
  induction n generalizing ptr with
  | zero =>
    constructor
    · intro h
      simp [scanLoop] at h
    · rintro ⟨⟨h1, h2, -⟩, -⟩
      omega
  | succ n ih =>
    rw [scanLoop]
    by_cases hptr : Matches mem ptr pattern
    · rw [if_pos (matchLoop_fst.2 hptr), Option.some_inj]
      constructor
      · rintro rfl
        exact ⟨⟨Nat.le_refl _, by omega, hptr⟩, fun q h1 h2 => by omega⟩
      · rintro ⟨⟨h1, -, -⟩, hq⟩
        by_contra hne
        exact hq ptr (Nat.le_refl _) (by omega) hptr
    · rw [if_neg fun h => hptr (matchLoop_fst.1 h), ih]
      constructor
      · rintro ⟨⟨h1, h2, hp⟩, hq⟩
        refine ⟨⟨by omega, by omega, hp⟩, fun q h3 h4 => ?_⟩
        rcases eq_or_ne q ptr with rfl | hne
        · exact hptr
        · exact hq q (by omega) h4
      · rintro ⟨⟨h1, h2, hp⟩, hq⟩
        have hne : p ≠ ptr := by
          rintro rfl
          exact hptr hp
        exact ⟨⟨by omega, by omega, hp⟩, fun q h3 h4 => hq q (by omega) h4⟩

theorem scanLoop_snd {n ptr a : ℕ} (ha : a ∈ (scanLoop mem pattern n ptr).2) : ptr ≤ a := by
  induction n generalizing ptr with
  | zero => simp [scanLoop] at ha
  | succ n ih =>
    rw [scanLoop] at ha
    split_ifs at ha
    · exact (matchLoop_snd ha).1
    · rcases List.mem_append.1 ha with ha | ha
      · exact (matchLoop_snd ha).1
      · exact Nat.le_of_succ_le (ih ha)

/-- `FindPattern` returns the least match. -/
theorem findPattern_eq_some_iff {start : ℕ} :
    (findPattern mem start stop pattern).1 = some p ↔
      (start ≤ p ∧ p < stop ∧ Matches mem p pattern) ∧
        ∀ q, start ≤ q → q < p → ¬Matches mem q pattern := by
  rw [findPattern, scanLoop_fst]
  refine and_congr_left fun _ => and_congr_right fun hle => and_congr_left fun _ => ?_
  omega

/-- `FindPattern` returns `NULL` exactly when nothing matches. -/
theorem findPattern_eq_none_iff {start : ℕ} :
    (findPattern mem start stop pattern).1 = none ↔
      ∀ p, start ≤ p → p < stop → ¬Matches mem p pattern := by
  classical
  constructor
  · intro hnone p hle hlt hp
    have hex : ∃ q, start ≤ q ∧ q < stop ∧ Matches mem q pattern := ⟨p, hle, hlt, hp⟩
    have hleast : (findPattern mem start stop pattern).1 = some (Nat.find hex) := by
      refine findPattern_eq_some_iff.2 ⟨Nat.find_spec hex, fun q hq hlt hm => ?_⟩
      exact Nat.find_min hex hlt ⟨hq, hlt.trans (Nat.find_spec hex).2.1, hm⟩
    exact Option.some_ne_none _ (hleast.symm.trans hnone)
  · intro hno
    rw [Option.eq_none_iff_forall_ne_some]
    intro p hp
    obtain ⟨⟨hle, hlt, hm⟩, -⟩ := findPattern_eq_some_iff.1 hp
    exact hno p hle hlt hm

/-! ## Bounds -/

/-- The search reads only in `[start, stop)`, and a match it returns lies there. -/
def InBounds (mem : ℕ → Byte) (start stop : ℕ) (pattern : List Byte) : Prop :=
  (∀ a ∈ (findPattern mem start stop pattern).2, start ≤ a ∧ a < stop) ∧
    ∀ p, (findPattern mem start stop pattern).1 = some p →
      start ≤ p ∧ p + pattern.length ≤ stop

/-- The outer loop from `ptr` to `ptr + n`, step by step. -/
theorem scanLoop_inBounds_iff (n ptr : ℕ) (hstop : ptr + n = stop) :
    ((∀ a ∈ (scanLoop mem pattern n ptr).2, a < stop) ∧
        ∀ p, (scanLoop mem pattern n ptr).1 = some p → p + pattern.length ≤ stop) ↔
      (∃ p, ptr ≤ p ∧ p < stop ∧ p + pattern.length ≤ stop ∧ Matches mem p pattern) ∨
        ∀ p, ptr ≤ p → p < stop → stop < p + pattern.length →
          DiffersBefore mem stop p pattern := by
  induction n generalizing ptr with
  | zero =>
    constructor
    · exact fun _ => Or.inr fun p h1 h2 => by omega
    · exact fun _ => ⟨by simp [scanLoop], by simp [scanLoop]⟩
  | succ n ih =>
    rw [scanLoop]
    by_cases hptr : Matches mem ptr pattern
    · simp only [if_pos (matchLoop_fst.2 hptr), Option.some.injEq, forall_eq']
      constructor
      · exact fun h => Or.inl ⟨ptr, Nat.le_refl _, by omega, h.2, hptr⟩
      · intro h
        have hle : ptr + pattern.length ≤ stop := by
          rcases h with ⟨p, hp, -, hle, -⟩ | h
          · omega
          · by_contra hlt
            exact hptr.not_differsBefore (h ptr (Nat.le_refl _) (by omega) (by omega))
        exact ⟨fun a ha => Nat.lt_of_lt_of_le (matchLoop_snd ha).2 hle, hle⟩
    · rw [if_neg fun h => hptr (matchLoop_fst.1 h)]
      rw [List.forall_mem_append, matchLoop_snd_lt hptr, and_assoc, ih (ptr + 1) (by omega)]
      constructor
      · rintro ⟨hd, ⟨p, h1, h2, h3, h4⟩ | h⟩
        · exact Or.inl ⟨p, by omega, h2, h3, h4⟩
        · refine Or.inr fun p h1 h2 h3 => ?_
          rcases eq_or_ne p ptr with rfl | hne
          · exact hd
          · exact h p (by omega) h2 h3
      · rintro (⟨p, h1, h2, h3, h4⟩ | h)
        · have hne : p ≠ ptr := by
            rintro rfl
            exact hptr h4
          exact ⟨differsBefore_of_not_matches hptr (by omega),
            Or.inl ⟨p, by omega, h2, h3, h4⟩⟩
        · refine ⟨?_, Or.inr fun p h1 h2 h3 => h p (by omega) h2 h3⟩
          by_cases hle : ptr + pattern.length ≤ stop
          · exact differsBefore_of_not_matches hptr hle
          · exact h ptr (Nat.le_refl _) (by omega) (by omega)

/-- `FindPattern` stays in bounds exactly when the pattern matches inside, or every candidate
too close to the end for the whole pattern has a mismatch before the end. -/
theorem inBounds_iff (mem : ℕ → Byte) (start stop : ℕ) (pattern : List Byte) :
    InBounds mem start stop pattern ↔
      (∃ p, start ≤ p ∧ p < stop ∧ p + pattern.length ≤ stop ∧ Matches mem p pattern) ∨
        ∀ p, start ≤ p → p < stop → stop < p + pattern.length →
          DiffersBefore mem stop p pattern := by
  rcases Nat.le_total start stop with hle | hle
  · rw [← scanLoop_inBounds_iff (stop - start) start (Nat.add_sub_cancel' hle)]
    constructor
    · exact fun h => ⟨fun a ha => (h.1 a ha).2, fun p hp => (h.2 p hp).2⟩
    · intro h
      refine ⟨fun a ha => ⟨scanLoop_snd ha, h.1 a ha⟩, fun p hp => ⟨?_, h.2 p hp⟩⟩
      exact (findPattern_eq_some_iff.1 hp).1.1
  · have hempty : findPattern mem start stop pattern = (none, []) := by
      rw [findPattern, Nat.sub_eq_zero_of_le hle]
      rfl
    refine iff_of_true ?_ (Or.inr fun p h1 h2 => by omega)
    rw [InBounds, hempty]
    exact ⟨by simp, by simp⟩

/-- An image of four bytes that ends in the first byte of the pattern. -/
theorem not_inBounds_last_byte :
    ¬InBounds (fun x => if x = 0x1003 then 0x55 else 0) 0x1000 0x1004 [0x55, 0x8B] := by
  rintro ⟨hread, -⟩
  have h := hread 0x1004 (by decide)
  omega

end TickrateEnabler
