import TickrateEnabler.InternRuns
import Mathlib.Order.Bounds.Basic

/-!
# The number of buckets

`InternSymbol` doubles the buckets when there are more symbols than buckets, if it gets the
array. So over any run there are never more buckets than the symbols need, whatever
arrays were refused ; and when all were given there is the least number that the symbols
need (`run_nbuckets`), which is a symbol for each bucket at most.
-/

namespace TickrateEnabler

open Transition

namespace LinkedTable

/-! ## One call -/

/-- A larger array is due and given. -/
def Doubles (t : LinkedTable) (allocated : Bool) : Prop :=
  (t.nbuckets < t.nused + 1 ∧ t.nbuckets.toNat ≤ INT_MAX / 2) ∧ allocated = true

instance (t : LinkedTable) (allocated : Bool) : Decidable (t.Doubles allocated) :=
  inferInstanceAs (Decidable (_ ∧ _))

/-- What a call does to the number of symbols and of buckets. -/
theorem resizeSymbolTable_counters {t t' : LinkedTable} {allocated : Bool}
    (h : t.resizeSymbolTable allocated = some t') :
    t'.nused = t.nused ∧ t'.nbuckets = if allocated then t.nbuckets * 2 else t.nbuckets := by
  cases allocated with
  | false =>
    obtain rfl := Option.some.inj h
    exact ⟨rfl, rfl⟩
  | true =>
    obtain ⟨x, -, hx⟩ := Option.bind_eq_some_iff.1 h
    obtain rfl := Option.some.inj hx
    exact ⟨rfl, rfl⟩

theorem internSymbol_counters {t t' : LinkedTable} {str : Name} {len : ℕ} {address : BitVec 32}
    {kvs p : Ptr} {allocated : Bool}
    (h : t.internSymbol str len address kvs allocated = some (p, t')) :
    t' = t ∨ t'.nused = t.nused + 1 ∧
      t'.nbuckets = if t.Doubles allocated then t.nbuckets * 2 else t.nbuckets := by
  obtain ⟨pkvs, -, h⟩ := Option.bind_eq_some_iff.1 h
  obtain ⟨found, -, h⟩ := Option.bind_eq_some_iff.1 h
  split_ifs at h
  · exact Or.inl (congrArg Prod.snd (Option.some.inj h)).symm
  · obtain ⟨memory, -, h⟩ := Option.bind_eq_some_iff.1 h
    refine Or.inr ?_
    dsimp only at h
    split_ifs at h with hdue
    · obtain ⟨u, hu, h⟩ := Option.bind_eq_some_iff.1 h
      obtain rfl : u = t' := congrArg Prod.snd (Option.some.inj h)
      obtain ⟨hused, hbuckets⟩ := resizeSymbolTable_counters hu
      refine ⟨hused, hbuckets.trans ?_⟩
      unfold Doubles
      simp only [hdue, true_and]
    · obtain rfl := congrArg Prod.snd (Option.some.inj h)
      refine ⟨rfl, (if_neg fun hd => hdue hd.1).symm⟩

/-! ## Runs -/

/-- The buckets were doubled from the first array on, the last time for more symbols than there
were buckets. -/
def Sized (t : LinkedTable) : Prop :=
  ∃ k, t.nbuckets.toNat = KESTRING_TABLE_START_SIZE * 2 ^ k ∧
    (k = 0 ∨ t.nbuckets.toNat < 2 * t.nused.toNat)

/-- There is a bucket for each symbol. -/
def Roomy (t : LinkedTable) : Prop :=
  t.nused ≤ t.nbuckets

/-- A larger array is given, if one is due in the call. -/
def TableCall.Given : TableCall → Prop
  | .intern _ _ _ allocated => allocated = true
  | .find _ => True

instance : ∀ c : TableCall, Decidable c.Given
  | .intern .. => inferInstanceAs (Decidable (_ = _))
  | .find _ => inferInstanceAs (Decidable True)

theorem Sized.pos {t : LinkedTable} (h : t.Sized) : 0 < t.nbuckets.toNat := by
  obtain ⟨k, hk, -⟩ := h
  rw [hk]
  exact Nat.mul_pos (by decide) (Nat.two_pow_pos k)

/-- The buckets are no more than any number of doublings that has room for the symbols. -/
theorem Sized.le {t : LinkedTable} (h : t.Sized) {k : ℕ}
    (hk : t.nused.toNat ≤ KESTRING_TABLE_START_SIZE * 2 ^ k) :
    t.nbuckets.toNat ≤ KESTRING_TABLE_START_SIZE * 2 ^ k := by
  obtain ⟨j, hj, hlast⟩ := h
  rw [hj]
  refine Nat.mul_le_mul_left _ (Nat.pow_le_pow_right Nat.two_pos ?_)
  rcases hlast with rfl | hlast
  · exact Nat.zero_le k
  · have hlt : KESTRING_TABLE_START_SIZE * 2 ^ j < KESTRING_TABLE_START_SIZE * 2 ^ (k + 1) := by
      rw [Nat.pow_succ, ← Nat.mul_assoc]
      omega
    have hpow := Nat.lt_of_mul_lt_mul_left hlt
    exact Nat.lt_succ_iff.1 ((Nat.pow_lt_pow_iff_right (by decide)).1 hpow)

/-- One call keeps the number of buckets as the symbols need. -/
theorem step_sized {t t' : LinkedTable} {c : TableCall} (h : step t c = some t')
    (hused : t.nused.toNat < 2 ^ 28) (hs : t.Sized) :
    t'.Sized ∧ (c.Given → t.Roomy → t'.Roomy) := by
  cases c with
  | find str =>
    obtain ⟨p, -, rfl⟩ := Option.map_eq_some_iff.1 h
    exact ⟨hs, fun _ hr => hr⟩
  | intern str address kvs allocated =>
    obtain ⟨⟨p, u⟩, hu, rfl⟩ := Option.map_eq_some_iff.1 h
    rcases internSymbol_counters hu with rfl | ⟨hnused, hnbuckets⟩
    · exact ⟨hs, fun _ hr => hr⟩
    have hpos := hs.pos
    have hsucc : u.nused.toNat = t.nused.toNat + 1 := by
      rw [hnused]
      bv_omega
    show u.Sized ∧ (allocated = true → t.nused ≤ t.nbuckets → u.nused ≤ u.nbuckets)
    rw [BitVec.le_def, BitVec.le_def]
    obtain ⟨k, hk, hlast⟩ := hs
    by_cases hd : t.Doubles allocated
    · have hfull := hd.1.1
      have hmax : t.nbuckets.toNat ≤ INT_MAX / 2 := hd.1.2
      unfold INT_MAX at hmax
      rw [if_pos hd] at hnbuckets
      have hdouble : u.nbuckets.toNat = 2 * t.nbuckets.toNat := by
        rw [hnbuckets]
        bv_omega
      have hlt : t.nbuckets.toNat < u.nused.toNat := by
        rw [← hnused] at hfull
        exact BitVec.lt_def.1 hfull
      refine ⟨⟨k + 1, ?_, Or.inr (by omega)⟩, fun _ hr => by omega⟩
      rw [hdouble, hk, Nat.pow_succ, Nat.mul_comm (2 ^ k), Nat.mul_left_comm]
    · rw [if_neg hd] at hnbuckets
      refine ⟨⟨k, hnbuckets ▸ hk, hlast.imp_right fun h => ?_⟩, fun hgiven hr => ?_⟩
      · rw [hnbuckets]
        omega
      · rw [hnbuckets]
        by_contra hlt
        -- there are fewer symbols than `INT_MAX / 2`, so an array was due
        refine hd ⟨⟨?_, ?_⟩, hgiven⟩
        · rw [← hnused, BitVec.lt_def]
          omega
        · unfold INT_MAX
          omega

/-- The calls of a list, one after the other. -/
theorem Tracks.sized {live : List (Name × Ptr)} {t t' : LinkedTable} {T : SymbolTable}
    {chain : ℕ → List Ptr} (h : Tracks live t T chain) {calls : List TableCall}
    (hm : Along noteCall MallocOk live calls) (hserved : Along noteCall Served live calls)
    (ht' : calls.foldlM LinkedTable.step t = some t') (hs : t.Sized) :
    t'.Sized ∧ ((∀ c ∈ calls, c.Given) → t.Roomy → t'.Roomy) := by
  induction calls generalizing live t T chain with
  | nil =>
    obtain rfl := Option.some.inj ht'
    exact ⟨hs, fun _ hr => hr⟩
  | cons c calls ih =>
    obtain ⟨t₁, T₁, chain₁, ht₁, h₁, -⟩ := h.step hm.1 hserved.1
    rw [List.foldlM_cons, ht₁] at ht'
    obtain ⟨hs₁, hroomy⟩ := step_sized ht₁ (h.represents.nused ▸ h.nused_lt) hs
    obtain ⟨hs', hroomy'⟩ := ih h₁ hm.2 hserved.2 ht' hs₁
    refine ⟨hs', fun hgiven hr => hroomy' (fun c hc => hgiven c (List.mem_cons_of_mem _ hc)) ?_⟩
    exact hroomy (hgiven c List.mem_cons_self) hr

/-- After any calls on a new table there are no more buckets than doublings of the first array
with room for the symbols, whatever arrays `malloc` refused. When it gave all that were due,
the number of buckets is the least such. -/
theorem run_nbuckets {calls : List TableCall} (h : Along noteCall MallocOk [] calls)
    {t : LinkedTable} (ht : run calls = some t) :
    let doublings := {n | (∃ k, n = KESTRING_TABLE_START_SIZE * 2 ^ k) ∧ t.nused.toNat ≤ n}
    t.nbuckets.toNat ∈ lowerBounds doublings ∧
      ((∀ c ∈ calls, c.Given) → IsLeast doublings t.nbuckets.toNat) := by
  intro doublings
  have hstart : initializeTable.Sized := ⟨0, rfl, Or.inl rfl⟩
  have hempty : initializeTable.nused ≤ initializeTable.nbuckets := by decide
  rcases tracks_initializeTable.foldlM_step h with ⟨hserved, -⟩ | ⟨-, hnone⟩
  · obtain ⟨hs, hroomy⟩ := tracks_initializeTable.sized h hserved ht hstart
    have hlower : t.nbuckets.toNat ∈ lowerBounds doublings := by
      rintro _ ⟨⟨k, rfl⟩, hk⟩
      exact hs.le hk
    refine ⟨hlower, fun hgiven => ⟨⟨hs.imp fun _ hk => hk.1, ?_⟩, hlower⟩⟩
    exact BitVec.le_def.1 (hroomy hgiven hempty)
  · exact absurd (ht.symm.trans hnone) (Option.some_ne_none t)

/-- Two names, each with a block. -/
def twoInterns : List TableCall :=
  [.intern [97] 0x10 0x1000 true, .intern [98] 0x30 0x1020 true]

theorem run_nbuckets_twoInterns :
    ∃ t, run twoInterns = some t ∧
      IsLeast {n | (∃ k, n = KESTRING_TABLE_START_SIZE * 2 ^ k) ∧ t.nused.toNat ≤ n}
        t.nbuckets.toNat := by
  have hm : Along noteCall MallocOk [] twoInterns := by decide
  have hserved : Along noteCall Served [] twoInterns := by decide
  rcases tracks_initializeTable.foldlM_step hm with ⟨-, -, t, -, -, ht, -⟩ | ⟨hno, -⟩
  · exact ⟨t, ht, (run_nbuckets hm ht).2 (by decide)⟩
  · exact (hno hserved).elim

end LinkedTable

end TickrateEnabler
