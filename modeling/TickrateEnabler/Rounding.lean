import Mathlib.Algebra.Order.Floor.Ring
import Mathlib.Algebra.Ring.CharZero
import Mathlib.Data.Int.Log
import Mathlib.Tactic.Linarith
import Mathlib.Tactic.Ring

/-!
# Rounding to binary floating point

`roundEven` rounds to the nearest integer, and between two of them to the even one. A
`Format` has a precision and a least exponent ; `Format.round` rounds to a multiple of the
unit in the last place, without a greatest number. It is monotone (`round_mono`), keeps the
numbers of the format (`round_mul_zpow`), and away from the least ones is off by a part in
`2 ^ precision` (`abs_sub_round_le_mul`), so it keeps numbers further apart than that in
order (`round_lt_round`).
-/

namespace Rounding

variable {K : Type*} [Field K] [LinearOrder K] [FloorRing K]

/-! ## Integers -/

/-- The integer below is the nearer one, or as near and even. -/
def RoundsDown (x : K) : Prop :=
  2 * Int.fract x < 1 ∨ 2 * Int.fract x = 1 ∧ Even ⌊x⌋

instance (x : K) : Decidable (RoundsDown x) :=
  inferInstanceAs (Decidable (_ ∨ _))

/-- The nearest integer, and the even one of two. -/
def roundEven (x : K) : ℤ :=
  if RoundsDown x then ⌊x⌋ else ⌊x⌋ + 1

theorem floor_le_roundEven (x : K) : ⌊x⌋ ≤ roundEven x := by
  unfold roundEven
  split_ifs <;> omega

theorem roundEven_le_floor_add_one (x : K) : roundEven x ≤ ⌊x⌋ + 1 := by
  unfold roundEven
  split_ifs <;> omega

variable [IsStrictOrderedRing K]

theorem roundEven_intCast (n : ℤ) : roundEven (n : K) = n := by
  have hdown : RoundsDown (n : K) := by
    refine Or.inl ?_
    rw [Int.fract_intCast, mul_zero]
    exact one_pos
  rw [roundEven, if_pos hdown, Int.floor_intCast]

theorem roundEven_mono {x y : K} (hxy : x ≤ y) : roundEven x ≤ roundEven y := by
  rcases Int.lt_or_eq_of_le (Int.floor_le_floor hxy) with hlt | heq
  · calc
      roundEven x ≤ ⌊x⌋ + 1 := roundEven_le_floor_add_one x
      _ ≤ ⌊y⌋ := hlt
      _ ≤ roundEven y := floor_le_roundEven y
  · have hfract : Int.fract x ≤ Int.fract y := by
      rw [Int.fract, Int.fract, heq]
      exact sub_le_sub_right hxy _
    by_cases hy : RoundsDown y
    · have hx : RoundsDown x := by
        rcases hy with hy | ⟨hy, heven⟩
        · exact Or.inl (by linarith)
        · rcases (show 2 * Int.fract x ≤ 1 by linarith).lt_or_eq with hx | hx
          · exact Or.inl hx
          · exact Or.inr ⟨hx, heq ▸ heven⟩
      rw [roundEven, roundEven, if_pos hx, if_pos hy, heq]
    · have hround : roundEven y = ⌊y⌋ + 1 := if_neg hy
      rw [hround, ← heq]
      exact roundEven_le_floor_add_one x

theorem abs_sub_roundEven_le (x : K) : |x - roundEven x| ≤ 1 / 2 := by
  have hfloor := Int.self_sub_floor x
  have hnonneg := Int.fract_nonneg x
  have hlt := Int.fract_lt_one x
  rw [abs_le]
  unfold roundEven
  split_ifs with h
  · have hhalf : 2 * Int.fract x ≤ 1 := h.elim le_of_lt fun h => h.1.le
    constructor <;> linarith
  · have hhalf : 1 ≤ 2 * Int.fract x := not_lt.1 fun hlt => h (Or.inl hlt)
    rw [Int.cast_add, Int.cast_one]
    constructor <;> linarith

theorem floor_neg_of_fract_ne_zero {x : K} (h : Int.fract x ≠ 0) : ⌊-x⌋ = -⌊x⌋ - 1 := by
  have hfract := Int.fract_neg h
  have hcast : ((⌊-x⌋ : ℤ) : K) = ((-⌊x⌋ - 1 : ℤ) : K) := by
    have hx := Int.self_sub_floor x
    have hneg := Int.self_sub_floor (-x)
    push_cast
    linarith
  exact Int.cast_injective hcast

/-- Between integers `x` and `-x` do not both round down. -/
theorem roundsDown_neg {x : K} (h : Int.fract x ≠ 0) : RoundsDown (-x) ↔ ¬RoundsDown x := by
  have hfract : Int.fract (-x) = 1 - Int.fract x := Int.fract_neg h
  have hodd : Even ⌊-x⌋ ↔ ¬Even ⌊x⌋ := by
    rw [floor_neg_of_fract_ne_zero h, Int.even_sub_one, even_neg]
  unfold RoundsDown
  rw [hodd, hfract]
  rcases lt_trichotomy (2 * Int.fract x) 1 with hlt | heq | hgt
  · have hneg : ¬2 * (1 - Int.fract x) < 1 := by linarith
    have hne : 2 * (1 - Int.fract x) ≠ 1 := by linarith
    simp [hlt, hneg, hne]
  · have hneg : 2 * (1 - Int.fract x) = 1 := by linarith
    simp [heq, hneg]
  · have hneg : 2 * (1 - Int.fract x) < 1 := by linarith
    simp [hneg, hgt.not_gt, hgt.ne']

theorem roundEven_neg (x : K) : roundEven (-x) = -roundEven x := by
  rcases eq_or_ne (Int.fract x) 0 with h0 | hne
  · obtain ⟨n, rfl⟩ := Int.fract_eq_zero_iff.1 h0
    rw [← Int.cast_neg, roundEven_intCast, roundEven_intCast]
  · have hfloor := floor_neg_of_fract_ne_zero hne
    have hdown := roundsDown_neg hne
    unfold roundEven
    by_cases hx : RoundsDown x
    · rw [if_neg fun h => hdown.1 h hx, if_pos hx, hfloor]
      ring
    · rw [if_pos (hdown.2 hx), if_neg hx, hfloor]
      ring

/-! ## Formats -/

/-- A format of numbers with `precision` bits, all multiples of `2 ^ emin`. -/
structure Format where
  precision : ℕ
  emin : ℤ
  pos : 0 < precision

namespace Format

variable (f : Format)

/-- The exponent of the unit in the last place of `x`. -/
def exponent (x : K) : ℤ :=
  max (Int.log 2 |x| - (f.precision - 1)) f.emin

/-- The multiple of the unit in the last place that is nearest to `x`. -/
def round (x : K) : K :=
  roundEven (x / 2 ^ f.exponent x) * 2 ^ f.exponent x

omit [IsStrictOrderedRing K] in
theorem exponent_neg (x : K) : f.exponent (-x) = f.exponent x := by
  rw [exponent, exponent, abs_neg]

theorem round_neg (x : K) : f.round (-x) = -f.round x := by
  rw [round, round, exponent_neg, neg_div, roundEven_neg, Int.cast_neg, neg_mul]

theorem exponent_mono {x y : K} (hx : 0 < x) (hxy : x ≤ y) : f.exponent x ≤ f.exponent y := by
  unfold exponent
  rw [abs_of_pos hx, abs_of_pos (hx.trans_le hxy)]
  exact max_le_max_right _ (sub_le_sub_right (Int.log_mono_right hx hxy) _)

variable {f}

omit [IsStrictOrderedRing K] in
/-- A multiple of a power of two is one of any smaller power of two. -/
theorem exists_mul_zpow (m : ℤ) {d e : ℤ} (h : d ≤ e) :
    ∃ n : ℤ, (m : K) * 2 ^ e = n * 2 ^ d := by
  obtain ⟨k, rfl⟩ := Int.exists_add_of_le h
  refine ⟨m * 2 ^ k, ?_⟩
  rw [zpow_add₀ two_ne_zero, zpow_natCast]
  push_cast
  ring

/-- Rounding does not pass a number whose last place is no smaller. -/
theorem round_le {x : K} {m e : ℤ} (he : f.exponent x ≤ e) (hx : x ≤ m * 2 ^ e) :
    f.round x ≤ m * 2 ^ e := by
  have hpos : (0 : K) < 2 ^ f.exponent x := zpow_pos two_pos _
  obtain ⟨n, hn⟩ := exists_mul_zpow (K := K) m he
  rw [hn, round]
  rw [hn, ← div_le_iff₀ hpos] at hx
  have hround := roundEven_mono hx
  rw [roundEven_intCast] at hround
  exact mul_le_mul_of_nonneg_right (Int.cast_le.2 hround) hpos.le

theorem le_round {x : K} {m e : ℤ} (he : f.exponent x ≤ e) (hx : m * 2 ^ e ≤ x) :
    m * 2 ^ e ≤ f.round x := by
  have he' : f.exponent (-x) ≤ e := (f.exponent_neg x).trans_le he
  have hneg : -x ≤ ((-m : ℤ) : K) * 2 ^ e := by
    push_cast
    linarith
  have hround := round_le he' hneg
  rw [round_neg] at hround
  push_cast at hround
  linarith

/-- The numbers of the format stay. -/
theorem round_mul_zpow {m e : ℤ} (he : f.exponent ((m : K) * 2 ^ e) ≤ e) :
    f.round ((m : K) * 2 ^ e) = m * 2 ^ e :=
  le_antisymm (round_le he le_rfl) (le_round he le_rfl)

theorem round_intCast {n : ℤ} (hn : |n| < 2 ^ f.precision) (he : f.emin ≤ 0) :
    f.round (n : K) = n := by
  have hone : (n : K) * 2 ^ (0 : ℤ) = n := by rw [zpow_zero, mul_one]
  rw [← hone]
  refine round_mul_zpow ?_
  rw [hone]
  refine max_le (sub_nonpos.2 ?_) he
  rcases eq_or_ne n 0 with rfl | hne
  · have hprec := f.pos
    rw [Int.cast_zero, abs_zero, Int.log_zero_right]
    omega
  · have hpos : (0 : K) < |(n : K)| := abs_pos.2 (Int.cast_ne_zero.2 hne)
    refine Int.le_sub_one_of_lt ((Int.lt_zpow_iff_log_lt Nat.one_lt_two hpos).1 ?_)
    exact_mod_cast hn

theorem round_mono_of_pos {x y : K} (hx : 0 < x) (hxy : x ≤ y) : f.round x ≤ f.round y := by
  have hy := hx.trans_le hxy
  rcases (f.exponent_mono hx hxy).eq_or_lt with heq | hlt
  · rw [round, round, heq]
    have hpos : (0 : K) < 2 ^ f.exponent y := zpow_pos two_pos _
    have hround := roundEven_mono ((div_le_div_iff_of_pos_right hpos).2 hxy)
    exact mul_le_mul_of_nonneg_right (Int.cast_le.2 hround) hpos.le
  -- with a larger last place, `y` has a power of two that `x` is below
  · have hexp : f.exponent y = Int.log 2 y - (f.precision - 1) := by
      have hmax : f.emin < f.exponent y := (le_max_right _ _).trans_lt hlt
      unfold exponent at hmax ⊢
      rw [abs_of_pos hy] at hmax ⊢
      exact max_eq_left (by omega)
    have hlog : Int.log 2 x < Int.log 2 y := by
      have hle : Int.log 2 |x| - (f.precision - 1) ≤ f.exponent x := le_max_left _ _
      rw [abs_of_pos hx] at hle
      omega
    have hprec := f.pos
    have hpow : ((1 : ℤ) : K) * 2 ^ Int.log 2 y = 2 ^ Int.log 2 y := by
      rw [Int.cast_one, one_mul]
    have hxb : x ≤ (1 : ℤ) * 2 ^ Int.log 2 y := by
      have hb := (Int.lt_zpow_iff_log_lt Nat.one_lt_two hx).2 hlog
      rw [hpow]
      exact_mod_cast hb.le
    have hby : (1 : ℤ) * 2 ^ Int.log 2 y ≤ y := by
      have hb := Int.zpow_log_le_self Nat.one_lt_two hy
      rw [hpow]
      exact_mod_cast hb
    exact (round_le (by omega) hxb).trans (le_round (by omega) hby)

theorem round_nonneg {x : K} (hx : 0 ≤ x) : 0 ≤ f.round x := by
  have hpos : (0 : K) < 2 ^ f.exponent x := zpow_pos two_pos _
  have hround := roundEven_mono (div_nonneg hx hpos.le)
  rw [← Int.cast_zero, roundEven_intCast] at hround
  exact mul_nonneg (Int.cast_nonneg hround) hpos.le

theorem round_mono : Monotone (f.round : K → K) := by
  intro x y hxy
  rcases lt_or_ge 0 x with hx | hx
  · exact round_mono_of_pos hx hxy
  have hneg : f.round x ≤ 0 := by
    rw [← neg_nonneg, ← round_neg]
    exact round_nonneg (neg_nonneg.2 hx)
  rcases lt_or_ge y 0 with hy | hy
  · have hround := round_mono_of_pos (f := f) (neg_pos.2 hy) (neg_le_neg hxy)
    rwa [round_neg, round_neg, neg_le_neg_iff] at hround
  · exact hneg.trans (round_nonneg hy)

/-! ## Errors -/

/-- Rounding is off by half of the last place at most. -/
theorem abs_sub_round_le (x : K) : |x - f.round x| ≤ 2 ^ f.exponent x / 2 := by
  have hpos : (0 : K) < 2 ^ f.exponent x := zpow_pos two_pos _
  have hscaled : x - f.round x =
      (x / 2 ^ f.exponent x - roundEven (x / 2 ^ f.exponent x)) * 2 ^ f.exponent x := by
    rw [round, sub_mul, div_mul_cancel₀ x hpos.ne']
  calc
    |x - f.round x| = |x / 2 ^ f.exponent x - roundEven (x / 2 ^ f.exponent x)| *
        2 ^ f.exponent x := by rw [hscaled, abs_mul, abs_of_pos hpos]
    _ ≤ 1 / 2 * 2 ^ f.exponent x :=
      mul_le_mul_of_nonneg_right (abs_sub_roundEven_le _) hpos.le
    _ = 2 ^ f.exponent x / 2 := by ring

/-- The last place of `x` is that of its first `precision` bits. -/
def Normal (f : Format) (x : K) : Prop :=
  x ≠ 0 ∧ f.emin ≤ Int.log 2 |x| - (f.precision - 1)

theorem normal_of_zpow_le {x : K} {k : ℤ} (hx : 2 ^ k ≤ x)
    (hk : f.emin ≤ k - (f.precision - 1)) : f.Normal x := by
  have hpos : 0 < x := (zpow_pos two_pos k).trans_le hx
  refine ⟨hpos.ne', hk.trans (sub_le_sub_right ?_ _)⟩
  rw [abs_of_pos hpos]
  exact (Int.zpow_le_iff_le_log Nat.one_lt_two hpos).1 (by exact_mod_cast hx)

theorem abs_sub_round_le_mul {x : K} (hx : f.Normal x) :
    |x - f.round x| ≤ |x| / 2 ^ f.precision := by
  have hexp : f.exponent x = Int.log 2 |x| - f.precision + 1 := by
    rw [exponent, max_eq_left hx.2]
    ring
  have hlog : (2 : K) ^ Int.log 2 |x| ≤ |x| := by
    exact_mod_cast Int.zpow_log_le_self Nat.one_lt_two (abs_pos.2 hx.1)
  calc
    |x - f.round x| ≤ 2 ^ f.exponent x / 2 := abs_sub_round_le x
    _ = 2 ^ Int.log 2 |x| / 2 ^ f.precision := by
      rw [hexp, zpow_add₀ two_ne_zero, zpow_sub₀ two_ne_zero, zpow_natCast, zpow_one]
      ring
    _ ≤ |x| / 2 ^ f.precision :=
      div_le_div_of_nonneg_right hlog (pow_pos two_pos _).le

/-- Numbers that are further apart than rounding is off stay apart. -/
theorem round_lt_round {x y : K} (hx : 0 < x) (hxn : f.Normal x) (hy : 0 < y)
    (hyn : f.Normal y) (h : x + y < 2 ^ f.precision * (y - x)) : f.round x < f.round y := by
  have hpow : (0 : K) < 2 ^ f.precision := pow_pos two_pos _
  have hrx := (abs_le.1 (abs_sub_round_le_mul hxn)).1
  have hry := (abs_le.1 (abs_sub_round_le_mul hyn)).2
  rw [abs_of_pos hx] at hrx
  rw [abs_of_pos hy] at hry
  have hsum : x / 2 ^ f.precision + y / 2 ^ f.precision < y - x := by
    rwa [← add_div, div_lt_iff₀' hpow]
  linarith

end Format

end Rounding
