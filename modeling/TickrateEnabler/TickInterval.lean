import TickrateEnabler.Rounding
import TickrateEnabler.LoadCycles
import Mathlib.Data.Rat.Floor
import Mathlib.Tactic.FieldSimp
import Mathlib.Tactic.LinearCombination
import Mathlib.Tactic.NormNum
import Mathlib.Tactic.Positivity

/-!
# The tick interval

The hook `GetTickInterval` answers the game with the inverse of the tick rate on the command
line, in binary32. A rate of 10 or less is not taken, and 30 is the default. The conversion
and the division round, and higher rates never have longer intervals
(`getTickInterval_of_rate`). The frame time that the patched reads find is not one of these
intervals (`fakeFrametime_lt_iff`).
-/

namespace TickrateEnabler

open Rounding

/-! ## The hook -/

/-- `float`, in the arithmetic of `-mfpmath=sse`. -/
def binary32 : Format :=
  ⟨24, -149, by decide⟩

/-- `double`. -/
def binary64 : Format :=
  ⟨53, -1074, by decide⟩

/-- `ICommandLine`. With an `int` for the default, `ParmValue` is the overload for `int`. -/
structure CommandLine where
  checkParm : Name → Bool
  parmValue : Name → BitVec 32 → BitVec 32

/-- `GetTickInterval`. The numbers in it are all far below the greatest `float`. -/
def getTickInterval (commandLine : CommandLine) : ℚ :=
  let tickinterval := binary32.round (1 / 30)
  if commandLine.checkParm (ascii "-tickrate") then
    let tickrate := binary32.round ((commandLine.parmValue (ascii "-tickrate") 0).toInt : ℚ)
    if 10 < tickrate then binary32.round (1 / tickrate) else tickinterval
  else tickinterval

/-- The tick rate that is asked for : 30, or a greater one than 10 on the command line. -/
def CommandLine.tickRate (commandLine : CommandLine) : ℤ :=
  let n := (commandLine.parmValue (ascii "-tickrate") 0).toInt
  if commandLine.checkParm (ascii "-tickrate") = true ∧ 10 < n then n else 30

/-- The interval for a rate. -/
def tickInterval (rate : ℤ) : ℚ :=
  binary32.round (1 / binary32.round (rate : ℚ))

/-! ## The rate -/

theorem round_small {n : ℤ} (hn : |n| < 2 ^ 24) : binary32.round (n : ℚ) = n :=
  Format.round_intCast hn (by decide)

theorem ten_lt_round_iff {n : ℤ} : 10 < binary32.round (n : ℚ) ↔ 10 < n := by
  have hten : binary32.round ((10 : ℤ) : ℚ) = (10 : ℤ) := round_small (by decide)
  have heleven : binary32.round ((11 : ℤ) : ℚ) = (11 : ℤ) := round_small (by decide)
  constructor
  · intro h
    by_contra hle
    have hround := Format.round_mono (f := binary32)
      (show (n : ℚ) ≤ (10 : ℤ) from Int.cast_le.2 (not_lt.1 hle))
    rw [hten] at hround
    exact absurd h (not_lt.2 hround)
  · intro h
    have hround := Format.round_mono (f := binary32)
      (show ((11 : ℤ) : ℚ) ≤ n from Int.cast_le.2 h)
    rw [heleven] at hround
    exact lt_of_lt_of_le (by norm_num) hround

/-- The hook gives the interval for the rate that is asked for. -/
theorem getTickInterval_eq (c : CommandLine) : getTickInterval c = tickInterval c.tickRate := by
  have hthirty : tickInterval 30 = binary32.round (1 / 30) := by
    rw [tickInterval, round_small (by decide)]
    rfl
  unfold getTickInterval CommandLine.tickRate
  dsimp only
  by_cases hparm : c.checkParm (ascii "-tickrate") = true
  · by_cases hten : 10 < (c.parmValue (ascii "-tickrate") 0).toInt
    · rw [if_pos hparm, if_pos (ten_lt_round_iff.2 hten), if_pos ⟨hparm, hten⟩]
      rfl
    · rw [if_pos hparm, if_neg (mt ten_lt_round_iff.1 hten), if_neg fun h => hten h.2]
      exact hthirty.symm
  · rw [if_neg hparm, if_neg fun h => hparm h.1]
    exact hthirty.symm

theorem tickRate_bounds (c : CommandLine) : 11 ≤ c.tickRate ∧ c.tickRate < 2 ^ 31 := by
  have hlt := BitVec.toInt_lt (x := c.parmValue (ascii "-tickrate") 0)
  unfold CommandLine.tickRate
  dsimp only
  split_ifs with h
  · exact ⟨h.2, by simpa using hlt⟩
  · decide

/-! ## The interval -/

section Interval

variable {r r' : ℤ}

/-- A rate as a `float` is the rate up to a part in `2 ^ 24`, and exact below `2 ^ 24`. -/
theorem abs_sub_round_rate (hr : 0 < r) :
    |(r : ℚ) - binary32.round (r : ℚ)| ≤ r / 2 ^ 24 := by
  have hpos : (0 : ℚ) < r := Int.cast_pos.2 hr
  have hone : (2 : ℚ) ^ (0 : ℤ) ≤ r := by
    rw [zpow_zero]
    exact_mod_cast hr
  have herr := Format.abs_sub_round_le_mul
    (Format.normal_of_zpow_le (f := binary32) hone (by decide))
  rwa [abs_of_pos hpos] at herr

theorem one_le_round_rate (hr : 0 < r) : 1 ≤ binary32.round (r : ℚ) := by
  have hone : binary32.round ((1 : ℤ) : ℚ) = (1 : ℤ) := round_small (by decide)
  have hround := Format.round_mono (f := binary32) (show ((1 : ℤ) : ℚ) ≤ r from Int.cast_le.2 hr)
  rw [hone] at hround
  exact_mod_cast hround

theorem round_rate_le (hr : r < 2 ^ 31) : binary32.round (r : ℚ) ≤ 2 ^ 31 := by
  have hround := Format.round_mono (f := binary32)
    (show (r : ℚ) ≤ ((1 : ℤ) : ℚ) * 2 ^ (31 : ℤ) by exact_mod_cast hr.le)
  rw [Format.round_mul_zpow (by decide +kernel)] at hround
  exact_mod_cast hround

/-- The inverse of a rate has all bits of a `float`. -/
theorem normal_inv (hr : 0 < r) (hr' : r < 2 ^ 31) :
    binary32.Normal (1 / binary32.round (r : ℚ)) := by
  refine Format.normal_of_zpow_le (k := -31) ?_ (by decide)
  have hpos : (0 : ℚ) < binary32.round (r : ℚ) := one_pos.trans_le (one_le_round_rate hr)
  rw [zpow_neg, ← one_div]
  exact one_div_le_one_div_of_le hpos (by exact_mod_cast round_rate_le hr')

theorem abs_sub_tickInterval (hr : 0 < r) (hr' : r < 2 ^ 31) :
    |1 / binary32.round (r : ℚ) - tickInterval r| ≤ 1 / binary32.round (r : ℚ) / 2 ^ 24 := by
  have hpos : (0 : ℚ) < binary32.round (r : ℚ) := one_pos.trans_le (one_le_round_rate hr)
  have herr := Format.abs_sub_round_le_mul (normal_inv hr hr')
  rwa [abs_of_pos (one_div_pos.2 hpos)] at herr

/-- Over one second the intervals for a rate are off by a part in `2 ^ 22` at most. -/
theorem abs_mul_tickInterval_sub_one_le (hr : 0 < r) (hr' : r < 2 ^ 31) :
    |r * tickInterval r - 1| ≤ 1 / 2 ^ 22 := by
  have hpos : (0 : ℚ) < binary32.round (r : ℚ) := one_pos.trans_le (one_le_round_rate hr)
  have hrate : (0 : ℚ) < r := Int.cast_pos.2 hr
  have hconv := abs_sub_round_rate hr
  have hdiv := abs_sub_tickInterval hr hr'
  set R := binary32.round (r : ℚ)
  set x := 1 / R with hx
  have hxpos : 0 < x := one_div_pos.2 hpos
  have hRx : R * x = 1 := mul_one_div_cancel hpos.ne'
  have hrx : r * x ≤ 2 := by
    have hle : (r : ℚ) ≤ 2 * R := by linarith [(abs_le.1 hconv).2]
    nlinarith
  have hsplit : r * tickInterval r - 1 = (r - R) * x - r * (x - tickInterval r) := by
    linear_combination hRx
  have hfirst : |(r - R) * x| ≤ r * x / 2 ^ 24 := by
    rw [abs_mul, abs_of_pos hxpos, mul_div_right_comm]
    exact mul_le_mul_of_nonneg_right hconv hxpos.le
  have hsecond : |r * (x - tickInterval r)| ≤ r * x / 2 ^ 24 := by
    rw [abs_mul, abs_of_pos hrate, mul_div_assoc]
    exact mul_le_mul_of_nonneg_left hdiv hrate.le
  calc
    |r * tickInterval r - 1| = |(r - R) * x - r * (x - tickInterval r)| := by rw [hsplit]
    _ ≤ |(r - R) * x| + |r * (x - tickInterval r)| := abs_sub _ _
    _ ≤ r * x / 2 ^ 24 + r * x / 2 ^ 24 := add_le_add hfirst hsecond
    _ ≤ 1 / 2 ^ 22 := by linarith

/-- Below `2 ^ 24` only the division rounds. -/
theorem abs_mul_tickInterval_sub_one_le_of_lt (hr : 0 < r) (hr' : r < 2 ^ 24) :
    |r * tickInterval r - 1| ≤ 1 / 2 ^ 24 := by
  have hrate : (0 : ℚ) < r := Int.cast_pos.2 hr
  have hexact : binary32.round (r : ℚ) = r := round_small (abs_lt.2 ⟨by omega, hr'⟩)
  have hdiv := abs_sub_tickInterval hr (hr'.trans (by norm_num))
  rw [hexact] at hdiv
  have hcancel : (r : ℚ) * (1 / r) = 1 := mul_one_div_cancel hrate.ne'
  calc
    |r * tickInterval r - 1| = r * |1 / r - tickInterval r| := by
      rw [abs_sub_comm, ← abs_of_pos hrate, ← abs_mul, abs_of_pos hrate, mul_sub, hcancel]
    _ ≤ r * (1 / r / 2 ^ 24) := mul_le_mul_of_nonneg_left hdiv hrate.le
    _ = 1 / 2 ^ 24 := by rw [← mul_div_assoc, hcancel]

/-- A higher rate never has a longer interval. -/
theorem tickInterval_anti (hr : 0 < r) (h : r ≤ r') : tickInterval r' ≤ tickInterval r := by
  have hpos : (0 : ℚ) < binary32.round (r : ℚ) := one_pos.trans_le (one_le_round_rate hr)
  refine Format.round_mono (one_div_le_one_div_of_le hpos ?_)
  exact Format.round_mono (Int.cast_le.2 h)

/-- Rates that have less than `2 ^ 24` together have different intervals. -/
theorem tickInterval_strictAnti (hr : 0 < r) (h : r < r') (hsmall : r + r' < 2 ^ 24) :
    tickInterval r' < tickInterval r := by
  have hrate : (0 : ℚ) < r := Int.cast_pos.2 hr
  have hrate' : (0 : ℚ) < r' := Int.cast_pos.2 (hr.trans h)
  have hexact : binary32.round (r : ℚ) = r := round_small (abs_lt.2 ⟨by omega, by omega⟩)
  have hexact' : binary32.round (r' : ℚ) = r' := round_small (abs_lt.2 ⟨by omega, by omega⟩)
  have hn := normal_inv hr (by omega)
  have hn' := normal_inv (hr.trans h) (by omega)
  unfold tickInterval
  rw [hexact] at hn ⊢
  rw [hexact'] at hn' ⊢
  refine Format.round_lt_round (one_div_pos.2 hrate') hn' (one_div_pos.2 hrate) hn ?_
  have hsum : (r : ℚ) + r' < 2 ^ 24 * (r' - r) := by
    have hone : (1 : ℚ) ≤ r' - r := by
      have hle : ((r + 1 : ℤ) : ℚ) ≤ r' := Int.cast_le.2 h
      push_cast at hle
      linarith
    have hlt : (r : ℚ) + r' < 2 ^ 24 := by exact_mod_cast hsmall
    linarith
  calc
    1 / (r' : ℚ) + 1 / r = (r + r') / (r * r') := by field_simp
    _ < 2 ^ 24 * (r' - r) / (r * r') := div_lt_div_of_pos_right hsum (mul_pos hrate hrate')
    _ = 2 ^ 24 * (1 / r - 1 / r') := by field_simp

end Interval

/-! ## What the game sees -/

/-- For any command line the interval is that of the rate asked for, up to a part in `2 ^ 22` and
below `2 ^ 24` in `2 ^ 24`. A higher rate never gives a longer interval, and gives a shorter one
where the two rates have less than `2 ^ 24` together. -/
theorem getTickInterval_of_rate (c c' : CommandLine) :
    (0 < getTickInterval c ∧ |c.tickRate * getTickInterval c - 1| ≤ 1 / 2 ^ 22 ∧
        (c.tickRate < 2 ^ 24 → |c.tickRate * getTickInterval c - 1| ≤ 1 / 2 ^ 24)) ∧
      (c.tickRate ≤ c'.tickRate → getTickInterval c' ≤ getTickInterval c) ∧
      (c.tickRate < c'.tickRate → c.tickRate + c'.tickRate < 2 ^ 24 →
        getTickInterval c' < getTickInterval c) := by
  obtain ⟨hlow, hhigh⟩ := tickRate_bounds c
  have hpos : 0 < c.tickRate := by omega
  have herr := abs_mul_tickInterval_sub_one_le hpos hhigh
  have hinterval : 0 < tickInterval c.tickRate := by
    have hrate : (0 : ℚ) < c.tickRate := Int.cast_pos.2 hpos
    refine (mul_pos_iff_of_pos_left hrate).1 ?_
    linarith [(abs_le.1 herr).1]
  simp only [getTickInterval_eq]
  exact ⟨⟨hinterval, herr, abs_mul_tickInterval_sub_one_le_of_lt hpos⟩, tickInterval_anti hpos,
    tickInterval_strictAnti hpos⟩

/-- `g_FakeGlobals.frametime` : the literal is a `double`. -/
def fakeFrametime : ℚ :=
  binary32.round (binary64.round (33333333 / 10 ^ 9))

/-- The fake frame time is the interval of no command line : it is the `float` just below the
interval for 30. So it is longer than the intervals of exactly the rates above 30. -/
theorem fakeFrametime_lt_iff (c : CommandLine) :
    fakeFrametime ≠ getTickInterval c ∧
      (fakeFrametime < getTickInterval c ↔ c.tickRate ≤ 30) := by
  obtain ⟨hlow, hhigh⟩ := tickRate_bounds c
  have hfake : fakeFrametime = 8947848 / 2 ^ 28 := by decide +kernel
  have hthirty : tickInterval 30 = 8947849 / 2 ^ 28 := by decide +kernel
  rw [getTickInterval_eq, hfake]
  rcases le_or_gt c.tickRate 30 with hle | hgt
  · have hlt : (8947848 / 2 ^ 28 : ℚ) < tickInterval c.tickRate := by
      have hanti := tickInterval_anti (show 0 < c.tickRate by omega) hle
      rw [hthirty] at hanti
      exact lt_of_lt_of_le (by norm_num) hanti
    exact ⟨hlt.ne, iff_of_true hlt hle⟩
  · have hlt : tickInterval c.tickRate < 8947848 / 2 ^ 28 := by
      have hanti := tickInterval_anti (show 0 < (31 : ℤ) by decide) hgt
      have hone : tickInterval 31 = 8659208 / 2 ^ 28 := by decide +kernel
      rw [hone] at hanti
      exact hanti.trans_lt (by norm_num)
    exact ⟨hlt.ne', iff_of_false hlt.le.not_gt (not_le.2 hgt)⟩

variable {κ η : Type*}

/-- `gamedll->GetTickInterval`, which is `original` in the game. A hook supersedes it. -/
def L4DTickRate.tickInterval (s : L4DTickRate κ η) (e : Engine κ η) (commandLine : CommandLine)
    (original : ℚ) : ℚ :=
  if 0 < e.sourceHook.installed s.hooks e.gamedll then getTickInterval commandLine else original

/-- A `Load` that finds the game gives it the interval of the plugin, also when it fails behind
the hook. From an idle plugin `Load` and `Unload` give the game its own interval back. -/
theorem L4DTickRate.load_tickInterval (e : Engine κ η) (s : L4DTickRate κ η) (c : CommandLine)
    (original : ℚ) :
    (e.gamedll ≠ 0 → (load e s).2.tickInterval e c original = getTickInterval c) ∧
      (Idle e s → (load e s).1 = .returned true →
        (unload e (load e s).2).2.tickInterval e c original = original) := by
  constructor
  · intro hg
    have hhooks : (load e s).2.hooks = e.sourceHook.add s.hooks e.gamedll := by
      rw [load_of_gamedll_ne_zero hg, loadPatches_hooks]
      rfl
    rw [tickInterval, hhooks, e.sourceHook.installed_add, if_pos rfl, if_pos (Nat.succ_pos _)]
  · intro hi hload
    obtain ⟨-, hrestored, -⟩ := restored_unload_load hi hload
    rw [tickInterval, hrestored.hooks, hi.hooks]
    rfl

end TickrateEnabler
