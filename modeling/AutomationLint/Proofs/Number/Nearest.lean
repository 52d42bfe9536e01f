import AutomationLint.Number
import Mathlib.Algebra.Order.Field.Power
import Mathlib.Data.Rat.Cast.Order
import Mathlib.Tactic.FieldSimp
import Mathlib.Tactic.Linarith
import Mathlib.Tactic.Positivity
import Mathlib.Tactic.Ring

namespace AutomationLint.Binary64

variable {x : Binary64} {num den n : Nat}

theorem two_pow : Nat.pow 2 52 = 4503599627370496 ∧ Nat.pow 2 53 = 9007199254740992 := ⟨rfl,rfl⟩

theorem magnitude_parts (x : Binary64) : x.magnitude = (x.scale + 1074).toNat * Nat.pow 2 52 + x.significand := by
  unfold scale significand
  rw [two_pow.1]
  split <;> omega

theorem significand_lt (x : Binary64) : x.significand < Nat.pow 2 53 := by
  unfold significand
  rw [two_pow.1,two_pow.2]
  split <;> omega

theorem scale_bounds (x : Binary64) : -1074 ≤ x.scale ∧ x.scale ≤ 971 := by
  have finite := x.finite
  unfold scale
  rw [two_pow.1] at *
  omega

theorem significand_ge (x : Binary64) (above : -1074 < x.scale) : Nat.pow 2 52 ≤ x.significand := by
  unfold scale at above
  unfold significand
  rw [two_pow.1] at *
  split <;> omega

theorem atPowerOfTwo_iff (x : Binary64) :
    x.atPowerOfTwo = true ↔ x.significand = Nat.pow 2 52 ∧ -1074 < x.scale := by
  unfold atPowerOfTwo scale significand
  rw [Bool.and_eq_true,beq_iff_eq,decide_eq_true_eq,two_pow.1,two_pow.2]
  split <;> omega

theorem significand_pos (nonzero : x.isZero = false) : 0 < x.significand := by
  unfold isZero at nonzero
  unfold significand
  rw [two_pow.1]
  have : x.magnitude ≠ 0 := by simpa using nonzero
  split <;> omega

def value (x : Binary64) : ℚ := (if x.negative then -1 else 1) * (x.significand * (2 : ℚ) ^ x.scale)

def zero (negative : Bool) : Binary64 := ⟨negative,0,by decide +kernel⟩

theorem isZero_iff (x : Binary64) : x.isZero = true ↔ x = zero x.negative := by
  obtain ⟨negative,magnitude,finite⟩ := x
  simp [isZero,zero]

theorem value_eq_zero (x : Binary64) : x.value = 0 ↔ x.isZero = true := by
  constructor
  · intro none
    by_contra nonzero
    have positive : (0 : ℚ) < x.significand := by exact_mod_cast significand_pos (Bool.eq_false_of_not_eq_true nonzero)
    have step : (0 : ℚ) < 2 ^ x.scale := by positivity
    have sign : (if x.negative then -1 else 1 : ℚ) ≠ 0 := by split <;> norm_num
    exact mul_ne_zero sign (mul_pos positive step).ne' none
  · intro is
    rw [isZero_iff] at is
    have empty : (zero x.negative).significand = 0 := rfl
    rw [is,value,empty]
    simp

-- The quotient is rounded to the number: it is at most half a step away, below
-- a power of two a quarter. It is for the proofs to find the exponent that
-- goes with it.
structure Rounds (x : Binary64) (v : ℚ) : Prop where
  below : (4 * x.significand - if x.atPowerOfTwo then 1 else 2) * (2 : ℚ) ^ x.scale ≤ 4 * v
  above : 4 * v ≤ (4 * x.significand + 2) * (2 : ℚ) ^ x.scale
  open_ : x.significand % 2 = 1 →
    (4 * x.significand - if x.atPowerOfTwo then 1 else 2) * (2 : ℚ) ^ x.scale < 4 * v ∧
      4 * v < (4 * x.significand + 2) * (2 : ℚ) ^ x.scale

theorem pow_toNat (b : ℚ) (nonzero : b ≠ 0) (s : Int) : b ^ s.toNat = b ^ s * b ^ (-s).toNat := by
  rw [←zpow_natCast,←zpow_natCast,←zpow_add₀ nonzero]
  congr 1
  omega

theorem roundDiv_eq (positive : 0 < den) (least : 2 * (n * den) ≤ 2 * num + den) (most : 2 * num ≤ 2 * (n * den) + den)
    (tie : n % 2 = 1 → 2 * (n * den) < 2 * num + den ∧ 2 * num < 2 * (n * den) + den) : roundDiv num den = n := by
  have split := Nat.div_add_mod num den
  have small := Nat.mod_lt num positive
  rw [Nat.mul_comm] at split
  unfold roundDiv
  dsimp only
  generalize num / den = q at *
  generalize num % den = r at *
  have reach : n = q ∨ n = q + 1 := by
    rcases Nat.lt_trichotomy n q with less | same | more
    · have := Nat.mul_le_mul_right den less
      rw [Nat.succ_mul] at this
      omega
    · exact .inl same
    · rcases Nat.lt_or_eq_of_le more with more | same
      · have := Nat.mul_le_mul_right den more
        rw [Nat.succ_mul,Nat.succ_mul] at this
        omega
      · exact .inr same.symm
  rcases reach with rfl | rfl
  · split_ifs <;> omega
  · rw [Nat.succ_mul q den] at least most tie
    split_ifs <;> omega

theorem log2Div_spec (positive : 0 < num) (some : 0 < den) :
    (2 : ℚ) ^ log2Div num den ≤ num / den ∧ num / den < (2 : ℚ) ^ (log2Div num den + 1) := by
  have two : (2 : ℚ) ≠ 0 := two_ne_zero
  have denominator : (0 : ℚ) < den := Nat.cast_pos.mpr some
  -- Both are within a factor of two of a power of two.
  have numLeast : (2 : ℚ) ^ (num.log2 : Int) ≤ num := by
    rw [zpow_natCast]
    exact_mod_cast Nat.log2_self_le (Nat.ne_of_gt positive)
  have numMost : (num : ℚ) < 2 ^ ((num.log2 : Int) + 1) := by
    rw [←Nat.cast_succ,zpow_natCast]
    exact_mod_cast Nat.lt_log2_self
  have denLeast : (2 : ℚ) ^ (den.log2 : Int) ≤ den := by
    rw [zpow_natCast]
    exact_mod_cast Nat.log2_self_le (Nat.ne_of_gt some)
  have denMost : (den : ℚ) < 2 ^ ((den.log2 : Int) + 1) := by
    rw [←Nat.cast_succ,zpow_natCast]
    exact_mod_cast Nat.lt_log2_self
  unfold log2Div
  dsimp only
  generalize estimated : (num.log2 : Int) - den.log2 = e
  have checks : den * Nat.pow 2 e.toNat ≤ num * Nat.pow 2 (-e).toNat ↔ (2 : ℚ) ^ e ≤ num / den := by
    have scaled : (0 : ℚ) < 2 ^ (-e).toNat := by positivity
    rw [le_div_iff₀ denominator,←Nat.cast_le (α := ℚ)]
    show ((den * 2 ^ e.toNat : Nat) : ℚ) ≤ (num * 2 ^ (-e).toNat : Nat) ↔ _
    push_cast
    rw [pow_toNat 2 two e,←mul_assoc,mul_le_mul_iff_left₀ scaled,mul_comm]
  have most : (num : ℚ) / den < 2 ^ (e + 1) := by
    rw [div_lt_iff₀ denominator]
    calc (num : ℚ) < 2 ^ ((num.log2 : Int) + 1) := numMost
      _ = 2 ^ (e + 1) * 2 ^ (den.log2 : Int) := by rw [←zpow_add₀ two]; congr 1; omega
      _ ≤ 2 ^ (e + 1) * den := by gcongr
  have least : (2 : ℚ) ^ (e - 1) ≤ num / den := by
    rw [le_div_iff₀ denominator]
    calc (2 : ℚ) ^ (e - 1) * den ≤ 2 ^ (e - 1) * 2 ^ ((den.log2 : Int) + 1) := by gcongr
      _ = 2 ^ (num.log2 : Int) := by rw [←zpow_add₀ two]; congr 1; omega
      _ ≤ num := numLeast
  split
  · rename_i met
    exact ⟨checks.mp met,most⟩
  · rename_i missed
    rw [checks,not_le] at missed
    exact ⟨least,by rwa [sub_add_cancel]⟩

theorem log2Div_eq (positive : 0 < num) (some : 0 < den) {e : Int} (least : (2 : ℚ) ^ e ≤ num / den)
    (most : num / den < (2 : ℚ) ^ (e + 1)) : log2Div num den = e := by
  obtain ⟨low,high⟩ := log2Div_spec positive some
  have up := (zpow_lt_zpow_iff_right₀ (one_lt_two (α := ℚ))).mp (least.trans_lt high)
  have down := (zpow_lt_zpow_iff_right₀ (one_lt_two (α := ℚ))).mp (low.trans_lt most)
  omega

theorem roundDiv_steps (num n : Nat) (some : 0 < den) (t : Int) (least : (2 * n - 1) * (2 : ℚ) ^ t ≤ 2 * (num / den))
    (most : 2 * (num / den) ≤ (2 * n + 1) * (2 : ℚ) ^ t)
    (tie : n % 2 = 1 → (2 * n - 1) * (2 : ℚ) ^ t < 2 * (num / den) ∧ 2 * (num / den) < (2 * n + 1) * (2 : ℚ) ^ t) :
    roundDiv (num * Nat.pow 2 (-t).toNat) (den * Nat.pow 2 t.toNat) = n := by
  have denominator : (0 : ℚ) < den := Nat.cast_pos.mpr some
  obtain ⟨c,positive,numerator,steps⟩ : ∃ c : ℚ, 0 < c ∧ ((num * Nat.pow 2 (-t).toNat : Nat) : ℚ) = num / den * c ∧
      ((den * Nat.pow 2 t.toNat : Nat) : ℚ) = 2 ^ t * c := by
    refine ⟨den * 2 ^ (-t).toNat,by positivity,?_,?_⟩
    · show ((num * 2 ^ (-t).toNat : Nat) : ℚ) = _
      push_cast
      field_simp
    · show ((den * 2 ^ t.toNat : Nat) : ℚ) = _
      push_cast
      rw [pow_toNat 2 two_ne_zero t]
      ring
  generalize num * Nat.pow 2 (-t).toNat = a at *
  generalize den * Nat.pow 2 t.toNat = b at *
  have filled : 0 < b := by
    have : (0 : ℚ) < b := steps ▸ mul_pos (zpow_pos two_pos t) positive
    exact_mod_cast this
  generalize (num : ℚ) / den = v at *
  generalize (2 : ℚ) ^ t = p at *
  have low : (2 * (n * b) ≤ 2 * a + b) := by
    have := mul_le_mul_of_nonneg_right least positive.le
    have : (2 * (n * b) : ℚ) ≤ 2 * a + b := by rw [numerator,steps]; linarith
    exact_mod_cast this
  have high : (2 * a ≤ 2 * (n * b) + b) := by
    have := mul_le_mul_of_nonneg_right most positive.le
    have : (2 * a : ℚ) ≤ 2 * (n * b) + b := by rw [numerator,steps]; linarith
    exact_mod_cast this
  refine roundDiv_eq filled low high fun odd => ?_
  obtain ⟨less,more⟩ := tie odd
  refine ⟨?_,?_⟩
  · have := mul_lt_mul_of_pos_right less positive
    have : (2 * (n * b) : ℚ) < 2 * a + b := by rw [numerator,steps]; linarith
    exact_mod_cast this
  · have := mul_lt_mul_of_pos_right more positive
    have : (2 * a : ℚ) < 2 * (n * b) + b := by rw [numerator,steps]; linarith
    exact_mod_cast this

theorem step_within (positive : 0 < num) (some : 0 < den) (rounds : Rounds x (num / den))
    (above : -1074 < x.scale → (2 : ℚ) ^ (x.scale + 52) ≤ num / den) :
    max (log2Div num den - 52) (-1074) = x.scale := by
  obtain ⟨low,high⟩ := log2Div_spec positive some
  have bound : (num : ℚ) / den < 2 ^ (x.scale + 53) := by
    have limit : (x.significand : ℚ) + 1 ≤ 2 ^ (53 : Int) := by
      have := significand_lt x
      rw [two_pow.2] at this
      norm_num
      exact_mod_cast this
    have step : (0 : ℚ) < 2 ^ x.scale := by positivity
    rw [zpow_add₀ two_ne_zero]
    nlinarith [rounds.above]
  have upper := (zpow_lt_zpow_iff_right₀ (one_lt_two (α := ℚ))).mp (low.trans_lt bound)
  have least := (scale_bounds x).1
  rcases Int.lt_or_eq_of_le least with inner | at_
  · have lower := (zpow_lt_zpow_iff_right₀ (one_lt_two (α := ℚ))).mp ((above inner).trans_lt high)
    omega
  · omega

theorem nearest_inside (positive : 0 < num) (some : 0 < den) (rounds : Rounds x (num / den))
    (inside : x.atPowerOfTwo = true → (2 : ℚ) ^ (x.scale + 52) ≤ num / den) :
    nearestQuotient num den = x.magnitude := by
  obtain ⟨below,above,tie⟩ := rounds
  have step : (0 : ℚ) < 2 ^ x.scale := by positivity
  have power : (2 : ℚ) ^ (x.scale + 52) = 4503599627370496 * 2 ^ x.scale := by
    rw [zpow_add₀ two_ne_zero,mul_comm]
    norm_num
  cases at_ : x.atPowerOfTwo with
  | true =>
    obtain ⟨same,_⟩ := (atPowerOfTwo_iff x).mp at_
    have filled := inside at_
    have chosen := step_within positive some ⟨below,above,tie⟩ fun _ => filled
    have even : ¬x.significand % 2 = 1 := by rw [same]; decide
    have value : (x.significand : ℚ) = 4503599627370496 := by rw [same,two_pow.1]; norm_num
    rw [power] at filled
    rw [value] at above
    have round := roundDiv_steps num x.significand some x.scale (by rw [value]; linarith) (by rw [value]; linarith)
      fun odd => absurd odd even
    unfold nearestQuotient
    dsimp only
    rw [chosen,round]
    exact (magnitude_parts x).symm
  | false =>
    rw [at_,if_neg Bool.false_ne_true] at below tie
    have further : -1074 < x.scale → (2 : ℚ) ^ (x.scale + 52) ≤ num / den := by
      intro higher
      have least := significand_ge x higher
      have other : x.significand ≠ Nat.pow 2 52 := fun same =>
        Bool.false_ne_true (at_.symm.trans ((atPowerOfTwo_iff x).mpr ⟨same,higher⟩))
      rw [two_pow.1] at least other
      have next : (4503599627370497 : ℚ) ≤ x.significand := by
        have : 4503599627370497 ≤ x.significand := by omega
        exact_mod_cast this
      rw [power]
      nlinarith
    have chosen := step_within positive some ⟨by rwa [at_,if_neg Bool.false_ne_true],above,by
      rwa [at_,if_neg Bool.false_ne_true]⟩ further
    have round := roundDiv_steps num x.significand some x.scale (by linarith) (by linarith) fun odd =>
      ⟨by linarith [(tie odd).1],by linarith [(tie odd).2]⟩
    unfold nearestQuotient
    dsimp only
    rw [chosen,round]
    exact (magnitude_parts x).symm

-- Below a power of two the steps are half as long, and the count of them is
-- rounded up to that power.
theorem nearest_below (positive : 0 < num) (some : 0 < den) (rounds : Rounds x (num / den))
    (at_ : x.atPowerOfTwo = true) (less : num / den < (2 : ℚ) ^ (x.scale + 52)) :
    nearestQuotient num den = x.magnitude := by
  obtain ⟨same,higher⟩ := (atPowerOfTwo_iff x).mp at_
  have below := rounds.below
  have step : (0 : ℚ) < 2 ^ (x.scale - 1) := by positivity
  have double : (2 : ℚ) ^ x.scale = 2 ^ (x.scale - 1) * 2 := by
    rw [←zpow_add_one₀ two_ne_zero]
    congr 1
    omega
  have value : (x.significand : ℚ) = 4503599627370496 := by rw [same,two_pow.1]; norm_num
  rw [at_,if_pos rfl,value,double] at below
  have power : (2 : ℚ) ^ (x.scale + 52) = 9007199254740992 * 2 ^ (x.scale - 1) := by
    rw [show x.scale + 52 = x.scale - 1 + 53 by omega,zpow_add₀ two_ne_zero,mul_comm]
    norm_num
  have half : (2 : ℚ) ^ (x.scale + 51) ≤ num / den := by
    rw [show x.scale + 51 = x.scale - 1 + 52 by omega,zpow_add₀ two_ne_zero]
    norm_num
    linarith
  have exponent : log2Div num den = x.scale + 51 :=
    log2Div_eq positive some half (by rw [show x.scale + 51 + 1 = x.scale + 52 by omega]; exact less)
  rw [power] at less
  have round := roundDiv_steps num (Nat.pow 2 53) some (x.scale - 1) (by rw [two_pow.2]; norm_num; linarith)
    (by rw [two_pow.2]; norm_num; linarith) fun odd => absurd odd (by decide)
  have chosen : max (log2Div num den - 52) (-1074) = x.scale - 1 := by omega
  unfold nearestQuotient
  dsimp only
  rw [chosen,round,magnitude_parts x,same,two_pow.1,two_pow.2]
  omega

theorem nearestQuotient_eq (positive : 0 < num) (some : 0 < den) (rounds : Rounds x (num / den)) :
    nearestQuotient num den = x.magnitude := by
  by_cases less : x.atPowerOfTwo = true ∧ num / den < (2 : ℚ) ^ (x.scale + 52)
  · exact nearest_below positive some rounds less.1 less.2
  · exact nearest_inside positive some rounds fun at_ => not_lt.mp fun below => less ⟨at_,below⟩

theorem decimalDigits_bounds (positive : 0 < n) :
    (10 : ℚ) ^ ((decimalDigits n : Int) - 1) ≤ n ∧ (n : ℚ) < 10 ^ (decimalDigits n : Int) := by
  have some : 0 < decimalDigits n := Nat.length_toDigits_pos
  have bound : ∀ k, 0 < k → (decimalDigits n ≤ k ↔ n < 10 ^ k) := fun k => Nat.length_toDigits_le_iff (by decide)
  refine ⟨?_,?_⟩
  · rw [show (decimalDigits n : Int) - 1 = (decimalDigits n - 1 : Nat) by omega,zpow_natCast]
    rcases Nat.eq_or_lt_of_le some with one | more
    · rw [←one]
      exact_mod_cast positive
    · have := (bound (decimalDigits n - 1) (by omega)).not.mp (by omega)
      exact_mod_cast Nat.not_lt.mp this
  · rw [zpow_natCast]
    exact_mod_cast (bound _ some).mp (Nat.le_refl _)

theorem two_pow_le {m k : Nat} (known : Nat.pow 2 m ≤ Nat.pow 10 k) : (2 : ℚ) ^ (m : Int) ≤ 10 ^ (k : Int) := by
  rw [zpow_natCast,zpow_natCast]
  exact_mod_cast known

theorem ten_pow_le {m k : Nat} (known : Nat.pow 10 m ≤ Nat.pow 2 k) : (10 : ℚ) ^ (m : Int) ≤ 2 ^ (k : Int) := by
  rw [zpow_natCast,zpow_natCast]
  exact_mod_cast known

theorem rounds_bounds {v : ℚ} (nonzero : x.isZero = false) (rounds : Rounds x v) :
    (10 : ℚ) ^ (-324 : Int) ≤ v ∧ v < (10 : ℚ) ^ (309 : Int) := by
  obtain ⟨low,high⟩ := scale_bounds x
  have step : (0 : ℚ) < 2 ^ x.scale := by positivity
  refine ⟨?_,?_⟩
  · have one : (1 : ℚ) ≤ x.significand := by exact_mod_cast significand_pos nonzero
    have least : (2 : ℚ) ^ (-1074 : Int) ≤ 2 ^ x.scale := zpow_le_zpow_right₀ one_le_two low
    have ten : (10 : ℚ) ^ (-324 : Int) * 2 ≤ 2 ^ (-1074 : Int) := by
      rw [zpow_neg,zpow_neg,inv_mul_le_iff₀ (by positivity),le_mul_inv_iff₀ (by positivity),mul_comm,
        ←zpow_add_one₀ two_ne_zero]
      exact two_pow_le (m := 1075) (k := 324) (by decide +kernel)
    have below : (2 : ℚ) * 2 ^ x.scale ≤ 4 * v := by
      refine le_trans ?_ rounds.below
      gcongr
      split <;> linarith
    linarith
  · have limit : (x.significand : ℚ) + 1 ≤ 2 ^ 53 := by exact_mod_cast significand_lt x
    have most : (2 : ℚ) ^ x.scale ≤ 2 ^ (971 : Int) := zpow_le_zpow_right₀ one_le_two high
    have above : v < 2 ^ x.scale * 2 ^ (53 : Int) := by nlinarith [rounds.above]
    calc v < 2 ^ x.scale * 2 ^ (53 : Int) := above
      _ ≤ 2 ^ (971 : Int) * 2 ^ (53 : Int) := by gcongr
      _ = 2 ^ (1024 : Int) := (zpow_add₀ two_ne_zero _ _).symm
      _ ≤ 10 ^ (309 : Int) := two_pow_le (m := 1024) (k := 309) (by decide +kernel)

theorem nearest?_eq (nonzero : x.isZero = false) (positive : 0 < n) {e : Int} (rounds : Rounds x (n * (10 : ℚ) ^ e)) :
    nearest? x.negative n e = some x := by
  obtain ⟨least,most⟩ := rounds_bounds nonzero rounds
  obtain ⟨low,high⟩ := decimalDigits_bounds positive
  have ten : (1 : ℚ) < 10 := by norm_num
  have power : (0 : ℚ) < 10 ^ e := by positivity
  -- The order of magnitude is that of the number.
  have above : (-324 : Int) < decimalDigits n + e := by
    refine (zpow_lt_zpow_iff_right₀ ten).mp (least.trans_lt ?_)
    rw [zpow_add₀ (by norm_num)]
    gcongr
  have below : (decimalDigits n : Int) - 1 + e < 309 := by
    refine (zpow_lt_zpow_iff_right₀ ten).mp (lt_of_le_of_lt ?_ most)
    rw [zpow_add₀ (by norm_num)]
    gcongr
  have quotient : ((n * Nat.pow 10 e.toNat : Nat) : ℚ) / (Nat.pow 10 (-e).toNat : Nat) = n * 10 ^ e := by
    show ((n * 10 ^ e.toNat : Nat) : ℚ) / (10 ^ (-e).toNat : Nat) = _
    push_cast
    rw [pow_toNat 10 (by norm_num) e]
    field_simp
  have nearest := nearestQuotient_eq (x := x) (Nat.mul_pos positive (Nat.pow_pos (by decide)))
    (Nat.pow_pos (n := (-e).toNat) (by decide : 0 < 10)) (quotient ▸ rounds)
  have magnitude : nearestMagnitude n e = some x.magnitude := by
    unfold nearestMagnitude
    dsimp only
    rw [if_neg (Nat.ne_of_gt positive),if_neg (by omega),if_neg (by omega)]
    exact congrArg some nearest
  unfold nearest?
  rw [magnitude]
  exact dif_pos x.finite

-- A quotient by one is taken for no number near the least scale, so its
-- exponent field is not empty.
theorem nearestQuotient_one (num : Nat) : 0 < nearestQuotient num 1 := by
  have least : -1 ≤ log2Div num 1 := by
    have one : Nat.log2 1 = 0 := rfl
    unfold log2Div
    dsimp only
    rw [one]
    split <;> omega
  unfold nearestQuotient
  dsimp only
  have field : 1 ≤ (max (log2Div num 1 - 52) (-1074) + 1074).toNat := by omega
  exact Nat.add_pos_left (Nat.mul_pos field (Nat.pow_pos (by decide))) _

theorem nearestMagnitude_pos {m : Nat} (positive : 0 < n) (chosen : nearestMagnitude n 0 = some m) : 0 < m := by
  have digits : 0 < decimalDigits n := Nat.length_toDigits_pos
  unfold nearestMagnitude at chosen
  dsimp only at chosen
  rw [if_neg (Nat.ne_of_gt positive),if_neg (by omega)] at chosen
  split at chosen
  · cases chosen
  · cases chosen
    exact nearestQuotient_one _

theorem ofInt?_isZero {n : Int} (taken : ofInt? n = some x) : x.isZero = true ↔ n = 0 := by
  constructor
  · intro is
    by_contra nonzero
    unfold ofInt? nearest? at taken
    split at taken
    · rename_i m chosen
      have positive := nearestMagnitude_pos (Int.natAbs_pos.mpr nonzero) chosen
      split at taken
      · cases taken
        exact absurd (beq_iff_eq.mp is) (Nat.ne_of_gt positive)
      · cases taken
    · cases taken
  · rintro rfl
    cases taken
    rfl

end AutomationLint.Binary64
