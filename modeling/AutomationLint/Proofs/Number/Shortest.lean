import AutomationLint.Number
import AutomationLint.Proofs.Number.Nearest
import AutomationLint.Proofs.Text

namespace AutomationLint.Binary64

variable {x : Binary64} {n : Nat} {k : Int}

namespace Interval

def shrunk (i : Interval) (k : Int) : Interval :=
  let shrink := Nat.pow 10 (-k).toNat
  ⟨i.low * shrink,i.value * shrink,i.high * shrink,i.den,i.closed⟩

def step (i : Interval) (k : Int) : Nat := i.den * Nat.pow 10 k.toNat

def nearer (value step : Nat) : Nat :=
  let below := value / step
  let gap := 2 * (value % step)
  if gap < step then below else if step < gap then below + 1 else below + below % 2

def other (value step : Nat) : Nat := if nearer value step = value / step then value / step + 1 else value / step

theorem multiple?_eq (i : Interval) (k : Int) : i.multiple? k =
    if (i.shrunk k).holds (nearer (i.shrunk k).value (i.step k)) (i.step k) then
      some (nearer (i.shrunk k).value (i.step k))
    else if (i.shrunk k).holds (other (i.shrunk k).value (i.step k)) (i.step k) then
      some (other (i.shrunk k).value (i.step k))
    else none := rfl

theorem multiple_holds {i : Interval} (found : i.multiple? k = some n) : (i.shrunk k).holds n (i.step k) = true := by
  rw [multiple?_eq] at found
  split at found
  · rename_i inside
    exact Option.some.inj found ▸ inside
  · split at found
    · rename_i inside
      exact Option.some.inj found ▸ inside
    · cases found

theorem nearer_close (value : Nat) {step : Nat} (positive : 0 < step) :
    2 * value ≤ 2 * (nearer value step * step) + step ∧ 2 * (nearer value step * step) ≤ 2 * value + step := by
  have split := Nat.div_add_mod value step
  have small := Nat.mod_lt value positive
  rw [Nat.mul_comm] at split
  unfold nearer
  dsimp only
  generalize value / step = below at *
  generalize value % step = gap at *
  have next : (below + 1) * step = below * step + step := Nat.succ_mul below step
  split_ifs
  · omega
  · omega
  · rcases Nat.mod_two_eq_zero_or_one below with even | odd
    · rw [even,Nat.add_zero]
      omega
    · rw [odd]
      omega

-- Where a step is shorter than twice the way to either end, a multiple lies
-- inside.
theorem multiple_found {i : Interval} (positive : 0 < i.step k)
    (low : 2 * (i.shrunk k).low + i.step k < 2 * (i.shrunk k).value)
    (high : 2 * (i.shrunk k).value + i.step k < 2 * (i.shrunk k).high) : ∃ n, i.multiple? k = some n := by
  obtain ⟨below,above⟩ := nearer_close (i.shrunk k).value positive
  have inside : (i.shrunk k).holds (nearer (i.shrunk k).value (i.step k)) (i.step k) = true := by
    unfold holds
    split
    · simp only [Bool.and_eq_true,decide_eq_true_eq]
      omega
    · simp only [Bool.and_eq_true,decide_eq_true_eq]
      omega
  exact ⟨_,by rw [multiple?_eq,if_pos inside]⟩

theorem search_found (i : Interval) (fuel : Nat) (k : Int) (last : ∃ n, i.multiple? (k - fuel) = some n) :
    ∃ n j, i.search (fuel + 1) k = (n,j) ∧ i.multiple? j = some n := by
  induction fuel generalizing k with
  | zero =>
    obtain ⟨n,found⟩ := last
    rw [Int.natCast_zero,Int.sub_zero] at found
    exact ⟨n,k,by rw [search,found],found⟩
  | succ fuel ih =>
    cases found : i.multiple? k with
    | some n => exact ⟨n,k,by rw [search,found],found⟩
    | none =>
      have := ih (k - 1) (by rwa [Int.sub_sub,Int.add_comm 1,←Int.natCast_succ])
      rw [search,found]
      exact this

end Interval

theorem units (nonzero : x.isZero = false) (k : Int) : ∃ c : ℚ, 0 < c ∧
    ((x.interval.shrunk k).low : ℚ) = (4 * x.significand - if x.atPowerOfTwo then 1 else 2) * 2 ^ x.scale * c ∧
    ((x.interval.shrunk k).value : ℚ) = 4 * x.significand * 2 ^ x.scale * c ∧
    ((x.interval.shrunk k).high : ℚ) = (4 * x.significand + 2) * 2 ^ x.scale * c ∧
    (x.interval.step k : ℚ) = 4 * 10 ^ k * c := by
  have up := pow_toNat 2 two_ne_zero x.scale
  have shrink := pow_toNat 10 (by norm_num) k
  have ends : (if x.atPowerOfTwo then 1 else 2) ≤ 4 * x.significand := by
    have := significand_pos nonzero
    split <;> omega
  refine ⟨2 ^ (-x.scale).toNat * 10 ^ (-k).toNat,by positivity,?_,?_,?_,?_⟩
  · show (((4 * x.significand - if x.atPowerOfTwo then 1 else 2) * 2 ^ x.scale.toNat * 10 ^ (-k).toNat : Nat) : ℚ) = _
    push_cast [Nat.cast_sub ends]
    rw [up]
    ring
  · show ((4 * x.significand * 2 ^ x.scale.toNat * 10 ^ (-k).toNat : Nat) : ℚ) = _
    push_cast
    rw [up]
    ring
  · show (((4 * x.significand + 2) * 2 ^ x.scale.toNat * 10 ^ (-k).toNat : Nat) : ℚ) = _
    push_cast
    rw [up]
    ring
  · show ((4 * 2 ^ (-x.scale).toNat * 10 ^ k.toNat : Nat) : ℚ) = _
    push_cast
    rw [shrink]
    ring

theorem rounds_of_holds (nonzero : x.isZero = false) (inside : (x.interval.shrunk k).holds n (x.interval.step k) = true) :
    Rounds x (n * (10 : ℚ) ^ k) := by
  obtain ⟨c,positive,low,_,high,step⟩ := units nonzero k
  have value : ((n * x.interval.step k : Nat) : ℚ) = 4 * (n * 10 ^ k) * c := by
    push_cast
    rw [step]
    ring
  have least : ((x.interval.shrunk k).low : ℚ) ≤ (n * x.interval.step k : Nat) →
      (4 * x.significand - if x.atPowerOfTwo then 1 else 2) * (2 : ℚ) ^ x.scale ≤ 4 * (n * 10 ^ k) := fun le => by
    rw [low,value] at le
    exact le_of_mul_le_mul_right le positive
  have most : ((n * x.interval.step k : Nat) : ℚ) ≤ (x.interval.shrunk k).high →
      4 * (n * (10 : ℚ) ^ k) ≤ (4 * x.significand + 2) * 2 ^ x.scale := fun le => by
    rw [high,value] at le
    exact le_of_mul_le_mul_right le positive
  have closed : (x.interval.shrunk k).closed = (x.significand % 2 == 0) := rfl
  unfold Interval.holds at inside
  rw [closed] at inside
  split at inside
  · rename_i even
    simp only [Bool.and_eq_true,decide_eq_true_eq] at inside
    refine ⟨least (Nat.cast_le.mpr inside.1),most (Nat.cast_le.mpr inside.2),fun odd => ?_⟩
    rw [odd] at even
    exact absurd even (by decide)
  · simp only [Bool.and_eq_true,decide_eq_true_eq] at inside
    have less : ((x.interval.shrunk k).low : ℚ) < (n * x.interval.step k : Nat) := Nat.cast_lt.mpr inside.1
    have more : ((n * x.interval.step k : Nat) : ℚ) < (x.interval.shrunk k).high := Nat.cast_lt.mpr inside.2
    refine ⟨least less.le,most more.le,fun _ => ?_⟩
    rw [low,value] at less
    rw [high,value] at more
    exact ⟨lt_of_mul_lt_mul_right less positive.le,lt_of_mul_lt_mul_right more positive.le⟩

theorem multiple_of_fine (nonzero : x.isZero = false) (fine : (10 : ℚ) ^ k < 2 ^ (x.scale - 1)) :
    ∃ n, x.interval.multiple? k = some n := by
  obtain ⟨c,positive,low,value,high,step⟩ := units nonzero k
  have double : (2 : ℚ) ^ x.scale = 2 ^ (x.scale - 1) * 2 := by
    rw [←zpow_add_one₀ two_ne_zero]
    congr 1
    omega
  have power : (0 : ℚ) < 2 ^ (x.scale - 1) := by positivity
  have scaled := mul_lt_mul_of_pos_right fine positive
  have filled : 0 < x.interval.step k := by
    have : (0 : ℚ) < x.interval.step k := by rw [step]; positivity
    exact_mod_cast this
  have quarter : (1 : ℚ) ≤ if x.atPowerOfTwo then 1 else 2 := by split <;> norm_num
  refine Interval.multiple_found filled ?_ ?_
  · have : (2 * (x.interval.shrunk k).low + x.interval.step k : ℚ) < 2 * (x.interval.shrunk k).value := by
      rw [low,value,step,double]
      nlinarith [mul_pos power positive]
    exact_mod_cast this
  · have : (2 * (x.interval.shrunk k).value + x.interval.step k : ℚ) < 2 * (x.interval.shrunk k).high := by
      rw [value,high,step,double]
      nlinarith [mul_pos power positive]
    exact_mod_cast this

-- The ratio by which digits are estimated is so close to the true one that no
-- power of two in range is a digit off.
theorem estimate_le (b : Int) (small : b ≤ 100000) : (10 : ℚ) ^ (b * 30103 / 100000) ≤ 2 ^ (b + 1) := by
  have least : (2 : ℚ) ^ (100000 : Int) ≤ 10 ^ (30103 : Int) := two_pow_le (m := 100000) (k := 30103) (by decide +kernel)
  have most : (10 : ℚ) ^ (30103 : Int) ≤ 2 ^ (100001 : Int) := ten_pow_le (m := 30103) (k := 100001) (by decide +kernel)
  have floor : b * 30103 / 100000 * 100000 ≤ 30103 * b := by omega
  refine (pow_le_pow_iff_left₀ (by positivity) (by positivity) (by decide : 100000 ≠ 0)).mp ?_
  rw [←zpow_natCast,←zpow_natCast,←zpow_mul,←zpow_mul]
  calc (10 : ℚ) ^ (b * 30103 / 100000 * (100000 : Nat)) ≤ 10 ^ (30103 * b) :=
        zpow_le_zpow_right₀ (by norm_num) floor
    _ = (10 ^ (30103 : Int)) ^ b := zpow_mul _ _ _
    _ ≤ 2 ^ (100000 * b + 100000) := ?_
    _ = 2 ^ ((b + 1) * (100000 : Nat)) := congrArg (fun e : Int => (2 : ℚ) ^ e) (by omega)
  rcases Int.le_total 0 b with up | down
  · calc ((10 : ℚ) ^ (30103 : Int)) ^ b ≤ (2 ^ (100001 : Int)) ^ b := zpow_le_zpow_left₀ up (by positivity) most
      _ = 2 ^ (100001 * b) := (zpow_mul _ _ _).symm
      _ ≤ 2 ^ (100000 * b + 100000) := zpow_le_zpow_right₀ one_le_two (by omega)
  · have away := zpow_le_zpow_left₀ (Int.neg_nonneg_of_nonpos down) (by positivity) least
    calc ((10 : ℚ) ^ (30103 : Int)) ^ b = ((10 ^ (30103 : Int)) ^ (-b))⁻¹ := by rw [zpow_neg,inv_inv]
      _ ≤ ((2 ^ (100000 : Int)) ^ (-b))⁻¹ := inv_anti₀ (by positivity) away
      _ = 2 ^ (100000 * b) := by rw [zpow_neg,inv_inv,zpow_mul]
      _ ≤ 2 ^ (100000 * b + 100000) := zpow_le_zpow_right₀ one_le_two (by omega)

theorem last_fine (x : Binary64) (nonzero : x.isZero = false) :
    (10 : ℚ) ^ ((x.significand.log2 + x.scale + 1) * 30103 / 100000 + 1 - (23 : Nat)) < 2 ^ (x.scale - 1) := by
  obtain ⟨low,high⟩ := scale_bounds x
  have digits : x.significand.log2 < 53 := (Nat.log2_lt (Nat.ne_of_gt (significand_pos nonzero))).mpr (significand_lt x)
  generalize bits : (x.significand.log2 : Int) + x.scale + 1 = b
  have slack : (2 : ℚ) ^ (55 : Int) < 10 ^ (22 : Int) := by norm_num
  have power : (0 : ℚ) < 10 ^ (22 : Int) := by positivity
  rw [show b * 30103 / 100000 + 1 - (23 : Nat) = b * 30103 / 100000 - 22 by omega,zpow_sub₀ (by norm_num),
    div_lt_iff₀ power]
  calc (10 : ℚ) ^ (b * 30103 / 100000) ≤ 2 ^ (b + 1) := estimate_le b (by omega)
    _ ≤ 2 ^ (x.scale - 1 + 55) := zpow_le_zpow_right₀ one_le_two (by omega)
    _ = 2 ^ (x.scale - 1) * 2 ^ (55 : Int) := zpow_add₀ two_ne_zero _ _
    _ < 2 ^ (x.scale - 1) * 10 ^ (22 : Int) := by gcongr

theorem shortest_rounds (nonzero : x.isZero = false) : ∃ n k, x.shortest = (n,k) ∧ 0 < n ∧ Rounds x (n * (10 : ℚ) ^ k) := by
  obtain ⟨n,k,chosen,found⟩ := x.interval.search_found 23 ((x.significand.log2 + x.scale + 1) * 30103 / 100000 + 1)
    (multiple_of_fine nonzero (last_fine x nonzero))
  have rounds := rounds_of_holds nonzero (Interval.multiple_holds found)
  refine ⟨n,k,chosen,Nat.pos_of_ne_zero fun zero => ?_,rounds⟩
  obtain ⟨least,_⟩ := rounds_bounds nonzero rounds
  rw [zero,Nat.cast_zero,zero_mul] at least
  exact absurd least (not_le.mpr (by positivity))

end AutomationLint.Binary64

namespace AutomationLint
open Binary64

namespace Decimal

variable {whole places tail digits : List Char} {n : Nat}

theorem digitsValue_eq (cs : List Char) : digitsValue cs = Nat.ofDigitChars 10 cs 0 := by
  rw [Nat.ofDigitChars_eq_foldl]
  unfold digitsValue
  congr 1
  funext n c
  rw [Nat.mul_comm]
  rfl

@[simp] theorem digitsValue_digitsOf (n : Nat) : digitsValue (digitsOf n) = n := by
  rw [digitsValue_eq]
  exact Nat.ofDigitChars_ten_toDigits

@[simp] theorem digitsValue_zeros (cs : List Char) (k : Nat) : digitsValue (cs ++ zeros k) = digitsValue cs * 10 ^ k := by
  rw [digitsValue_eq,digitsValue_eq,Nat.ofDigitChars_append,zeros,Nat.ofDigitChars_replicate_zero,Nat.mul_comm]

@[simp] theorem digitsValue_zeros_append (k : Nat) (cs : List Char) : digitsValue (zeros k ++ cs) = digitsValue cs := by
  rw [digitsValue_eq,digitsValue_eq,Nat.ofDigitChars_append,zeros,Nat.ofDigitChars_replicate_zero,Nat.mul_zero]

theorem digitsOf_digits (n : Nat) : ∀ c ∈ digitsOf n, c.isDigit = true := fun _ member =>
  Nat.isDigit_of_mem_toDigits (by decide) (by decide) member

theorem readExponent_written (order : Int) :
    readExponent? ('e' :: (if order < 0 then '-' else '+') :: digitsOf order.natAbs) = some order := by
  have some : (digitsOf order.natAbs).isEmpty = false := by simp [digitsOf,Nat.toDigits_ne_nil]
  have figures : (digitsOf order.natAbs).all Char.isDigit = true := List.all_eq_true.mpr (digitsOf_digits _)
  unfold readExponent?
  split
  · cases ‹_›
  · rename_i c rest same
    obtain ⟨rfl,rfl⟩ := List.cons.inj same
    by_cases negative : order < 0
    · rw [if_pos negative]
      simp only [splitSign,some,figures,digitsValue_digitsOf,beq_self_eq_true,Bool.true_or,Bool.not_false,Bool.and_self,
        if_true,Option.some.injEq]
      omega
    · rw [if_neg negative]
      simp only [splitSign,some,figures,digitsValue_digitsOf,beq_self_eq_true,Bool.true_or,Bool.not_false,Bool.and_self,
        if_true,if_neg Bool.false_ne_true,Option.some.injEq]
      omega

structure Tail (order : Int) (tail : List Char) : Prop where
  ends : ∀ c, tail.head? = some c → c.isDigit = false ∧ c ≠ '.'
  read : readExponent? tail = some order

theorem tail_none : Tail 0 [] := ⟨nofun,rfl⟩

theorem tail_exponent (order : Int) : Tail order ('e' :: (if order < 0 then '-' else '+') :: digitsOf order.natAbs) := by
  refine ⟨?_,readExponent_written order⟩
  intro c head
  obtain rfl := Option.some.inj head
  decide

theorem read_pointed {order : Int} (wholes : ∀ c ∈ whole, c.isDigit = true) (some : whole ≠ [])
    (figures : ∀ c ∈ places, c.isDigit = true) (is : Tail order tail) :
    readMagnitude? (whole ++ '.' :: (places ++ tail)) = .some (digitsValue (whole ++ places),order - places.length) := by
  have point : ∀ c, ('.' :: (places ++ tail)).head? = .some c → c.isDigit = false := by
    intro c head
    obtain rfl := Option.some.inj head
    decide
  obtain ⟨front,back⟩ := Text.takeExactly wholes point
  obtain ⟨taken,left⟩ := Text.takeExactly figures fun c head => (is.ends c head).1
  have filled : whole.isEmpty = false := by simp [some]
  unfold readMagnitude?
  simp only [front,back,taken,left,filled,Bool.false_and,if_neg Bool.false_ne_true,is.read,Option.map_some]

theorem read_whole {order : Int} (wholes : ∀ c ∈ whole, c.isDigit = true) (some : whole ≠ []) (is : Tail order tail) :
    readMagnitude? (whole ++ tail) = .some (digitsValue whole,order) := by
  obtain ⟨front,back⟩ := Text.takeExactly wholes fun c head => (is.ends c head).1
  have filled : whole.isEmpty = false := by simp [some]
  unfold readMagnitude?
  simp only [front,back,filled,Bool.false_and,if_neg Bool.false_ne_true]
  split
  · exact absurd rfl (is.ends '.' rfl).2
  · simp only [is.read,Option.map_some,List.append_nil,List.length_nil,Int.natCast_zero,Int.sub_zero]

end Decimal

namespace Binary64

variable {x : Binary64} {n : Nat} {k : Int}

-- The same decimal, perhaps with zeros behind it: it may be written with more
-- digits than it was chosen with, and with an exponent that is less by as
-- many.
def Same (n : Nat) (k : Int) (read : Option (Nat × Int)) : Prop := ∃ j : Nat, read = some (n * 10 ^ j,k - j)

theorem Same.of {read : Option (Nat × Int)} {value : Nat} {exponent : Int} (is : read = some (value,exponent)) (j : Nat)
    (scaled : value = n * 10 ^ j) (less : exponent = k - j) : Same n k read :=
  ⟨j,by rw [is,scaled,less]⟩

theorem positional_read (n : Nat) (k : Int) : Same n k (Decimal.readMagnitude? (positional (digitsOf n) k)) := by
  have digits := Decimal.digitsOf_digits n
  have some : digitsOf n ≠ [] := Nat.toDigits_ne_nil
  have zero : ∀ m, ∀ c ∈ zeros m, c.isDigit = true := fun m c member => by rw [List.eq_of_mem_replicate member]; decide
  unfold positional
  split
  · have wholes : ∀ c ∈ digitsOf n ++ zeros k.toNat, c.isDigit = true := fun c member =>
      (List.mem_append.mp member).elim (digits c) (zero _ c)
    refine .of (Decimal.read_pointed wholes (by simp [some]) (zero 1) Decimal.tail_none) (k.toNat + 1) ?_ ?_
    · rw [Decimal.digitsValue_zeros,Decimal.digitsValue_zeros,Decimal.digitsValue_digitsOf,Nat.mul_assoc,←Nat.pow_add]
    · simp only [zeros,List.length_replicate]
      omega
  · dsimp only
    split
    · rename_i short
      have front : (digitsOf n).take ((digitsOf n).length - (-k).toNat) ≠ [] := by
        rw [←List.length_pos_iff,List.length_take]
        omega
      rw [←List.append_nil ((digitsOf n).drop _)]
      refine .of (Decimal.read_pointed (fun c member => digits c (List.mem_of_mem_take member)) front
        (fun c member => digits c (List.mem_of_mem_drop member)) Decimal.tail_none) 0 ?_ ?_
      · rw [List.take_append_drop,Decimal.digitsValue_digitsOf]
        simp
      · rw [List.length_drop]
        omega
    · have places : ∀ c ∈ zeros ((-k).toNat - (digitsOf n).length) ++ digitsOf n, c.isDigit = true := fun c member =>
        (List.mem_append.mp member).elim (zero _ c) (digits c)
      have text : ['0','.'] ++ zeros ((-k).toNat - (digitsOf n).length) ++ digitsOf n =
          zeros 1 ++ '.' :: (zeros ((-k).toNat - (digitsOf n).length) ++ digitsOf n ++ []) := by simp [zeros]
      rw [text]
      refine .of (Decimal.read_pointed (zero 1) (List.cons_ne_nil _ _) places Decimal.tail_none) 0 ?_ ?_
      · rw [Decimal.digitsValue_zeros_append,Decimal.digitsValue_zeros_append,Decimal.digitsValue_digitsOf]
        simp
      · simp only [zeros,List.length_append,List.length_replicate]
        omega

theorem scientific_read (form : Form) (n : Nat) (k : Int) :
    Same n k (Decimal.readMagnitude? (scientific form (digitsOf n) (k + (digitsOf n).length - 1))) := by
  have digits := Decimal.digitsOf_digits n
  have value := Decimal.digitsValue_digitsOf n
  generalize same : k + (digitsOf n).length - 1 = order
  have exponent := Decimal.tail_exponent order
  obtain ⟨d,rest,parts⟩ := List.exists_cons_of_ne_nil (Nat.toDigits_ne_nil (n := n) (b := 10))
  rw [digitsOf,parts] at digits value same ⊢
  have first : ∀ c ∈ [d], c.isDigit = true := fun c member => digits c (List.mem_singleton.mp member ▸ List.mem_cons_self)
  have later : ∀ c ∈ rest, c.isDigit = true := fun c member => digits c (List.mem_cons_of_mem d member)
  unfold scientific
  cases rest with
  | nil =>
    dsimp only
    split
    · have zero : ∀ c ∈ zeros 1, c.isDigit = true := fun c member => by rw [List.eq_of_mem_replicate member]; decide
      have pointed := Decimal.read_pointed first (List.cons_ne_nil d []) zero exponent
      refine .of pointed 1 ?_ ?_
      · rw [Decimal.digitsValue_zeros,value]
      · simp only [zeros,List.length_replicate,List.length_singleton] at same ⊢
        omega
    · refine .of (Decimal.read_whole first (List.cons_ne_nil _ _) exponent) 0 ?_ ?_
      · rw [value]
        simp
      · simp only [List.length_singleton] at same
        omega
  | cons e rest =>
    refine .of (Decimal.read_pointed first (List.cons_ne_nil _ _) later exponent) 0 ?_ ?_
    · rw [List.singleton_append,value]
      simp
    · simp only [List.length_cons] at same ⊢
      omega

theorem magnitudeText_read (form : Form) {x : Binary64} (nonzero : x.isZero = false) (chosen : x.shortest = (n,k)) :
    Same n k (Decimal.readMagnitude? (x.magnitudeText form)) := by
  unfold magnitudeText
  rw [nonzero,if_neg Bool.false_ne_true,chosen]
  dsimp only
  split
  · exact positional_read n k
  · exact scientific_read form n k

theorem magnitudeText_nearest (form : Form) (x : Binary64) :
    ∃ n k, Decimal.readMagnitude? (x.magnitudeText form) = some (n,k) ∧ nearest? x.negative n k = some x := by
  cases zero : x.isZero with
  | true =>
    unfold magnitudeText
    rw [zero,if_pos rfl]
    refine ⟨0,-1,by decide +kernel,?_⟩
    obtain ⟨negative,magnitude,finite⟩ := x
    obtain rfl : magnitude = 0 := by simpa [isZero] using zero
    have none : nearestMagnitude 0 (-1) = some 0 := rfl
    unfold nearest?
    rw [none]
    exact dif_pos finite
  | false =>
    obtain ⟨n,k,chosen,positive,rounds⟩ := shortest_rounds zero
    obtain ⟨j,read⟩ := magnitudeText_read form zero chosen
    refine ⟨_,_,read,nearest?_eq zero (Nat.mul_pos positive (Nat.pow_pos (by decide))) ?_⟩
    have scaled : ((n * 10 ^ j : Nat) : ℚ) * 10 ^ (k - j) = n * 10 ^ k := by
      push_cast
      rw [zpow_sub₀ (by norm_num),zpow_natCast]
      field_simp
    exact scaled ▸ rounds

end Binary64

end AutomationLint
