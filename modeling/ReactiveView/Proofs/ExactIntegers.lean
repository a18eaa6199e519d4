import ReactiveView.Expr.Value

/-!
# Integers that are exact

Every integer below `2^53` is a binary64 number.  So a decimal integer that counts as an integer value
denotes itself, and integers are added exactly.
-/

namespace ReactiveView

namespace Binary64

theorem powTwo_add (a b : Nat) : powTwo (a + b) = powTwo a * powTwo b := Nat.pow_add 2 a b

theorem powTwo_pos (n : Nat) : 0 < powTwo n := Nat.two_pow_pos n

theorem mul_powTwo_ne_zero {n : Nat} (positive : n ≠ 0) (k : Nat) : n * powTwo k ≠ 0 :=
  Nat.mul_ne_zero positive (Nat.pos_iff_ne_zero.mp (powTwo_pos k))

theorem nearest_mul (n k : Nat) : nearest (n * powTwo k) (powTwo k) = n := by
  simp [nearest, powTwo_pos]

theorem leadingExp_mul {n : Nat} (positive : n ≠ 0) (k : Nat) :
    leadingExp (n * powTwo k) (powTwo k) = n.log2 := by
  have bits : (n * powTwo k).log2 = n.log2 + k := by
    have bounds := (Nat.log2_eq_iff positive).mp rfl
    rw [Nat.log2_eq_iff (mul_powTwo_ne_zero positive k), Nat.add_right_comm,
      Nat.pow_add 2 n.log2, Nat.pow_add 2 (n.log2 + 1)]
    exact ⟨Nat.mul_le_mul_right _ bounds.1, Nat.mul_lt_mul_of_pos_right bounds.2 (powTwo_pos k)⟩
  have one : (powTwo k).log2 = k := Nat.log2_two_pow
  have reached : powTwo k * powTwo n.log2 ≤ n * powTwo k := by
    rw [Nat.mul_comm]
    exact Nat.mul_le_mul_right _ (Nat.log2_self_le positive)
  have exponent : ((n.log2 + k : Nat) : Int) - k = n.log2 := by omega
  simp only [leadingExp, bits, one, exponent, Int.natCast_nonneg, if_true, Int.toNat_natCast,
    reached]

/-- A small integer over any power of two is rounded to itself: it is scaled until it has 53
    bits. -/
theorem round_of_lt {n : Nat} (neg : Bool) (positive : n ≠ 0) (small : n < powTwo 53) (k : Nat) :
    round neg (n * powTwo k) (powTwo k) =
      some ⟨neg, n * powTwo (52 - n.log2), -((52 - n.log2 : Nat) : Int)⟩ := by
  have bits : n.log2 ≤ 52 := by
    have : n.log2 < 53 := (Nat.log2_lt positive).mpr small
    omega
  have scaled : n * powTwo (52 - n.log2) < powTwo 53 := by
    have above : n < powTwo (n.log2 + 1) := Nat.lt_log2_self
    have split : powTwo 53 = powTwo (n.log2 + 1) * powTwo (52 - n.log2) := by
      rw [← powTwo_add]
      congr 1
      omega
    rw [split]
    exact Nat.mul_lt_mul_of_pos_right above (powTwo_pos _)
  -- the number is scaled by at most 52 bits, far from the least exponent
  have exponent : max minExp (leadingExp (n * powTwo k) (powTwo k) - 52) =
      -((52 - n.log2 : Nat) : Int) := by
    rw [leadingExp_mul positive, minExp]
    omega
  have mantissa : (if 0 ≤ -((52 - n.log2 : Nat) : Int) then
      nearest (n * powTwo k) (powTwo k * powTwo (-((52 - n.log2 : Nat) : Int)).toNat)
      else nearest (n * powTwo k * powTwo (- -((52 - n.log2 : Nat) : Int)).toNat) (powTwo k)) =
      n * powTwo (52 - n.log2) := by
    split
    next isZero =>
      have all : 52 - n.log2 = 0 := by omega
      have one : powTwo 0 = 1 := rfl
      simp [all, one, nearest_mul]
    · rw [Nat.mul_right_comm, nearest_mul]
      simp
  have inRange : ¬(maxExp < -((52 - n.log2 : Nat) : Int)) := by
    rw [maxExp]
    omega
  simp only [round, mul_powTwo_ne_zero positive k, if_false, exponent, mantissa,
    Nat.ne_of_lt scaled, inRange]

theorem toInt?_of_scaled (neg : Bool) (n k : Nat) :
    toInt? ⟨neg, n * powTwo k, -(k : Int)⟩ = some (if neg then -(n : Int) else n) := by
  have positive := powTwo_pos k
  cases k with
  | zero => simp [toInt?, signedMant, powTwo]
  | succ k =>
    have fraction : ¬(0 ≤ -((k + 1 : Nat) : Int)) := by omega
    simp only [toInt?, fraction, if_false, Int.neg_neg, Int.toNat_natCast]
    simp [Nat.mul_div_cancel n positive]

theorem exists_round (neg : Bool) {n : Nat} (small : n < integerBound) (k : Nat) :
    ∃ l, round neg (n * powTwo k) (powTwo k) = some ⟨neg, n * powTwo l, -(l : Int)⟩ := by
  by_cases isZero : n = 0
  · exact ⟨1074, by simp [round, isZero, zero, minExp]⟩
  · exact ⟨_, round_of_lt neg isZero (Nat.lt_trans small (by decide)) k⟩

/-- The binary64 number of a decimal integer that counts as an integer value. -/
theorem ofDecimal_of_lt {n : Nat} (neg : Bool) (small : n < integerBound) :
    ∃ k, ofDecimal neg n 0 = some ⟨neg, n * powTwo k, -(k : Int)⟩ := by
  by_cases isZero : n = 0
  · exact ⟨1074, by simp [ofDecimal, isZero, zero, minExp]⟩
  · have digits : (Nat.toDigits 10 n).length ≤ 16 := by
      apply (Nat.length_toDigits_le_iff (by decide) (by decide)).mpr
      exact Nat.lt_trans small (by decide)
    have tooLarge : ¬(310 < ((Nat.toDigits 10 n).length : Int)) := by omega
    have tooSmall : ¬(((Nat.toDigits 10 n).length : Int) < -330) := by omega
    simp only [ofDecimal, isZero, Int.add_zero, tooLarge, tooSmall, if_false, Int.le_refl, if_true]
    exact exists_round neg small 0

/-- The number of an integer `i`, and the significand that it has over a smaller power. -/
theorem ofInt_of_lt {i : Int} (small : i.natAbs < integerBound) :
    ∃ (x : Binary64) (k : Nat), ofInt i = some x ∧ x.exp = -(k : Int) ∧
      ∀ m : Nat, k ≤ m → x.signedAt (-(m : Int)) = i * powTwo m := by
  obtain ⟨k, isNumber⟩ := exists_round (i < 0) small 0
  rw [show powTwo 0 = 1 from rfl, Nat.mul_one] at isNumber
  refine ⟨_, k, isNumber, rfl, fun m above => ?_⟩
  have exponent : (-(k : Int) - -(m : Int)).toNat = m - k := by omega
  have power : powTwo m = powTwo k * powTwo (m - k) := by
    rw [← powTwo_add, Nat.add_sub_cancel' above]
  have mantissa : (if i < 0 then -((i.natAbs * powTwo k : Nat) : Int)
      else (i.natAbs * powTwo k : Nat)) = i * powTwo k := by
    rw [Int.natCast_mul]
    split
    next negative => rw [← Int.neg_mul, Int.ofNat_natAbs_of_nonpos (by omega), Int.neg_neg]
    next positive => rw [Int.natAbs_of_nonneg (by omega)]
  simp only [signedAt, signedMant, decide_eq_true_eq, exponent, mantissa]
  rw [power, Int.natCast_mul, Int.mul_assoc]

theorem ofScaled_of_lt (neg : Bool) {n : Nat} (small : n < integerBound) (k : Nat) :
    ∃ l, ofScaled neg (n * powTwo k) (-(k : Int)) = some ⟨neg, n * powTwo l, -(l : Int)⟩ := by
  cases k with
  | zero =>
    obtain ⟨l, isNumber⟩ := exists_round neg small 0
    exact ⟨l, by simpa [ofScaled, powTwo] using isNumber⟩
  | succ k =>
    have fraction : ¬(0 ≤ -((k + 1 : Nat) : Int)) := by omega
    simp only [ofScaled, fraction, if_false, Int.neg_neg, Int.toNat_natCast]
    exact exists_round neg small (k + 1)

end Binary64

theorem Json.ofBinary64_of_scaled (neg : Bool) {n : Nat} (small : n < integerBound) (k : Nat) :
    Json.ofBinary64 ⟨neg, n * Binary64.powTwo k, -(k : Int)⟩ =
      .num (.int (if neg then -(n : Int) else n)) := by
  have bound : (if neg then -(n : Int) else n).natAbs < integerBound := by
    cases neg with
    | false => simpa using small
    | true => simpa using small
  rw [Json.ofBinary64, Binary64.toIntBelow?, Binary64.toInt?_of_scaled, Option.filter_some,
    if_pos (decide_eq_true bound)]

/-- A decimal integer that counts as an integer value denotes itself. -/
theorem Json.ofBinary64_ofDecimal {n : Nat} (neg : Bool) (small : n < integerBound) :
    ∃ x, Binary64.ofDecimal neg n 0 = some x ∧
      Json.ofBinary64 x = .num (.int (if neg then -(n : Int) else n)) := by
  obtain ⟨k, isNumber⟩ := Binary64.ofDecimal_of_lt neg small
  exact ⟨_, isNumber, Json.ofBinary64_of_scaled neg small k⟩

/-- Integers are added exactly while the sum counts as an integer value. -/
theorem Json.plus?_int {i j : Int} (left : i.natAbs < integerBound)
    (right : j.natAbs < integerBound) (small : (i + j).natAbs < integerBound) :
    (Json.num (.int i)).plus? (.num (.int j)) = some (.num (.int (i + j))) := by
  obtain ⟨x, k, isLeft, leftExp, atLeft⟩ := Binary64.ofInt_of_lt left
  obtain ⟨y, l, isRight, rightExp, atRight⟩ := Binary64.ofInt_of_lt right
  have least : min x.exp y.exp = -((max k l : Nat) : Int) := by omega
  -- over the smaller of the two powers the significands add up to that of the sum
  have total : x.signedAt (-((max k l : Nat) : Int)) + y.signedAt (-((max k l : Nat) : Int)) =
      (i + j) * Binary64.powTwo (max k l) := by
    rw [atLeft _ (Nat.le_max_left ..), atRight _ (Nat.le_max_right ..), Int.add_mul]
  have positive : (0 : Int) < Binary64.powTwo (max k l) :=
    Int.natCast_pos.mpr (Binary64.powTwo_pos _)
  simp only [Json.plus?, Json.toBinary64?, Number.toBinary64?, isLeft, isRight, Binary64.add, least,
    total]
  split
  next isZero =>
    have none : i + j = 0 := (Int.mul_eq_zero.mp isZero).resolve_right (by omega)
    have value := Json.ofBinary64_of_scaled (x.neg && y.neg) (n := 0) (by decide) 1074
    rw [none]
    simpa [Binary64.zero, Binary64.minExp] using value
  · have magnitude : ((i + j) * Binary64.powTwo (max k l)).natAbs =
        (i + j).natAbs * Binary64.powTwo (max k l) := by
      rw [Int.natAbs_mul, Int.natAbs_natCast]
    have sign : (i + j) * (Binary64.powTwo (max k l) : Int) < 0 ↔ i + j < 0 := by
      simpa using Int.mul_lt_mul_right positive (b := i + j) (c := 0)
    obtain ⟨m, isSum⟩ := Binary64.ofScaled_of_lt (i + j < 0) small (max k l)
    simp only [magnitude, sign, isSum, Option.map_some, Json.ofBinary64_of_scaled _ small]
    have signed : (if i + j < 0 then -((i + j).natAbs : Int) else (i + j).natAbs) = i + j := by
      omega
    simp only [decide_eq_true_eq, signed]

end ReactiveView
