import DocQuery.Tree.Number
import Mathlib

/-!
# Numbers that are equal

Equality of doubles is transitive, and so is equality of integers. Between the two kinds it depends
on which integers a double is equal to.

* `Double.eq_of_beq_ofInt`: below `2 ^ 53` in size every whole number has a double of its own;
* `Number.same_iff_of_between`: a chain of two equalities closes unless it leads from one integer
  by a double to another;
* `Number.eq_of_between`: below `2 ^ 53` in size no double leads to another integer.
-/

namespace DocQuery

open Float.Model Float.Model.UnpackedFloat

namespace Double

variable {m n : Nat} {e i j : Int}

/-! ## Significands of 53 digits -/

/-- A significand of 53 binary digits, and an exponent that fits into a double. -/
structure Normal (m : Nat) (e : Int) : Prop where
  least : 2 ^ 52 ≤ m
  most : m < 2 ^ 53
  low : -1074 ≤ e
  high : e ≤ 971

namespace Normal

theorem pos (h : Normal m e) : 0 < m :=
  Nat.lt_of_lt_of_le (Nat.two_pow_pos 52) h.least

theorem log2_eq (h : Normal m e) (k : Nat) : (m * 2 ^ k).log2 = 52 + k := by
  have pos : 0 < 2 ^ k := Nat.two_pow_pos k
  rw [Nat.log2_eq_iff (Nat.mul_pos h.pos pos).ne']
  constructor
  · rw [Nat.pow_add]
    exact Nat.mul_le_mul_right _ h.least
  · rw [Nat.add_right_comm, Nat.pow_add]
    exact Nat.mul_lt_mul_of_pos_right h.most pos

end Normal

/-- Digits that are all zero are dropped without a trace. -/
theorem shiftRight_zeros (m k : Nat) :
    ExtendedMantissa.ofMantissaAndAccuracy (m * 2 ^ k) .exact >>> k = ⟨m, false, false⟩ := by
  show k.repeat ExtendedMantissa.shiftRightOne ⟨m * 2 ^ k, false, false⟩ = _
  induction k generalizing m with
  | zero => simp [Nat.repeat]
  | succ k ih =>
    have even : m * 2 ^ (k + 1) = m * 2 * 2 ^ k := by
      rw [Nat.pow_succ, Nat.mul_assoc, Nat.mul_comm 2]
    rw [even, Nat.repeat, ih]
    simp [ExtendedMantissa.shiftRightOne]

/-- Rounding keeps 53 digits, whatever zeros stand behind them. -/
theorem Normal.roundWithAccuracy_eq (h : Normal m e) (s : Sign) (k : Nat) :
    roundWithAccuracy .binary64 s (m * 2 ^ k) (e - k) .exact = .finite s m e h.pos := by
  have low := h.low
  have shift (k : Nat) : shiftToTargetExponent .binary64 (m * 2 ^ k) (e - k) .exact =
      (⟨m, false, false⟩, e) := by
    have target : Format.binary64.targetExponent (totalExponent (m * 2 ^ k) (e - k)) = e := by
      rw [totalExponent, h.log2_eq]
      simp only [Format.targetExponent, Format.mantissaBits, Format.minExponent]
      omega
    have amount : (e - (e - k)).toNat = k := by omega
    rw [shiftToTargetExponent, target, shiftToExponent, amount, shiftRight_zeros]
    simp
  have again : shiftToTargetExponent .binary64 m e .exact = (⟨m, false, false⟩, e) := by
    simpa using shift 0
  have rounded : ExtendedMantissa.roundedMantissa ⟨m, false, false⟩ = m := rfl
  simp only [roundWithAccuracy, shift, rounded, again]
  rw [dif_neg h.pos.ne']

/-- What is stored as a double is found again. -/
theorem Normal.unpack_pack (h : Normal m e) (s : Sign) :
    (Float.Model.pack (.finite s m e h.pos)).unpack = .finite s m e h.pos := by
  have ⟨least, most, low, high⟩ := h
  obtain ⟨biased, hb⟩ : ∃ biased : Nat, (biased : Int) = e + 1075 := ⟨(e + 1075).toNat, by omega⟩
  have bias : (Format.binary64.exponentBias : Int) = 1023 := rfl
  have exponent : (BitVec.ofNat 11 biased).toNat = biased := by
    rw [BitVec.toNat_ofNat, Nat.mod_eq_of_lt (by omega)]
  -- The two exponents of the other kinds of doubles are not reached.
  have notInfinite : BitVec.ofNat 11 biased ≠ -1#11 := by
    intro ones
    have all : biased = 2047 := exponent.symm.trans (congrArg BitVec.toNat ones)
    omega
  have notSmall : BitVec.ofNat 11 biased ≠ 0#11 := by
    intro zeros
    have none : biased = 0 := exponent.symm.trans (congrArg BitVec.toNat zeros)
    omega
  have mantissa : (1#1 ++ BitVec.ofNat 52 m).toNat = m := by
    rw [BitVec.toNat_append, ← Nat.shiftLeft_add_eq_or_of_lt (BitVec.ofNat 52 m).isLt,
      BitVec.toNat_ofNat, BitVec.toNat_ofNat, Nat.shiftLeft_eq]
    omega
  have stored : UnpackedFloat.pack .binary64 (.finite s m e h.pos) =
      packComponents .binary64 s (BitVec.ofNat 11 biased) (BitVec.ofNat 52 m) := by
    have digits : m.log2 = 52 := by simpa using h.log2_eq 0
    have field : (e + Format.binary64.exponentBias +
        Format.binary64.mantissaBitsWithoutImplicit).toNat = biased := by
      rw [bias]
      show (e + 1023 + 52).toNat = biased
      omega
    simp only [UnpackedFloat.pack, digits, field]
    rw [if_neg (by omega), if_pos (show 52 + 1 = Format.binary64.mantissaBits from rfl)]
  show UnpackedFloat.unpack .binary64 (UnpackedFloat.pack .binary64 (.finite s m e h.pos)) = _
  simp only [stored, UnpackedFloat.unpack, unpackMantissa_packComponents,
    unpackExponent_packComponents, unpackSign_packComponents, Sign.ofBitVec_toBitVec,
    if_neg notInfinite, if_neg notSmall, mantissa, exponent, bias, UnpackedFloat.finite.injEq,
    true_and]
  omega

/-- The double one. -/
theorem Normal.mul_one (h : Normal m e) :
    UnpackedFloat.mul .binary64 (.finite .positive m e h.pos)
        (Float.ofBits 0x3FF0000000000000).toModel.unpack = .finite .positive m e h.pos := by
  have one : (Float.ofBits 0x3FF0000000000000).toModel.unpack =
      .finite .positive (2 ^ 52) (-52) (by decide) := rfl
  rw [one]
  exact h.roundWithAccuracy_eq .positive 52

/-! ## Whole numbers -/

theorem normal_scaled (pos : 0 < n) (small : n < 2 ^ 53) :
    Normal (n * 2 ^ (52 - n.log2)) (n.log2 - 52) := by
  have digits : n.log2 ≤ 52 := Nat.le_of_lt_succ ((Nat.log2_lt pos.ne').2 small)
  have scaled : 2 ^ n.log2 * 2 ^ (52 - n.log2) = 2 ^ 52 := by
    rw [← Nat.pow_add, Nat.add_sub_cancel' digits]
  refine ⟨?_, ?_, by omega, by omega⟩
  · rw [← scaled]
    exact Nat.mul_le_mul_right _ (Nat.log2_self_le pos.ne')
  · have twice : 2 ^ (n.log2 + 1) * 2 ^ (52 - n.log2) = 2 ^ 53 := by
      rw [Nat.pow_succ, Nat.mul_right_comm, scaled, ← Nat.pow_succ]
    rw [← twice]
    exact Nat.mul_lt_mul_of_pos_right Nat.lt_log2_self (Nat.two_pow_pos _)

theorem round_whole (pos : 0 < n) (small : n < 2 ^ 53) :
    UnpackedFloat.round .binary64 .positive n 0 =
      .finite .positive (n * 2 ^ (52 - n.log2)) (n.log2 - 52) (normal_scaled pos small).pos := by
  have digits : n.log2 ≤ 52 := Nat.le_of_lt_succ ((Nat.log2_lt pos.ne').2 small)
  have target : Format.binary64.targetExponent (totalExponent n 0) = n.log2 - 52 := by
    simp only [Format.targetExponent, totalExponent, Format.mantissaBits, Format.minExponent]
    omega
  have amount : (0 - ((n.log2 : Int) - 52)).toNat = 52 - n.log2 := by omega
  have exponent : 0 - ((52 - n.log2 : Nat) : Int) = n.log2 - 52 := by omega
  have exact := (normal_scaled pos small).roundWithAccuracy_eq .positive 0
  simp only [UnpackedFloat.round, decreaseExponent, target, amount, exponent, Nat.shiftLeft_eq]
  simpa using exact

/-- A whole number of at most 53 digits is converted without loss. -/
theorem unpack_ofNat (pos : 0 < n) (small : n < 2 ^ 53) : (Float.ofNat n).toModel.unpack =
    .finite .positive (n * 2 ^ (52 - n.log2)) (n.log2 - 52) (normal_scaled pos small).pos := by
  have normal := normal_scaled pos small
  have word : n.toUInt64.toNat = n := UInt64.toNat_ofNat_of_lt (Nat.lt_trans small (by decide))
  have read : n.toUInt64.toFloat.toModel.unpack =
      .finite .positive (n * 2 ^ (52 - n.log2)) (n.log2 - 52) normal.pos := by
    have sign : compare (n : Int) 0 = .gt := Int.compare_eq_gt.2 (by omega)
    show (Float.Model.pack
      (UnpackedFloat.normalize .binary64 n.toUInt64.toNat 0 .positive)).unpack = _
    rw [word, UnpackedFloat.normalize, sign]
    simp only [Int.toNat_natCast, round_whole pos small, normal.unpack_pack]
  -- A number as small as this is multiplied by one and not scaled.
  have product : Float.ofNat n = n.toUInt64.toFloat * Float.ofBits 0x3FF0000000000000 := by
    show Float.ofScientific n false 0 = _
    rw [Float.ofScientific, dif_pos ⟨small, by decide⟩]
    rfl
  rw [product]
  show (Float.Model.pack (UnpackedFloat.mul .binary64 n.toUInt64.toFloat.toModel.unpack
    (Float.ofBits 0x3FF0000000000000).toModel.unpack)).unpack = _
  rw [read, normal.mul_one, normal.unpack_pack]

def sign (i : Int) : Sign :=
  if i < 0 then .negative else .positive

theorem unpack_ofInt (nonzero : i ≠ 0) (small : i.natAbs < 2 ^ 53) :
    (Float.ofInt i).toModel.unpack =
      .finite (sign i) (i.natAbs * 2 ^ (52 - i.natAbs.log2)) (i.natAbs.log2 - 52)
        (normal_scaled (Int.natAbs_pos.2 nonzero) small).pos := by
  cases i with
  | ofNat n => exact unpack_ofNat (Int.natAbs_pos.2 nonzero) small
  | negSucc n =>
    have negative : sign (Int.negSucc n) = .negative := if_pos (Int.negSucc_lt_zero n)
    show (Float.Model.pack (Float.ofNat (n + 1)).toModel.unpack.neg).unpack = _
    rw [unpack_ofNat (Nat.succ_pos n) small, negative]
    exact (normal_scaled (Nat.succ_pos n) small).unpack_pack .negative

theorem eq_of_sign_eq (size : i.natAbs = j.natAbs) (same : sign i = sign j) : i = j := by
  rw [sign, sign] at same
  split at same <;> split at same <;> first | omega | cases same

/-- Two small whole numbers have different doubles. -/
theorem eq_of_beq_ofInt (hi : i.natAbs < 2 ^ 53) (hj : j.natAbs < 2 ^ 53)
    (h : (Float.ofInt i == Float.ofInt j) = true) : i = j := by
  have unpacked : (Float.ofInt i).toModel.unpack.beq (Float.ofInt j).toModel.unpack = true := h
  obtain ⟨-, -, same⟩ := (beq_iff_ne_notANumber_and_eq _ _).1 unpacked
  have zero : (Float.ofInt 0).toModel.unpack = .zero .positive := rfl
  by_cases i0 : i = 0 <;> by_cases j0 : j = 0
  · rw [i0, j0]
  · simp [i0, zero, unpack_ofInt j0 hj] at same
  · simp [j0, zero, unpack_ofInt i0 hi] at same
  · simp only [unpack_ofInt i0 hi, unpack_ofInt j0 hj, UnpackedFloat.finite.injEq, reduceCtorEq,
      and_self, or_self, or_false] at same
    obtain ⟨signs, digits, exponents⟩ := same
    have length : i.natAbs.log2 = j.natAbs.log2 := by omega
    rw [length] at digits
    exact eq_of_sign_eq (Nat.eq_of_mul_eq_mul_right (Nat.two_pow_pos _) digits) signs

end Double

namespace Number

variable {a b c : Number}

/-- The only chain that need not close leads from an integer by a double to an integer. -/
theorem same_iff_of_between (first : a.same b = true) (second : b.same c = true) :
    a.same c = true ↔
      ∀ m x n, a = .integer m → b = .float x → c = .integer n → m = n := by
  cases a with
  | float y =>
    refine iff_of_true ?_ (fun _ _ _ h => by cases h)
    cases b with
    | float => exact BEq.trans first second
    | integer m =>
      cases c with
      | float => exact BEq.trans first second
      | integer n =>
        obtain rfl : m = n := eq_of_beq second
        exact first
  | integer m =>
    cases b with
    | integer m' =>
      obtain rfl : m = m' := eq_of_beq first
      exact iff_of_true second (fun _ _ _ _ h => by cases h)
    | float x =>
      cases c with
      | float => exact iff_of_true (BEq.trans first second) (fun _ _ _ _ _ h => by cases h)
      | integer n =>
        have exact : same (.integer m) (.integer n) = true ↔ m = n := beq_iff_eq
        rw [exact]
        constructor
        · rintro rfl m' x' n' ⟨⟩ - ⟨⟩
          rfl
        · exact fun h => h m x n rfl rfl rfl

theorem eq_of_between {m n : Int64} {x : Float} (hm : m.toInt.natAbs < 2 ^ 53)
    (hn : n.toInt.natAbs < 2 ^ 53) (first : same (.integer m) (.float x) = true)
    (second : same (.float x) (.integer n) = true) : m = n :=
  Int64.toInt_inj.1 (Double.eq_of_beq_ofInt hm hn (BEq.trans first second))

end Number

end DocQuery
