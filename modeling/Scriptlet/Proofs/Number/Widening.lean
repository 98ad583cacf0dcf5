import Mathlib

/-!
# Integers as doubles

A double holds 53 significant bits, so an integer that needs more of them is
rounded when it becomes one: to the nearest integer of 53 significant bits, halves
to the even one (`Number.nearest`). Up to 2 ^ 53 nothing is lost
(`nearest_of_lt`), and from there on rounding stays there (`le_nearest`).

The doubles themselves are taken apart into sign, significant bits and exponent.
`Number.Denotes` says which number such parts stand for when they are in the one
form that packing keeps (`Denotes.unpack_pack`), and there is only one such form for
a number (`Denotes.unique`). Rounding gives that form (`denotes_round`), so two
integers become equal doubles just when they round to one integer
(`ofInt_beq_ofInt`).
-/

namespace Scriptlet

namespace Number

open Float.Model Float.Model.UnpackedFloat

/-! ## Rounding -/

/-- `n / 2 ^ k` to the nearest natural number, halves to the even one. -/
def roundShift (n k : Nat) : Nat :=
  if 2 * (n % 2 ^ k) < 2 ^ k then n / 2 ^ k
  else if 2 * (n % 2 ^ k) = 2 ^ k then n / 2 ^ k + n / 2 ^ k % 2
  else n / 2 ^ k + 1

/-- The number of bits that a double has no place for. -/
def excess (n : Nat) : Nat := n.log2 - 52

/-- The nearest number of 53 significant bits. -/
def nearest (n : Nat) : Nat := roundShift n (excess n) * 2 ^ excess n

/-- Integers are rounded by their size. -/
def nearestInt (n : Int) : Int := if n < 0 then -nearest n.natAbs else nearest n.natAbs

theorem roundShift_zero (n : Nat) : roundShift n 0 = n := by simp [roundShift, Nat.mod_one]

theorem le_roundShift (n k : Nat) : n / 2 ^ k ≤ roundShift n k := by
  unfold roundShift
  split_ifs <;> omega

theorem roundShift_le (n k : Nat) : roundShift n k ≤ n / 2 ^ k + 1 := by
  unfold roundShift
  split_ifs <;> omega

/-- Zeros at the end of both numbers do not matter. -/
theorem roundShift_mul (n k a : Nat) : roundShift (n * 2 ^ a) (k + a) = roundShift n k := by
  have hpos : 0 < 2 ^ a := Nat.two_pow_pos a
  have hmod : 2 * (n * 2 ^ a % (2 ^ k * 2 ^ a)) = 2 * (n % 2 ^ k) * 2 ^ a := by
    rw [Nat.mul_mod_mul_right, Nat.mul_assoc]
  have hdiv : n * 2 ^ a / (2 ^ k * 2 ^ a) = n / 2 ^ k := Nat.mul_div_mul_right _ _ hpos
  simp only [roundShift, Nat.pow_add, hmod, hdiv, Nat.mul_lt_mul_right hpos,
    Nat.mul_left_inj (Nat.ne_of_gt hpos)]

theorem nearest_of_lt {n : Nat} (h : n < 2 ^ 53) : nearest n = n := by
  have hlog : n.log2 < 53 := by
    by_cases hzero : n = 0
    · simp [hzero]
    · exact (Nat.log2_lt hzero).mpr h
  have hexcess : excess n = 0 := by
    unfold excess
    omega
  rw [nearest, hexcess, roundShift_zero, Nat.pow_zero, Nat.mul_one]

theorem log2_mul_two_pow {n : Nat} (h : n ≠ 0) (a : Nat) : (n * 2 ^ a).log2 = n.log2 + a := by
  induction a with
  | zero => rw [Nat.pow_zero, Nat.mul_one, Nat.add_zero]
  | succ a ih =>
      have hne : n * 2 ^ a ≠ 0 := Nat.mul_ne_zero h (Nat.ne_of_gt (Nat.two_pow_pos a))
      rw [Nat.pow_succ', Nat.mul_left_comm, Nat.log2_two_mul hne, ih, Nat.add_assoc]

theorem ne_zero_of_log2 {n : Nat} (h : 52 ≤ n.log2) : n ≠ 0 := by
  rintro rfl
  simp at h

theorem log2_eq_excess {n : Nat} (h : 52 ≤ n.log2) : n.log2 = 52 + excess n := by
  unfold excess
  omega

theorem nearest_mul {n : Nat} (h : 52 ≤ n.log2) (a : Nat) :
    nearest (n * 2 ^ a) = nearest n * 2 ^ a := by
  have hexcess : excess (n * 2 ^ a) = excess n + a := by
    rw [excess, log2_mul_two_pow (ne_zero_of_log2 h), log2_eq_excess h]
    omega
  rw [nearest, nearest, hexcess, roundShift_mul, Nat.pow_add, Nat.mul_assoc]

/-- 53 bits are left of a number, or rounding carries over into one more. -/
theorem roundShift_excess {n : Nat} (h : 52 ≤ n.log2) :
    2 ^ 52 ≤ roundShift n (excess n) ∧ roundShift n (excess n) ≤ 2 ^ 53 := by
  have hlow : 2 ^ 52 ≤ n / 2 ^ excess n := by
    rw [Nat.le_div_iff_mul_le (Nat.two_pow_pos _), ← Nat.pow_add, ← log2_eq_excess h]
    exact Nat.log2_self_le (ne_zero_of_log2 h)
  have hhigh : n / 2 ^ excess n < 2 ^ 53 := by
    rw [Nat.div_lt_iff_lt_mul (Nat.two_pow_pos _), ← Nat.pow_add, Nat.add_right_comm 52 1,
      ← log2_eq_excess h]
    exact Nat.lt_log2_self
  exact ⟨hlow.trans (le_roundShift _ _), (roundShift_le _ _).trans hhigh⟩

theorem le_nearest {n : Nat} (h : 2 ^ 53 ≤ n) : 2 ^ 53 ≤ nearest n := by
  have hlog : 53 ≤ n.log2 := (Nat.le_log2 (by omega)).mpr h
  have hbits : 52 ≤ n.log2 := by omega
  calc 2 ^ 53 ≤ 2 ^ n.log2 := Nat.pow_le_pow_right (by decide) hlog
    _ = 2 ^ 52 * 2 ^ excess n := by rw [log2_eq_excess hbits, Nat.pow_add]
    _ ≤ nearest n := Nat.mul_le_mul_right _ (roundShift_excess hbits).1

theorem nearest_pos {n : Nat} (h : 0 < n) : 0 < nearest n := by
  by_cases hlt : n < 2 ^ 53
  · rwa [nearest_of_lt hlt]
  · exact (Nat.two_pow_pos 53).trans_le (le_nearest (Nat.le_of_not_lt hlt))

theorem natAbs_nearestInt (n : Int) : (nearestInt n).natAbs = nearest n.natAbs := by
  unfold nearestInt
  split_ifs <;> omega

theorem nearestInt_of_lt {n : Int} (h : n.natAbs < 2 ^ 53) : nearestInt n = n := by
  rw [nearestInt, nearest_of_lt h]
  split_ifs <;> omega

theorem nearestInt_eq_zero {n : Int} : nearestInt n = 0 ↔ n = 0 := by
  constructor
  · intro h
    by_contra hne
    have hpos := nearest_pos (Int.natAbs_pos.mpr hne)
    rw [← natAbs_nearestInt, h] at hpos
    exact absurd hpos (by decide)
  · rintro rfl
    rfl

/-! ## Shifting out bits -/

theorem shiftRight_succ (x : ExtendedMantissa) (k : Nat) :
    x >>> (k + 1) = (x >>> k).shiftRightOne := rfl

theorem mantissa_shiftRight (x : ExtendedMantissa) (k : Nat) :
    (x >>> k).mantissa = x.mantissa / 2 ^ k := by
  induction k with
  | zero => simp [HShiftRight.hShiftRight, Nat.repeat]
  | succ k ih =>
      rw [shiftRight_succ, ExtendedMantissa.shiftRightOne, ih, Nat.div_div_eq_div_mul, Nat.pow_succ]

/-- The bits shifted out of a number make its remainder: the round bit says whether
this is at least one half, the sticky bit whether there is more to it. -/
theorem residue_shiftRight (n k : Nat) :
    ((⟨n, false, false⟩ : ExtendedMantissa) >>> k).roundBit = decide (2 ^ k ≤ 2 * (n % 2 ^ k)) ∧
      ((⟨n, false, false⟩ : ExtendedMantissa) >>> k).stickyBit
        = decide (2 * (n % 2 ^ k) % 2 ^ k ≠ 0) := by
  induction k with
  | zero => simp [HShiftRight.hShiftRight, Nat.repeat, Nat.mod_one]
  | succ k ih =>
      have hlt : n % 2 ^ k < 2 ^ k := Nat.mod_lt _ (Nat.two_pow_pos k)
      have hbit : n / 2 ^ k % 2 < 2 := Nat.mod_lt _ (by decide)
      have hmod : n % 2 ^ (k + 1) = n % 2 ^ k + 2 ^ k * (n / 2 ^ k % 2) := by
        rw [Nat.pow_succ, Nat.mod_mul]
      obtain ⟨hround, hsticky⟩ := ih
      rw [shiftRight_succ, hmod, Nat.pow_succ']
      simp only [ExtendedMantissa.shiftRightOne, hround, hsticky, mantissa_shiftRight]
      generalize n / 2 ^ k % 2 = b at *
      generalize n % 2 ^ k = r at *
      generalize 2 ^ k = p at *
      have htwice : 2 * (r + p * b) % (2 * p) = 2 * r := by
        rw [Nat.mul_mod_mul_left, Nat.add_mul_mod_self_left, Nat.mod_eq_of_lt hlt]
      rw [htwice, ← Bool.decide_or]
      constructor
      · obtain rfl | rfl : b = 0 ∨ b = 1 := by omega
        · simp
          omega
        · simp
      · rw [decide_eq_decide]
        by_cases hhalf : p ≤ 2 * r
        · simp [hhalf]
          omega
        · simp [hhalf, Nat.mod_eq_of_lt (Nat.lt_of_not_le hhalf)]

theorem roundedMantissa_mk (q : Nat) (b c : Bool) :
    (⟨q, b, c⟩ : ExtendedMantissa).roundedMantissa
      = if b = true then (if c = true then q + 1 else q + q % 2) else q := by
  cases b <;> cases c <;> rfl

/-- Shifting and then rounding by the bits shifted out is rounding the quotient. -/
theorem roundedMantissa_shiftRight (n k : Nat) :
    ((⟨n, false, false⟩ : ExtendedMantissa) >>> k).roundedMantissa = roundShift n k := by
  obtain ⟨hround, hsticky⟩ := residue_shiftRight n k
  have hmantissa := mantissa_shiftRight ⟨n, false, false⟩ k
  generalize (⟨n, false, false⟩ : ExtendedMantissa) >>> k = x at *
  obtain ⟨q, b, c⟩ := x
  subst hmantissa hround hsticky
  have hlt : n % 2 ^ k < 2 ^ k := Nat.mod_lt _ (Nat.two_pow_pos k)
  simp only [roundedMantissa_mk, roundShift, decide_eq_true_eq]
  rcases Nat.lt_trichotomy (2 * (n % 2 ^ k)) (2 ^ k) with hbelow | hhalf | habove
  · rw [if_neg (Nat.not_le.mpr hbelow), if_pos hbelow]
  · rw [if_pos hhalf.ge, if_neg hhalf.not_lt, if_pos hhalf, hhalf, Nat.mod_self]
    exact if_neg (fun h => h rfl)
  · have hrest : 2 * (n % 2 ^ k) % 2 ^ k ≠ 0 := by
      rw [Nat.mod_eq_sub_mod habove.le, Nat.mod_eq_of_lt] <;> omega
    rw [if_pos habove.le, if_pos hrest, if_neg habove.not_gt, if_neg habove.ne']

/-! ## Canonical doubles -/

/-- A double of this sign with 53 significant bits and the number that they stand
for, in the range of exponents where there are that many. -/
inductive Denotes (s : Sign) : UnpackedFloat → ℚ → Prop where
  | normal (m : Nat) (e : Int) (hpos : 0 < m) : 2 ^ 52 ≤ m → m < 2 ^ 53 → -1074 ≤ e → e ≤ 971 →
      Denotes s (.finite s m e hpos) (m * 2 ^ e)

variable {s : Sign} {u w : UnpackedFloat} {v : ℚ}

/-- Of two ways to write a number, that with the larger exponent would have too few
bits. -/
theorem exponent_le {m m' : Nat} {e e' : Int} (hlow : 2 ^ 52 ≤ m') (hhigh : m < 2 ^ 53)
    (h : (m : ℚ) * 2 ^ e = m' * 2 ^ e') : e' ≤ e := by
  by_contra hlt
  obtain ⟨d, rfl⟩ : ∃ d : Nat, e' = e + (d + 1 : Nat) := ⟨(e' - e - 1).toNat, by omega⟩
  have hpow : (2 : ℚ) ^ e ≠ 0 := zpow_ne_zero _ (by norm_num)
  have hm : m = m' * 2 ^ (d + 1) := by
    rw [zpow_add₀ (by norm_num), zpow_natCast, mul_comm ((2 : ℚ) ^ e), ← mul_assoc] at h
    exact_mod_cast mul_right_cancel₀ hpow h
  have hmore : m' * 2 ≤ m := by
    rw [hm, Nat.pow_succ', ← Nat.mul_assoc]
    exact Nat.le_mul_of_pos_right _ (Nat.two_pow_pos d)
  omega

theorem Denotes.unique (hu : Denotes s u v) (hw : Denotes s w v) : u = w := by
  obtain ⟨m, e, hpos, hlow, hhigh, -, -⟩ := hu
  generalize hv : (m : ℚ) * 2 ^ e = v at hw
  obtain ⟨m', e', hpos', hlow', hhigh', -, -⟩ := hw
  obtain rfl : e = e' := le_antisymm (exponent_le hlow hhigh' hv.symm) (exponent_le hlow' hhigh hv)
  have hpow : (2 : ℚ) ^ e ≠ 0 := zpow_ne_zero _ (by norm_num)
  obtain rfl : m = m' := by exact_mod_cast mul_right_cancel₀ hpow hv
  rfl

/-- The first of 53 bits is left out of the packed form and put back. -/
theorem toNat_implicit {m : Nat} (hlow : 2 ^ 52 ≤ m) (hhigh : m < 2 ^ 53) :
    (1#1 ++ BitVec.ofNat 52 m).toNat = m := by
  rw [BitVec.toNat_append, ← Nat.shiftLeft_add_eq_or_of_lt (BitVec.isLt _), BitVec.toNat_ofNat,
    Nat.shiftLeft_eq, BitVec.toNat_ofNat]
  omega

theorem pack_normal (s : Sign) {m : Nat} {e : Int} (hpos : 0 < m) (hlow : 2 ^ 52 ≤ m)
    (hhigh : m < 2 ^ 53) (hmost : e ≤ 971) : UnpackedFloat.pack .binary64 (.finite s m e hpos)
      = packComponents .binary64 s (BitVec.ofNat 11 (e + 1075).toNat) (BitVec.ofNat 52 m) := by
  have hlog : m.log2 = 52 := (Nat.log2_eq_iff (Nat.ne_of_gt hpos)).mpr ⟨hlow, hhigh⟩
  have hbias : (e + Format.binary64.exponentBias
      + Format.binary64.mantissaBitsWithoutImplicit).toNat = (e + 1075).toNat := by
    show (e + 1023 + 52).toNat = (e + 1075).toNat
    omega
  have hwidth : 52 + 1 = Format.binary64.mantissaBits := rfl
  rw [UnpackedFloat.pack]
  simp only [hlog, hbias]
  rw [if_neg (by omega), if_pos hwidth]

theorem Denotes.unpack_pack (h : Denotes s u v) : (Float.Model.pack u).unpack = u := by
  obtain ⟨m, e, hpos, hlow, hhigh, hleast, hmost⟩ := h
  have hbits : (BitVec.ofNat 11 (e + 1075).toNat).toNat = (e + 1075).toNat := by
    rw [BitVec.toNat_ofNat, Nat.mod_eq_of_lt]
    omega
  -- the exponent is neither that of infinity nor that of fewer bits
  have hones : BitVec.ofNat 11 (e + 1075).toNat ≠ -1#_ := by
    intro heq
    have hvalue : (e + 1075).toNat = 2047 := hbits.symm.trans (congrArg BitVec.toNat heq)
    omega
  have hzeros : BitVec.ofNat 11 (e + 1075).toNat ≠ 0#_ := by
    intro heq
    have hvalue : (e + 1075).toNat = 0 := hbits.symm.trans (congrArg BitVec.toNat heq)
    omega
  have hexponent : ((BitVec.ofNat 11 (e + 1075).toNat).toNat : Int)
      - (Format.binary64.exponentBias + Format.binary64.mantissaBitsWithoutImplicit) = e := by
    rw [hbits]
    show ((e + 1075).toNat : Int) - (1023 + 52) = e
    omega
  show UnpackedFloat.unpack .binary64 (UnpackedFloat.pack .binary64 _) = _
  rw [pack_normal s hpos hlow hhigh hmost, UnpackedFloat.unpack]
  simp only [unpackMantissa_packComponents, unpackExponent_packComponents,
    unpackSign_packComponents, Sign.ofBitVec_toBitVec, if_neg hones, if_neg hzeros,
    toNat_implicit hlow hhigh, hexponent]

/-! ## Rounding to a double -/

theorem targetExponent_binary64 (e : Int) :
    Format.binary64.targetExponent e = max (e - 53) (-1074) := rfl

/-- Shifting to 53 bits, where there are at least so many. -/
theorem shiftToTargetExponent_binary64 {n : Nat} {e : Int} (hbits : 52 ≤ n.log2)
    (hleast : -1074 ≤ e) : shiftToTargetExponent .binary64 n e .exact
      = ((⟨n, false, false⟩ : ExtendedMantissa) >>> excess n, e + excess n) := by
  have hshift : (Format.binary64.targetExponent (totalExponent n e) - e).toNat = excess n := by
    rw [targetExponent_binary64, totalExponent, excess]
    omega
  rw [shiftToTargetExponent, shiftToExponent, hshift]
  rfl

/-- A carry is shifted out again and leaves the number as it is. -/
theorem shift_carry {q : Nat} {e : Int} (hlow : 2 ^ 52 ≤ q) (hhigh : q ≤ 2 ^ 53)
    (hleast : -1074 ≤ e) : ∃ x c, shiftToTargetExponent .binary64 q e .exact = (x, e + c) ∧
      0 ≤ c ∧ c ≤ 1 ∧ 2 ^ 52 ≤ x.mantissa ∧ x.mantissa < 2 ^ 53 ∧
      (x.mantissa : ℚ) * 2 ^ (e + c) = q * 2 ^ e := by
  have hbits : 52 ≤ q.log2 := (Nat.le_log2 (by omega)).mpr hlow
  refine ⟨_, _, shiftToTargetExponent_binary64 hbits hleast, ?_⟩
  rw [mantissa_shiftRight]
  rcases Nat.lt_or_eq_of_le hhigh with hlt | rfl
  · have hnone : excess q = 0 := by
      have hlog := (Nat.log2_lt (by omega)).mpr hlt
      unfold excess
      omega
    simp only [hnone, Nat.pow_zero, Nat.div_one, Nat.cast_zero, add_zero]
    exact ⟨le_rfl, by decide, hlow, hlt, trivial⟩
  · have hone : excess (2 ^ 53) = 1 := by rw [excess, Nat.log2_two_pow]
    rw [hone]
    refine ⟨by decide, by decide, by decide, by decide, ?_⟩
    rw [Nat.cast_one, zpow_add₀ (by norm_num), zpow_one]
    norm_num
    ring

/-- A number of at least 53 bits rounds to its nearest one. -/
theorem denotes_roundWithAccuracy (s : Sign) {n : Nat} {e : Int} (hbits : 52 ≤ n.log2)
    (hleast : -1074 ≤ e) (hmost : n.log2 + e ≤ 1000) :
    Denotes s (roundWithAccuracy .binary64 s n e .exact) (nearest n * 2 ^ e) := by
  obtain ⟨hlow, hhigh⟩ := roundShift_excess hbits
  obtain ⟨x, c, hshift, hc, hc', hlow', hhigh', hcarry⟩ :=
    shift_carry hlow hhigh (show -1074 ≤ e + excess n by omega)
  have hvalue : (nearest n : ℚ) * 2 ^ e = x.mantissa * 2 ^ (e + excess n + c) := by
    rw [hcarry, nearest, zpow_add₀ (by norm_num), zpow_natCast]
    push_cast
    ring
  have hpos : x.mantissa ≠ 0 := by omega
  have hround : roundWithAccuracy .binary64 s n e .exact
      = .finite s x.mantissa (e + excess n + c) (Nat.pos_of_ne_zero hpos) := by
    rw [roundWithAccuracy, shiftToTargetExponent_binary64 hbits hleast]
    simp only [roundedMantissa_shiftRight, hshift]
    exact dif_neg hpos
  rw [hround, hvalue]
  have hexcess : e + excess n ≤ 950 := by
    unfold excess
    omega
  exact .normal _ _ _ hlow' hhigh' (by omega) (by omega)

/-- Fewer bits are filled up with zeros first. -/
theorem denotes_round (s : Sign) {n : Nat} (hpos : 0 < n) (hlt : n < 2 ^ 53) :
    Denotes s (UnpackedFloat.round .binary64 s n 0) n := by
  have hn : n ≠ 0 := Nat.ne_of_gt hpos
  have hlog : n.log2 < 53 := (Nat.log2_lt hn).mpr hlt
  have hfilled : (n * 2 ^ (52 - n.log2)).log2 = 52 := by
    rw [log2_mul_two_pow hn]
    omega
  have hround : UnpackedFloat.round .binary64 s n 0
      = roundWithAccuracy .binary64 s (n * 2 ^ (52 - n.log2)) (-(52 - n.log2 : Nat)) .exact := by
    have hshift : (0 - Format.binary64.targetExponent (totalExponent n 0)).toNat = 52 - n.log2 := by
      rw [targetExponent_binary64, totalExponent]
      omega
    rw [UnpackedFloat.round, decreaseExponent, hshift, Nat.shiftLeft_eq, zero_sub]
  have hexact : nearest (n * 2 ^ (52 - n.log2)) = n * 2 ^ (52 - n.log2) := by
    refine nearest_of_lt ((Nat.log2_lt ?_).mp (by omega))
    exact Nat.mul_ne_zero hn (Nat.ne_of_gt (Nat.two_pow_pos _))
  have hdenotes := denotes_roundWithAccuracy s (e := -(52 - n.log2 : Nat)) hfilled.ge (by omega)
    (by omega)
  rw [hexact] at hdenotes
  rw [hround]
  convert hdenotes using 1
  rw [Nat.cast_mul, mul_assoc, zpow_neg, zpow_natCast, Nat.cast_pow, Nat.cast_two,
    mul_inv_cancel₀ (by positivity), mul_one]

/-- The exponents of the numbers from 1 up to 2 ^ 53. -/
theorem exponent_bounds {m : Nat} {e : Int} (hlow : 2 ^ 52 ≤ m) (hhigh : m < 2 ^ 53)
    (hone : 1 ≤ (m : ℚ) * 2 ^ e) (hlt : (m : ℚ) * 2 ^ e < 2 ^ 53) : -52 ≤ e ∧ e ≤ 0 := by
  have hpow : ∀ {a b : Int}, a ≤ b → (2 : ℚ) ^ a ≤ 2 ^ b :=
    fun hab => zpow_le_zpow_right₀ (by norm_num) hab
  have hlow' : (2 : ℚ) ^ 52 ≤ m := by exact_mod_cast hlow
  have hhigh' : (m : ℚ) < 2 ^ 53 := by exact_mod_cast hhigh
  constructor
  · by_contra hsmall
    have hbound : (m : ℚ) * 2 ^ e ≤ m * 2 ^ (-53 : Int) :=
      mul_le_mul_of_nonneg_left (hpow (by omega)) (by positivity)
    have hless : (m : ℚ) * 2 ^ (-53 : Int) < 2 ^ 53 * 2 ^ (-53 : Int) :=
      mul_lt_mul_of_pos_right hhigh' (by positivity)
    have hunit : (2 : ℚ) ^ 53 * 2 ^ (-53 : Int) = 1 := by norm_num
    linarith
  · by_contra hlarge
    have hbound : (m : ℚ) * 2 ^ (1 : Int) ≤ m * 2 ^ e :=
      mul_le_mul_of_nonneg_left (hpow (by omega)) (by positivity)
    have hmore : (2 : ℚ) ^ 52 * 2 ^ (1 : Int) ≤ m * 2 ^ (1 : Int) :=
      mul_le_mul_of_nonneg_right hlow' (by positivity)
    have hnext : (2 : ℚ) ^ 52 * 2 ^ (1 : Int) = 2 ^ 53 := by norm_num
    linarith

/-- Multiplying by one fills up with zeros and takes them away again. -/
theorem denotes_mul_one (hu : Denotes .positive u v) (hone : 1 ≤ v) (hlt : v < 2 ^ 53)
    (hpos : 0 < 2 ^ 52) :
    Denotes .positive
      (UnpackedFloat.mul .binary64 u (.finite .positive (2 ^ 52) (-52) hpos)) v := by
  obtain ⟨m, e, hm, hlow, hhigh, -, -⟩ := hu
  obtain ⟨hleast, hmost⟩ := exponent_bounds hlow hhigh hone hlt
  have hlog : m.log2 = 52 := (Nat.log2_eq_iff hm.ne').mpr ⟨hlow, hhigh⟩
  have hproduct : (m * 2 ^ 52).log2 = 104 := by rw [log2_mul_two_pow hm.ne', hlog]
  have hdenotes := denotes_roundWithAccuracy .positive (n := m * 2 ^ 52) (e := e + -52)
    (by omega) (by omega) (by omega)
  have hvalue : (nearest (m * 2 ^ 52) : ℚ) * 2 ^ (e + -52) = m * 2 ^ e := by
    rw [nearest_mul hlog.ge, nearest_of_lt hhigh, zpow_add₀ (by norm_num)]
    push_cast
    norm_num
    ring
  rw [hvalue] at hdenotes
  exact hdenotes

/-! ## Widening -/

theorem toModel_toFloat {n : Nat} (hpos : 0 < n) (hlt : n < 2 ^ 53) :
    n.toUInt64.toFloat.toModel = .pack (UnpackedFloat.round .binary64 .positive n 0) := by
  have hword : n.toUInt64.toNat = n := by
    rw [Nat.toUInt64, UInt64.toNat_ofNat', Nat.mod_eq_of_lt]
    omega
  have hcompare : compare (n : Int) 0 = .gt := compare_gt_iff_gt.mpr (by omega)
  show Float.Model.pack (UnpackedFloat.ofNat .binary64 n.toUInt64.toNat) = _
  rw [hword, UnpackedFloat.ofNat, UnpackedFloat.ofInt, UnpackedFloat.normalize, hcompare]
  rfl

theorem unpack_one : (Float.ofBits 0x3FF0000000000000).toModel.unpack
    = .finite .positive (2 ^ 52) (-52) (Nat.two_pow_pos 52) := rfl

/-- Numbers that fit in 53 bits are converted as they are. -/
theorem denotes_ofNat_of_lt {n : Nat} (hpos : 0 < n) (hlt : n < 2 ^ 53) :
    Denotes .positive (Float.ofNat n).toModel.unpack n := by
  have hfast : Float.ofNat n = n.toUInt64.toFloat * Float.ofBits 0x3FF0000000000000 := by
    show Float.ofScientific n false 0 = _
    rw [Float.ofScientific, dif_pos ⟨hlt, by decide⟩]
    rfl
  have hround := denotes_round .positive hpos hlt
  have hproduct := denotes_mul_one hround (by exact_mod_cast hpos) (by exact_mod_cast hlt)
    (Nat.two_pow_pos 52)
  rw [hfast]
  show Denotes .positive (Float.Model.pack (UnpackedFloat.mul .binary64
    n.toUInt64.toFloat.toModel.unpack (Float.ofBits 0x3FF0000000000000).toModel.unpack)).unpack _
  rw [toModel_toFloat hpos hlt, hround.unpack_pack, unpack_one, hproduct.unpack_pack]
  exact hproduct

/-- All others get 53 zeros at their end before they are rounded. -/
theorem denotes_ofNat_of_le {n : Nat} (hle : 2 ^ 53 ≤ n) (hlt : n < 2 ^ 64) :
    Denotes .positive (Float.ofNat n).toModel.unpack (nearest n) := by
  have hn : n ≠ 0 := by omega
  have hslow : Float.ofNat n = .ofModel (.ofScientific n 0) := by
    show Float.ofScientific n false 0 = _
    rw [Float.ofScientific, dif_neg fun h => Nat.not_lt.mpr hle h.1]
    rfl
  have hproduct : UnpackedFloat.ofScientific .binary64 n 0
      = roundWithAccuracy .binary64 .positive (n * 2 ^ 53) (-53) .exact := by
    have hrange : ¬ (0 : Int) < -((2 ^ 11 : Int) + n.log2) := by omega
    rw [UnpackedFloat.ofScientific, dif_neg hn, if_neg (by decide), if_neg hrange, if_pos le_rfl,
      ← Nat.shiftLeft_eq, ← Nat.mul_one (n <<< 53)]
    rfl
  have hlow : 53 ≤ n.log2 := (Nat.le_log2 hn).mpr hle
  have hhigh : n.log2 < 64 := (Nat.log2_lt hn).mpr hlt
  have hlog : (n * 2 ^ 53).log2 = n.log2 + 53 := log2_mul_two_pow hn 53
  have hdenotes := denotes_roundWithAccuracy .positive (n := n * 2 ^ 53) (e := -53) (by omega)
    (by decide) (by omega)
  have hvalue : (nearest (n * 2 ^ 53) : ℚ) * 2 ^ (-53 : Int) = nearest n := by
    rw [nearest_mul (by omega)]
    push_cast
    norm_num
    ring
  rw [hvalue] at hdenotes
  rw [hslow]
  show Denotes .positive (Float.Model.pack (UnpackedFloat.ofScientific .binary64 n 0)).unpack _
  rw [hproduct, hdenotes.unpack_pack]
  exact hdenotes

theorem denotes_ofNat {n : Nat} (hpos : 0 < n) (hlt : n < 2 ^ 64) :
    Denotes .positive (Float.ofNat n).toModel.unpack (nearest n) := by
  by_cases hsmall : n < 2 ^ 53
  · rw [nearest_of_lt hsmall]
    exact denotes_ofNat_of_lt hpos hsmall
  · exact denotes_ofNat_of_le (Nat.le_of_not_lt hsmall) hlt

theorem Denotes.neg (h : Denotes s u v) : Denotes (-s) u.neg v := by
  obtain ⟨m, e, hpos, hlow, hhigh, hleast, hmost⟩ := h
  exact .normal m e hpos hlow hhigh hleast hmost

/-- The sign of an integer other than zero. -/
def signOf (n : Int) : Sign := if n < 0 then .negative else .positive

theorem denotes_ofInt {n : Int} (hne : n ≠ 0) (hlt : n.natAbs < 2 ^ 64) :
    Denotes (signOf n) (Float.ofInt n).toModel.unpack (nearest n.natAbs) := by
  cases n with
  | ofNat n => exact denotes_ofNat (Int.natAbs_pos.mpr hne) hlt
  | negSucc n =>
      have hdenotes := (denotes_ofNat (Nat.succ_pos n) hlt).neg
      rw [signOf, if_pos (Int.negSucc_lt_zero n)]
      show Denotes .negative
        (Float.Model.pack (Float.ofNat (n + 1)).toModel.unpack.neg).unpack (nearest (n + 1))
      rw [hdenotes.unpack_pack]
      exact hdenotes

theorem unpack_ofInt_zero : (Float.ofInt 0).toModel.unpack = .zero .positive := rfl

/-! ## Comparing -/

theorem isNaN_eq_false_iff {x : Float} : x.isNaN = false ↔ (x == x) = true := by
  rw [Float.isNaN_eq_decide_eq_nan, decide_eq_false_iff_not, Float.beq_self_iff]

/-- Doubles that stand for numbers are equal when the numbers are. -/
theorem beq_iff_of_denotes {x y : Float} {s' : Sign} {v' : ℚ}
    (hx : Denotes s x.toModel.unpack v) (hy : Denotes s' y.toModel.unpack v') :
    (x == y) = true ↔ s = s' ∧ v = v' := by
  show x.toModel.unpack.beq y.toModel.unpack = true ↔ _
  rw [beq_iff_ne_notANumber_and_eq]
  generalize x.toModel.unpack = u at *
  generalize y.toModel.unpack = w at *
  constructor
  · rintro ⟨-, -, rfl | ⟨rfl, -⟩ | ⟨rfl, -⟩⟩
    · obtain ⟨m, e, hpos, -⟩ := hx
      cases hy
      exact ⟨rfl, rfl⟩
    · cases hx
    · cases hx
  · rintro ⟨rfl, rfl⟩
    obtain rfl := hx.unique hy
    cases hx
    exact ⟨nofun, nofun, Or.inl rfl⟩

theorem not_zero_beq_of_denotes {y : Float} (hy : Denotes s y.toModel.unpack v) :
    (Float.ofInt 0 == y) = false := by
  refine Bool.eq_false_iff.mpr fun h => ?_
  replace h : (Float.ofInt 0).toModel.unpack.beq y.toModel.unpack = true := h
  rw [unpack_ofInt_zero, beq_iff_ne_notANumber_and_eq] at h
  generalize y.toModel.unpack = w at *
  obtain ⟨-, -, rfl | ⟨-, rfl⟩ | ⟨-, rfl⟩⟩ := h <;> cases hy

/-- Integers other than zero round to one integer when their signs and sizes do. -/
theorem nearestInt_inj {n m : Int} (hn : n ≠ 0) (hm : m ≠ 0) :
    nearestInt n = nearestInt m ↔
      signOf n = signOf m ∧ nearest n.natAbs = nearest m.natAbs := by
  have hposn := nearest_pos (Int.natAbs_pos.mpr hn)
  have hposm := nearest_pos (Int.natAbs_pos.mpr hm)
  unfold nearestInt signOf
  split_ifs
  · exact ⟨fun h => ⟨rfl, by omega⟩, fun h => by omega⟩
  · exact ⟨fun h => by omega, fun h => nomatch h.1⟩
  · exact ⟨fun h => by omega, fun h => nomatch h.1⟩
  · exact ⟨fun h => ⟨rfl, by omega⟩, fun h => by omega⟩

/-- Two integers become equal doubles just when they round to one integer. -/
theorem ofInt_beq_ofInt {n m : Int} (hn : n.natAbs < 2 ^ 64) (hm : m.natAbs < 2 ^ 64) :
    (Float.ofInt n == Float.ofInt m) = true ↔ nearestInt n = nearestInt m := by
  -- zero has a double of its own kind
  have hzero : ∀ {m : Int}, m.natAbs < 2 ^ 64 → m ≠ 0 →
      (Float.ofInt 0 == Float.ofInt m) = false ∧ nearestInt m ≠ 0 := fun hm hne =>
    ⟨not_zero_beq_of_denotes (denotes_ofInt hne hm), mt nearestInt_eq_zero.mp hne⟩
  by_cases hzn : n = 0 <;> by_cases hzm : m = 0
  · subst hzn hzm
    exact ⟨fun _ => rfl, fun _ => rfl⟩
  · subst hzn
    obtain ⟨hbeq, hne⟩ := hzero hm hzm
    rw [hbeq]
    exact ⟨nofun, fun h => absurd h.symm hne⟩
  · subst hzm
    obtain ⟨hbeq, hne⟩ := hzero hn hzn
    rw [BEq.comm, hbeq]
    exact ⟨nofun, fun h => absurd h hne⟩
  · rw [beq_iff_of_denotes (denotes_ofInt hzn hn) (denotes_ofInt hzm hm), nearestInt_inj hzn hzm,
      Nat.cast_inj]

/-- An integer of less than 2 ^ 53 shares its double with no other. -/
theorem le_of_nearestInt_eq {n m : Int} (h : nearestInt n = nearestInt m) (hne : n ≠ m) :
    2 ^ 53 ≤ n.natAbs := by
  by_contra hlt
  have hn : nearestInt n = n := nearestInt_of_lt (Nat.lt_of_not_le hlt)
  have hsize : nearest m.natAbs = n.natAbs := by rw [← natAbs_nearestInt, ← h, hn]
  have hm : m.natAbs < 2 ^ 53 := by
    by_contra hlarge
    have hbits := le_nearest (Nat.le_of_not_lt hlarge)
    omega
  exact hne (hn.symm.trans (h.trans (nearestInt_of_lt hm)))

end Number

end Scriptlet
