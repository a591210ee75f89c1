/-
  Binary floating point with `p` significant bits: rounding to the nearest value, ties to even.

  `Binary p` has the finite values only and no bounds on the exponent. `float` is `Binary 24` and
  `double` is `Binary 53` for numbers that neither overflow nor underflow. A natural number becomes
  a value by rounding, and a quotient is the rounded quotient.

  What is representable is its own rounding (`round_of_representable`), the error is at most half
  the distance between neighbouring values (`abs_round_sub_le`), and as long as the numbers involved
  have at most `p` bits, quotients by one divisor are told apart (`ofRat_div_inj`).
-/
import Mathlib.Data.Int.Log
import Mathlib.Data.Rat.Floor
import Mathlib.Algebra.Order.Ring.Abs
import Mathlib.Tactic

namespace Monya.Lib

/-! ## Rounding to an integer -/

/-- The nearest integer, and the even one of two that are equally near. -/
def roundEven (x : ℚ) : ℤ :=
  if Int.fract x < 1 / 2 ∨ (Int.fract x = 1 / 2 ∧ Even ⌊x⌋) then ⌊x⌋ else ⌊x⌋ + 1

theorem roundEven_intCast (n : ℤ) : roundEven n = n := by
  unfold roundEven
  rw [Int.fract_intCast, Int.floor_intCast, if_pos (.inl (by norm_num))]

theorem abs_roundEven_sub_le (x : ℚ) : |(roundEven x : ℚ) - x| ≤ 1 / 2 := by
  have hfloor : (⌊x⌋ : ℚ) = x - Int.fract x := (Int.self_sub_fract x).symm
  have h0 := Int.fract_nonneg x
  have h1 := (Int.fract_lt_one x).le
  unfold roundEven
  split
  · next h =>
    have hle : Int.fract x ≤ 1 / 2 := h.elim le_of_lt fun h => h.1.le
    rw [hfloor, abs_le]
    constructor <;> linarith
  · next h =>
    have hge : 1 / 2 ≤ Int.fract x := le_of_not_gt fun hlt => h (.inl hlt)
    rw [Int.cast_add, hfloor, Int.cast_one, abs_le]
    constructor <;> linarith

/-! ## Rounding to `p` bits -/

/-- A significand of `p` bits, or `2 ^ p`, and an exponent. -/
def Representable (p : Nat) (x : ℚ) : Prop := ∃ m e : ℤ, |m| ≤ 2 ^ p ∧ x = m * 2 ^ e

namespace Binary

/-- The exponent of the last of `p` bits of `x`. -/
def lastBit (p : Nat) (x : ℚ) : ℤ := Int.log 2 |x| + 1 - p

def round (p : Nat) (x : ℚ) : ℚ := roundEven (x / 2 ^ lastBit p x) * 2 ^ lastBit p x

variable {p : Nat} {x : ℚ}

theorem two_zpow_pos (e : ℤ) : (0 : ℚ) < 2 ^ e := zpow_pos (by norm_num) e

theorem zpow_lastBit (p : Nat) (x : ℚ) :
    (2 : ℚ) ^ lastBit p x * 2 ^ p = 2 ^ (Int.log 2 |x| + 1) := by
  rw [← zpow_natCast, ← zpow_add₀ (by norm_num), lastBit, sub_add_cancel]

/-- The significand before it is rounded. -/
theorem abs_div_lt (p : Nat) (x : ℚ) : |x / 2 ^ lastBit p x| < 2 ^ p := by
  have hlt := Int.lt_zpow_succ_log_self (b := 2) (by norm_num) |x|
  rw [Nat.cast_ofNat, ← zpow_lastBit p] at hlt
  rw [abs_div, abs_of_pos (two_zpow_pos _), div_lt_iff₀ (two_zpow_pos _), mul_comm]
  exact hlt

theorem one_le_abs_div (hp : 1 ≤ p) (hx : x ≠ 0) : 1 ≤ |x / 2 ^ lastBit p x| := by
  have hle := Int.zpow_log_le_self (b := 2) (by norm_num) (abs_pos.mpr hx)
  rw [Nat.cast_ofNat] at hle
  rw [abs_div, abs_of_pos (two_zpow_pos _), one_le_div (two_zpow_pos _)]
  refine le_trans (zpow_le_zpow_right₀ (by norm_num) ?_) hle
  unfold lastBit
  omega

theorem round_zero (p : Nat) : round p 0 = 0 := by
  have h : roundEven 0 = 0 := roundEven_intCast 0
  rw [round, zero_div, h, Int.cast_zero, zero_mul]

theorem abs_round_sub_le (p : Nat) (x : ℚ) : |round p x - x| ≤ 2 ^ lastBit p x / 2 := by
  have hpos := two_zpow_pos (lastBit p x)
  have hx : x = x / 2 ^ lastBit p x * 2 ^ lastBit p x := (div_mul_cancel₀ x hpos.ne').symm
  have hround : round p x - x =
      (roundEven (x / 2 ^ lastBit p x) - x / 2 ^ lastBit p x) * 2 ^ lastBit p x := by
    rw [round, sub_mul, ← hx]
  rw [hround, abs_mul, abs_of_pos hpos]
  have := mul_le_mul_of_nonneg_right (abs_roundEven_sub_le (x / 2 ^ lastBit p x)) hpos.le
  linarith

theorem representable_round (p : Nat) (x : ℚ) : Representable p (round p x) := by
  refine ⟨_, _, ?_, rfl⟩
  -- the significand is within a half of a number below `2 ^ p`
  have herr := abs_le.mp (abs_roundEven_sub_le (x / 2 ^ lastBit p x))
  have hlt := abs_lt.mp (abs_div_lt p x)
  rw [abs_le]
  constructor
  · have h : ((-2 ^ p - 1 : ℤ) : ℚ) < roundEven (x / 2 ^ lastBit p x) := by
      push_cast
      linarith
    have := Int.cast_lt.mp h
    omega
  · have h : (roundEven (x / 2 ^ lastBit p x) : ℚ) < ((2 ^ p + 1 : ℤ) : ℚ) := by
      push_cast
      linarith
    have := Int.cast_lt.mp h
    omega

/-- Multiples of the last bit are their own rounding. -/
theorem round_of_eq_mul {k : ℤ} (h : x = k * 2 ^ lastBit p x) : round p x = x := by
  have hdiv : x / 2 ^ lastBit p x = k := by
    rw [div_eq_iff (two_zpow_pos _).ne']
    exact h
  rw [round, hdiv, roundEven_intCast]
  exact h.symm

theorem round_of_representable (hp : 1 ≤ p) (h : Representable p x) : round p x = x := by
  obtain ⟨m, e, hm, rfl⟩ := h
  by_cases hm0 : m = 0
  · rw [hm0, Int.cast_zero, zero_mul, round_zero]
  have hx : (m : ℚ) * 2 ^ e ≠ 0 := mul_ne_zero (Int.cast_ne_zero.mpr hm0) (two_zpow_pos e).ne'
  have hxpos := abs_pos.mpr hx
  have habs : |(m : ℚ) * 2 ^ e| = (|m| : ℤ) * 2 ^ e := by
    rw [abs_mul, abs_of_pos (two_zpow_pos e), Int.cast_abs]
  rcases hm.lt_or_eq with hlt | heq
  · -- the last bit is not above `e`
    have hlog : Int.log 2 |(m : ℚ) * 2 ^ e| < p + e := by
      rw [← Int.lt_zpow_iff_log_lt (by norm_num) hxpos, habs, Nat.cast_ofNat,
        zpow_add₀ (by norm_num), zpow_natCast]
      refine mul_lt_mul_of_pos_right ?_ (two_zpow_pos e)
      exact_mod_cast hlt
    obtain ⟨d, hd⟩ : ∃ d : Nat, e = lastBit p ((m : ℚ) * 2 ^ e) + d :=
      ⟨(e - lastBit p ((m : ℚ) * 2 ^ e)).toNat, by unfold lastBit; omega⟩
    refine round_of_eq_mul (k := m * 2 ^ d) ?_
    conv_lhs => rw [hd, zpow_add₀ (by norm_num), zpow_natCast]
    push_cast
    ring
  · -- a power of two
    have hpow : |(m : ℚ) * 2 ^ e| = ((2 : Nat) : ℚ) ^ ((p : ℤ) + e) := by
      rw [habs, heq, Nat.cast_ofNat, zpow_add₀ (by norm_num), zpow_natCast]
      push_cast
      rfl
    have hbit : lastBit p ((m : ℚ) * 2 ^ e) = e + 1 := by
      rw [lastBit, hpow, Int.log_zpow (by norm_num)]
      ring
    obtain ⟨q, rfl⟩ : ∃ q, p = q + 1 := ⟨p - 1, by omega⟩
    have hm2 : (2 : ℤ) ∣ m := (dvd_abs 2 m).mp (heq ▸ Dvd.intro_left _ (pow_succ 2 q).symm)
    obtain ⟨k, rfl⟩ := hm2
    refine round_of_eq_mul (k := k) ?_
    rw [hbit, zpow_add₀ (by norm_num), zpow_one]
    push_cast
    ring

theorem round_eq_zero_iff (hp : 1 ≤ p) : round p x = 0 ↔ x = 0 := by
  refine ⟨fun h => ?_, fun h => by rw [h, round_zero]⟩
  by_contra hx
  have hzero : (roundEven (x / 2 ^ lastBit p x) : ℚ) = 0 :=
    (mul_eq_zero.mp h).resolve_right (two_zpow_pos _).ne'
  have herr := abs_roundEven_sub_le (x / 2 ^ lastBit p x)
  rw [hzero, zero_sub, abs_neg] at herr
  have := one_le_abs_div hp hx
  linarith

/-- Up to 1 the values are no further apart than `2 ^ -p`. -/
theorem abs_round_sub_le_of_le_one (hp : 1 ≤ p) (h0 : 0 ≤ x) (h1 : x ≤ 1) :
    |round p x - x| ≤ (2 ^ p)⁻¹ / 2 := by
  have hpos : (0 : ℚ) ≤ (2 ^ p)⁻¹ / 2 := by positivity
  rcases h0.eq_or_lt with rfl | h0
  · rwa [round_zero, sub_self, abs_zero]
  rcases h1.eq_or_lt with rfl | h1
  · have hone : Representable p 1 :=
      ⟨1, 0, by rw [abs_one]; exact one_le_pow₀ (by norm_num), by simp⟩
    rwa [round_of_representable hp hone, sub_self, abs_zero]
  · refine (abs_round_sub_le p x).trans (div_le_div_of_nonneg_right ?_ (by norm_num))
    have hlog : Int.log 2 |x| < 0 := by
      rw [← Int.lt_zpow_iff_log_lt (by norm_num) (abs_pos.mpr h0.ne'), abs_of_pos h0, zpow_zero]
      exact h1
    rw [← zpow_natCast, ← zpow_neg]
    refine zpow_le_zpow_right₀ (by norm_num) ?_
    unfold lastBit
    omega

/-- The first natural number that needs one bit more lies in the middle between two values. -/
theorem round_two_pow_add_one (hp : 2 ≤ p) : round p ((2 ^ p + 1 : Nat) : ℚ) = (2 ^ p : Nat) := by
  have hlog : Nat.log 2 (2 ^ p + 1) = p := by
    have hone := Nat.one_lt_two_pow (n := p) (by omega)
    refine (Nat.log_eq_iff (.inl (by omega))).mpr ⟨Nat.le_succ _, ?_⟩
    rw [Nat.pow_succ]
    omega
  have hbit : lastBit p ((2 ^ p + 1 : Nat) : ℚ) = 1 := by
    rw [lastBit, Nat.abs_cast, Int.log_natCast, hlog]
    omega
  obtain ⟨q, rfl⟩ : ∃ q, p = q + 1 := ⟨p - 1, by omega⟩
  have hhalf : ((2 ^ (q + 1) + 1 : Nat) : ℚ) / 2 ^ (1 : ℤ) = ((2 ^ q : ℤ) : ℚ) + 1 / 2 := by
    push_cast
    rw [pow_succ]
    ring
  have hfloor : ⌊((2 ^ q : ℤ) : ℚ) + 1 / 2⌋ = 2 ^ q := by
    rw [Int.floor_eq_iff]
    constructor <;> linarith
  have heven : Even (2 ^ q : ℤ) := (Int.even_pow' (by omega)).mpr (by decide)
  have hround : roundEven (((2 ^ q : ℤ) : ℚ) + 1 / 2) = 2 ^ q := by
    rw [roundEven, Int.fract, hfloor, if_pos (.inr ⟨by ring, heven⟩)]
  rw [round, hbit, hhalf, hround, zpow_one]
  push_cast
  ring

end Binary

/-! ## The values -/

@[ext] structure Binary (p : Nat) where
  val : ℚ
  representable : Representable p val

namespace Binary

variable {p : Nat}

theorem val_injective : Function.Injective (val : Binary p → ℚ) := fun _ _ => Binary.ext

instance : LinearOrder (Binary p) := LinearOrder.lift' val val_injective

def ofRat (p : Nat) (x : ℚ) : Binary p := ⟨round p x, representable_round p x⟩

instance : Zero (Binary p) := ⟨⟨0, 0, 0, by simp, by simp⟩⟩

/-- The conversion of an integer. -/
instance : NatCast (Binary p) := ⟨fun n => ofRat p n⟩

instance : Div (Binary p) := ⟨fun a b => ofRat p (a.val / b.val)⟩

theorem val_natCast (hp : 1 ≤ p) {n : Nat} (h : n ≤ 2 ^ p) : (n : Binary p).val = n := by
  refine round_of_representable hp ⟨n, 0, ?_, by simp⟩
  rw [Nat.abs_cast]
  exact_mod_cast h

/-- A quotient of numbers of at most `p` bits is rounded once. -/
theorem natCast_div (hp : 1 ≤ p) {a n : Nat} (ha : a ≤ 2 ^ p) (hn : n ≤ 2 ^ p) :
    (a : Binary p) / (n : Binary p) = ofRat p (a / n) := by
  show ofRat p ((a : Binary p).val / (n : Binary p).val) = _
  rw [val_natCast hp ha, val_natCast hp hn]

theorem ofRat_zero (p : Nat) : ofRat p 0 = 0 := val_injective (round_zero p)

/-- Fractions with the denominator `2 ^ p` need not be rounded. -/
theorem round_div_two_pow (hp : 1 ≤ p) {a : Nat} (ha : a ≤ 2 ^ p) :
    round p ((a : ℚ) / 2 ^ p) = a / 2 ^ p := by
  refine round_of_representable hp ⟨a, -p, ?_, ?_⟩
  · rw [Nat.abs_cast]
    exact_mod_cast ha
  · rw [zpow_neg, zpow_natCast, Int.cast_natCast, div_eq_mul_inv]

/-- Proper fractions with the same denominator of at most `p` bits are not rounded to the same. -/
theorem ofRat_div_inj (hp : 1 ≤ p) {a c n : Nat} (ha : a ≤ n) (hc : c ≤ n) (hn : n ≤ 2 ^ p) :
    ofRat p (a / n) = ofRat p (c / n) ↔ a = c := by
  refine ⟨fun h => ?_, fun h => by rw [h]⟩
  wlog hac : a < c generalizing a c
  · rcases (Nat.le_of_not_lt hac).lt_or_eq with hlt | heq
    · exact (this hc ha h.symm hlt).symm
    · exact heq.symm
  have hround : round p ((a : ℚ) / n) = round p ((c : ℚ) / n) := congrArg val h
  have hn0 : (0 : ℚ) < n := by exact_mod_cast (Nat.zero_le a).trans_lt (hac.trans_le hc)
  have hac1 : (a : ℚ) + 1 ≤ c := by exact_mod_cast hac
  rcases hn.lt_or_eq with hlt | rfl
  · -- the two roundings together are off by less than the distance
    have hle1 : ∀ {b : Nat}, b ≤ n → 0 ≤ (b : ℚ) / n ∧ (b : ℚ) / n ≤ 1 := fun hb =>
      ⟨by positivity, (div_le_one hn0).mpr (by exact_mod_cast hb)⟩
    have hea := abs_le.mp (abs_round_sub_le_of_le_one hp (hle1 ha).1 (hle1 ha).2)
    have hec := abs_le.mp (abs_round_sub_le_of_le_one hp (hle1 hc).1 (hle1 hc).2)
    have hdist : (a : ℚ) / n + (n : ℚ)⁻¹ ≤ c / n := by
      rw [← one_div, ← add_div]
      exact div_le_div_of_nonneg_right hac1 hn0.le
    have hinv : ((2 : ℚ) ^ p)⁻¹ < (n : ℚ)⁻¹ :=
      inv_strictAnti₀ hn0 (by exact_mod_cast hlt)
    rw [hround] at hea
    linarith [hea.1, hec.2]
  · -- no rounding at all
    rw [Nat.cast_pow, Nat.cast_ofNat, round_div_two_pow hp ha, round_div_two_pow hp hc,
      div_left_inj' (by positivity)] at hround
    exact_mod_cast hround

end Binary

end Monya.Lib
