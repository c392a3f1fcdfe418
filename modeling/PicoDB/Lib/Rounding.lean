import Mathlib.Algebra.Order.Archimedean.Basic
import Mathlib.Algebra.Order.Floor.Ring
import Mathlib.Data.Int.Log
import Mathlib.Tactic.Linarith
import Mathlib.Tactic.Push
import Mathlib.Tactic.Ring

/-!
# Rounding — to the nearest number with so many bits

Binary floating point, with any precision and without a bound on the exponent:
`round p` gives the nearest number that fits into `p` bits, and of two that are
equally near the one whose last bit is zero.

* `round_of_fits`: what fits is not rounded.
* `round_mono`: numbers from zero on keep their order.
* `abs_round_sub_le`: rounding is half a unit in the last place off at most.
-/

namespace Rounding

universe u

variable {K : Type u} [Field K] [LinearOrder K] [IsStrictOrderedRing K] [FloorRing K]

/-! ## To an integer -/

/-- The nearest integer, and of two the even one. -/
def toEven (x : K) : ℤ :=
  if x - ⌊x⌋ < 1 / 2 then ⌊x⌋
  else if 1 / 2 < x - ⌊x⌋ then ⌊x⌋ + 1
  else if ⌊x⌋ % 2 = 0 then ⌊x⌋ else ⌊x⌋ + 1

theorem toEven_intCast (n : ℤ) : toEven (n : K) = n := by
  rw [toEven, Int.floor_intCast, sub_self, if_pos (by norm_num)]

@[simp] theorem toEven_zero : toEven (0 : K) = 0 := by
  simpa using toEven_intCast (K := K) 0

/-- The nearest integer is at most one half away. -/
theorem abs_toEven_sub_le (x : K) : |(toEven x : K) - x| ≤ 1 / 2 := by
  have hfloor := Int.floor_le x
  have hlt := Int.lt_floor_add_one x
  rw [abs_le]
  unfold toEven
  split_ifs with hlow hhigh heven
  · constructor <;> linarith
  · push_cast
    constructor <;> linarith
  · constructor <;> linarith
  · push_cast
    constructor <;> linarith

theorem toEven_mono {x y : K} (h : x ≤ y) : toEven x ≤ toEven y := by
  have hup : toEven x ≤ ⌊x⌋ + 1 := by
    unfold toEven
    split_ifs <;> omega
  have hdown : ⌊y⌋ ≤ toEven y := by
    unfold toEven
    split_ifs <;> omega
  rcases (Int.floor_le_floor h).lt_or_eq with hlt | heq
  · omega
  · -- between the same two integers
    unfold toEven
    rw [heq]
    split_ifs <;> first | omega | (exfalso; linarith)

/-! ## To so many bits -/

/-- The unit in the last place of `p` bits. -/
def ulp (p : ℕ) (x : K) : K := 2 ^ (Int.log 2 |x| + 1 - p)

/-- The nearest number of `p` bits. -/
def round (p : ℕ) (x : K) : K := toEven (x / ulp p x) * ulp p x

/-- The number has `p` bits at most. -/
def Fits (p : ℕ) (x : K) : Prop := ∃ m e : ℤ, |m| < 2 ^ p ∧ x = m * 2 ^ e

omit [LinearOrder K] [IsStrictOrderedRing K] [FloorRing K] in
theorem fits_intCast {p : ℕ} {n : ℤ} (h : |n| < 2 ^ p) : Fits p (n : K) :=
  ⟨n, 0, h, by rw [zpow_zero, mul_one]⟩

theorem ulp_pos (p : ℕ) (x : K) : 0 < ulp p x := zpow_pos two_pos _

@[simp] theorem round_zero (p : ℕ) : round p (0 : K) = 0 := by
  rw [round, zero_div, toEven_zero, Int.cast_zero, zero_mul]

/-- So the nearest number of `p` bits is at most half a unit away. -/
theorem abs_round_sub_le (p : ℕ) (x : K) : |round p x - x| ≤ ulp p x / 2 := by
  have hulp := ulp_pos p x
  have hoff : round p x - x = (toEven (x / ulp p x) - x / ulp p x) * ulp p x := by
    rw [round, sub_mul, div_mul_cancel₀ _ hulp.ne']
  rw [hoff, abs_mul, abs_of_pos hulp]
  calc |(toEven (x / ulp p x) : K) - x / ulp p x| * ulp p x
      ≤ 1 / 2 * ulp p x := mul_le_mul_of_nonneg_right (abs_toEven_sub_le _) hulp.le
    _ = ulp p x / 2 := by ring

/-- A small number has small units. -/
theorem ulp_le {p : ℕ} {x : K} {k : ℤ} (hne : x ≠ 0) (h : |x| < 2 ^ k) : ulp p x ≤ 2 ^ (k - p) := by
  have hlog := (Int.lt_zpow_iff_log_lt one_lt_two (abs_pos.mpr hne)).mp (by exact_mod_cast h)
  exact zpow_le_zpow_right₀ one_le_two (by omega)

/-- Rounding makes no number positive that is not. -/
theorem round_nonpos {p : ℕ} {x : K} (h : x ≤ 0) : round p x ≤ 0 := by
  have hulp := ulp_pos p x
  have hle : toEven (x / ulp p x) ≤ 0 := by
    have hmono := toEven_mono (div_nonpos_of_nonpos_of_nonneg h hulp.le)
    rwa [toEven_zero] at hmono
  exact mul_nonpos_of_nonpos_of_nonneg (by exact_mod_cast hle) hulp.le

/-- What fits is not rounded. -/
theorem round_of_fits {p : ℕ} {x : K} (h : Fits p x) : round p x = x := by
  obtain ⟨m, e, hm, hx⟩ := h
  rcases eq_or_ne x 0 with rfl | hne
  · exact round_zero p
  · have htwo : (2 : K) ≠ 0 := two_ne_zero
    have hlt : |x| < 2 ^ ((p : ℤ) + e) := by
      rw [hx, abs_mul, abs_of_pos (zpow_pos two_pos e : (0 : K) < 2 ^ e), zpow_add₀ htwo,
        zpow_natCast]
      exact mul_lt_mul_of_pos_right (by exact_mod_cast hm) (zpow_pos two_pos e)
    have hlog := (Int.lt_zpow_iff_log_lt one_lt_two (abs_pos.mpr hne)).mp (by exact_mod_cast hlt)
    -- so the unit divides it
    obtain ⟨k, hk⟩ : ∃ k : ℕ, e = Int.log 2 |x| + 1 - p + k :=
      ⟨(e - (Int.log 2 |x| + 1 - p)).toNat, by omega⟩
    have hunits : x / ulp p x = ((m * 2 ^ k : ℤ) : K) := by
      rw [div_eq_iff (ulp_pos p x).ne', ulp]
      conv_lhs => rw [hx, hk, zpow_add₀ htwo, zpow_natCast]
      push_cast
      ring
    rw [round, hunits, toEven_intCast, ← hunits, div_mul_cancel₀ _ (ulp_pos p x).ne']

/-- Rounding stays between two powers of two. -/
theorem round_bounds {p : ℕ} (hp : 0 < p) {x : K} (h : 0 < x) :
    2 ^ Int.log 2 x ≤ round p x ∧ round p x ≤ 2 ^ (Int.log 2 x + 1) := by
  have htwo : (2 : K) ≠ 0 := two_ne_zero
  have hulp := ulp_pos p x
  have hlow : (2 : K) ^ Int.log 2 x ≤ x := by
    exact_mod_cast Int.zpow_log_le_self one_lt_two h
  have hhigh : x ≤ (2 : K) ^ (Int.log 2 x + 1) := by
    exact_mod_cast (Int.lt_zpow_succ_log_self one_lt_two x).le
  have hpow : ∀ k : ℕ, (2 : K) ^ (Int.log 2 x + 1 - p + k) = ((2 ^ k : ℤ) : K) * ulp p x := by
    intro k
    rw [ulp, abs_of_pos h, zpow_add₀ htwo, zpow_natCast]
    push_cast
    ring
  have hbelow : (2 : K) ^ Int.log 2 x = ((2 ^ (p - 1) : ℤ) : K) * ulp p x := by
    rw [← hpow]
    congr 1
    omega
  have habove : (2 : K) ^ (Int.log 2 x + 1) = ((2 ^ p : ℤ) : K) * ulp p x := by
    rw [← hpow]
    congr 1
    omega
  rw [hbelow] at hlow ⊢
  rw [habove] at hhigh ⊢
  constructor
  · have hle := toEven_mono ((le_div_iff₀ hulp).mpr hlow)
    rw [toEven_intCast] at hle
    exact mul_le_mul_of_nonneg_right (by exact_mod_cast hle) hulp.le
  · have hle := toEven_mono ((div_le_iff₀ hulp).mpr hhigh)
    rw [toEven_intCast] at hle
    exact mul_le_mul_of_nonneg_right (by exact_mod_cast hle) hulp.le

/-- Numbers from zero on keep their order. -/
theorem round_mono {p : ℕ} (hp : 0 < p) {x y : K} (hx : 0 ≤ x) (h : x ≤ y) :
    round p x ≤ round p y := by
  rcases hx.eq_or_lt with rfl | hx
  · rcases h.eq_or_lt with rfl | hy
    · exact le_refl _
    · rw [round_zero]
      exact (zpow_pos two_pos _).le.trans (round_bounds hp hy).1
  · have hy := hx.trans_le h
    rcases (Int.log_mono_right hx h).lt_or_eq with hlt | heq
    · -- a power of two lies between them
      calc round p x ≤ 2 ^ (Int.log 2 x + 1) := (round_bounds hp hx).2
        _ ≤ 2 ^ Int.log 2 y := zpow_le_zpow_right₀ one_le_two hlt
        _ ≤ round p y := (round_bounds hp hy).1
    · have hulp : ulp p x = ulp p y := by
        rw [ulp, ulp, abs_of_pos hx, abs_of_pos hy, heq]
      have hpos := ulp_pos p y
      rw [round, round, hulp]
      have hle := toEven_mono (div_le_div_of_nonneg_right h hpos.le)
      exact mul_le_mul_of_nonneg_right (by exact_mod_cast hle) hpos.le

end Rounding
