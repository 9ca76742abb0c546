import Mathlib

/-!
# Rounding to binary64

Rounding of a rational number to a multiple of the unit in the last place of a number with 53
significant bits, to nearest with ties to even. The exponent is not bounded, so this is the
rounding of IEEE 754 binary64 for every number that neither overflows nor is subnormal.

* `Binary64.round`: the rounding.
* `Binary64.round_mono`: it is monotone.
-/

namespace FlowraValidator.Binary64
open Int

/-! ## Rounding to an integer -/

/-- The nearest integer, the even one of two. -/
def nearest (x : ℚ) : ℤ :=
  if fract x < 1 / 2 then ⌊x⌋
  else if 1 / 2 < fract x then ⌊x⌋ + 1
  else if ⌊x⌋ % 2 = 0 then ⌊x⌋ else ⌊x⌋ + 1

theorem nearest_cases (x : ℚ) :
    nearest x = ⌊x⌋ ∧ fract x ≤ 1 / 2 ∨ nearest x = ⌊x⌋ + 1 ∧ 1 / 2 ≤ fract x := by
  unfold nearest
  split_ifs with h1 h2 h3
  · exact .inl ⟨rfl, h1.le⟩
  · exact .inr ⟨rfl, h2.le⟩
  · exact .inl ⟨rfl, not_lt.mp h2⟩
  · exact .inr ⟨rfl, not_lt.mp h1⟩

theorem abs_nearest_sub_le (x : ℚ) : |(nearest x : ℚ) - x| ≤ 1 / 2 := by
  have hx := floor_add_fract x
  have hfract := fract_nonneg x
  have hlt := fract_lt_one x
  rcases nearest_cases x with ⟨heq, hle⟩ | ⟨heq, hle⟩
  · rw [heq, abs_le]
    constructor <;> linarith
  · rw [heq, abs_le]
    push_cast
    constructor <;> linarith

theorem nearest_intCast (n : ℤ) : nearest (n : ℚ) = n := by
  unfold nearest
  rw [fract_intCast, if_pos (by norm_num), floor_intCast]

theorem nearest_mono : Monotone nearest := by
  intro x y hxy
  rcases (floor_le_floor hxy).lt_or_eq with hlt | heq
  · -- different integer parts: the larger one is not rounded below its own
    have hx : nearest x ≤ ⌊x⌋ + 1 := by rcases nearest_cases x with ⟨h, -⟩ | ⟨h, -⟩ <;> omega
    have hy : ⌊y⌋ ≤ nearest y := by rcases nearest_cases y with ⟨h, -⟩ | ⟨h, -⟩ <;> omega
    omega
  · have hfract : fract x ≤ fract y := by
      have hx := floor_add_fract x
      have hy := floor_add_fract y
      rw [heq] at hx
      linarith
    unfold nearest
    rw [heq]
    split_ifs <;> first | omega | (exfalso; linarith)

/-! ## Rounding to 53 bits -/

/-- The unit in the last place of a positive number. -/
def ulp (q : ℚ) : ℚ := 2 ^ (log 2 q - 52)

/-- Rounding of a nonnegative number. -/
def roundNonneg (q : ℚ) : ℚ := nearest (q / ulp q) * ulp q

/-- Rounding to the nearest number with 53 significant bits. -/
def round (q : ℚ) : ℚ := if 0 ≤ q then roundNonneg q else -roundNonneg (-q)

theorem ulp_pos (q : ℚ) : 0 < ulp q := zpow_pos (by norm_num) _

/-- A positive number is between two powers of two. -/
theorem log_bounds {q : ℚ} (hq : 0 < q) : (2 : ℚ) ^ log 2 q ≤ q ∧ q < (2 : ℚ) ^ (log 2 q + 1) := by
  have hle := zpow_log_le_self (b := 2) (by norm_num) hq
  have hlt := lt_zpow_succ_log_self (b := 2) (by norm_num) q
  push_cast at hle hlt
  exact ⟨hle, hlt⟩

theorem zpow_eq_mul_ulp (q : ℚ) : (2 : ℚ) ^ log 2 q = (2 ^ 52 : ℤ) * ulp q := by
  unfold ulp
  rw [zpow_sub₀ (by norm_num)]
  push_cast
  field_simp

/-- Half a unit in the last place is at most `2 ^ -53` of the number. -/
theorem ulp_le {q : ℚ} (hq : 0 < q) : ulp q ≤ q / 2 ^ 52 := by
  have hle := (log_bounds hq).1
  rw [zpow_eq_mul_ulp] at hle
  push_cast at hle
  rw [le_div_iff₀ (by norm_num)]
  linarith

theorem roundNonneg_zero : roundNonneg 0 = 0 := by
  unfold roundNonneg
  rw [zero_div]
  have h : nearest 0 = 0 := by
    have := nearest_intCast 0
    rwa [cast_zero] at this
  rw [h, cast_zero, zero_mul]

theorem abs_roundNonneg_sub_le {q : ℚ} (hq : 0 ≤ q) : |roundNonneg q - q| ≤ q / 2 ^ 53 := by
  rcases hq.eq_or_lt with rfl | hpos
  · rw [roundNonneg_zero]
    norm_num
  · have hulp := ulp_pos q
    have hnear := abs_nearest_sub_le (q / ulp q)
    have heq : roundNonneg q - q = ((nearest (q / ulp q) : ℚ) - q / ulp q) * ulp q := by
      unfold roundNonneg
      field_simp
    rw [heq, abs_mul, abs_of_pos hulp]
    calc |(nearest (q / ulp q) : ℚ) - q / ulp q| * ulp q
        ≤ 1 / 2 * ulp q := by gcongr
      _ ≤ 1 / 2 * (q / 2 ^ 52) := by gcongr; exact ulp_le hpos
      _ = q / 2 ^ 53 := by ring

theorem roundNonneg_nonneg {q : ℚ} (hq : 0 ≤ q) : 0 ≤ roundNonneg q := by
  have h := abs_le.mp (abs_roundNonneg_sub_le hq)
  have hle : q / 2 ^ 53 ≤ q := div_le_self hq (by norm_num)
  linarith

/-- Within a power of two the unit is the same; across one, the power itself is in between. -/
theorem roundNonneg_mono {p q : ℚ} (hp : 0 ≤ p) (hpq : p ≤ q) : roundNonneg p ≤ roundNonneg q := by
  rcases hp.eq_or_lt with rfl | hpos
  · rw [roundNonneg_zero]
    exact roundNonneg_nonneg hpq
  have hqpos : 0 < q := hpos.trans_le hpq
  rcases (log_mono_right hpos hpq : log 2 p ≤ log 2 q).eq_or_lt with heq | hlt
  · have hulp : ulp p = ulp q := by
      unfold ulp
      rw [heq]
    unfold roundNonneg
    rw [hulp]
    have hdiv : p / ulp q ≤ q / ulp q := div_le_div_of_nonneg_right hpq (ulp_pos q).le
    exact mul_le_mul_of_nonneg_right (by exact_mod_cast nearest_mono hdiv) (ulp_pos q).le
  · -- `p` is rounded up to the next power of two at most, and `q` is not rounded below its own
    have hup : roundNonneg p ≤ (2 : ℚ) ^ (log 2 p + 1) := by
      have hpow : (2 : ℚ) ^ (log 2 p + 1) = (2 ^ 53 : ℤ) * ulp p := by
        rw [zpow_add_one₀ (by norm_num), zpow_eq_mul_ulp]
        push_cast
        ring
      have hdiv : p / ulp p ≤ ((2 ^ 53 : ℤ) : ℚ) := by
        rw [div_le_iff₀ (ulp_pos p), ← hpow]
        exact (log_bounds hpos).2.le
      rw [hpow]
      unfold roundNonneg
      refine mul_le_mul_of_nonneg_right ?_ (ulp_pos p).le
      have := nearest_mono hdiv
      rw [nearest_intCast] at this
      exact_mod_cast this
    have hdown : (2 : ℚ) ^ log 2 q ≤ roundNonneg q := by
      have hdiv : ((2 ^ 52 : ℤ) : ℚ) ≤ q / ulp q := by
        rw [le_div_iff₀ (ulp_pos q), ← zpow_eq_mul_ulp]
        exact (log_bounds hqpos).1
      rw [zpow_eq_mul_ulp]
      unfold roundNonneg
      refine mul_le_mul_of_nonneg_right ?_ (ulp_pos q).le
      have := nearest_mono hdiv
      rw [nearest_intCast] at this
      exact_mod_cast this
    have hmid : (2 : ℚ) ^ (log 2 p + 1) ≤ (2 : ℚ) ^ log 2 q :=
      zpow_le_zpow_right₀ (by norm_num) (by omega)
    exact hup.trans (hmid.trans hdown)

/-! ## The rounding -/

theorem round_zero : round 0 = 0 := by
  unfold round
  rw [if_pos le_rfl, roundNonneg_zero]

/-- **Rounding is monotone.** -/
theorem round_mono : Monotone round := by
  intro p q hpq
  unfold round
  split_ifs with hp hq hq
  · exact roundNonneg_mono hp hpq
  · exact absurd (hp.trans hpq) hq
  · have h := roundNonneg_nonneg (neg_nonneg.mpr (not_le.mp hp).le)
    have h' := roundNonneg_nonneg hq
    linarith
  · exact neg_le_neg (roundNonneg_mono (neg_nonneg.mpr (not_le.mp hq).le) (neg_le_neg hpq))

end FlowraValidator.Binary64
