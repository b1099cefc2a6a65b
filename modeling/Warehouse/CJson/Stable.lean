import Warehouse.CJson.Rendered
import Warehouse.Numeric.ReadBack

/-!
# Printed numbers are stable

A double is printed with fifteen digits when these are close enough to it for the library, and with
seventeen otherwise.  Fifteen digits may be read as another double, which is then printed with the
same digits; at the upper end of the range they may be read as an infinity.

* `rereads_seventeen`    seventeen digits give the double back;
* `compareDouble_small`  very small doubles are close only when they are equal;
* `numberText_nearest`   the double that fifteen digits denote is printed with the same digits;
* `rereads_finite_iff`   the doubles that are not read as an infinity;
* `numberText_overflow`, `numberText_stable`   their texts are stable, those of the others are not;
* `print_parse_print_iff`   the text of a tree, printed, parsed and printed again.
-/

namespace Numeric

theorem Binary64.ofRat_of_nearest {q y : ℚ} (h : nearest y = q) (hq : Representable q) :
    Binary64.ofRat y = .finite q hq := by
  subst h
  unfold Binary64.ofRat
  rw [dif_pos hq.1]

/-- a step of the grid of a number, relative to the number -/
theorem two_zpow_lastPlace_le {y : ℚ} (hy : y ≠ 0) : (2 : ℚ) ^ lastPlace 2 53 y * 2 ^ 52 ≤ |y| := by
  have h := zpow_log_le (b := 2) (by norm_num) hy
  rw [Nat.cast_ofNat] at h
  refine le_of_eq_of_le ?_ h
  rw [← zpow_natCast, ← zpow_add₀ (by norm_num)]
  congr 1
  unfold lastPlace
  push_cast
  ring

theorem gridExponent_le {y : ℚ} {k : ℤ} (hy : y ≠ 0) (hk : -1074 ≤ k) (h : |y| < 2 ^ (k + 53)) :
    gridExponent y ≤ k := by
  have hlog : Int.log 2 |y| < k + 53 :=
    (Int.lt_zpow_iff_log_lt (by norm_num) (abs_pos.mpr hy)).mp (by exact_mod_cast h)
  unfold gridExponent
  exact max_le (by omega) hk

/-- what is below half of the finest step is rounded to zero -/
theorem nearest_of_tiny {x : ℚ} (hx : |x| < 2 ^ (-1075 : ℤ)) : nearest x = 0 := by
  by_cases h0 : x = 0
  · rw [h0]
    exact nearest_eq_self representable_zero
  have hlog : Int.log 2 |x| < -1075 :=
    (Int.lt_zpow_iff_log_lt (by norm_num) (abs_pos.mpr h0)).mp (by exact_mod_cast hx)
  have hexp : gridExponent x = -1074 := by
    unfold gridExponent
    exact max_eq_right (by omega)
  refine nearest_of_grid (n := 0) (by rw [Int.cast_zero, zero_mul]) ?_
  rw [sub_zero, hexp]
  refine hx.trans_le (le_of_eq ?_)
  rw [show (-1074 : ℤ) = -1075 + 1 by norm_num, zpow_add₀ (by norm_num)]
  ring

end Numeric

namespace CJSON
open Text Numeric

variable {q z : ℚ}

/-! ## doubles that are read back -/

/-- **Seventeen digits give the double back.** -/
theorem rereads_seventeen (h : Representable q) (hq : q ≠ 0) :
    strtod (formatG 17 q) = some (.finite q h, []) := by
  rw [strtod_formatG_eq (by norm_num) hq]
  have herr := abs_roundDigits_sub_mul_le (p := 17) (by norm_num) hq
  have hpos : 0 < |q| := abs_pos.mpr hq
  have hnear : |roundDigits 17 q - q| * 2 ^ 54 < |q| := by
    rcases (abs_nonneg (roundDigits 17 q - q)).eq_or_lt with h0 | h0
    · rw [← h0, zero_mul]
      exact hpos
    · refine lt_of_lt_of_le ?_ herr
      exact mul_lt_mul_of_pos_left (by norm_num) h0
  rw [Binary64.ofRat_of_nearest (nearest_of_near h hq hnear) h]

/-- very small doubles are close only when they are equal -/
theorem compareDouble_small (hz : Representable z) (hq : Representable q)
    (hzs : |z| < 2 ^ (-1023 : ℤ)) (hqs : |q| < 2 ^ (-1023 : ℤ))
    (h : compareDouble (.finite z hz) (.finite q hq) = true) : z = q := by
  have htwo : (2 : ℚ) ^ (-1022 : ℤ) = 2 ^ (-1023 : ℤ) + 2 ^ (-1023 : ℤ) := by
    rw [show (-1022 : ℤ) = -1023 + 1 by norm_num, zpow_add₀ (by norm_num)]
    ring
  have hdiff : |z - q| < 2 ^ (-1022 : ℤ) := by
    have := abs_sub z q
    rw [htwo]
    linarith
  -- the difference is a double
  have hrep : Representable (z - q) := by
    by_cases hz0 : z = 0
    · rw [hz0, zero_sub]
      exact hq.neg
    by_cases hq0 : q = 0
    · rw [hq0, sub_zero]
      exact hz
    obtain ⟨-, a, ha⟩ := hz.grid hz0
    obtain ⟨-, b, hb⟩ := hq.grid hq0
    have hab : z - q = ((a - b : ℤ) : ℚ) * 2 ^ (-1074 : ℤ) := by
      rw [Int.cast_sub, sub_mul, ← ha, ← hb]
    refine ⟨hdiff.trans ?_, a - b, -1074, ?_, le_rfl, hab⟩
    · rw [← zpow_natCast]
      exact zpow_lt_zpow_right₀ (by norm_num) (by norm_num)
    · have hlt : |((a - b : ℤ) : ℚ)| * 2 ^ (-1074 : ℤ) < 2 ^ 52 * 2 ^ (-1074 : ℤ) := by
        rw [hab, abs_mul, abs_of_pos (by positivity : (0 : ℚ) < 2 ^ (-1074 : ℤ))] at hdiff
        refine hdiff.trans_le (le_of_eq ?_)
        rw [← zpow_natCast, ← zpow_add₀ (by norm_num)]
        congr 1
      have hlt' := lt_of_mul_lt_mul_right hlt (by positivity)
      have hint : |a - b| < 2 ^ 52 := by exact_mod_cast hlt'
      exact hint.trans (by norm_num)
  have hsub : Binary64.sub (.finite z hz) (.finite q hq) = .finite (z - q) hrep := by
    show Binary64.ofRat (z + -q) = _
    rw [← sub_eq_add_neg]
    exact Binary64.ofRat_representable hrep
  have heps : DBL_EPSILON = .finite (2 ^ (-52 : ℤ)) _ :=
    Binary64.ofRat_representable (representable_two_zpow (by norm_num) (by norm_num))
  have hzero : ∀ x : ℚ, ∀ hx : Representable x, |x| < 2 ^ (-1023 : ℤ) →
      Binary64.mul (.finite x hx) DBL_EPSILON = .finite 0 representable_zero := by
    intro x hx hxs
    rw [heps]
    show Binary64.ofRat (x * 2 ^ (-52 : ℤ)) = _
    refine Binary64.ofRat_of_nearest (nearest_of_tiny ?_) _
    rw [abs_mul, abs_of_pos (by positivity : (0 : ℚ) < 2 ^ (-52 : ℤ))]
    calc |x| * 2 ^ (-52 : ℤ) < 2 ^ (-1023 : ℤ) * 2 ^ (-52 : ℤ) :=
          mul_lt_mul_of_pos_right hxs (by positivity)
      _ = 2 ^ (-1075 : ℤ) := by
          rw [← zpow_add₀ (by norm_num)]
          norm_num
  have hmax : Binary64.mul (if (Binary64.finite q hq).abs.lt (Binary64.finite z hz).abs then
      (Binary64.finite z hz).abs else (Binary64.finite q hq).abs) DBL_EPSILON =
      .finite 0 representable_zero := by
    split_ifs
    · exact hzero |z| _ (by rwa [abs_abs])
    · exact hzero |q| _ (by rwa [abs_abs])
  unfold compareDouble at h
  rw [hsub, hmax] at h
  have hle : |z - q| ≤ 0 := by
    have h' : Binary64.le (.finite |z - q| hrep.abs) (.finite 0 representable_zero) = true := h
    rwa [Binary64.le_finite, decide_eq_true_iff] at h'
  exact sub_eq_zero.mp (abs_nonpos_iff.mp hle)

/-! ## fifteen digits -/

/-- a double that is close to fifteen digits has these digits -/
theorem numberText_of_near (hz : Representable z) (hq : q ≠ 0)
    (hnear : nearest (roundDigits 15 q) = z)
    (h : |z - roundDigits 15 q| * (2 * 10 ^ 15) < |roundDigits 15 q|) :
    numberText (.finite z hz) = formatG 15 q := by
  obtain ⟨hz0, hround⟩ := roundDigits_of_near (by norm_num) hq h
  have hformat : formatG 15 z = formatG 15 q := formatG_congr (by norm_num) hq hz0 hround
  have hrec : recovers (formatG 15 z) (.finite z hz) = true := by
    unfold recovers
    rw [hformat, strtod_formatG_eq (by norm_num) hq, Binary64.ofRat_of_nearest hnear hz]
    exact compareDouble_self hz
  dsimp only [numberText]
  rw [if_pos hrec, hformat]
  split_ifs with hfeq
  · -- a whole number of the type `int`
    have hv := valueint_range (.finite z hz)
    unfold INT_MIN INT_MAX at hv
    have hv53 : |valueint (.finite z hz)| < 2 ^ 53 := by
      rw [abs_lt]
      omega
    have hz' : z = valueint (.finite z hz) := by
      rwa [Binary64.ofInt_eq hv53, Binary64.feq_finite, decide_eq_true_iff] at hfeq
    have hformat' : formatG 15 ((valueint (.finite z hz) : ℤ) : ℚ) =
        numeral (valueint (.finite z hz)) := formatG_intCast (by norm_num; omega)
    rw [← hformat', ← hz', hformat]
  · rfl

theorem abs_fifteen_sub_le (hq : q ≠ 0) : |roundDigits 15 q - q| * 2 ≤ |q| := by
  refine le_trans ?_ (abs_roundDigits_sub_mul_le (p := 15) (by norm_num) hq)
  exact mul_le_mul_of_nonneg_left (by norm_num) (abs_nonneg _)

theorem abs_fifteen_le (hq : q ≠ 0) : |q| ≤ 2 * |roundDigits 15 q| := by
  have herr := abs_fifteen_sub_le hq
  have htri := abs_sub_abs_le_abs_sub q (roundDigits 15 q)
  rw [abs_sub_comm] at htri
  linarith

theorem fifteen_le_abs (hq : q ≠ 0) : |roundDigits 15 q| * 2 ≤ |q| * 3 := by
  have herr := abs_fifteen_sub_le hq
  have htri := abs_sub_abs_le_abs_sub (roundDigits 15 q) q
  linarith

/-- **The double that fifteen digits denote is printed with the same digits.**  Where the grid of
the doubles is finer than that of the digits, this is so for every double; a smaller one is
only printed with fifteen digits when they give it back. -/
theorem numberText_nearest (h : Representable q) (hq : q ≠ 0)
    (htext : numberText (.finite q h) = formatG 15 q)
    (hrec : recovers (formatG 15 q) (.finite q h) = true)
    (hz : Representable (nearest (roundDigits 15 q))) :
    numberText (.finite (nearest (roundDigits 15 q)) hz) = formatG 15 q := by
  have hy := roundDigits_ne_zero (p := 15) (by norm_num) hq
  have herr := abs_nearest_sub_le (roundDigits 15 q)
  have hpos : 0 < |roundDigits 15 q| := abs_pos.mpr hy
  by_cases hclose : |nearest (roundDigits 15 q) - roundDigits 15 q| * (2 * 10 ^ 15) <
      |roundDigits 15 q|
  · exact numberText_of_near hz hq rfl hclose
  · -- the finest grid of all, and numbers of few steps
    rw [not_lt] at hclose
    have hfine : lastPlace 2 53 (roundDigits 15 q) < -1074 := by
      by_contra hge
      rw [not_lt] at hge
      have hexp : gridExponent (roundDigits 15 q) = lastPlace 2 53 (roundDigits 15 q) := by
        rw [gridExponent_eq, max_eq_left hge]
      have hstep := two_zpow_lastPlace_le hy
      rw [hexp] at herr
      have hmul := mul_le_mul_of_nonneg_right herr (by norm_num : (0 : ℚ) ≤ 2 * 10 ^ 15)
      have hu : (0 : ℚ) < 2 ^ lastPlace 2 53 (roundDigits 15 q) := by positivity
      have hbig : (2 : ℚ) ^ lastPlace 2 53 (roundDigits 15 q) * 10 ^ 15 <
          2 ^ lastPlace 2 53 (roundDigits 15 q) * 2 ^ 52 := mul_lt_mul_of_pos_left (by norm_num) hu
      linarith
    have hexp : gridExponent (roundDigits 15 q) = -1074 := by
      rw [gridExponent_eq, max_eq_right hfine.le]
    rw [hexp] at herr
    have hmul := mul_le_mul_of_nonneg_right herr (by norm_num : (0 : ℚ) ≤ 2 * 10 ^ 15)
    have hpow : (2 : ℚ) ^ (-1023 : ℤ) = 2 ^ (-1074 : ℤ) * 2 ^ 51 := by
      rw [← zpow_natCast, ← zpow_add₀ (by norm_num)]
      congr 1
    have hu : (0 : ℚ) < 2 ^ (-1074 : ℤ) := by positivity
    have hyle : |roundDigits 15 q| ≤ 2 ^ (-1074 : ℤ) * 10 ^ 15 := by linarith
    have hqle := abs_fifteen_le hq
    have hqs : |q| < 2 ^ (-1023 : ℤ) := by
      have : (2 : ℚ) ^ (-1074 : ℤ) * (2 * 10 ^ 15) < 2 ^ (-1074 : ℤ) * 2 ^ 51 :=
        mul_lt_mul_of_pos_left (by norm_num) hu
      rw [hpow]
      linarith
    have hzs : |nearest (roundDigits 15 q)| < 2 ^ (-1023 : ℤ) := by
      have htri := abs_sub_abs_le_abs_sub (nearest (roundDigits 15 q)) (roundDigits 15 q)
      have : (2 : ℚ) ^ (-1074 : ℤ) * (10 ^ 15 + 1) < 2 ^ (-1074 : ℤ) * 2 ^ 51 :=
        mul_lt_mul_of_pos_left (by norm_num) hu
      rw [hpow]
      linarith
    have hcompare : compareDouble (.finite (nearest (roundDigits 15 q)) hz) (.finite q h) = true := by
      unfold recovers at hrec
      rw [strtod_formatG_eq (by norm_num) hq, Binary64.ofRat_of_nearest rfl hz] at hrec
      exact hrec
    have heq := compareDouble_small hz h hzs hqs hcompare
    refine Eq.trans ?_ htext
    congr 2

/-! ## the upper end of the range -/

/-- the numbers from here on are written as more than the largest double -/
def overflowLimit : ℚ := 1797693134862315 * 10 ^ 293

theorem two_pow_1024_lt : (2 : ℚ) ^ 1024 < 10 ^ 309 := by
  have h2 : (2 : ℚ) ^ 1024 = (2 ^ 128) ^ 8 := by rw [← pow_mul]
  have h10 : (10 : ℚ) ^ 309 = (10 ^ 103) ^ 3 := by rw [← pow_mul]
  rw [h2, h10]
  norm_num

/-- fifteen digits of a large double -/
theorem abs_fifteen_large (hlo : (10 : ℚ) ^ 308 ≤ |q|) (hhi : |q| < 2 ^ 1024) :
    lastPlace 10 15 q = 294 ∧ |roundDigits 15 q| = roundHalfEven (|q| / 10 ^ 294) * 10 ^ 294 := by
  have hpos : 0 < |q| := lt_of_lt_of_le (by positivity) hlo
  have hlog : Int.log 10 |q| = 308 := by
    refine log_eq_of_bounds (by norm_num) ?_ ?_
    · rw [Nat.cast_ofNat, show (308 : ℤ) = ((308 : ℕ) : ℤ) from rfl, zpow_natCast]
      exact hlo
    · rw [Nat.cast_ofNat, show (308 : ℤ) + 1 = ((309 : ℕ) : ℤ) from rfl, zpow_natCast]
      exact hhi.trans two_pow_1024_lt
  have hplace : lastPlace 10 15 q = 294 := by
    unfold lastPlace
    rw [hlog]
    rfl
  obtain ⟨-, -, hval⟩ := significand_spec (p := 15) (by norm_num) (abs_pos.mp hpos)
  rw [abs_roundDigits, hval, hplace, show (294 : ℤ) = ((294 : ℕ) : ℤ) from rfl, zpow_natCast]
  exact ⟨rfl, rfl⟩

/-- the last fifteen digits below the largest double -/
theorem large_digits_lt : (179769313486231 * 10 ^ 294 : ℚ) < 2 ^ 1024 - 2 ^ 970 := by
  have h1024 : (2 : ℚ) ^ 1024 = (2 ^ 97) ^ 10 * 2 ^ 54 := by rw [← pow_mul, ← pow_add]
  have h970 : (2 : ℚ) ^ 970 = (2 ^ 97) ^ 10 := by rw [← pow_mul]
  have h294 : (10 : ℚ) ^ 294 = (10 ^ 98) ^ 3 := by rw [← pow_mul]
  rw [h1024, h970, h294]
  norm_num

/-- and the first ones above it -/
theorem lt_large_digits : (2 ^ 1024 + 2 ^ 971 : ℚ) < 179769313486232 * 10 ^ 294 := by
  have h1024 : (2 : ℚ) ^ 1024 = (2 ^ 97) ^ 10 * 2 ^ 54 := by rw [← pow_mul, ← pow_add]
  have h971 : (2 : ℚ) ^ 971 = (2 ^ 97) ^ 10 * 2 := by rw [← pow_mul, ← pow_succ]
  have h294 : (10 : ℚ) ^ 294 = (10 ^ 98) ^ 3 := by rw [← pow_mul]
  rw [h1024, h971, h294]
  norm_num

theorem lt_overflowLimit_iff (x : ℚ) :
    x < overflowLimit ↔ x / 10 ^ 294 < 179769313486231 + 1 / 2 := by
  have hten : (10 : ℚ) ^ 294 = 10 ^ 293 * 10 := pow_succ ..
  have hpos : (0 : ℚ) < 10 ^ 293 := by positivity
  unfold overflowLimit
  rw [hten, div_lt_iff₀ (by positivity)]
  generalize (10 : ℚ) ^ 293 = T at *
  have hmul : (179769313486231 + 1 / 2) * (T * 10) = 1797693134862315 * T := by ring
  rw [hmul]

theorem roundHalfEven_le_of_lt {x : ℚ} {n : ℤ} (h : x < n + 1 / 2) : roundHalfEven x ≤ n := by
  have hround := (abs_le.mp (abs_roundHalfEven_sub_le x)).2
  have hlt : (roundHalfEven x : ℚ) < n + 1 := by linarith
  have hlt' : roundHalfEven x < n + 1 := by exact_mod_cast hlt
  omega

/-- from half a step above an odd number on, the next one is nearer or even -/
theorem lt_roundHalfEven_of_le {x : ℚ} {n : ℤ} (hn : n % 2 = 1) (h : n + 1 / 2 ≤ x) :
    n < roundHalfEven x := by
  have hfloor : n ≤ ⌊x⌋ := Int.le_floor.mpr (by linarith)
  unfold roundHalfEven
  split_ifs with h1 h2 h3
  · -- below half a step
    by_contra hle
    have heq : ⌊x⌋ = n := by omega
    rw [heq] at h1
    linarith
  · omega
  · omega
  · omega

/-- half a step of the grid below a power of two -/
theorem abs_nearest_sub_le_of_lt {y : ℚ} (hy : y ≠ 0) (k : ℕ) (h : |y| < 2 ^ (k + 53)) :
    |nearest y - y| ≤ 2 ^ k / 2 := by
  have hgrid : gridExponent y ≤ k := by
    refine gridExponent_le hy (by omega) ?_
    rw [show (k : ℤ) + 53 = ((k + 53 : ℕ) : ℤ) by push_cast; rfl, zpow_natCast]
    exact h
  have hstep : (2 : ℚ) ^ gridExponent y ≤ 2 ^ (k : ℤ) := zpow_le_zpow_right₀ (by norm_num) hgrid
  rw [zpow_natCast] at hstep
  exact (abs_nearest_sub_le y).trans (div_le_div_of_nonneg_right hstep (by norm_num))

theorem ten_pow_308 : (10 : ℚ) ^ 308 = 100000000000000 * 10 ^ 294 := by
  rw [show (308 : ℕ) = 14 + 294 from rfl, pow_add]
  congr 1

/-- the digits of a double that is read as an infinity -/
theorem large_of_overflow (h : Representable q) (hge : overflowLimit ≤ |q|) :
    179769313486232 * (10 : ℚ) ^ 294 ≤ |roundDigits 15 q| := by
  have hten : (0 : ℚ) < 10 ^ 294 := by positivity
  rw [← not_lt, lt_overflowLimit_iff, not_lt] at hge
  have hlo : (10 : ℚ) ^ 308 ≤ |q| := by
    rw [le_div_iff₀ hten] at hge
    rw [ten_pow_308]
    refine le_trans ?_ hge
    exact mul_le_mul_of_nonneg_right (by norm_num) hten.le
  obtain ⟨-, habs⟩ := abs_fifteen_large hlo h.1
  have hround := lt_roundHalfEven_of_le (n := 179769313486231) (by norm_num)
    (by push_cast; exact hge)
  have hcast : (179769313486232 : ℚ) ≤ roundHalfEven (|q| / 10 ^ 294) := by exact_mod_cast hround
  rw [habs]
  exact mul_le_mul_of_nonneg_right hcast hten.le

theorem not_large_of_lt (h : Representable q) (hq : q ≠ 0) (hlt : |q| < overflowLimit) :
    |roundDigits 15 q| ≤ 179769313486231 * (10 : ℚ) ^ 294 := by
  have hten : (0 : ℚ) < 10 ^ 294 := by positivity
  by_cases hlo : (10 : ℚ) ^ 308 ≤ |q|
  · obtain ⟨-, habs⟩ := abs_fifteen_large hlo h.1
    have hround : roundHalfEven (|q| / 10 ^ 294) ≤ 179769313486231 :=
      roundHalfEven_le_of_lt (by push_cast; exact (lt_overflowLimit_iff _).mp hlt)
    have hcast : (roundHalfEven (|q| / 10 ^ 294) : ℚ) ≤ 179769313486231 := by exact_mod_cast hround
    rw [habs]
    exact mul_le_mul_of_nonneg_right hcast hten.le
  · have hle := fifteen_le_abs hq
    rw [not_le, ten_pow_308] at hlo
    generalize (10 : ℚ) ^ 294 = T at *
    linarith

/-- **The doubles that are read as a double.** -/
theorem rereads_finite_iff (h : Representable q) (hq : q ≠ 0) :
    |nearest (roundDigits 15 q)| < 2 ^ 1024 ↔ |q| < overflowLimit := by
  have hy := roundDigits_ne_zero (p := 15) (by norm_num) hq
  constructor
  · intro hfin
    by_contra hge
    have hlow := large_of_overflow h (not_lt.mp hge)
    have herr : |nearest (roundDigits 15 q) - roundDigits 15 q| ≤ 2 ^ 972 / 2 := by
      refine abs_nearest_sub_le_of_lt hy 972 ?_
      have hle := fifteen_le_abs hq
      have hpos := abs_nonneg q
      have hq1024 := h.1
      clear hlow
      rw [show (972 : ℕ) + 53 = 1024 + 1 from rfl, pow_succ]
      generalize (2 : ℚ) ^ 1024 = T at *
      linarith
    have htri := abs_sub_abs_le_abs_sub (roundDigits 15 q) (nearest (roundDigits 15 q))
    rw [abs_sub_comm] at htri
    have hlarge := lt_large_digits
    rw [show (972 : ℕ) = 971 + 1 from rfl, pow_succ] at herr
    generalize (2 : ℚ) ^ 1024 = A at *
    generalize (2 : ℚ) ^ 971 = B at *
    generalize (10 : ℚ) ^ 294 = T at *
    linarith
  · intro hlt
    have hle := not_large_of_lt h hq hlt
    have hlarge := large_digits_lt
    have h970 : (0 : ℚ) < 2 ^ 970 := by positivity
    have herr : |nearest (roundDigits 15 q) - roundDigits 15 q| ≤ 2 ^ 971 / 2 := by
      refine abs_nearest_sub_le_of_lt hy 971 ?_
      show |roundDigits 15 q| < 2 ^ 1024
      generalize (2 : ℚ) ^ 1024 = A at *
      generalize (2 : ℚ) ^ 970 = B at *
      generalize (10 : ℚ) ^ 294 = T at *
      linarith
    have htri := abs_sub_abs_le_abs_sub (nearest (roundDigits 15 q)) (roundDigits 15 q)
    rw [show (971 : ℕ) = 970 + 1 from rfl, pow_succ] at herr
    generalize (2 : ℚ) ^ 1024 = A at *
    generalize (2 : ℚ) ^ 970 = B at *
    generalize (10 : ℚ) ^ 294 = T at *
    linarith

/-! ## stable texts -/

/-- an infinity is close to every double -/
theorem compareDouble_inf (neg : Bool) (h : Representable q) :
    compareDouble (.inf neg) (.finite q h) = true := by
  have heps : DBL_EPSILON = .finite (2 ^ (-52 : ℤ)) _ :=
    Binary64.ofRat_representable (representable_two_zpow (by norm_num) (by norm_num))
  have hlt : (Binary64.finite q h).abs.lt (Binary64.inf neg).abs = true := rfl
  have hmul : Binary64.mul (.inf false) DBL_EPSILON = .inf false := by
    have hpos : (0 : ℚ) < 2 ^ (-52 : ℤ) := by positivity
    rw [heps]
    show (if (2 : ℚ) ^ (-52 : ℤ) = 0 then Binary64.nan
      else .inf (false != decide ((2 : ℚ) ^ (-52 : ℤ) < 0))) = _
    rw [if_neg hpos.ne', decide_eq_false (not_lt.mpr hpos.le)]
    rfl
  unfold compareDouble
  rw [if_pos hlt]
  show Binary64.le (.inf false) (Binary64.mul (.inf false) DBL_EPSILON) = true
  rw [hmul]
  rfl

/-- what the fifteen digits of a double that is not below the limit are read as -/
theorem ofRat_overflow (h : Representable q) (hq : q ≠ 0) (hge : ¬ |q| < overflowLimit) :
    Binary64.ofRat (roundDigits 15 q) = .inf (decide (roundDigits 15 q < 0)) := by
  rw [← rereads_finite_iff h hq] at hge
  unfold Binary64.ofRat
  rw [dif_neg hge]

theorem valueint_lt_overflowLimit (d : Binary64) : |(valueint d : ℚ)| < overflowLimit := by
  have hv := valueint_range d
  unfold INT_MIN INT_MAX at hv
  have hv' : |valueint d| < 2 ^ 32 := by
    rw [abs_lt]
    omega
  have hq : |(valueint d : ℚ)| < 2 ^ 32 := by exact_mod_cast hv'
  have hten : (1 : ℚ) ≤ 10 ^ 293 := one_le_pow₀ (by norm_num)
  unfold overflowLimit
  generalize (10 : ℚ) ^ 293 = T at *
  linarith

/-- a double that is the integer value the library derives from it -/
theorem valueint_of_feq {h : Representable q}
    (hfeq : (Binary64.finite q h).feq (Binary64.ofInt (valueint (.finite q h))) = true) :
    q = valueint (.finite q h) ∧ Binary64.ofInt (valueint (.finite q h)) = .finite q h := by
  have hv := valueint_range (.finite q h)
  unfold INT_MIN INT_MAX at hv
  have hv53 : |valueint (.finite q h)| < 2 ^ 53 := by
    rw [abs_lt]
    omega
  have hq : q = valueint (.finite q h) := by
    rwa [Binary64.ofInt_eq hv53, Binary64.feq_finite, decide_eq_true_iff] at hfeq
  refine ⟨hq, ?_⟩
  rw [Binary64.ofInt_eq hv53, Binary64.finite.injEq]
  exact hq.symm

theorem ne_zero_of_overflow (hge : ¬ |q| < overflowLimit) : q ≠ 0 := by
  rintro rfl
  refine hge ?_
  rw [abs_zero]
  unfold overflowLimit
  positivity

/-- a double that is not below the limit is printed with fifteen digits, which denote an infinity -/
theorem numberText_overflow (h : Representable q) (hge : ¬ |q| < overflowLimit) :
    numberText (.finite q h) = formatG 15 q ∧
      strtod (formatG 15 q) = some (.inf (decide (roundDigits 15 q < 0)), []) := by
  have hq := ne_zero_of_overflow hge
  have hread : strtod (formatG 15 q) = some (.inf (decide (roundDigits 15 q < 0)), []) := by
    rw [strtod_formatG_eq (by norm_num) hq, ofRat_overflow h hq hge]
  have hrec : recovers (formatG 15 q) (.finite q h) = true := by
    unfold recovers
    rw [hread]
    exact compareDouble_inf _ h
  refine ⟨?_, hread⟩
  dsimp only [numberText]
  rw [if_pos hrec]
  split_ifs with hfeq
  · obtain ⟨hv, -⟩ := valueint_of_feq hfeq
    have hlt := valueint_lt_overflowLimit (.finite q h)
    rw [← hv] at hlt
    exact absurd hlt hge
  · rfl

/-- **The text of a double below the limit is stable.**  It is read as a double that has the same
text. -/
theorem numberText_stable (h : Representable q) (hlt : |q| < overflowLimit) :
    ∃ v, strtod (numberText (.finite q h)) = some (v, []) ∧
      numberText v = numberText (.finite q h) := by
  by_cases hfeq : (Binary64.finite q h).feq (Binary64.ofInt (valueint (.finite q h))) = true
  · -- a whole number of the type `int`
    obtain ⟨-, hval⟩ := valueint_of_feq hfeq
    have hread := strtod_numeral (i := valueint (.finite q h)) (r := []) (fun x hx => nomatch hx)
    rw [List.append_nil, hval] at hread
    have htext : numberText (.finite q h) = numeral (valueint (.finite q h)) := by
      dsimp only [numberText]
      rw [if_pos hfeq]
    exact ⟨.finite q h, by rw [htext, hread], rfl⟩
  have hq : q ≠ 0 := by
    rintro rfl
    refine hfeq ?_
    have hzero : Binary64.ofInt 0 = .finite 0 h := by
      rw [Binary64.ofInt_eq (by norm_num), Binary64.finite.injEq, Int.cast_zero]
    have hv := valueint_ofInt (i := 0) (by decide) (by decide)
    rw [hzero] at hv
    rw [hv, hzero, Binary64.feq_finite, decide_eq_true_iff]
  by_cases hrec : recovers (formatG 15 q) (.finite q h) = true
  · have htext : numberText (.finite q h) = formatG 15 q := by
      dsimp only [numberText]
      rw [if_neg hfeq, if_pos hrec]
    have hz := nearest_representable ((rereads_finite_iff h hq).mpr hlt)
    rw [htext]
    refine ⟨.finite _ hz, ?_, numberText_nearest h hq htext hrec hz⟩
    rw [strtod_formatG_eq (by norm_num) hq, Binary64.ofRat_of_nearest rfl hz]
  · have htext : numberText (.finite q h) = formatG 17 q := by
      dsimp only [numberText]
      rw [if_neg hfeq, if_neg hrec]
    exact ⟨.finite q h, by rw [htext, rereads_seventeen h hq], rfl⟩

/-! ## stable trees -/

namespace Node

/-- a number that is not read as an infinity -/
def Moderate (d : Binary64) : Prop := ∀ q h, d = .finite q h → |q| < overflowLimit

theorem render_rereadNumber {d : Binary64} (hd : Moderate d) :
    (rereadNumber d).render = numberText d := by
  cases d with
  | finite q h =>
    obtain ⟨v, hv, hsame⟩ := numberText_stable h (hd q h rfl)
    unfold rereadNumber
    rw [hv]
    exact hsame
  | inf neg => rfl
  | nan => rfl

/-- the text of a large double has an exponent of three digits -/
theorem length_formatG_large {q : ℚ} (h : Representable q) (hge : ¬ |q| < overflowLimit) :
    4 < (formatG 15 q).length := by
  have hlarge := large_of_overflow h (not_lt.mp hge)
  have hq := ne_zero_of_overflow hge
  obtain ⟨hlow, hhigh, -⟩ := significand_spec (p := 15) (by norm_num) hq
  have hlog := log_digits (by norm_num) hlow hhigh (abs_roundDigits 15 q)
  have hexp : 100 ≤ (significand 15 q).2 := by
    rw [← hlog]
    refine (Int.zpow_le_iff_le_log (by norm_num)
      (abs_pos.mpr (roundDigits_ne_zero (by norm_num) hq))).mp ?_
    refine le_trans ?_ hlarge
    rw [Nat.cast_ofNat, show (100 : ℤ) = ((100 : ℕ) : ℤ) from rfl, zpow_natCast]
    have hpow : (10 : ℚ) ^ 100 ≤ 10 ^ 294 := pow_le_pow_right₀ (by norm_num) (by norm_num)
    have hpos : (0 : ℚ) < 10 ^ 294 := by positivity
    generalize (10 : ℚ) ^ 294 = T at *
    generalize (10 : ℚ) ^ 100 = U at *
    linarith
  have hdigits : 3 ≤ (decimal (significand 15 q).2.natAbs).length := by
    have hle : Nat.log 10 100 ≤ Nat.log 10 (significand 15 q).2.natAbs :=
      Nat.log_mono_right (by omega)
    have h2 : Nat.log 10 (10 ^ 2) = 2 := Nat.log_pow (by norm_num) 2
    rw [show 100 = 10 ^ 2 from rfl, h2] at hle
    rw [length_decimal (by omega)]
    omega
  have htext : 4 < (formatDigits 15 (significand 15 q).1 (significand 15 q).2).length := by
    unfold formatDigits exponentText
    rw [if_neg (by push_cast; omega), if_neg (by omega), List.length_append, List.length_cons,
      List.length_cons, if_neg (by omega : ¬ (significand 15 q).2.natAbs < 10)]
    omega
  unfold formatG
  rw [if_neg hq]
  split_ifs
  · rw [List.length_cons]
    omega
  · exact htext

/-- a number that is read as an infinity, and printed as a null -/
theorem length_rereadNumber_lt {d : Binary64} (hd : ¬ Moderate d) :
    (rereadNumber d).render.length < (numberText d).length := by
  cases d with
  | inf neg => exact absurd (fun q h he => nomatch he) hd
  | nan => exact absurd (fun q h he => nomatch he) hd
  | finite q h =>
    have hge : ¬ |q| < overflowLimit := fun hlt => hd fun q' h' he => by
      cases he
      exact hlt
    obtain ⟨htext, hread⟩ := numberText_overflow h hge
    have hnull : (rereadNumber (.finite q h)).render = ascii ['n', 'u', 'l', 'l'] := by
      unfold rereadNumber
      rw [htext, hread]
      rfl
    rw [hnull, htext]
    exact length_formatG_large h hge

/-- a tree is printed again as it was, or shorter -/
def Rereads (P : Prop) (text text' : Bytes) : Prop :=
  (P ∧ text' = text) ∨ (¬ P ∧ text'.length < text.length)

theorem Rereads.refl (text : Bytes) : Rereads True text text := Or.inl ⟨trivial, rfl⟩

theorem Rereads.append {P Q : Prop} {a a' b b' : Bytes} (h : Rereads P a a') (h' : Rereads Q b b') :
    Rereads (P ∧ Q) (a ++ b) (a' ++ b') := by
  unfold Rereads at *
  rw [List.length_append, List.length_append]
  rcases h with ⟨hP, rfl⟩ | ⟨hP, hlt⟩
  · rcases h' with ⟨hQ, rfl⟩ | ⟨hQ, hlt'⟩
    · exact Or.inl ⟨⟨hP, hQ⟩, rfl⟩
    · exact Or.inr ⟨fun h => hQ h.2, by omega⟩
  · have hle : b'.length ≤ b.length := by
      rcases h' with ⟨-, rfl⟩ | ⟨-, hlt'⟩
      · exact le_rfl
      · exact hlt'.le
    exact Or.inr ⟨fun h => hP h.1, by omega⟩

theorem Rereads.congr {P Q : Prop} {a a' : Bytes} (h : Rereads P a a') (hPQ : P ↔ Q) :
    Rereads Q a a' := by
  unfold Rereads at *
  rwa [← hPQ]

theorem Rereads.eq_iff {P : Prop} {a a' : Bytes} (h : Rereads P a a') : a' = a ↔ P := by
  rcases h with ⟨hP, he⟩ | ⟨hP, hlt⟩
  · exact iff_of_true he hP
  · exact iff_of_false (fun he => absurd (congrArg List.length he) hlt.ne) hP

/-- the text around a part that may change -/
theorem Rereads.around {P : Prop} {a a' : Bytes} (h : Rereads P a a') (b c : Bytes) :
    Rereads P (b ++ (a ++ c)) (b ++ (a' ++ c)) :=
  ((refl b).append (h.append (refl c))).congr (by tauto)

theorem rereads (j : Node) : Rereads (j.AllNumbers Moderate) j.render j.reread.render := by
  induction j using induct with
  | null => exact Rereads.refl _
  | bool b => exact Rereads.refl _
  | number d =>
    by_cases hd : Moderate d
    · exact Or.inl ⟨hd, render_rereadNumber hd⟩
    · exact Or.inr ⟨hd, length_rereadNumber_lt hd⟩
  | string s => exact Rereads.refl _
  | array js ih =>
    have hjs : Rereads (AllNumbersItems Moderate js) (renderItems js)
        (renderItems (rereadItems js)) := by
      induction js with
      | nil => exact Rereads.refl _
      | cons j js ihjs =>
        have hrest := ihjs fun x hx => ih x (List.mem_cons_of_mem _ hx)
        have hcomma : (rereadItems js).isEmpty = js.isEmpty := by cases js <;> rfl
        have hboth := (ih j (List.mem_cons_self ..)).append
          ((Rereads.refl (if js.isEmpty then [] else [44])).append hrest)
        rw [rereadItems, renderItems, renderItems, hcomma]
        exact hboth.congr (by rw [AllNumbersItems, true_and])
    exact hjs.around [91] [93]
  | object ms ih =>
    have hms : Rereads (AllNumbersMembers Moderate ms) (renderMembers ms)
        (renderMembers (rereadMembers ms)) := by
      induction ms with
      | nil => exact Rereads.refl _
      | cons m ms ihms =>
        obtain ⟨k, j⟩ := m
        have hrest := ihms fun x hx => ih x (List.mem_cons_of_mem _ hx)
        have hcomma : (rereadMembers ms).isEmpty = ms.isEmpty := by cases ms <;> rfl
        have hj : Rereads (j.AllNumbers Moderate) j.render j.reread.render :=
          ih (k, j) (List.mem_cons_self ..)
        have hboth := (Rereads.refl (stringText k)).append ((Rereads.refl [58]).append
          (hj.append ((Rereads.refl (if ms.isEmpty then [] else [44])).append hrest)))
        rw [rereadMembers, renderMembers, renderMembers, hcomma]
        exact hboth.congr (by rw [AllNumbersMembers, true_and, true_and, true_and])
    exact hms.around [123] [125]

/-! ## the text that is parsed -/

end Node

/-- no value starts with a byte order mark -/
theorem Derives.no_bom {d : ℕ} {j : Node} {b : Bytes} (h : Derives d (.value j) b) (r : Bytes) :
    skipUtf8Bom (b ++ r) = b ++ r := by
  have hhead : ∃ c t, b = c :: t ∧ c ≠ 0xEF := by
    cases h with
    | number h =>
      obtain ⟨c, t, hb, hc⟩ := h.head
      refine ⟨c, t, hb, fun he => ?_⟩
      rw [he] at hc
      revert hc
      decide
    | string h =>
      obtain ⟨t, hb⟩ := h.head
      exact ⟨34, t, hb, by decide⟩
    | _ => exact ⟨_, _, rfl, by decide⟩
  obtain ⟨c, t, rfl, hc⟩ := hhead
  exact if_neg fun hbom => hc (List.cons.inj hbom.2).1

/-- a string that is the text of a value is parsed -/
theorem parse_of_derives {value : CString} {j : Node}
    (h : Derives CJSON_NESTING_LIMIT (.value j) value.bytes) : parse value = some j := by
  obtain ⟨c, t, hb, hc, -⟩ := h.head
  have hskip : skipWhitespace (value.bytes ++ [0]) = value.bytes ++ [0] := by
    rw [hb]
    exact skipWhitespace_cons hc _
  unfold parse
  rw [h.no_bom, hskip, h.parses [0] fun _ x hx => Option.some.inj hx ▸ rfl]
  rfl

namespace Node

theorem parse_render {j : Node} (hn : j.nesting ≤ CJSON_NESTING_LIMIT) :
    parse (CString.ofBuffer j.render) = some j.reread := by
  apply parse_of_derives
  have hbytes : (CString.ofBuffer j.render).bytes = j.render :=
    List.takeWhile_eq_self_iff.mpr fun c hc => bne_iff_ne.mpr (nulFree_render j c hc)
  rw [hbytes]
  exact derives_render j _ hn

/-- **The trees whose text is stable.**  What is printed is parsed, and it is printed again as the
same text exactly when no number of the tree is read as an infinity. -/
theorem print_parse_print_iff {j : Node} {text : Bytes} (hp : j.printUnformatted = some text)
    (hn : j.nesting ≤ CJSON_NESTING_LIMIT) : ∃ j', parse (CString.ofBuffer text) = some j' ∧
      (j'.printUnformatted = some text ↔ j.AllNumbers Moderate) := by
  rw [printUnformatted_eq] at hp
  split_ifs at hp with hlen
  obtain rfl := Option.some.inj hp
  refine ⟨j.reread, parse_render hn, ?_⟩
  rw [← (rereads j).eq_iff, printUnformatted_eq]
  constructor
  · intro h
    split_ifs at h
    exact Option.some.inj h
  · intro h
    rw [h, if_pos hlen]

theorem moderate_of_le_ten (h : Representable q) (hle : |q| ≤ 10) : Moderate (.finite q h) := by
  rintro _ _ ⟨⟩
  have hpow : (1 : ℚ) ≤ 10 ^ 293 := one_le_pow₀ (by norm_num)
  unfold overflowLimit
  generalize (10 : ℚ) ^ 293 = p at hpow ⊢
  linarith

/-- a whole number, a half, and an item with a name -/
def mixedList : Node :=
  .array [.number (.finite 7 (representable_int (n := 7) (by norm_num))),
    .number (.finite (2 ^ (-1 : ℤ)) (representable_two_zpow (by norm_num) (by norm_num))),
    .object [(.lit ['k'], .null)]]

theorem moderate_mixedList : mixedList.AllNumbers Moderate := by
  refine ⟨moderate_of_le_ten _ ?_, moderate_of_le_ten _ ?_, ⟨trivial, trivial⟩, trivial⟩
  · rw [abs_of_nonneg] <;> norm_num
  · rw [abs_of_nonneg] <;> norm_num

/-- the text of the list comes back -/
theorem print_parse_print_list : ∃ j', parse (CString.ofBuffer mixedList.render) = some j' ∧
    j'.printUnformatted = some mixedList.render := by
  have hlen : mixedList.render.length ≤ 100 := by
    have h7 := length_numberText_le (.finite 7 (representable_int (n := 7) (by norm_num)))
    have hhalf := length_numberText_le
      (.finite (2 ^ (-1 : ℤ)) (representable_two_zpow (by norm_num) (by norm_num)))
    have hnamed : (Node.object [(.lit ['k'], .null)]).render.length = 10 := by decide
    rw [mixedList, render, renderItems, renderItems, renderItems, renderItems, render, render]
    simp only [List.isEmpty_cons, List.isEmpty_nil, Bool.false_eq_true, if_false, if_true,
      List.length_append, List.length_cons, List.length_nil, hnamed]
    omega
  have hprint : mixedList.printUnformatted = some mixedList.render := by
    rw [printUnformatted_eq, if_pos (by unfold INT_MAX; omega)]
  obtain ⟨j', hj', hiff⟩ := print_parse_print_iff hprint (by decide)
  exact ⟨j', hj', hiff.mpr moderate_mixedList⟩

end Node

end CJSON
