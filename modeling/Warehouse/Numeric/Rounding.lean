import Warehouse.Numeric.Decimal

/-!
# Rounding to a number of digits

A number that is close to one with `p` digits is rounded to it, in the base two of the doubles and
in the base ten of their texts.

* `roundHalfEven_of_near`, `abs_roundHalfEven_sub_le`   rounding to an integer;
* `near_digits`          what is close to a number of `p` digits is so on its own grid, too;
* `nearest_of_near`      a number close to a double is rounded to it;
* `roundDigits`          the value of the digits that `formatG` writes, by `significand_spec`;
* `significand_congr`    the digits are those of the rounded value;
* `roundDigits_of_near`  a number close to one with `p` digits has these digits.
-/

namespace Numeric

/-! ## rounding to an integer -/

theorem roundHalfEven_of_near {q : ℚ} {n : ℤ} (h : |q - n| < 1 / 2) : roundHalfEven q = n := by
  obtain ⟨hlo, hhi⟩ := abs_lt.mp h
  have hfloor := Int.floor_le q
  have hfloor' := Int.lt_floor_add_one q
  have hlt : (⌊q⌋ : ℚ) < n + 1 := by linarith
  have hgt : (n : ℚ) - 2 < ⌊q⌋ := by linarith
  have hn : ⌊q⌋ = n ∨ ⌊q⌋ = n - 1 := by
    have h1 : ⌊q⌋ < n + 1 := by exact_mod_cast hlt
    have h2 : n - 2 < ⌊q⌋ := by exact_mod_cast hgt
    omega
  unfold roundHalfEven
  rcases hn with hn | hn
  · rw [if_pos (by rw [hn]; linarith), hn]
  · have hcast : ((n - 1 : ℤ) : ℚ) = n - 1 := by push_cast; rfl
    rw [if_neg (by rw [hn, hcast]; linarith), if_pos (by rw [hn, hcast]; linarith), hn]
    omega

theorem abs_roundHalfEven_sub_le (q : ℚ) : |(roundHalfEven q : ℚ) - q| ≤ 1 / 2 := by
  have hfloor := Int.floor_le q
  have hfloor' := Int.lt_floor_add_one q
  unfold roundHalfEven
  split_ifs with h1 h2 h3
  · rw [abs_le]
    constructor <;> linarith
  · rw [abs_le]
    push_cast
    constructor <;> linarith
  · rw [abs_le]
    constructor <;> linarith
  · rw [abs_le]
    push_cast
    constructor <;> linarith

/-- the nearest multiple of a step -/
theorem abs_roundHalfEven_mul_sub_le (y : ℚ) {u : ℚ} (hu : 0 < u) :
    |roundHalfEven (y / u) * u - y| ≤ u / 2 := by
  have hround := abs_roundHalfEven_sub_le (y / u)
  have hsplit : roundHalfEven (y / u) * u - y = (roundHalfEven (y / u) - y / u) * u := by
    rw [sub_mul, div_mul_cancel₀ _ hu.ne']
  rw [hsplit, abs_mul, abs_of_pos hu]
  calc _ ≤ 1 / 2 * u := mul_le_mul_of_nonneg_right hround hu.le
    _ = u / 2 := by ring

/-! ## digits in a base -/

section
variable {b p : ℕ} {x y : ℚ}

/-- the place of the last of `p` digits -/
def lastPlace (b p : ℕ) (x : ℚ) : ℤ := Int.log b |x| + 1 - p

theorem zpow_log_le (hb : 1 < b) (hx : x ≠ 0) : (b : ℚ) ^ Int.log b |x| ≤ |x| :=
  Int.zpow_log_le_self hb (abs_pos.mpr hx)

theorem lt_zpow_log (hb : 1 < b) (x : ℚ) : |x| < (b : ℚ) ^ (Int.log b |x| + 1) :=
  Int.lt_zpow_succ_log_self hb |x|

theorem log_eq_of_bounds (hb : 1 < b) {e : ℤ} (hlo : (b : ℚ) ^ e ≤ |x|)
    (hhi : |x| < (b : ℚ) ^ (e + 1)) : Int.log b |x| = e := by
  have hpos : 0 < |x| := lt_of_lt_of_le (zpow_pos (by positivity) e) hlo
  have h1 : e ≤ Int.log b |x| := (Int.zpow_le_iff_le_log hb hpos).mp hlo
  have h2 : Int.log b |x| < e + 1 := (Int.lt_zpow_iff_log_lt hb hpos).mp hhi
  omega

/-- **Close to `p` digits.**  The number may have one digit less in front of the point, and then its
grid is finer; the other number is on this grid, and still less than half a step away. -/
theorem near_digits (hb : 1 < b) (hp : 0 < p) (hy : y ≠ 0)
    (hgrid : ∃ n : ℤ, y = n * (b : ℚ) ^ lastPlace b p y) (h : |x - y| * (2 * b ^ p) < |y|) :
    x ≠ 0 ∧ (∃ n : ℤ, y = n * (b : ℚ) ^ lastPlace b p x) ∧
      |x - y| < (b : ℚ) ^ lastPlace b p x / 2 := by
  obtain ⟨n, hn⟩ := hgrid
  obtain ⟨p, rfl⟩ : ∃ k, p = k + 1 := ⟨p - 1, by omega⟩
  have hb0 : (0 : ℚ) < b := by exact_mod_cast (by omega : 0 < b)
  have hb2 : (2 : ℚ) ≤ b := by exact_mod_cast hb
  have hC1 : (1 : ℚ) ≤ b ^ p := one_le_pow₀ (by linarith)
  have hu : (0 : ℚ) < b ^ lastPlace b (p + 1) y := zpow_pos hb0 _
  -- the powers around `y`, in steps of its grid
  have hlow : (b : ℚ) ^ Int.log b |y| = b ^ p * b ^ lastPlace b (p + 1) y := by
    rw [← zpow_natCast, ← zpow_add₀ hb0.ne']
    congr 1
    unfold lastPlace
    push_cast
    ring
  have hhigh : (b : ℚ) ^ (Int.log b |y| + 1) = b ^ (p + 1) * b ^ lastPlace b (p + 1) y := by
    rw [zpow_add₀ hb0.ne', hlow, zpow_one]
    ring
  have hylow := zpow_log_le hb hy
  have hyhigh := lt_zpow_log hb y
  have habs : |y| = |(n : ℚ)| * b ^ lastPlace b (p + 1) y := by
    calc |y| = |(n : ℚ) * b ^ lastPlace b (p + 1) y| := congrArg abs hn
      _ = |(n : ℚ)| * b ^ lastPlace b (p + 1) y := by rw [abs_mul, abs_of_pos hu]
  rw [hlow, habs] at hylow
  rw [hhigh, habs] at hyhigh
  rw [habs] at h
  have hClow : (b : ℚ) ^ p ≤ |(n : ℚ)| := le_of_mul_le_mul_right hylow hu
  have hBhigh : |(n : ℚ)| < b ^ (p + 1) := lt_of_mul_lt_mul_right hyhigh hu.le
  have hBint : |(n : ℚ)| ≤ b ^ (p + 1) - 1 := by
    have hlt : |n| < ((b ^ (p + 1) : ℕ) : ℤ) := by
      have hcast : ((|n| : ℤ) : ℚ) < ((b ^ (p + 1) : ℕ) : ℤ) := by
        push_cast
        exact hBhigh
      exact_mod_cast hcast
    have hle : |n| ≤ ((b ^ (p + 1) : ℕ) : ℤ) - 1 := by omega
    have hle' : ((|n| : ℤ) : ℚ) ≤ (((b ^ (p + 1) : ℕ) : ℤ) - 1 : ℤ) := by exact_mod_cast hle
    push_cast at hle'
    exact hle'
  generalize hgen : (b : ℚ) ^ lastPlace b (p + 1) y = u at *
  have hB : (b : ℚ) ^ (p + 1) = b * b ^ p := by ring
  have hBpos : (0 : ℚ) < b ^ (p + 1) := by positivity
  have hdelta : |x - y| < u / 2 := by
    have h1 : |x - y| * (2 * (b : ℚ) ^ (p + 1)) < b ^ (p + 1) * u := h.trans hyhigh
    have h2 : |x - y| * 2 < u := by
      refine lt_of_mul_lt_mul_right (a := (b : ℚ) ^ (p + 1)) ?_ hBpos.le
      linarith
    linarith
  have hxle : |x| ≤ |y| + |x - y| := by
    have := abs_add_le y (x - y)
    rwa [add_sub_cancel] at this
  have hxge : |y| - |x - y| ≤ |x| := by
    have := abs_sub_abs_le_abs_sub y x
    rw [abs_sub_comm y x] at this
    linarith
  rw [habs] at hxle hxge
  have hxhigh : |x| < b ^ (p + 1) * u := by
    have hmul : |(n : ℚ)| * u ≤ (b ^ (p + 1) - 1) * u := mul_le_mul_of_nonneg_right hBint hu.le
    linarith
  by_cases hcase : (b : ℚ) ^ p * u ≤ |x|
  · -- the same number of digits in front of the point
    have hlog : Int.log b |x| = Int.log b |y| :=
      log_eq_of_bounds hb (hlow ▸ hcase) (hhigh ▸ hxhigh)
    have hplace : lastPlace b (p + 1) x = lastPlace b (p + 1) y := by
      unfold lastPlace
      rw [hlog]
    refine ⟨?_, ⟨n, ?_⟩, ?_⟩
    · rintro rfl
      rw [abs_zero] at hcase
      exact absurd hcase (not_le.mpr (by positivity))
    · rw [hplace, hgen]
      exact hn
    · rw [hplace, hgen]
      exact hdelta
  · -- one digit less: then `y` is a power of the base
    rw [not_le] at hcase
    have hnC : |(n : ℚ)| = b ^ p := by
      by_contra hne
      have hlt : ((b ^ p : ℕ) : ℤ) < |n| := by
        have hlt : (b : ℚ) ^ p < |(n : ℚ)| := lt_of_le_of_ne hClow (Ne.symm hne)
        have hcast : (((b ^ p : ℕ) : ℤ) : ℚ) < ((|n| : ℤ) : ℚ) := by
          push_cast
          exact hlt
        exact_mod_cast hcast
      have hge : (b : ℚ) ^ p + 1 ≤ |(n : ℚ)| := by
        have hle : ((b ^ p : ℕ) : ℤ) + 1 ≤ |n| := hlt
        have hle' : ((((b ^ p : ℕ) : ℤ) + 1 : ℤ) : ℚ) ≤ ((|n| : ℤ) : ℚ) := by exact_mod_cast hle
        push_cast at hle'
        exact hle'
      have hmul : ((b : ℚ) ^ p + 1) * u ≤ |(n : ℚ)| * u := mul_le_mul_of_nonneg_right hge hu.le
      linarith
    have hstep : (b : ℚ) ^ (lastPlace b (p + 1) y - 1) = u / b := by
      rw [zpow_sub₀ hb0.ne', zpow_one, hgen]
    have hfine : |x - y| < u / b / 2 := by
      rw [hnC, hB] at h
      rw [div_div, lt_div_iff₀ (by positivity)]
      refine lt_of_mul_lt_mul_right (a := (b : ℚ) ^ p) ?_ (by positivity)
      linarith
    have hxlow : (b : ℚ) ^ p * u / b ≤ |x| := by
      have hpos : u / b / 2 ≤ u / b := by
        have : 0 < u / b := by positivity
        linarith
      have hgap : (b : ℚ) ^ p * u / b + u / b ≤ b ^ p * u := by
        rw [← add_div, div_le_iff₀ hb0]
        have h1 : u ≤ b ^ p * u := le_mul_of_one_le_left hu.le hC1
        have h2 : (b : ℚ) ^ p * u * 2 ≤ b ^ p * u * b :=
          mul_le_mul_of_nonneg_left hb2 (by positivity)
        linarith
      rw [hnC] at hxge
      linarith
    have hpow : (b : ℚ) ^ (Int.log b |y| - 1) = b ^ p * u / b := by
      rw [zpow_sub₀ hb0.ne', zpow_one, hlow]
    have hlog : Int.log b |x| = Int.log b |y| - 1 := by
      refine log_eq_of_bounds hb (hpow ▸ hxlow) ?_
      rw [sub_add_cancel, hlow]
      exact hcase
    have hplace : lastPlace b (p + 1) x = lastPlace b (p + 1) y - 1 := by
      unfold lastPlace
      rw [hlog]
      ring
    refine ⟨?_, ⟨n * b, ?_⟩, ?_⟩
    · rintro rfl
      rw [abs_zero] at hxlow
      exact absurd hxlow (not_le.mpr (by positivity))
    · rw [hplace, hstep, hn]
      push_cast
      field_simp
    · rw [hplace, hstep]
      exact hfine

end

/-! ## doubles -/

theorem gridExponent_eq (q : ℚ) : gridExponent q = max (lastPlace 2 53 q) (-1074) := by
  unfold gridExponent lastPlace
  congr 1
  push_cast
  ring

theorem zpow_grid {b : ℚ} (hb : b ≠ 0) {m : ℤ} {c : ℕ} {d e : ℤ} (hbc : b = c) (hde : d ≤ e) :
    ∃ n : ℤ, (m : ℚ) * b ^ e = n * b ^ d := by
  obtain ⟨k, rfl⟩ := Int.le.dest hde
  refine ⟨m * (c : ℤ) ^ k, ?_⟩
  rw [zpow_add₀ hb, zpow_natCast]
  push_cast
  rw [← hbc]
  ring

/-- a double is on its own grid and on the finest one -/
theorem Representable.grid {q : ℚ} (h : Representable q) (hq : q ≠ 0) :
    (∃ n : ℤ, q = n * 2 ^ lastPlace 2 53 q) ∧ ∃ n : ℤ, q = n * 2 ^ (-1074 : ℤ) := by
  obtain ⟨-, m, e, hm, he, hme⟩ := h
  have hplace : lastPlace 2 53 q ≤ e := by
    have hlt : |q| < ((2 : ℕ) : ℚ) ^ (53 + e) := by
      rw [hme, abs_mul, abs_of_pos (by positivity : (0 : ℚ) < 2 ^ e), zpow_add₀ (by norm_num)]
      have hm' : |(m : ℚ)| < 2 ^ 53 := by exact_mod_cast hm
      push_cast
      exact mul_lt_mul_of_pos_right hm' (by positivity)
    have := (Int.lt_zpow_iff_log_lt (by norm_num) (abs_pos.mpr hq)).mp hlt
    unfold lastPlace
    push_cast
    omega
  obtain ⟨n, hn⟩ := zpow_grid (m := m) (c := 2) (by norm_num : (2 : ℚ) ≠ 0) (by norm_num) hplace
  obtain ⟨k, hk⟩ := zpow_grid (m := m) (c := 2) (by norm_num : (2 : ℚ) ≠ 0) (by norm_num) he
  exact ⟨⟨n, hme.trans hn⟩, ⟨k, hme.trans hk⟩⟩

theorem abs_nearest_sub_le (q : ℚ) : |nearest q - q| ≤ 2 ^ gridExponent q / 2 :=
  abs_roundHalfEven_mul_sub_le q (by positivity)

theorem nearest_of_grid {q y : ℚ} {n : ℤ} (hq : q = n * 2 ^ gridExponent y)
    (h : |y - q| < 2 ^ gridExponent y / 2) : nearest y = q := by
  have hu : (0 : ℚ) < 2 ^ gridExponent y := by positivity
  have hsub : y / 2 ^ gridExponent y - n = (y - q) / 2 ^ gridExponent y := by
    rw [sub_div, hq, mul_div_cancel_right₀ _ hu.ne']
  have hround : roundHalfEven (y / 2 ^ gridExponent y) = n := by
    apply roundHalfEven_of_near
    rw [hsub, abs_div, abs_of_pos hu, div_lt_iff₀ hu]
    linarith
  rw [nearest, hround, ← hq]

/-- **A number close to a double is rounded to it.** -/
theorem nearest_of_near {q y : ℚ} (hr : Representable q) (hq : q ≠ 0)
    (h : |y - q| * 2 ^ 54 < |q|) : nearest y = q := by
  obtain ⟨hgrid, k, hk⟩ := hr.grid hq
  have h' : |y - q| * (2 * ((2 : ℕ) : ℚ) ^ 53) < |q| := by
    refine lt_of_eq_of_lt ?_ h
    norm_num
  obtain ⟨-, ⟨n, hn⟩, hnear⟩ := near_digits (by norm_num) (by norm_num) hq hgrid h'
  have hcast : ((2 : ℕ) : ℚ) = 2 := Nat.cast_ofNat
  rw [hcast] at hn hnear
  by_cases hfine : -1074 ≤ lastPlace 2 53 y
  · have hexp : gridExponent y = lastPlace 2 53 y := by rw [gridExponent_eq, max_eq_left hfine]
    exact nearest_of_grid (hexp ▸ hn) (hexp ▸ hnear)
  · have hexp : gridExponent y = -1074 := by
      rw [gridExponent_eq, max_eq_right (not_le.mp hfine).le]
    refine nearest_of_grid (hexp ▸ hk) (hexp ▸ hnear.trans_le ?_)
    have : (2 : ℚ) ^ lastPlace 2 53 y ≤ 2 ^ (-1074 : ℤ) :=
      zpow_le_zpow_right₀ (by norm_num) (not_le.mp hfine).le
    linarith

/-! ## decimal digits -/

/-- the value of the digits that are written for a number -/
def roundDigits (p : ℕ) (x : ℚ) : ℚ :=
  if x < 0 then -((significand p x).1 * 10 ^ ((significand p x).2 + 1 - p))
  else (significand p x).1 * 10 ^ ((significand p x).2 + 1 - p)

section
variable {p : ℕ} {x v : ℚ}

theorem ten_zpow_log (hp : 0 < p) (x : ℚ) :
    (10 : ℚ) ^ Int.log 10 |x| = 10 ^ (p - 1) * 10 ^ lastPlace 10 p x := by
  obtain ⟨k, rfl⟩ : ∃ k, p = k + 1 := ⟨p - 1, by omega⟩
  rw [← zpow_natCast, ← zpow_add₀ (by norm_num)]
  congr 1
  unfold lastPlace
  push_cast
  omega

/-- the first digit is not zero -/
theorem le_roundHalfEven_digits (hp : 0 < p) (hx : x ≠ 0) :
    ((10 ^ (p - 1) : ℕ) : ℤ) ≤ roundHalfEven (|x| / 10 ^ lastPlace 10 p x) := by
  apply le_roundHalfEven
  rw [le_div_iff₀ (by positivity)]
  have h := zpow_log_le (b := 10) (by norm_num) hx
  rw [Nat.cast_ofNat, ten_zpow_log hp] at h
  push_cast
  exact h

theorem roundHalfEven_digits_le (hp : 0 < p) (x : ℚ) :
    roundHalfEven (|x| / 10 ^ lastPlace 10 p x) ≤ ((10 ^ p : ℕ) : ℤ) := by
  apply roundHalfEven_le
  rw [div_le_iff₀ (by positivity)]
  have h := (lt_zpow_log (b := 10) (by norm_num) x).le
  rw [Nat.cast_ofNat, zpow_add₀ (by norm_num), ten_zpow_log hp, zpow_one] at h
  have hpow : (10 : ℚ) ^ p = 10 ^ (p - 1) * 10 := by
    rw [← pow_succ]
    congr 1
    omega
  push_cast
  rw [hpow]
  linarith

/-- the digits and their exponent -/
theorem significand_spec (hp : 0 < p) (hx : x ≠ 0) :
    10 ^ (p - 1) ≤ (significand p x).1 ∧ (significand p x).1 < 10 ^ p ∧
      ((significand p x).1 : ℚ) * 10 ^ ((significand p x).2 + 1 - p) =
        roundHalfEven (|x| / 10 ^ lastPlace 10 p x) * 10 ^ lastPlace 10 p x := by
  have hlow := le_roundHalfEven_digits hp hx
  have hhigh := roundHalfEven_digits_le hp x
  have hplace : Int.log 10 |x| + 1 - p = lastPlace 10 p x := rfl
  have h0 : 0 ≤ roundHalfEven (|x| / 10 ^ lastPlace 10 p x) := (Int.natCast_nonneg _).trans hlow
  have hcast : ((roundHalfEven (|x| / 10 ^ lastPlace 10 p x)).toNat : ℚ) =
      roundHalfEven (|x| / 10 ^ lastPlace 10 p x) := by
    have : ((roundHalfEven (|x| / 10 ^ lastPlace 10 p x)).toNat : ℤ) =
      roundHalfEven (|x| / 10 ^ lastPlace 10 p x) := Int.toNat_of_nonneg h0
    exact_mod_cast this
  have hpow : 10 ^ p = 10 ^ (p - 1) * 10 := by
    rw [← pow_succ]
    congr 1
    omega
  unfold significand
  rw [hplace]
  split_ifs with h
  · exact ⟨by omega, h, by rw [hplace, hcast]⟩
  · refine ⟨le_rfl, Nat.pow_lt_pow_right (by norm_num) (by omega), ?_⟩
    have heq : roundHalfEven (|x| / 10 ^ lastPlace 10 p x) = ((10 ^ p : ℕ) : ℤ) := by omega
    have hexp : Int.log 10 |x| + 1 + 1 - p = 1 + lastPlace 10 p x := by
      unfold lastPlace
      ring
    rw [heq, hexp, zpow_add₀ (by norm_num), zpow_one, hpow]
    push_cast
    ring

theorem roundDigits_ne_zero (hp : 0 < p) (hx : x ≠ 0) : roundDigits p x ≠ 0 := by
  obtain ⟨hlow, -, -⟩ := significand_spec hp hx
  have hm : ((significand p x).1 : ℚ) ≠ 0 := by
    have : 0 < 10 ^ (p - 1) := by positivity
    exact_mod_cast (by omega : (significand p x).1 ≠ 0)
  unfold roundDigits
  split_ifs
  · exact neg_ne_zero.mpr (mul_ne_zero hm (by positivity))
  · exact mul_ne_zero hm (by positivity)

theorem roundDigits_neg_iff (hp : 0 < p) (hx : x ≠ 0) : roundDigits p x < 0 ↔ x < 0 := by
  have hval : (0 : ℚ) ≤ (significand p x).1 * 10 ^ ((significand p x).2 + 1 - p) := by positivity
  have hne := roundDigits_ne_zero hp hx
  unfold roundDigits at hne ⊢
  split_ifs at hne ⊢ with h
  · exact iff_of_true (lt_of_le_of_ne (by linarith) hne) h
  · exact iff_of_false (not_lt.mpr hval) h

theorem abs_roundDigits (p : ℕ) (x : ℚ) :
    |roundDigits p x| = (significand p x).1 * 10 ^ ((significand p x).2 + 1 - p) := by
  have hval : (0 : ℚ) ≤ (significand p x).1 * 10 ^ ((significand p x).2 + 1 - p) := by positivity
  unfold roundDigits
  split_ifs
  · rw [abs_neg, abs_of_nonneg hval]
  · exact abs_of_nonneg hval

/-- the error is at most half a step -/
theorem abs_roundDigits_sub_le (hp : 0 < p) (hx : x ≠ 0) :
    |roundDigits p x - x| ≤ 10 ^ lastPlace 10 p x / 2 := by
  obtain ⟨-, -, hval⟩ := significand_spec hp hx
  have habs := abs_roundHalfEven_mul_sub_le |x| (by positivity : (0 : ℚ) < 10 ^ lastPlace 10 p x)
  rw [← hval] at habs
  unfold roundDigits
  split_ifs with hneg
  · rw [abs_of_neg hneg] at habs
    rw [← abs_neg]
    refine le_of_eq_of_le (congrArg abs ?_) habs
    ring
  · rwa [abs_of_nonneg (not_lt.mp hneg)] at habs

/-- the error relative to the number -/
theorem abs_roundDigits_sub_mul_le (hp : 0 < p) (hx : x ≠ 0) :
    |roundDigits p x - x| * (2 * 10 ^ (p - 1)) ≤ |x| := by
  have herr := abs_roundDigits_sub_le hp hx
  have hlog := zpow_log_le (b := 10) (by norm_num) hx
  rw [Nat.cast_ofNat, ten_zpow_log hp] at hlog
  have hpos : (0 : ℚ) < 2 * 10 ^ (p - 1) := by positivity
  calc |roundDigits p x - x| * (2 * 10 ^ (p - 1))
      ≤ 10 ^ lastPlace 10 p x / 2 * (2 * 10 ^ (p - 1)) :=
        mul_le_mul_of_nonneg_right herr hpos.le
    _ = 10 ^ (p - 1) * 10 ^ lastPlace 10 p x := by ring
    _ ≤ |x| := hlog

/-- `p` digits and an exponent are determined by their value -/
theorem log_digits (hp : 0 < p) {m : ℕ} (hlow : 10 ^ (p - 1) ≤ m) (hhigh : m < 10 ^ p) {e : ℤ}
    (hx : |x| = m * 10 ^ (e + 1 - p)) : Int.log 10 |x| = e := by
  obtain ⟨k, rfl⟩ : ∃ k, p = k + 1 := ⟨p - 1, by omega⟩
  have hlow' : (10 : ℚ) ^ k ≤ m := by exact_mod_cast hlow
  have hhigh' : (m : ℚ) < 10 ^ (k + 1) := by exact_mod_cast hhigh
  have hu : (0 : ℚ) < 10 ^ (e + 1 - ((k + 1 : ℕ) : ℤ)) := by positivity
  refine log_eq_of_bounds (by norm_num) ?_ ?_
  · rw [hx, Nat.cast_ofNat]
    calc (10 : ℚ) ^ e = 10 ^ k * 10 ^ (e + 1 - ((k + 1 : ℕ) : ℤ)) := by
          rw [← zpow_natCast, ← zpow_add₀ (by norm_num)]
          congr 1
          push_cast
          ring
      _ ≤ m * 10 ^ (e + 1 - ((k + 1 : ℕ) : ℤ)) := mul_le_mul_of_nonneg_right hlow' hu.le
  · rw [hx, Nat.cast_ofNat]
    calc (m : ℚ) * 10 ^ (e + 1 - ((k + 1 : ℕ) : ℤ))
        < 10 ^ (k + 1) * 10 ^ (e + 1 - ((k + 1 : ℕ) : ℤ)) := mul_lt_mul_of_pos_right hhigh' hu
      _ = 10 ^ (e + 1) := by
          rw [← zpow_natCast, ← zpow_add₀ (by norm_num)]
          congr 1
          ring

/-- the digits are those of the rounded value -/
theorem significand_congr (hp : 0 < p) (hx : x ≠ 0) (hv : v ≠ 0)
    (h : roundDigits p v = roundDigits p x) : significand p v = significand p x := by
  obtain ⟨hvlow, hvhigh, -⟩ := significand_spec hp hv
  obtain ⟨hxlow, hxhigh, -⟩ := significand_spec hp hx
  have hlogv := log_digits hp hvlow hvhigh (abs_roundDigits p v)
  have hlogx := log_digits hp hxlow hxhigh (abs_roundDigits p x)
  have he : (significand p v).2 = (significand p x).2 := by rw [← hlogv, ← hlogx, h]
  have hm : (significand p v).1 = (significand p x).1 := by
    have habs := abs_roundDigits p v
    rw [h, abs_roundDigits p x, he] at habs
    exact_mod_cast (mul_right_cancel₀ (by positivity) habs).symm
  exact Prod.ext hm he

theorem formatG_congr (hp : 0 < p) (hx : x ≠ 0) (hv : v ≠ 0)
    (h : roundDigits p v = roundDigits p x) : formatG p v = formatG p x := by
  have hneg : v < 0 ↔ x < 0 := by
    rw [← roundDigits_neg_iff hp hv, h, roundDigits_neg_iff hp hx]
  unfold formatG
  rw [if_neg hv, if_neg hx, significand_congr hp hx hv h]
  exact if_congr hneg rfl rfl

/-- **A number close to one with `p` digits has these digits.** -/
theorem roundDigits_of_near (hp : 0 < p) (hx : x ≠ 0)
    (h : |v - roundDigits p x| * (2 * 10 ^ p) < |roundDigits p x|) :
    v ≠ 0 ∧ roundDigits p v = roundDigits p x := by
  obtain ⟨hlow, hhigh, -⟩ := significand_spec hp hx
  have hy := roundDigits_ne_zero hp hx
  have hlog := log_digits hp hlow hhigh (abs_roundDigits p x)
  have hgrid : ∃ n : ℤ, roundDigits p x = n * ((10 : ℕ) : ℚ) ^ lastPlace 10 p (roundDigits p x) := by
    unfold lastPlace
    rw [hlog, Nat.cast_ofNat]
    unfold roundDigits
    split_ifs
    · exact ⟨-((significand p x).1 : ℤ), by push_cast; ring⟩
    · exact ⟨(significand p x).1, by push_cast; ring⟩
  obtain ⟨hv, ⟨n, hn⟩, hnear⟩ := near_digits (b := 10) (by norm_num) hp hy hgrid
    (by rw [Nat.cast_ofNat]; exact h)
  rw [Nat.cast_ofNat] at hn hnear
  refine ⟨hv, ?_⟩
  obtain ⟨-, -, hval⟩ := significand_spec hp hv
  have hu : (0 : ℚ) < 10 ^ lastPlace 10 p v := by positivity
  have hsub : |v / 10 ^ lastPlace 10 p v - n| < 1 / 2 := by
    have hdiv : v / 10 ^ lastPlace 10 p v - n = (v - roundDigits p x) / 10 ^ lastPlace 10 p v := by
      rw [sub_div, hn, mul_div_cancel_right₀ _ hu.ne']
    rw [hdiv, abs_div, abs_of_pos hu, div_lt_iff₀ hu]
    linarith
  have hround : (roundHalfEven (|v| / 10 ^ lastPlace 10 p v) : ℚ) = if v < 0 then -(n : ℚ) else n := by
    split_ifs with hneg
    · have hnear' : |(-v) / 10 ^ lastPlace 10 p v - ((-n : ℤ) : ℚ)| < 1 / 2 := by
        rw [← abs_neg] at hsub
        refine lt_of_eq_of_lt (congrArg abs ?_) hsub
        push_cast
        ring
      rw [abs_of_neg hneg, roundHalfEven_of_near hnear']
      push_cast
      rfl
    · rw [abs_of_nonneg (not_lt.mp hneg), roundHalfEven_of_near hsub]
  rw [hn]
  unfold roundDigits
  rw [hval, hround]
  split_ifs <;> ring

end

end Numeric
