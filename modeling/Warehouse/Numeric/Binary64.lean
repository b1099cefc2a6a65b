import Mathlib.Data.Int.Log
import Mathlib.Data.Rat.Floor
import Mathlib.Algebra.Order.Field.Power
import Mathlib.Algebra.Order.Field.Rat
import Mathlib.Tactic.Linarith
import Mathlib.Tactic.NormNum
import Mathlib.Tactic.FieldSimp
import Mathlib.Tactic.Ring
import Mathlib.Tactic.Positivity

/-!
# IEEE 754 double precision over the rationals

A finite double is a rational with at most 53 significant bits and exponent at least -1074.
Arithmetic is exact arithmetic rounded to nearest, ties to even.  The two zeros are one value.

* `Representable`, `Binary64`      the finite doubles, the infinities and the NaN;
* `nearest`, `ofRat`               rounding, with overflow to an infinity;
* `nearest_eq_self`, `ofRat_representable`   a representable number is not changed;
* `le_nearest_zpow`                rounding does not go below a power of two;
* `representable_int`              every integer below `2^53` is representable;
* `add_ofInt`, `sub_ofInt`         arithmetic on such integers is exact.
-/

namespace Numeric

/-! ## rounding to an integer -/

/-- the nearest integer, ties to the even one -/
def roundHalfEven (q : ℚ) : ℤ :=
  if q - ⌊q⌋ < 1 / 2 then ⌊q⌋
  else if 1 / 2 < q - ⌊q⌋ then ⌊q⌋ + 1
  else if ⌊q⌋ % 2 = 0 then ⌊q⌋ else ⌊q⌋ + 1

@[simp] theorem roundHalfEven_intCast (n : ℤ) : roundHalfEven (n : ℚ) = n := by
  unfold roundHalfEven
  rw [Int.floor_intCast, sub_self, if_pos (by norm_num)]

theorem roundHalfEven_floor (q : ℚ) : roundHalfEven q = ⌊q⌋ ∨ roundHalfEven q = ⌊q⌋ + 1 := by
  unfold roundHalfEven
  split_ifs <;> simp

/-- rounding up happens only above an integer -/
theorem roundHalfEven_le {q : ℚ} {n : ℤ} (h : q ≤ n) : roundHalfEven q ≤ n := by
  rcases (Int.floor_le_iff.mpr (by linarith) : ⌊q⌋ ≤ n).lt_or_eq with hlt | heq
  · rcases roundHalfEven_floor q with e | e <;> omega
  · have hq : q = n := le_antisymm h (heq ▸ Int.floor_le q)
    rw [hq, roundHalfEven_intCast]

theorem le_roundHalfEven {q : ℚ} {n : ℤ} (h : (n : ℚ) ≤ q) : n ≤ roundHalfEven q := by
  have hf : n ≤ ⌊q⌋ := Int.le_floor.mpr h
  rcases roundHalfEven_floor q with e | e <;> omega

theorem abs_roundHalfEven_le {q : ℚ} {n : ℤ} (h : |q| ≤ n) : |roundHalfEven q| ≤ n := by
  obtain ⟨h1, h2⟩ := abs_le.mp h
  exact abs_le.mpr ⟨le_roundHalfEven (by push_cast; exact h1), roundHalfEven_le h2⟩

/-- truncation toward zero -/
def truncate (q : ℚ) : ℤ := if q < 0 then ⌈q⌉ else ⌊q⌋

@[simp] theorem truncate_intCast (n : ℤ) : truncate (n : ℚ) = n := by
  unfold truncate
  rw [Int.ceil_intCast, Int.floor_intCast, ite_self]

/-! ## representable numbers -/

/-- a finite double: 53 significant bits, exponent at least -1074, below `2^1024` -/
def Representable (q : ℚ) : Prop :=
  |q| < 2 ^ 1024 ∧ ∃ m e : ℤ, |m| < 2 ^ 53 ∧ -1074 ≤ e ∧ q = m * 2 ^ e

theorem representable_int {n : ℤ} (h : |n| < 2 ^ 53) : Representable n := by
  refine ⟨?_, n, 0, h, by norm_num, by simp⟩
  have h1 : |(n : ℚ)| < 2 ^ 53 := by exact_mod_cast h
  exact h1.trans (pow_lt_pow_right₀ (by norm_num) (by norm_num))

theorem representable_zero : Representable 0 := by
  simpa using representable_int (n := 0) (by norm_num)

theorem Representable.neg {q : ℚ} (h : Representable q) : Representable (-q) := by
  obtain ⟨hb, m, e, hm, he, rfl⟩ := h
  exact ⟨by rwa [abs_neg], -m, e, by rwa [abs_neg], he, by push_cast; ring⟩

theorem Representable.abs {q : ℚ} (h : Representable q) : Representable |q| := by
  rcases abs_choice q with e | e <;> rw [e]
  · exact h
  · exact h.neg

theorem representable_two_zpow {e : ℤ} (hlo : -1074 ≤ e) (hhi : e < 1024) :
    Representable (2 ^ e) := by
  refine ⟨?_, 1, e, by norm_num, hlo, by rw [Int.cast_one, one_mul]⟩
  rw [abs_of_pos (by positivity), ← zpow_natCast]
  exact zpow_lt_zpow_right₀ (by norm_num) hhi

/-- the exponent of the grid on which `q` is rounded -/
def gridExponent (q : ℚ) : ℤ := max (Int.log 2 |q| - 52) (-1074)

/-- the nearest grid point, as if the exponent had no upper bound -/
def nearest (q : ℚ) : ℚ := roundHalfEven (q / 2 ^ gridExponent q) * 2 ^ gridExponent q

theorem nearest_nonneg {q : ℚ} (h : 0 ≤ q) : 0 ≤ nearest q := by
  have h0 : 0 ≤ roundHalfEven (q / 2 ^ gridExponent q) :=
    le_roundHalfEven (by rw [Int.cast_zero]; positivity)
  exact mul_nonneg (by exact_mod_cast h0) (by positivity)

theorem nearest_nonpos {q : ℚ} (h : q ≤ 0) : nearest q ≤ 0 := by
  have h0 : roundHalfEven (q / 2 ^ gridExponent q) ≤ 0 := by
    apply roundHalfEven_le
    rw [Int.cast_zero]
    exact div_nonpos_of_nonpos_of_nonneg h (by positivity)
  exact mul_nonpos_of_nonpos_of_nonneg (by exact_mod_cast h0) (by positivity)

/-- there are at most `2^53` grid steps between zero and `q` -/
theorem abs_div_grid_lt (q : ℚ) : |q / 2 ^ gridExponent q| < 2 ^ 53 := by
  have hlog : |q| < (2 : ℚ) ^ (Int.log 2 |q| + 1) := by
    exact_mod_cast Int.lt_zpow_succ_log_self (by norm_num : 1 < 2) |q|
  have hg : Int.log 2 |q| + 1 ≤ 53 + gridExponent q := by
    have := le_max_left (Int.log 2 |q| - 52) (-1074)
    unfold gridExponent
    omega
  have hpos : (0 : ℚ) < 2 ^ gridExponent q := by positivity
  rw [abs_div, abs_of_pos hpos, div_lt_iff₀ hpos]
  calc |q| < (2 : ℚ) ^ (Int.log 2 |q| + 1) := hlog
    _ ≤ (2 : ℚ) ^ ((53 : ℤ) + gridExponent q) := zpow_le_zpow_right₀ (by norm_num) hg
    _ = 2 ^ 53 * 2 ^ gridExponent q := by rw [zpow_add₀ (by norm_num)]; norm_num

/-- `53` bits suffice for the grid point: a carry to `2^53` moves into the exponent -/
theorem nearest_representable {q : ℚ} (h : |nearest q| < 2 ^ 1024) : Representable (nearest q) := by
  refine ⟨h, ?_⟩
  have hle : |roundHalfEven (q / 2 ^ gridExponent q)| ≤ 2 ^ 53 :=
    abs_roundHalfEven_le (by push_cast; exact (abs_div_grid_lt q).le)
  have hg : -1074 ≤ gridExponent q := le_max_right ..
  rcases hle.lt_or_eq with hlt | heq
  · exact ⟨_, _, hlt, hg, rfl⟩
  · have hz : (2 : ℚ) ^ ((53 : ℤ) + gridExponent q) = 2 ^ 53 * 2 ^ gridExponent q := by
      rw [zpow_add₀ (by norm_num)]; norm_num
    unfold nearest
    rcases abs_eq (by norm_num) |>.mp heq with e | e <;> rw [e]
    · exact ⟨1, 53 + gridExponent q, by norm_num, by omega, by rw [hz]; norm_num⟩
    · exact ⟨-1, 53 + gridExponent q, by norm_num, by omega, by rw [hz]; norm_num⟩

/-- a representable number is on the grid of every smaller one -/
theorem Representable.on_grid {p q : ℚ} (h : Representable q) (hp : p ≠ 0) (hle : |p| ≤ |q|) :
    ∃ n : ℤ, q = n * 2 ^ gridExponent p := by
  obtain ⟨-, m, e, hm, he, hq⟩ := h
  have hpos : (0 : ℚ) < 2 ^ e := by positivity
  -- the grid is at least as fine as `2^e`
  have hge : gridExponent p ≤ e := by
    refine max_le ?_ he
    by_contra hcon
    have hlow : (2 : ℚ) ^ (Int.log 2 |p|) ≤ |p| := by
      exact_mod_cast Int.zpow_log_le_self (by norm_num : 1 < 2) (abs_pos.mpr hp)
    have habs : |q| < 2 ^ 53 * 2 ^ e := by
      rw [hq, abs_mul, abs_of_pos hpos]
      have : |(m : ℚ)| < 2 ^ 53 := by exact_mod_cast hm
      exact mul_lt_mul_of_pos_right this hpos
    have hexp : (2 : ℚ) ^ 53 * 2 ^ e ≤ 2 ^ (Int.log 2 |p|) := by
      calc (2 : ℚ) ^ 53 * 2 ^ e = 2 ^ ((53 : ℤ) + e) := by rw [zpow_add₀ (by norm_num)]; norm_num
        _ ≤ 2 ^ (Int.log 2 |p|) := zpow_le_zpow_right₀ (by norm_num) (by omega)
    linarith
  obtain ⟨k, hk⟩ := Int.le.dest hge
  refine ⟨m * 2 ^ k, ?_⟩
  rw [hq, ← hk, zpow_add₀ (by norm_num), zpow_natCast]
  push_cast
  ring

theorem nearest_zero : nearest 0 = 0 := by
  rw [nearest, zero_div, ← Int.cast_zero, roundHalfEven_intCast, Int.cast_zero, zero_mul]

/-- a representable number is on its own grid -/
theorem nearest_eq_self {q : ℚ} (h : Representable q) : nearest q = q := by
  by_cases hq : q = 0
  · rw [hq, nearest_zero]
  obtain ⟨n, hn⟩ := h.on_grid hq le_rfl
  have hint : q / 2 ^ gridExponent q = (n : ℚ) := by
    rw [div_eq_iff (by positivity)]
    exact hn
  unfold nearest
  rw [hint, roundHalfEven_intCast]
  exact hn.symm

/-- rounding does not go above a double -/
theorem nearest_le {p q : ℚ} (h : Representable q) (h0 : 0 ≤ p) (hle : p ≤ q) : nearest p ≤ q := by
  rcases h0.eq_or_lt with rfl | hpos
  · rw [nearest_zero]
    exact hle
  · have habs : |p| ≤ |q| := by
      rw [abs_of_pos hpos, abs_of_nonneg (h0.trans hle)]
      exact hle
    obtain ⟨n, hn⟩ := h.on_grid hpos.ne' habs
    have hsteps : roundHalfEven (p / 2 ^ gridExponent p) ≤ n := by
      apply roundHalfEven_le
      rw [div_le_iff₀ (by positivity), ← hn]
      exact hle
    calc nearest p ≤ (n : ℚ) * 2 ^ gridExponent p :=
          mul_le_mul_of_nonneg_right (by exact_mod_cast hsteps) (by positivity)
      _ = q := hn.symm

/-- rounding does not go below a power of two -/
theorem le_nearest_zpow {q : ℚ} {k : ℤ} (hk : -1074 ≤ k) (h : (2 : ℚ) ^ k ≤ q) :
    (2 : ℚ) ^ k ≤ nearest q := by
  have hq : 0 < q := lt_of_lt_of_le (by positivity) h
  have hlog : k ≤ Int.log 2 |q| := by
    rw [abs_of_pos hq]
    exact (Int.zpow_le_iff_le_log (by norm_num) hq).mp (by exact_mod_cast h)
  -- the power of two just below `q` is on the grid of `q`
  have hlow : (2 : ℚ) ^ Int.log 2 |q| ≤ q := by
    rw [abs_of_pos hq]
    exact_mod_cast Int.zpow_log_le_self (by norm_num : 1 < 2) hq
  have hgrid : gridExponent q ≤ Int.log 2 |q| := max_le (by omega) (by omega)
  obtain ⟨n, hn⟩ := Int.le.dest hgrid
  have hpow : (2 : ℚ) ^ Int.log 2 |q| = ((2 ^ n : ℤ) : ℚ) * 2 ^ gridExponent q := by
    rw [← hn, zpow_add₀ (by norm_num), zpow_natCast]
    push_cast
    ring
  have hpos : (0 : ℚ) < 2 ^ gridExponent q := by positivity
  have hsteps : (2 ^ n : ℤ) ≤ roundHalfEven (q / 2 ^ gridExponent q) := by
    apply le_roundHalfEven
    rw [le_div_iff₀ hpos, ← hpow]
    exact hlow
  calc (2 : ℚ) ^ k ≤ 2 ^ Int.log 2 |q| := zpow_le_zpow_right₀ (by norm_num) hlog
    _ = ((2 ^ n : ℤ) : ℚ) * 2 ^ gridExponent q := hpow
    _ ≤ nearest q := mul_le_mul_of_nonneg_right (by exact_mod_cast hsteps) hpos.le

/-! ## the doubles -/

inductive Binary64
  | finite (q : ℚ) (h : Representable q)
  | inf (neg : Bool)
  | nan
deriving DecidableEq

namespace Binary64

/-- the double nearest to a rational -/
def ofRat (q : ℚ) : Binary64 :=
  if h : |nearest q| < 2 ^ 1024 then finite (nearest q) (nearest_representable h)
  else inf (q < 0)

theorem ofRat_representable {q : ℚ} (h : Representable q) : ofRat q = finite q h := by
  have hn : nearest q = q := nearest_eq_self h
  have hb : |nearest q| < 2 ^ 1024 := hn.symm ▸ h.1
  unfold ofRat
  rw [dif_pos hb]
  congr 1

/-- the conversion from an integer type -/
def ofInt (n : ℤ) : Binary64 := ofRat n

theorem ofInt_eq {n : ℤ} (h : |n| < 2 ^ 53) : ofInt n = finite n (representable_int h) :=
  ofRat_representable (representable_int h)

def neg : Binary64 → Binary64
  | finite q h => finite (-q) h.neg
  | inf s => inf !s
  | nan => nan

def abs : Binary64 → Binary64
  | finite q h => finite |q| h.abs
  | inf _ => inf false
  | nan => nan

def add : Binary64 → Binary64 → Binary64
  | finite a _, finite b _ => ofRat (a + b)
  | inf s, inf t => if s = t then inf s else nan
  | inf s, finite _ _ => inf s
  | finite _ _, inf s => inf s
  | nan, _ => nan
  | _, nan => nan

def sub (a b : Binary64) : Binary64 := add a b.neg

def mul : Binary64 → Binary64 → Binary64
  | finite a _, finite b _ => ofRat (a * b)
  | inf s, inf t => inf (s != t)
  | inf s, finite b _ => if b = 0 then nan else inf (s != decide (b < 0))
  | finite a _, inf t => if a = 0 then nan else inf (decide (a < 0) != t)
  | nan, _ => nan
  | _, nan => nan

/-- `<=`, false when an argument is a NaN -/
def le : Binary64 → Binary64 → Bool
  | finite a _, finite b _ => a ≤ b
  | inf s, inf t => s || !t
  | inf s, finite _ _ => s
  | finite _ _, inf t => !t
  | nan, _ => false
  | _, nan => false

def lt (a b : Binary64) : Bool := le a b && !le b a

/-- `==`, false when an argument is a NaN -/
def feq (a b : Binary64) : Bool := le a b && le b a

@[simp] theorem le_finite {a b : ℚ} (ha : Representable a) (hb : Representable b) :
    le (finite a ha) (finite b hb) = decide (a ≤ b) := rfl

@[simp] theorem lt_finite {a b : ℚ} (ha : Representable a) (hb : Representable b) :
    lt (finite a ha) (finite b hb) = decide (a < b) := by
  rw [Bool.eq_iff_iff, lt, le_finite, le_finite, Bool.and_eq_true, Bool.not_eq_true',
    decide_eq_true_iff, decide_eq_false_iff_not, decide_eq_true_iff, not_le]
  exact ⟨fun h => h.2, fun h => ⟨h.le, h⟩⟩

@[simp] theorem feq_finite {a b : ℚ} (ha : Representable a) (hb : Representable b) :
    feq (finite a ha) (finite b hb) = decide (a = b) := by
  rw [Bool.eq_iff_iff, feq, le_finite, le_finite, Bool.and_eq_true, decide_eq_true_iff,
    decide_eq_true_iff, decide_eq_true_iff]
  exact ⟨fun h => le_antisymm h.1 h.2, fun h => ⟨h.le, h.ge⟩⟩

/-- what is left of a double is no more than it was -/
theorem sub_of_le {a b : ℚ} (ha : Representable a) (hb : Representable b) (h0 : 0 ≤ b)
    (hle : b ≤ a) : ∃ c hc, sub (finite a ha) (finite b hb) = finite c hc ∧ c ≤ a := by
  have hlow : 0 ≤ nearest (a + -b) := nearest_nonneg (by linarith)
  have hhigh : nearest (a + -b) ≤ a := nearest_le ha (by linarith) (by linarith)
  have hbound : |nearest (a + -b)| < 2 ^ 1024 := by
    rw [abs_of_nonneg hlow]
    exact hhigh.trans_lt ((le_abs_self a).trans_lt ha.1)
  exact ⟨nearest (a + -b), nearest_representable hbound, dif_pos hbound, hhigh⟩

/-! ## whole numbers -/

/-- the sum of two whole numbers is rounded at most once -/
theorem add_ofInt {a b : ℤ} (ha : |a| < 2 ^ 53) (hb : |b| < 2 ^ 53) :
    add (ofInt a) (ofInt b) = ofInt (a + b) := by
  rw [ofInt_eq ha, ofInt_eq hb]
  show ofRat ((a : ℚ) + (b : ℚ)) = ofRat ((a + b : ℤ) : ℚ)
  rw [Int.cast_add]

theorem neg_ofInt {a : ℤ} (ha : |a| < 2 ^ 53) : neg (ofInt a) = ofInt (-a) := by
  have ha' : |(-a)| < 2 ^ 53 := by rwa [abs_neg]
  rw [ofInt_eq ha, ofInt_eq ha', neg, finite.injEq]
  push_cast
  rfl

theorem sub_ofInt {a b : ℤ} (ha : |a| < 2 ^ 53) (hb : |b| < 2 ^ 53) :
    sub (ofInt a) (ofInt b) = ofInt (a - b) := by
  rw [sub, neg_ofInt hb, add_ofInt ha (by rwa [abs_neg]), sub_eq_add_neg]

theorem lt_ofInt {a b : ℤ} (ha : |a| < 2 ^ 53) (hb : |b| < 2 ^ 53) :
    lt (ofInt a) (ofInt b) = decide (a < b) := by
  rw [ofInt_eq ha, ofInt_eq hb, lt_finite, decide_eq_decide]
  exact Int.cast_lt

theorem le_ofInt {a b : ℤ} (ha : |a| < 2 ^ 53) (hb : |b| < 2 ^ 53) :
    le (ofInt a) (ofInt b) = decide (a ≤ b) := by
  rw [ofInt_eq ha, ofInt_eq hb, le_finite, decide_eq_decide]
  exact Int.cast_le

theorem feq_ofInt {a b : ℤ} (ha : |a| < 2 ^ 53) (hb : |b| < 2 ^ 53) :
    feq (ofInt a) (ofInt b) = decide (a = b) := by
  rw [ofInt_eq ha, ofInt_eq hb, feq_finite, decide_eq_decide]
  exact Int.cast_inj

end Binary64

end Numeric
