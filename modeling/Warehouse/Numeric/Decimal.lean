import Warehouse.Numeric.Binary64
import Warehouse.Text.Scanner
import Mathlib.Data.List.DropRight

/-!
# Doubles and their decimal texts

The conversions of the C library, on the doubles of `Binary64`.

* `strtod`            the longest decimal literal at the front of a text, rounded to nearest;
* `strtod_stable`     it reads the same literal when the text is cut after it;
* `formatG p`         `%1.<p>g`: `p` significant digits, without trailing zeros;
* `strtod_numeral`, `formatG_intCast`   both are exact on whole numbers;
* `length_formatG_le` the text of a double has at most `p + 7` bytes;
* `strtod_formatG`    `strtod` reads such a text whole.
-/

namespace Numeric
open Text

/-! ## reading -/

def decimalValue (d : DecimalNumber) : ℚ :=
  if d.negative then -(decVal (d.whole ++ d.frac) * 10 ^ (d.exp - d.frac.length))
  else decVal (d.whole ++ d.frac) * 10 ^ (d.exp - d.frac.length)

/-- the value and what follows the literal; `none` when no digit is found -/
def strtod (s : Bytes) : Option (Binary64 × Bytes) :=
  if (decimalNumber s).1.whole = [] ∧ (decimalNumber s).1.frac = [] then none
  else some (Binary64.ofRat (decimalValue (decimalNumber s).1), (decimalNumber s).2)

theorem strtod_stable {s r : Bytes} {v : Binary64} (h : strtod s = some (v, r)) :
    ∃ b, s = b ++ r ∧ ∀ r', r' <+: r → strtod (b ++ r') = some (v, r') := by
  unfold strtod at h
  split_ifs at h with hd
  rw [Option.some_inj, Prod.mk.injEq] at h
  obtain ⟨hv, hr⟩ := h
  obtain ⟨b, hb, hstable⟩ := stable_decimalNumber s
  rw [hr] at hb hstable
  refine ⟨b, hb, fun r' hr' => ?_⟩
  rw [strtod, hstable r' hr', if_neg hd, hv]

/-- a literal is not empty -/
theorem strtod_nil : strtod [] = none := rfl

theorem strtod_numeral {i : ℤ} {r : Bytes}
    (hr : ∀ x ∈ r.head?, isDigit x = false ∧ x ≠ 46 ∧ x ≠ 101 ∧ x ≠ 69) :
    strtod (numeral i ++ r) = some (Binary64.ofInt i, r) := by
  have hval : decimalValue ⟨decide (i < 0), decimal i.natAbs, [], 0⟩ = i := by
    have habs : (i.natAbs : ℚ) = |(i : ℚ)| := by rw [Nat.cast_natAbs, Int.cast_abs]
    simp only [decimalValue, List.append_nil, decVal_decimal, List.length_nil, habs,
      Nat.cast_zero, sub_zero, zpow_zero, mul_one, decide_eq_true_eq]
    split_ifs with hi
    · rw [abs_of_neg (by exact_mod_cast hi), neg_neg]
    · rw [abs_of_nonneg (by exact_mod_cast not_lt.mp hi)]
  rw [strtod, decimalNumber_numeral i hr, if_neg fun h => decimal_ne_nil _ h.1, hval]
  rfl

/-! ## writing -/

/-- `p` significant digits and the exponent of the first one -/
def significand (p : ℕ) (x : ℚ) : ℕ × ℤ :=
  if (roundHalfEven (|x| / 10 ^ (Int.log 10 |x| + 1 - p))).toNat < 10 ^ p then
    ((roundHalfEven (|x| / 10 ^ (Int.log 10 |x| + 1 - p))).toNat, Int.log 10 |x|)
  else (10 ^ (p - 1), Int.log 10 |x| + 1)

/-- the fraction loses its trailing zeros, and an empty fraction its point -/
def withPoint (w f : Bytes) : Bytes :=
  if f.rdropWhile (· == digit 0) = [] then w else w ++ 46 :: f.rdropWhile (· == digit 0)

/-- at least two digits -/
def exponentText (e : ℤ) : Bytes :=
  101 :: (if e < 0 then 45 else 43) ::
    if e.natAbs < 10 then digit 0 :: decimal e.natAbs else decimal e.natAbs

/-- the digits `m` at the exponent `e`: positional for `-4 ≤ e < p`, scientific otherwise -/
def formatDigits (p m : ℕ) (e : ℤ) : Bytes :=
  if 0 ≤ e ∧ e < p then
    withPoint ((decimal m).take (e.toNat + 1)) ((decimal m).drop (e.toNat + 1))
  else if -4 ≤ e ∧ e < 0 then
    withPoint [digit 0] (List.replicate (-e - 1).toNat (digit 0) ++ decimal m)
  else withPoint ((decimal m).take 1) ((decimal m).drop 1) ++ exponentText e

def formatG (p : ℕ) (x : ℚ) : Bytes :=
  if x = 0 then [digit 0]
  else if x < 0 then 45 :: formatDigits p (significand p x).1 (significand p x).2
  else formatDigits p (significand p x).1 (significand p x).2

/-! ## whole numbers -/

theorem length_decimal {n : ℕ} (hn : n ≠ 0) : (decimal n).length = Nat.log 10 n + 1 := by
  rw [decimal, if_neg hn, List.length_reverse, List.length_map, Nat.length_digits 10 n (by norm_num) hn]

theorem decimal_mul_pow {n : ℕ} (hn : n ≠ 0) (k : ℕ) :
    decimal (n * 10 ^ k) = decimal n ++ List.replicate k (digit 0) := by
  rw [decimal, if_neg (by positivity), decimal, if_neg hn, mul_comm,
    Nat.digits_base_pow_mul (by norm_num) (Nat.pos_of_ne_zero hn), List.map_append,
    List.map_replicate, List.reverse_append, List.reverse_replicate]

theorem withPoint_zeros (w : Bytes) (k : ℕ) : withPoint w (List.replicate k (digit 0)) = w := by
  rw [withPoint, if_pos]
  refine List.rdropWhile_eq_nil_iff.mpr fun b hb => ?_
  rw [List.eq_of_mem_replicate hb, beq_self_eq_true]

/-- a whole number with at most `p` digits is not rounded -/
theorem significand_natCast {p n : ℕ} (hn : n ≠ 0) (hp : n < 10 ^ p) :
    significand p n = (n * 10 ^ (p - 1 - Nat.log 10 n), (Nat.log 10 n : ℤ)) := by
  have hlog : Nat.log 10 n < p := Nat.log_lt_of_lt_pow hn hp
  have hscale : |(n : ℚ)| / 10 ^ (Int.log 10 |(n : ℚ)| + 1 - p)
      = ((n * 10 ^ (p - 1 - Nat.log 10 n) : ℕ) : ℤ) := by
    rw [Nat.abs_cast, Int.log_natCast]
    have he : (Nat.log 10 n : ℤ) + 1 - p = -((p - 1 - Nat.log 10 n : ℕ) : ℤ) := by omega
    rw [he, zpow_neg, zpow_natCast, div_inv_eq_mul]
    push_cast
    rfl
  have hlt : n * 10 ^ (p - 1 - Nat.log 10 n) < 10 ^ p := by
    calc n * 10 ^ (p - 1 - Nat.log 10 n)
        < 10 ^ (Nat.log 10 n + 1) * 10 ^ (p - 1 - Nat.log 10 n) := by
          have := Nat.lt_pow_succ_log_self (by norm_num : 1 < 10) n
          exact Nat.mul_lt_mul_of_pos_right this (by positivity)
      _ = 10 ^ p := by rw [← pow_add]; congr 1; omega
  rw [significand, hscale, roundHalfEven_intCast, Int.toNat_natCast, if_pos hlt, Nat.abs_cast,
    Int.log_natCast]

theorem formatG_natCast {p n : ℕ} (hn : n ≠ 0) (hp : n < 10 ^ p) :
    formatDigits p (significand p n).1 (significand p n).2 = decimal n := by
  have hlog : Nat.log 10 n < p := Nat.log_lt_of_lt_pow hn hp
  have hlen : Nat.log 10 n + 1 = (decimal n).length := (length_decimal hn).symm
  rw [significand_natCast hn hp, formatDigits, if_pos ⟨by omega, by omega⟩, decimal_mul_pow hn,
    Int.toNat_natCast, hlen, List.take_left, List.drop_left, withPoint_zeros]

theorem significand_neg (p : ℕ) (x : ℚ) : significand p (-x) = significand p x := by
  rw [significand, abs_neg, ← significand]

theorem formatG_intCast {p : ℕ} {i : ℤ} (h : i.natAbs < 10 ^ p) : formatG p i = numeral i := by
  by_cases h0 : i = 0
  · rw [h0, formatG, if_pos Int.cast_zero]
    rfl
  have hn : i.natAbs ≠ 0 := Int.natAbs_ne_zero.mpr h0
  rw [formatG, if_neg (by exact_mod_cast h0), numeral]
  rcases lt_or_ge i 0 with hi | hi
  · have hcast : (i : ℚ) = -(i.natAbs : ℚ) := by
      rw [Nat.cast_natAbs, Int.cast_abs, abs_of_neg (by exact_mod_cast hi), neg_neg]
    rw [if_pos (by exact_mod_cast hi), if_pos hi, hcast, significand_neg, formatG_natCast hn h]
  · have hcast : (i : ℚ) = (i.natAbs : ℚ) := by
      rw [Nat.cast_natAbs, Int.cast_abs, abs_of_nonneg (by exact_mod_cast hi)]
    rw [if_neg (by exact_mod_cast not_lt.mpr hi), if_neg (not_lt.mpr hi), hcast,
      formatG_natCast hn h]

/-! ## the bytes of a text -/

/-- the bytes that occur in decimal literals -/
def isNumberByte (b : UInt8) : Bool :=
  isDigit b || b == 43 || b == 45 || b == 46 || b == 101 || b == 69

theorem isNumberByte_of_isDigit {b : UInt8} (h : isDigit b = true) : isNumberByte b = true := by
  simp [isNumberByte, h]

theorem isNumberByte_zero : isNumberByte (digit 0) = true := by decide

theorem isNumberByte_decimal {n : ℕ} {b : UInt8} (h : b ∈ decimal n) : isNumberByte b = true :=
  isNumberByte_of_isDigit (isDigit_of_mem_decimal h)

theorem mem_withPoint {w f : Bytes} {b : UInt8} (h : b ∈ withPoint w f) :
    b ∈ w ∨ b = 46 ∨ b ∈ f := by
  unfold withPoint at h
  split_ifs at h
  · exact Or.inl h
  · rcases List.mem_append.mp h with h | h
    · exact Or.inl h
    · rcases List.mem_cons.mp h with h | h
      · exact Or.inr (Or.inl h)
      · exact Or.inr (Or.inr ((List.rdropWhile_prefix _ f).subset h))

theorem isNumberByte_withPoint {w f : Bytes} (hw : ∀ b ∈ w, isNumberByte b = true)
    (hf : ∀ b ∈ f, isNumberByte b = true) : ∀ b ∈ withPoint w f, isNumberByte b = true := by
  intro b hb
  rcases mem_withPoint hb with h | rfl | h
  · exact hw b h
  · rfl
  · exact hf b h

theorem isNumberByte_exponentText {e : ℤ} : ∀ b ∈ exponentText e, isNumberByte b = true := by
  intro b hb
  rcases List.mem_cons.mp hb with rfl | hb
  · rfl
  rcases List.mem_cons.mp hb with rfl | hb
  · split_ifs <;> rfl
  split_ifs at hb
  · rcases List.mem_cons.mp hb with rfl | hb
    · exact isNumberByte_zero
    · exact isNumberByte_decimal hb
  · exact isNumberByte_decimal hb

theorem isNumberByte_formatDigits {p m : ℕ} {e : ℤ} :
    ∀ b ∈ formatDigits p m e, isNumberByte b = true := by
  have htake : ∀ k, ∀ b ∈ (decimal m).take k, isNumberByte b = true := fun k b hb =>
    isNumberByte_decimal (List.mem_of_mem_take hb)
  have hdrop : ∀ k, ∀ b ∈ (decimal m).drop k, isNumberByte b = true := fun k b hb =>
    isNumberByte_decimal (List.mem_of_mem_drop hb)
  unfold formatDigits
  split_ifs
  · exact isNumberByte_withPoint (htake _) (hdrop _)
  · refine isNumberByte_withPoint (fun b hb => ?_) fun b hb => ?_
    · rw [List.mem_singleton.mp hb]
      exact isNumberByte_zero
    · rcases List.mem_append.mp hb with hb | hb
      · rw [List.eq_of_mem_replicate hb]
        exact isNumberByte_zero
      · exact isNumberByte_decimal hb
  · intro b hb
    rcases List.mem_append.mp hb with hb | hb
    · exact isNumberByte_withPoint (htake _) (hdrop _) b hb
    · exact isNumberByte_exponentText b hb

theorem isNumberByte_formatG {p : ℕ} {x : ℚ} : ∀ b ∈ formatG p x, isNumberByte b = true := by
  intro b hb
  unfold formatG at hb
  split_ifs at hb
  · rw [List.mem_singleton.mp hb]
    exact isNumberByte_zero
  · rcases List.mem_cons.mp hb with rfl | hb
    · rfl
    · exact isNumberByte_formatDigits b hb
  · exact isNumberByte_formatDigits b hb

theorem isNumberByte_numeral {i : ℤ} : ∀ b ∈ numeral i, isNumberByte b = true := by
  intro b hb
  unfold numeral at hb
  split_ifs at hb
  · rcases List.mem_cons.mp hb with rfl | hb
    · rfl
    · exact isNumberByte_decimal hb
  · exact isNumberByte_decimal hb

/-! ## the length of a text -/

theorem length_withPoint_le (w f : Bytes) : (withPoint w f).length ≤ w.length + f.length + 1 := by
  unfold withPoint
  split_ifs
  · omega
  · have := (List.rdropWhile_prefix (· == digit 0) f).length_le
    rw [List.length_append, List.length_cons]
    omega

theorem length_exponentText_le {e : ℤ} (he : e.natAbs < 1000) : (exponentText e).length ≤ 5 := by
  have h3 : (decimal e.natAbs).length ≤ 3 := length_decimal_le (by norm_num) he
  unfold exponentText
  rw [List.length_cons, List.length_cons]
  split_ifs with h10
  · have h1 : (decimal e.natAbs).length ≤ 1 := length_decimal_le (by norm_num) h10
    rw [List.length_cons]
    omega
  · omega

theorem length_formatDigits_le {p m : ℕ} {e : ℤ} (hp : 0 < p) (hm : m < 10 ^ p)
    (he : e.natAbs < 1000) : (formatDigits p m e).length ≤ p + 6 := by
  have hlen : (decimal m).length ≤ p := length_decimal_le hp hm
  unfold formatDigits
  split_ifs with h1 h2
  · have := length_withPoint_le ((decimal m).take (e.toNat + 1)) ((decimal m).drop (e.toNat + 1))
    rw [← List.length_append, List.take_append_drop] at this
    omega
  · have := length_withPoint_le [digit 0]
      (List.replicate (-e - 1).toNat (digit 0) ++ decimal m)
    rw [List.length_append, List.length_replicate, List.length_singleton] at this
    omega
  · have hw := length_withPoint_le ((decimal m).take 1) ((decimal m).drop 1)
    rw [← List.length_append, List.take_append_drop] at hw
    have hx := length_exponentText_le he
    rw [List.length_append]
    omega

theorem significand_lt {p : ℕ} (hp : 0 < p) (x : ℚ) : (significand p x).1 < 10 ^ p := by
  unfold significand
  split_ifs with h
  · exact h
  · exact Nat.pow_lt_pow_right (by norm_num) (by omega)

/-- the decimal exponent of a double has at most three digits: `2 ^ 3 ≤ 10` -/
theorem log_representable {q : ℚ} (h : Representable q) (h0 : q ≠ 0) :
    -358 ≤ Int.log 10 |q| ∧ Int.log 10 |q| ≤ 341 := by
  obtain ⟨hb, m, e, -, he, hq⟩ := h
  have hpos : 0 < |q| := abs_pos.mpr h0
  have hlow : (2 : ℚ) ^ (-1074 : ℤ) ≤ |q| := by
    have hm : m ≠ 0 := by
      rintro rfl
      exact h0 (by rw [hq, Int.cast_zero, zero_mul])
    have hm1 : (1 : ℚ) ≤ |(m : ℚ)| := by exact_mod_cast Int.one_le_abs hm
    rw [hq, abs_mul, abs_of_pos (by positivity : (0 : ℚ) < 2 ^ e)]
    calc (2 : ℚ) ^ (-1074 : ℤ) ≤ 2 ^ e := zpow_le_zpow_right₀ (by norm_num) he
      _ ≤ |(m : ℚ)| * 2 ^ e := le_mul_of_one_le_left (by positivity) hm1
  have h8 : ∀ k : ℕ, (2 : ℚ) ^ (3 * k) ≤ 10 ^ k := fun k => by
    rw [pow_mul]
    exact pow_le_pow_left₀ (by norm_num) (by norm_num) k
  constructor
  · refine (Int.zpow_le_iff_le_log (by norm_num) hpos).mp (le_trans ?_ hlow)
    rw [show (-358 : ℤ) = -((358 : ℕ) : ℤ) from rfl, show (-1074 : ℤ) = -((3 * 358 : ℕ) : ℤ) from rfl,
      zpow_neg, zpow_neg, zpow_natCast, zpow_natCast]
    exact inv_anti₀ (by positivity) (h8 358)
  · refine Int.lt_add_one_iff.mp ((Int.lt_zpow_iff_log_lt (by norm_num) hpos).mp ?_)
    rw [show (341 + 1 : ℤ) = ((342 : ℕ) : ℤ) from rfl, zpow_natCast]
    calc |q| < 2 ^ 1024 := hb
      _ ≤ 2 ^ (3 * 342) := pow_le_pow_right₀ (by norm_num) (by norm_num)
      _ ≤ 10 ^ 342 := h8 342

theorem length_formatG_le {p : ℕ} {q : ℚ} (hp : 0 < p) (h : Representable q) :
    (formatG p q).length ≤ p + 7 := by
  unfold formatG
  split_ifs with h0 hneg
  · simp
  all_goals
    have he : (significand p q).2.natAbs < 1000 := by
      have := log_representable h h0
      unfold significand
      split_ifs <;> omega
    have := length_formatDigits_le hp (significand_lt hp q) he
  · rw [List.length_cons]
    omega
  · omega

/-! ## a text is read whole -/

theorem exponent_exponentText (e : ℤ) : ∃ v, exponent (exponentText e) = (v, []) := by
  have hdig : ∀ d : Bytes, d ≠ [] → (∀ b ∈ d, isDigit b = true) → ∀ c : UInt8, c = 45 ∨ c = 43 →
      ∃ n, exponentDigits (c :: d) = ((n, d), []) := by
    intro d hne hd c hc
    have hmany : digits d = (d, []) := by
      have := Scanner.many_append isDigit (r := []) hd (fun x hx => nomatch hx)
      rwa [List.append_nil] at this
    rcases hc with rfl | rfl
    · exact ⟨true, congrArg (fun p : Bytes × Bytes => ((true, p.1), p.2)) hmany⟩
    · exact ⟨false, congrArg (fun p : Bytes × Bytes => ((false, p.1), p.2)) hmany⟩
  obtain ⟨n, hn⟩ := hdig (if e.natAbs < 10 then digit 0 :: decimal e.natAbs else decimal e.natAbs)
    (by split_ifs; exacts [List.cons_ne_nil _ _, decimal_ne_nil _])
    (by
      intro b hb
      split_ifs at hb
      · rcases List.mem_cons.mp hb with rfl | hb
        · decide
        · exact isDigit_of_mem_decimal hb
      · exact isDigit_of_mem_decimal hb)
    (if e < 0 then 45 else 43) (by split_ifs; exacts [Or.inl rfl, Or.inr rfl])
  have hne : (if e.natAbs < 10 then digit 0 :: decimal e.natAbs else decimal e.natAbs) ≠ [] := by
    split_ifs
    exacts [List.cons_ne_nil _ _, decimal_ne_nil _]
  rw [exponentText, exponent, hn, if_pos ⟨Or.inl rfl, hne⟩]
  exact ⟨_, rfl⟩

/-- a whole part, a fraction and at most an exponent, after at most a minus -/
theorem strtod_withPoint (neg : Bool) {w f ex : Bytes} (hw : ∀ b ∈ w, isDigit b = true)
    (hne : w ≠ []) (hf : ∀ b ∈ f, isDigit b = true) (hex : ex = [] ∨ ∃ e, ex = exponentText e) :
    ∃ v, strtod ((if neg then [45] else []) ++ (withPoint w f ++ ex)) = some (v, []) := by
  have hexp : ∃ v, exponent ex = (v, []) := by
    rcases hex with rfl | ⟨e, rfl⟩
    · exact ⟨0, rfl⟩
    · exact exponent_exponentText e
  have hexhead : ∀ x ∈ ex.head?, x = 101 := by
    rcases hex with rfl | ⟨e, rfl⟩
    · exact fun x hx => nomatch hx
    · exact fun x hx => (Option.some.inj hx).symm
  obtain ⟨v, hv⟩ := hexp
  -- the digits, and what follows them
  obtain ⟨t, ht, hthead, htail⟩ : ∃ t, withPoint w f ++ ex = w ++ t ∧
      (∀ x ∈ t.head?, isDigit x = false) ∧ ∃ g, fraction t = (g, ex) := by
    unfold withPoint
    split_ifs
    · refine ⟨ex, rfl, fun x hx => by rw [hexhead x hx]; rfl, [], fraction_of_ne fun x hx => ?_⟩
      rw [hexhead x hx]
      decide
    · refine ⟨46 :: (f.rdropWhile (· == digit 0) ++ ex), by rw [List.append_assoc]; rfl,
        fun x hx => by rw [← Option.some.inj hx]; rfl, f.rdropWhile (· == digit 0), ?_⟩
      refine Scanner.many_append isDigit (fun x hx => hf x ((List.rdropWhile_prefix _ f).subset hx))
        fun x hx => ?_
      rw [hexhead x hx]
      rfl
  obtain ⟨g, hg⟩ := htail
  have hdig : digits (w ++ t) = (w, t) := Scanner.many_append isDigit hw hthead
  have hsign : signed ((if neg then [45] else []) ++ (w ++ t)) = (neg, w ++ t) := by
    cases neg with
    | true => rfl
    | false =>
      refine signed_of_ne fun x hx => ?_
      have hx' : x ∈ (w ++ t).head? := hx
      rw [List.head?_append_of_ne_nil _ hne] at hx'
      have hd := hw x (List.mem_of_mem_head? hx')
      exact ⟨fun e => absurd (e ▸ hd) (by decide), fun e => absurd (e ▸ hd) (by decide)⟩
  have hnum : decimalNumber ((if neg then [45] else []) ++ (withPoint w f ++ ex))
      = (⟨neg, w, g, v⟩, []) := by
    simp only [ht, decimalNumber, Scanner.andThen, hsign, hdig, hg, hv]
  rw [strtod, hnum, if_neg fun h => hne h.1]
  exact ⟨_, rfl⟩

theorem formatDigits_eq {p m : ℕ} {e : ℤ} : ∃ w f ex, formatDigits p m e = withPoint w f ++ ex ∧
    (∀ b ∈ w, isDigit b = true) ∧ w ≠ [] ∧ (∀ b ∈ f, isDigit b = true) ∧
    (ex = [] ∨ ∃ e, ex = exponentText e) := by
  have htake : ∀ k, ∀ b ∈ (decimal m).take k, isDigit b = true := fun k b hb =>
    isDigit_of_mem_decimal (List.mem_of_mem_take hb)
  have hdrop : ∀ k, ∀ b ∈ (decimal m).drop k, isDigit b = true := fun k b hb =>
    isDigit_of_mem_decimal (List.mem_of_mem_drop hb)
  have hne : ∀ k, (decimal m).take (k + 1) ≠ [] := fun k h => by
    rw [List.take_eq_nil_iff] at h
    exact h.elim (by omega) (decimal_ne_nil m)
  unfold formatDigits
  split_ifs
  · exact ⟨_, _, [], (List.append_nil _).symm, htake _, hne _, hdrop _, Or.inl rfl⟩
  · refine ⟨_, _, [], (List.append_nil _).symm, fun b hb => ?_, List.cons_ne_nil _ _,
      fun b hb => ?_, Or.inl rfl⟩
    · rw [List.mem_singleton.mp hb]
      decide
    · rcases List.mem_append.mp hb with hb | hb
      · rw [List.eq_of_mem_replicate hb]
        decide
      · exact isDigit_of_mem_decimal hb
  · exact ⟨_, _, _, rfl, htake _, hne 0, hdrop _, Or.inr ⟨e, rfl⟩⟩

theorem strtod_formatG (p : ℕ) (x : ℚ) : ∃ v, strtod (formatG p x) = some (v, []) := by
  obtain ⟨w, f, ex, heq, hw, hne, hf, hex⟩ :=
    formatDigits_eq (p := p) (m := (significand p x).1) (e := (significand p x).2)
  unfold formatG
  split_ifs
  · exact ⟨_, rfl⟩
  · rw [heq]
    exact strtod_withPoint true hw hne hf hex
  · rw [heq]
    exact strtod_withPoint false hw hne hf hex

/-- a text starts with a minus or a digit -/
theorem head_formatG {p : ℕ} {x : ℚ} :
    ∃ c t, formatG p x = c :: t ∧ (c = 45 ∨ isDigit c = true) := by
  obtain ⟨w, f, ex, heq, hw, hne, -, -⟩ :=
    formatDigits_eq (p := p) (m := (significand p x).1) (e := (significand p x).2)
  obtain ⟨c, w', rfl⟩ := List.exists_cons_of_ne_nil hne
  have hc : isDigit c = true := hw c (List.mem_cons_self ..)
  unfold formatG
  split_ifs
  · exact ⟨_, _, rfl, Or.inr (by decide)⟩
  · exact ⟨_, _, rfl, Or.inl rfl⟩
  · rw [heq]
    unfold withPoint
    split_ifs
    · exact ⟨c, _, rfl, Or.inr hc⟩
    · exact ⟨c, _, rfl, Or.inr hc⟩

theorem head_numeral (i : ℤ) : ∃ c t, numeral i = c :: t ∧ (c = 45 ∨ isDigit c = true) := by
  obtain ⟨c, t, hc⟩ := List.exists_cons_of_ne_nil (decimal_ne_nil i.natAbs)
  unfold numeral
  split_ifs
  · exact ⟨_, _, rfl, Or.inl rfl⟩
  · exact ⟨c, t, hc, Or.inr (isDigit_of_mem_decimal (hc ▸ List.mem_cons_self ..))⟩

end Numeric
