import Warehouse.Numeric.Rounding

/-!
# Texts that are read back

* `exponent_exponentText_eq`   the exponent of a text;
* `decimalNumber_withPoint`   the parts of a text, and `strtod_withPoint_eq` their value;
* `strtod_formatG_eq`    `strtod` reads the value of the digits that were written.
-/

namespace Numeric
open Text

/-! ## digits -/

theorem decVal_append (b c : Bytes) : decVal (b ++ c) = decVal b * 10 ^ c.length + decVal c := by
  induction c using List.reverseRecOn with
  | nil => simp [decVal]
  | append_singleton c d ih =>
    rw [← List.append_assoc, decVal_snoc, decVal_snoc, ih, List.length_append,
      List.length_singleton, pow_succ]
    ring

theorem decVal_zeros (k : ℕ) : decVal (List.replicate k (digit 0)) = 0 := by
  induction k with
  | zero => rfl
  | succ k ih =>
    rw [List.replicate_succ', decVal_snoc, ih, digit_toNat (by norm_num)]

theorem exists_zeros (f : Bytes) : ∃ k, f = f.rdropWhile (· == digit 0) ++ List.replicate k (digit 0) := by
  refine ⟨(f.rtakeWhile (· == digit 0)).length, ?_⟩
  have hzeros : f.rtakeWhile (· == digit 0) =
      List.replicate (f.rtakeWhile (· == digit 0)).length (digit 0) := by
    refine List.eq_replicate_iff.mpr ⟨rfl, fun b hb => ?_⟩
    have hb' : (b == digit 0) = true := List.mem_rtakeWhile_imp (p := fun x => x == digit 0) hb
    exact beq_iff_eq.mp hb'
  rw [← hzeros]
  unfold List.rdropWhile List.rtakeWhile
  rw [← List.reverse_append, List.takeWhile_append_dropWhile, List.reverse_reverse]

/-- trailing zeros of a fraction do not count -/
theorem decVal_fraction (w f : Bytes) (v : ℤ) :
    (decVal (w ++ f.rdropWhile (· == digit 0)) : ℚ) *
        10 ^ (v - (f.rdropWhile (· == digit 0)).length) =
      decVal (w ++ f) * 10 ^ (v - f.length) := by
  obtain ⟨k, hk⟩ := exists_zeros f
  generalize f.rdropWhile (· == digit 0) = g at *
  subst hk
  rw [← List.append_assoc, decVal_append (w ++ g), decVal_zeros, List.length_append,
    List.length_replicate, add_zero]
  push_cast
  rw [mul_assoc, ← zpow_natCast, ← zpow_add₀ (by norm_num)]
  congr 2
  ring

/-! ## reading -/

theorem exponent_exponentText_eq (e : ℤ) : exponent (exponentText e) = (e, []) := by
  have hdig : ∀ d : Bytes, d ≠ [] → (∀ b ∈ d, isDigit b = true) → decVal d = e.natAbs →
      exponent (101 :: (if e < 0 then 45 else 43) :: d) = (e, []) := by
    intro d hne hd hval
    have hmany : digits d = (d, []) := by
      have := Scanner.many_append isDigit (r := []) hd (fun x hx => nomatch hx)
      rwa [List.append_nil] at this
    have hparts : exponentDigits ((if e < 0 then 45 else 43) :: d) =
        ((decide (e < 0), d), []) := by
      split_ifs with he
      · rw [decide_eq_true he]
        exact congrArg (fun p : Bytes × Bytes => ((true, p.1), p.2)) hmany
      · rw [decide_eq_false he]
        exact congrArg (fun p : Bytes × Bytes => ((false, p.1), p.2)) hmany
    rw [exponent, hparts, if_pos ⟨Or.inl rfl, hne⟩, hval]
    refine Prod.ext ?_ rfl
    show (if decide (e < 0) = true then -(e.natAbs : ℤ) else e.natAbs) = e
    by_cases he : e < 0
    · rw [if_pos (decide_eq_true he)]
      omega
    · rw [decide_eq_false he, if_neg Bool.false_ne_true]
      omega
  unfold exponentText
  by_cases h10 : e.natAbs < 10
  · rw [if_pos h10]
    refine hdig _ (List.cons_ne_nil _ _) (fun b hb => ?_) ?_
    · rcases List.mem_cons.mp hb with rfl | hb
      · exact isDigit_digit (by norm_num)
      · exact isDigit_of_mem_decimal hb
    · have := decVal_append [digit 0] (decimal e.natAbs)
      rw [List.singleton_append, decVal_decimal] at this
      rw [this]
      show 0 * _ + _ = _
      rw [zero_mul, zero_add]
  · rw [if_neg h10]
    exact hdig _ (decimal_ne_nil _) (fun b hb => isDigit_of_mem_decimal hb) (decVal_decimal _)

/-- the parts of a text -/
theorem decimalNumber_withPoint (neg : Bool) {w f ex : Bytes} {v : ℤ}
    (hw : ∀ b ∈ w, isDigit b = true) (hne : w ≠ []) (hf : ∀ b ∈ f, isDigit b = true)
    (hex : exponent ex = (v, [])) (hexhead : ∀ x ∈ ex.head?, x = 101) :
    decimalNumber ((if neg then [45] else []) ++ (withPoint w f ++ ex)) =
      (⟨neg, w, f.rdropWhile (· == digit 0), v⟩, []) := by
  -- the digits, and what follows them
  obtain ⟨t, ht, hthead, htail⟩ : ∃ t, withPoint w f ++ ex = w ++ t ∧
      (∀ x ∈ t.head?, isDigit x = false) ∧ fraction t = (f.rdropWhile (· == digit 0), ex) := by
    unfold withPoint
    split_ifs with hnil
    · refine ⟨ex, rfl, fun x hx => by rw [hexhead x hx]; rfl, ?_⟩
      rw [hnil]
      refine fraction_of_ne fun x hx => ?_
      rw [hexhead x hx]
      decide
    · refine ⟨46 :: (f.rdropWhile (· == digit 0) ++ ex), by rw [List.append_assoc]; rfl,
        fun x hx => by rw [← Option.some.inj hx]; rfl, ?_⟩
      refine Scanner.many_append isDigit (fun x hx => hf x ((List.rdropWhile_prefix _ f).subset hx))
        fun x hx => ?_
      rw [hexhead x hx]
      rfl
  have hdig : digits (w ++ t) = (w, t) := Scanner.many_append isDigit hw hthead
  have hsign : signed ((if neg then [45] else []) ++ (w ++ t)) = (neg, w ++ t) := by
    cases neg with
    | true => rfl
    | false =>
      refine signed_of_ne fun x hx => ?_
      have hx' : x ∈ (w ++ t).head? := hx
      rw [List.head?_append_of_ne_nil _ hne] at hx'
      have hd := hw x (List.mem_of_mem_head? hx')
      exact ⟨fun e => absurd (e ▸ hd) (by decide), fun e => absurd (e ▸ hd) (by decide)⟩
  simp only [ht, decimalNumber, Scanner.andThen, hsign, hdig, htail, hex]

theorem strtod_withPoint_eq (neg : Bool) (w f ex : Bytes) (v : ℤ)
    (hw : ∀ b ∈ w, isDigit b = true) (hne : w ≠ []) (hf : ∀ b ∈ f, isDigit b = true)
    (hex : exponent ex = (v, [])) (hexhead : ∀ x ∈ ex.head?, x = 101) :
    strtod ((if neg then [45] else []) ++ (withPoint w f ++ ex)) =
      some (Binary64.ofRat (if neg then -(decVal (w ++ f) * 10 ^ (v - f.length))
        else decVal (w ++ f) * 10 ^ (v - f.length)), []) := by
  rw [strtod, decimalNumber_withPoint neg hw hne hf hex hexhead, if_neg fun h => hne h.1]
  unfold decimalValue
  rw [decVal_fraction]

theorem length_decimal_of_bounds {p m : ℕ} (hp : 0 < p) (hlow : 10 ^ (p - 1) ≤ m)
    (hhigh : m < 10 ^ p) : (decimal m).length = p := by
  have hm : m ≠ 0 := by
    have : 0 < 10 ^ (p - 1) := by positivity
    omega
  have hlog : Nat.log 10 m = p - 1 := by
    refine Nat.log_eq_of_pow_le_of_lt_pow hlow ?_
    rwa [Nat.sub_add_cancel hp]
  rw [length_decimal hm, hlog]
  omega

/-- the three forms of a text -/
theorem strtod_formatDigits {p m : ℕ} (hp : 0 < p) (hlow : 10 ^ (p - 1) ≤ m) (hhigh : m < 10 ^ p)
    (neg : Bool) (e : ℤ) : strtod ((if neg then [45] else []) ++ formatDigits p m e) =
      some (Binary64.ofRat (if neg then -(m * 10 ^ (e + 1 - p)) else m * 10 ^ (e + 1 - p)), []) := by
  have hlen := length_decimal_of_bounds hp hlow hhigh
  have htake : ∀ k, ∀ b ∈ (decimal m).take k, isDigit b = true := fun k b hb =>
    isDigit_of_mem_decimal (List.mem_of_mem_take hb)
  have hdrop : ∀ k, ∀ b ∈ (decimal m).drop k, isDigit b = true := fun k b hb =>
    isDigit_of_mem_decimal (List.mem_of_mem_drop hb)
  have hne : ∀ k, (decimal m).take (k + 1) ≠ [] := fun k h => by
    rw [List.take_eq_nil_iff] at h
    exact h.elim (by omega) (decimal_ne_nil m)
  have hnil : ∀ x ∈ ([] : Bytes).head?, x = 101 := by simp
  by_cases hpos : 0 ≤ e ∧ e < p
  · rw [formatDigits, if_pos hpos]
    have hread := strtod_withPoint_eq neg _ _ [] 0 (htake (e.toNat + 1)) (hne _)
      (hdrop (e.toNat + 1)) rfl hnil
    rw [List.append_nil, List.take_append_drop, decVal_decimal, List.length_drop, hlen] at hread
    have hexp : (0 : ℤ) - ((p - (e.toNat + 1) : ℕ) : ℤ) = e + 1 - p := by omega
    rw [hexp] at hread
    exact hread
  by_cases hneg : -4 ≤ e ∧ e < 0
  · rw [formatDigits, if_neg hpos, if_pos hneg]
    have hread := strtod_withPoint_eq neg [digit 0]
      (List.replicate (-e - 1).toNat (digit 0) ++ decimal m) [] 0
      (fun b hb => by rw [List.mem_singleton.mp hb]; decide) (List.cons_ne_nil _ _)
      (fun b hb => by
        rcases List.mem_append.mp hb with hb | hb
        · rw [List.eq_of_mem_replicate hb]
          decide
        · exact isDigit_of_mem_decimal hb) rfl hnil
    have hval : decVal ([digit 0] ++ (List.replicate (-e - 1).toNat (digit 0) ++ decimal m)) = m := by
      rw [decVal_append, decVal_append, decVal_zeros, decVal_decimal, zero_mul, zero_add]
      show 0 * _ + m = m
      rw [zero_mul, zero_add]
    have hexp : (0 : ℤ) - ((List.replicate (-e - 1).toNat (digit 0) ++ decimal m).length : ℤ) =
        e + 1 - p := by
      rw [List.length_append, List.length_replicate, hlen]
      push_cast
      omega
    rw [List.append_nil, hval, hexp] at hread
    exact hread
  · rw [formatDigits, if_neg hpos, if_neg hneg]
    have hread := strtod_withPoint_eq neg _ _ _ _ (htake 1) (hne 0) (hdrop 1) (exponent_exponentText_eq e)
      (fun x hx => (Option.some.inj hx).symm)
    rw [List.take_append_drop, decVal_decimal, List.length_drop, hlen] at hread
    have hexp : e - ((p - 1 : ℕ) : ℤ) = e + 1 - p := by omega
    rw [hexp] at hread
    exact hread

/-- **What is read is the value of the digits.** -/
theorem strtod_formatG_eq {p : ℕ} {x : ℚ} (hp : 0 < p) (hx : x ≠ 0) :
    strtod (formatG p x) = some (Binary64.ofRat (roundDigits p x), []) := by
  obtain ⟨hlow, hhigh, -⟩ := significand_spec hp hx
  have hread := fun neg => strtod_formatDigits hp hlow hhigh neg (significand p x).2
  unfold formatG roundDigits
  rw [if_neg hx]
  split_ifs
  · exact hread true
  · exact hread false

end Numeric
