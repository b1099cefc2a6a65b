import Mathlib.Data.Nat.Digits.Lemmas
import Mathlib.Data.List.TakeWhile
import Mathlib.Tactic.Ring

/-!
# Byte strings and decimal numerals

* `Bytes`, `ascii`       byte strings, and the bytes of an ASCII literal;
* `decimal`, `numeral`   the decimal text of a natural number and of an integer;
* `decVal`               the number a string of digits denotes, `decVal_decimal`;
* `numeral_injective`    different integers have different texts;
* `length_decimal_le`    a number below `10^k` has at most `k` digits.
-/

namespace Text

abbrev Bytes := List UInt8

/-- the bytes of an ASCII literal -/
def ascii (l : List Char) : Bytes := l.map fun c => UInt8.ofNat c.toNat

def isDigit (b : UInt8) : Bool := 48 ≤ b && b ≤ 57

/-- the byte of a decimal digit -/
def digit (d : Nat) : UInt8 := UInt8.ofNat (48 + d)

theorem digit_toNat {d : Nat} (h : d < 10) : (digit d).toNat = 48 + d := by
  show (UInt8.ofNat (48 + d)).toNat = 48 + d
  rw [UInt8.toNat_ofNat']
  omega

theorem isDigit_iff (b : UInt8) : isDigit b = true ↔ 48 ≤ b.toNat ∧ b.toNat ≤ 57 := by
  unfold isDigit
  rw [Bool.and_eq_true, decide_eq_true_iff, decide_eq_true_iff, UInt8.le_iff_toNat_le,
    UInt8.le_iff_toNat_le]
  rfl

theorem isDigit_digit {d : Nat} (h : d < 10) : isDigit (digit d) = true := by
  rw [isDigit_iff, digit_toNat h]
  omega

/-- the decimal text of a natural number -/
def decimal (n : Nat) : Bytes :=
  if n = 0 then [digit 0] else ((Nat.digits 10 n).map digit).reverse

/-- the decimal text of an integer, as `%d` prints it -/
def numeral (i : Int) : Bytes :=
  if i < 0 then 45 :: decimal i.natAbs else decimal i.natAbs

/-- the number a string of digits denotes -/
def decVal (b : Bytes) : Nat := b.foldl (fun n d => 10 * n + (d.toNat - 48)) 0

theorem decVal_snoc (b : Bytes) (d : UInt8) :
    decVal (b ++ [d]) = 10 * decVal b + (d.toNat - 48) := by
  simp [decVal, List.foldl_append]

theorem decVal_digits (l : List Nat) (h : ∀ d ∈ l, d < 10) :
    decVal (l.map digit).reverse = Nat.ofDigits 10 l := by
  induction l with
  | nil => rfl
  | cons d l ih =>
    have hd : d < 10 := h d (List.mem_cons_self ..)
    rw [List.map_cons, List.reverse_cons, decVal_snoc,
      ih (fun e he => h e (List.mem_cons_of_mem _ he)), digit_toNat hd, Nat.ofDigits_cons]
    omega

theorem decVal_decimal (n : Nat) : decVal (decimal n) = n := by
  unfold decimal
  split_ifs with h
  · rw [h]; rfl
  · rw [decVal_digits _ (fun d hd => Nat.digits_lt_base (by norm_num) hd), Nat.ofDigits_digits]

theorem decimal_ne_nil (n : Nat) : decimal n ≠ [] := by
  unfold decimal
  split_ifs with h
  · exact List.cons_ne_nil _ _
  · simpa using Nat.digits_ne_nil_iff_ne_zero.mpr h

theorem isDigit_of_mem_decimal {n : Nat} {b : UInt8} (h : b ∈ decimal n) : isDigit b = true := by
  unfold decimal at h
  split_ifs at h with hn
  · rw [List.mem_singleton.mp h]; exact isDigit_digit (by norm_num)
  · obtain ⟨d, hd, rfl⟩ := List.mem_map.mp (List.mem_reverse.mp h)
    exact isDigit_digit (Nat.digits_lt_base (by norm_num) hd)

theorem length_decimal_le {n k : Nat} (hk : 0 < k) (h : n < 10 ^ k) : (decimal n).length ≤ k := by
  unfold decimal
  split_ifs with hn
  · exact hk
  · rw [List.length_reverse, List.length_map]
    exact Nat.digits_length_le_iff (by norm_num) n |>.mpr h

theorem decimal_injective {m n : Nat} (h : decimal m = decimal n) : m = n := by
  rw [← decVal_decimal m, h, decVal_decimal]

theorem decimal_ne_minus (m : Nat) (b : Bytes) : decimal m ≠ 45 :: b := by
  intro h
  have hd : isDigit 45 = true := isDigit_of_mem_decimal (n := m) (h ▸ List.mem_cons_self ..)
  exact absurd hd (by decide)

theorem numeral_injective {i j : Int} (h : numeral i = numeral j) : i = j := by
  unfold numeral at h
  split_ifs at h with hi hj hj
  · have := decimal_injective (List.cons.inj h).2
    omega
  · exact absurd h.symm (decimal_ne_minus _ _)
  · exact absurd h (decimal_ne_minus _ _)
  · have := decimal_injective h
    omega

example : numeral (-120) = ascii ['-', '1', '2', '0'] := by decide

end Text
