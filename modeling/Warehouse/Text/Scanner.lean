import Warehouse.Text.Bytes

/-!
# Scanners

A scanner reads an initial part of a text and leaves the rest.  It is stable when it reads the
same part and gives the same result on every shorter text that still holds that part: a text cut
anywhere after it does not change what was read.

* `Stable.andThen`        stability composes;
* `signed`, `digits`, `fraction`, `exponent`   the parts of a decimal number, all stable;
* `decimalNumber`         sign, digits, fraction and exponent; `stable_decimalNumber`;
* `decimalNumber_numeral`   the numeral of an integer is read whole.
-/

namespace Text

section
variable {τ α β : Type*}

/-- reads from the front; the second component is what is left -/
abbrev Scanner (τ α : Type*) := List τ → α × List τ

namespace Scanner

def andThen (f : Scanner τ α) (g : α → Scanner τ β) : Scanner τ β := fun s => g (f s).1 (f s).2

def Stable (f : Scanner τ α) : Prop :=
  ∀ s, ∃ b, s = b ++ (f s).2 ∧ ∀ r, r <+: (f s).2 → f (b ++ r) = ((f s).1, r)

theorem Stable.andThen {f : Scanner τ α} {g : α → Scanner τ β} (hf : f.Stable)
    (hg : ∀ a, (g a).Stable) : (f.andThen g).Stable := by
  intro s
  obtain ⟨b, hb, hfr⟩ := hf s
  obtain ⟨c, hc, hgr⟩ := hg (f s).1 (f s).2
  refine ⟨b ++ c, ?_, fun r hr => ?_⟩
  · rw [List.append_assoc]
    show s = b ++ (c ++ (g (f s).1 (f s).2).2)
    rw [← hc, ← hb]
  · have hcr : c ++ r <+: (f s).2 := by
      rw [hc]
      exact List.prefix_append_right_inj c |>.mpr hr
    show g (f (b ++ c ++ r)).1 (f (b ++ c ++ r)).2 = _
    rw [List.append_assoc, hfr _ hcr]
    exact hgr r hr

theorem Stable.map {f : Scanner τ α} (hf : f.Stable) (h : α → β) :
    (f.andThen fun a s => (h a, s)).Stable :=
  hf.andThen fun _ _ => ⟨[], rfl, fun _ _ => rfl⟩

/-- the longest initial part whose elements all satisfy `p` -/
def many (p : τ → Bool) : Scanner τ (List τ) := fun s => (s.takeWhile p, s.dropWhile p)

theorem many_append (p : τ → Bool) {b r : List τ} (hb : ∀ x ∈ b, p x = true)
    (hr : ∀ x ∈ r.head?, p x = false) : many p (b ++ r) = (b, r) := by
  have hdrop : r.takeWhile p = [] ∧ r.dropWhile p = r := by
    cases r with
    | nil => exact ⟨rfl, rfl⟩
    | cons x r =>
      have hx : p x = false := hr x rfl
      exact ⟨List.takeWhile_cons_of_neg (by simp [hx]), List.dropWhile_cons_of_neg (by simp [hx])⟩
  unfold many
  rw [List.takeWhile_append_of_pos hb, List.dropWhile_append_of_pos hb, hdrop.1, hdrop.2,
    List.append_nil]

/-- what is left does not start with an element of the class -/
theorem head_many (p : τ → Bool) (s : List τ) : ∀ x ∈ (many p s).2.head?, p x = false := by
  intro x hx
  have h := List.head?_dropWhile_not p s
  rw [show s.dropWhile p = (many p s).2 from rfl, Option.mem_def.mp hx] at h
  simpa using h

theorem stable_many (p : τ → Bool) : (many p).Stable := by
  intro s
  refine ⟨s.takeWhile p, List.takeWhile_append_dropWhile.symm, fun r hr => ?_⟩
  refine many_append p (fun x hx => List.mem_takeWhile_imp hx) fun x hx => ?_
  obtain ⟨t, ht⟩ := hr
  refine head_many p s x ?_
  rw [← ht]
  cases r with
  | nil => cases hx
  | cons y r => exact hx

end Scanner

end

/-! ## the parts of a decimal number -/

open Scanner

/-- an optional sign; true for a minus -/
def signed : Scanner UInt8 Bool
  | 45 :: s => (true, s)
  | 43 :: s => (false, s)
  | s => (false, s)

def digits : Scanner UInt8 Bytes := many isDigit

/-- an optional point with the digits after it -/
def fraction : Scanner UInt8 Bytes
  | 46 :: s => digits s
  | s => ([], s)

/-- the sign and the digits of an exponent -/
def exponentDigits : Scanner UInt8 (Bool × Bytes) :=
  signed.andThen fun n => digits.andThen fun d s => ((n, d), s)

/-- an optional exponent; an `e` without digits is not read -/
def exponent : Scanner UInt8 ℤ
  | [] => (0, [])
  | c :: s =>
    if (c = 101 ∨ c = 69) ∧ (exponentDigits s).1.2 ≠ [] then
      (if (exponentDigits s).1.1 then -(decVal (exponentDigits s).1.2 : ℤ)
        else decVal (exponentDigits s).1.2, (exponentDigits s).2)
    else (0, c :: s)

/-- the parts of a decimal floating point literal -/
structure DecimalNumber where
  negative : Bool
  whole : Bytes
  frac : Bytes
  exp : ℤ
deriving DecidableEq

def decimalNumber : Scanner UInt8 DecimalNumber :=
  signed.andThen fun n => digits.andThen fun w => fraction.andThen fun f =>
    exponent.andThen fun e s => (⟨n, w, f, e⟩, s)

theorem signed_of_ne {s : Bytes} (h : ∀ x ∈ s.head?, x ≠ 45 ∧ x ≠ 43) : signed s = (false, s) := by
  unfold signed
  split
  · exact absurd rfl (h 45 rfl).1
  · exact absurd rfl (h 43 rfl).2
  · rfl

theorem fraction_of_ne {s : Bytes} (h : ∀ x ∈ s.head?, x ≠ 46) : fraction s = ([], s) := by
  unfold fraction
  split
  · exact absurd rfl (h 46 rfl)
  · rfl

theorem head_of_isPrefix {r s : Bytes} {x : UInt8} (h : r <+: s) (hx : x ∈ r.head?) :
    x ∈ s.head? := by
  obtain ⟨t, rfl⟩ := h
  cases r with
  | nil => cases hx
  | cons y r => exact hx

theorem stable_signed : Scanner.Stable signed := by
  intro s
  by_cases h45 : s.head? = some 45
  · obtain ⟨t, rfl⟩ := List.head?_eq_some_iff.mp h45
    exact ⟨[45], rfl, fun _ _ => rfl⟩
  by_cases h43 : s.head? = some 43
  · obtain ⟨t, rfl⟩ := List.head?_eq_some_iff.mp h43
    exact ⟨[43], rfl, fun _ _ => rfl⟩
  have hs : ∀ x ∈ s.head?, x ≠ 45 ∧ x ≠ 43 := fun x hx =>
    ⟨fun e => h45 (e ▸ hx), fun e => h43 (e ▸ hx)⟩
  rw [signed_of_ne hs]
  exact ⟨[], rfl, fun r hr => signed_of_ne fun x hx => hs x (head_of_isPrefix hr hx)⟩

theorem stable_digits : Scanner.Stable digits := stable_many _

theorem stable_fraction : Scanner.Stable fraction := by
  intro s
  by_cases h46 : s.head? = some 46
  · obtain ⟨t, rfl⟩ := List.head?_eq_some_iff.mp h46
    obtain ⟨b, hb, hr⟩ := stable_digits t
    exact ⟨46 :: b, congrArg (46 :: ·) hb, hr⟩
  have hs : ∀ x ∈ s.head?, x ≠ 46 := fun x hx e => h46 (e ▸ hx)
  rw [fraction_of_ne hs]
  exact ⟨[], rfl, fun r hr => fraction_of_ne fun x hx => hs x (head_of_isPrefix hr hx)⟩

theorem stable_exponentDigits : Scanner.Stable exponentDigits :=
  stable_signed.andThen fun n => stable_digits.map fun d => (n, d)

theorem digits_eq_nil {s : Bytes} : (digits s).1 = [] ↔ ∀ x ∈ s.head?, isDigit x = false := by
  cases s with
  | nil => exact ⟨fun _ _ hx => absurd hx (by simp), fun _ => rfl⟩
  | cons c s =>
    show (c :: s).takeWhile isDigit = [] ↔ _
    by_cases hc : isDigit c = true
    · rw [List.takeWhile_cons_of_pos hc]
      exact ⟨fun h => absurd h (List.cons_ne_nil _ _), fun h => absurd hc (by simp [h c rfl])⟩
    · rw [List.takeWhile_cons_of_neg hc]
      exact ⟨fun _ x hx => Option.some.inj hx ▸ Bool.eq_false_iff.mpr hc, fun _ => rfl⟩

theorem signed_isPrefix {r s : Bytes} (h : r <+: s) : (signed r).2 <+: (signed s).2 := by
  cases r with
  | nil => exact List.nil_prefix
  | cons x r =>
    obtain ⟨t, rfl⟩ := h
    by_cases hx : x = 45 ∨ x = 43
    · rcases hx with rfl | rfl
      · exact List.prefix_append r t
      · exact List.prefix_append r t
    · have hne : ∀ l : Bytes, signed (x :: l) = (false, x :: l) := fun l =>
        signed_of_ne fun y hy => Option.some.inj hy ▸ not_or.mp hx
      rw [List.cons_append, hne, hne]
      exact List.prefix_append (x :: r) t

/-- a cut text has no exponent digits that the whole text does not have -/
theorem exponentDigits_eq_nil_of_isPrefix {r s : Bytes} (h : r <+: s)
    (hs : (exponentDigits s).1.2 = []) : (exponentDigits r).1.2 = [] :=
  digits_eq_nil.mpr fun x hx =>
    digits_eq_nil.mp hs x (head_of_isPrefix (signed_isPrefix h) hx)

theorem stable_exponent : Scanner.Stable exponent := by
  intro s
  cases s with
  | nil => exact ⟨[], rfl, fun r hr => by rw [List.prefix_nil.mp hr]; rfl⟩
  | cons c s =>
    by_cases h : (c = 101 ∨ c = 69) ∧ (exponentDigits s).1.2 ≠ []
    · obtain ⟨b, hb, hr⟩ := stable_exponentDigits s
      refine ⟨c :: b, ?_, fun r hpre => ?_⟩
      · rw [exponent, if_pos h]
        exact congrArg (c :: ·) hb
      · rw [exponent, if_pos h] at hpre ⊢
        rw [List.cons_append, exponent, hr r hpre, if_pos h]
    · rw [exponent, if_neg h]
      refine ⟨[], rfl, fun r hpre => ?_⟩
      cases r with
      | nil => rfl
      | cons d r =>
        obtain ⟨rfl, hr⟩ := List.cons_prefix_cons.mp (show d :: r <+: c :: s from hpre)
        rw [List.nil_append, exponent, if_neg]
        exact fun hd => h ⟨hd.1, fun hs => hd.2 (exponentDigits_eq_nil_of_isPrefix hr hs)⟩

theorem stable_decimalNumber : Scanner.Stable decimalNumber :=
  stable_signed.andThen fun _ => stable_digits.andThen fun _ => stable_fraction.andThen fun _ =>
    stable_exponent.map _

/-! ## whole numbers -/

theorem exponent_of_ne {s : Bytes} (h : ∀ x ∈ s.head?, x ≠ 101 ∧ x ≠ 69) :
    exponent s = (0, s) := by
  cases s with
  | nil => rfl
  | cons c s =>
    have hc : ¬(c = 101 ∨ c = 69) := not_or.mpr (h c rfl)
    rw [exponent, if_neg fun he => hc he.1]

theorem digits_decimal (n : Nat) {r : Bytes} (hr : ∀ x ∈ r.head?, isDigit x = false) :
    digits (decimal n ++ r) = (decimal n, r) :=
  many_append _ (fun _ hx => isDigit_of_mem_decimal hx) hr

theorem signed_decimal (n : Nat) (r : Bytes) : signed (decimal n ++ r) = (false, decimal n ++ r) :=
  signed_of_ne fun x hx => by
    have hd : isDigit x = true := by
      rw [List.head?_append_of_ne_nil _ (decimal_ne_nil _)] at hx
      exact isDigit_of_mem_decimal (List.mem_of_mem_head? hx)
    exact ⟨fun e => absurd (e ▸ hd) (by decide), fun e => absurd (e ▸ hd) (by decide)⟩

theorem signed_numeral (i : ℤ) (r : Bytes) :
    signed (numeral i ++ r) = (decide (i < 0), decimal i.natAbs ++ r) := by
  unfold numeral
  split_ifs with hi
  · rw [decide_eq_true hi]
    rfl
  · rw [decide_eq_false hi, signed_decimal]

/-- a numeral is read whole when neither a digit, a point nor an exponent follows -/
theorem decimalNumber_numeral (i : ℤ) {r : Bytes}
    (hr : ∀ x ∈ r.head?, isDigit x = false ∧ x ≠ 46 ∧ x ≠ 101 ∧ x ≠ 69) :
    decimalNumber (numeral i ++ r) = (⟨decide (i < 0), decimal i.natAbs, [], 0⟩, r) := by
  simp only [decimalNumber, andThen, signed_numeral, digits_decimal _ fun x hx => (hr x hx).1,
    fraction_of_ne fun x hx => (hr x hx).2.1, exponent_of_ne fun x hx => (hr x hx).2.2]

end Text
