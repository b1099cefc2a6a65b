import Warehouse.CJson.Node

/-!
# Numbers in JSON texts

* `numberText`      what `print_number` puts into its buffer;
* `parseNumber`     `parse_number`: at most 63 bytes are handed to `strtod`;
* `numberText_ofInt`      a whole number below `10^15` is printed as its numeral;
* `length_numberText_le`  the text fits the buffer;
* `NumberToken`           the texts `parse_number` reads whole; `numberToken_numberText`.
-/

namespace CJSON
open Text Numeric

/-! ## printing -/

/-- `DBL_EPSILON` -/
def DBL_EPSILON : Binary64 := Binary64.ofRat (2 ^ (-52 : ℤ))

/-- `compare_double` -/
def compareDouble (a b : Binary64) : Bool :=
  (a.sub b).abs.le (Binary64.mul (if b.abs.lt a.abs then a.abs else b.abs) DBL_EPSILON)

/-- does `sscanf` read a number from the text that is close to `d`? -/
def recovers (text : Bytes) (d : Binary64) : Bool :=
  match strtod text with
  | some (test, _) => compareDouble test d
  | none => false

/-- the bytes `print_number` formats -/
def numberText (d : Binary64) : Bytes :=
  match d with
  | .finite q _ =>
    if d.feq (Binary64.ofInt (valueint d)) then numeral (valueint d)
    else if recovers (formatG 15 q) d then formatG 15 q
    else formatG 17 q
  | _ => ascii ['n', 'u', 'l', 'l']

/-! ## parsing -/

/-- the bytes `parse_number` copies -/
def numberBytes (rest : Bytes) : Bytes := (rest.take 63).takeWhile isNumberByte

/-- the number and what follows it -/
def parseNumber (rest : Bytes) : Option (Node × Bytes) :=
  (strtod (numberBytes rest)).map fun (v, after) =>
    (.number v, rest.drop ((numberBytes rest).length - after.length))

theorem numberBytes_isPrefix (rest : Bytes) : numberBytes rest <+: rest :=
  (List.takeWhile_prefix _).trans (List.take_prefix _ _)

/-! ## whole numbers -/

/-- a double is close to itself -/
theorem compareDouble_self {q : ℚ} (h : Representable q) :
    compareDouble (.finite q h) (.finite q h) = true := by
  have hsub : Binary64.sub (.finite q h) (.finite q h) = .finite 0 representable_zero := by
    show Binary64.ofRat (q + -q) = _
    rw [add_neg_cancel]
    exact Binary64.ofRat_representable representable_zero
  have heps : DBL_EPSILON = .finite (2 ^ (-52 : ℤ)) _ :=
    Binary64.ofRat_representable (representable_two_zpow (by norm_num) (by norm_num))
  unfold compareDouble
  rw [hsub, heps, ite_self]
  show Binary64.le (.finite |0| _) (Binary64.ofRat (|q| * 2 ^ (-52 : ℤ))) = true
  unfold Binary64.ofRat
  split_ifs
  · rw [Binary64.le_finite, abs_zero, decide_eq_true_iff]
    exact nearest_nonneg (by positivity)
  · have : ¬(|q| * 2 ^ (-52 : ℤ) < 0) := not_lt.mpr (by positivity)
    rw [decide_eq_false this]
    rfl

/-- **Whole numbers are printed exactly.** -/
theorem numberText_ofInt {i : ℤ} (h : i.natAbs < 10 ^ 15) :
    numberText (Binary64.ofInt i) = numeral i := by
  have hi : |i| < 2 ^ 53 := by
    rw [Int.abs_eq_natAbs]
    exact_mod_cast h.trans (by norm_num)
  have hrec : recovers (numeral i) (.finite i (representable_int hi)) = true := by
    have hread : strtod (numeral i) = some (Binary64.ofInt i, []) := by
      have := strtod_numeral (i := i) (r := []) (fun x hx => nomatch hx)
      rwa [List.append_nil] at this
    rw [recovers, hread, Binary64.ofInt_eq hi]
    exact compareDouble_self _
  rw [Binary64.ofInt_eq hi]
  dsimp only [numberText]
  rw [formatG_intCast h, if_pos hrec]
  split_ifs with hfeq
  · have hv : |valueint (.finite i (representable_int hi))| < 2 ^ 53 := by
      have := valueint_range (.finite i (representable_int hi))
      unfold INT_MIN INT_MAX at this
      rw [abs_lt]
      omega
    rw [← Binary64.ofInt_eq hi, Binary64.feq_ofInt hi (Binary64.ofInt_eq hi ▸ hv),
      decide_eq_true_iff] at hfeq
    rw [← Binary64.ofInt_eq hi, ← hfeq]
  · rfl

/-! ## the bytes of a number -/

theorem numberText_cases (d : Binary64) :
    (∃ q h, d = .finite q h ∧ (numberText d = numeral (valueint d) ∨
      numberText d = formatG 15 q ∨ numberText d = formatG 17 q)) ∨
    ((∀ q h, d ≠ .finite q h) ∧ numberText d = ascii ['n', 'u', 'l', 'l']) := by
  cases d with
  | finite q h =>
    refine Or.inl ⟨q, h, rfl, ?_⟩
    dsimp only [numberText]
    split_ifs
    · exact Or.inl rfl
    · exact Or.inr (Or.inl rfl)
    · exact Or.inr (Or.inr rfl)
  | inf s => exact Or.inr ⟨fun _ _ => by simp, rfl⟩
  | nan => exact Or.inr ⟨fun _ _ => by simp, rfl⟩

theorem length_numeral_le {i : ℤ} (h : INT_MIN ≤ i ∧ i ≤ INT_MAX) : (numeral i).length ≤ 11 := by
  unfold INT_MIN INT_MAX at h
  have h10 : (decimal i.natAbs).length ≤ 10 :=
    length_decimal_le (by norm_num) (by norm_num; omega)
  unfold numeral
  split_ifs
  · rw [List.length_cons]
    omega
  · omega

/-- **The number buffer is never overrun.** -/
theorem length_numberText_le (d : Binary64) : (numberText d).length ≤ 24 := by
  rcases numberText_cases d with ⟨q, h, -, e | e | e⟩ | ⟨-, e⟩
  · have := length_numeral_le (valueint_range d)
    rw [e]
    omega
  · have := length_formatG_le (p := 15) (by norm_num) h
    rw [e]
    omega
  · have := length_formatG_le (p := 17) (by norm_num) h
    rw [e]
    omega
  · rw [e]
    decide

/-! ## number tokens -/

/-- the texts `parse_number` reads whole, with their values -/
structure NumberToken (v : Binary64) (b : Bytes) : Prop where
  head : ∃ c t, b = c :: t ∧ (c = 45 ∨ isDigit c = true)
  bytes : ∀ c ∈ b, isNumberByte c = true
  length : b.length ≤ 63
  value : strtod b = some (v, [])

/-- what is read is a token, whatever follows it -/
theorem parseNumber_sound {rest r : Bytes} {j : Node} (h : parseNumber rest = some (j, r))
    (hhead : ∃ c t, rest = c :: t ∧ (c = 45 ∨ isDigit c = true)) :
    ∃ v b, j = .number v ∧ rest = b ++ r ∧ NumberToken v b := by
  obtain ⟨⟨v, after⟩, hv, heq⟩ := Option.map_eq_some_iff.mp h
  obtain ⟨rfl, rfl⟩ := Prod.mk.injEq .. ▸ heq
  obtain ⟨b, hb, hstable⟩ := strtod_stable hv
  obtain ⟨x, hx⟩ := numberBytes_isPrefix rest
  have hval : strtod b = some (v, []) := by
    have := hstable [] List.nil_prefix
    rwa [List.append_nil] at this
  have hlen : (numberBytes rest).length - after.length = b.length := by
    rw [hb, List.length_append]
    omega
  have hrest : rest = b ++ (after ++ x) := by rw [← List.append_assoc, ← hb, hx]
  refine ⟨v, b, rfl, ?_, ?_, fun c hc => ?_, ?_, hval⟩
  · rw [hlen, hrest, List.drop_left, ← hrest]
  · obtain ⟨c, t, hct, hc⟩ := hhead
    cases b with
    | nil => rw [strtod_nil] at hval; cases hval
    | cons c' b =>
      rw [hct, List.cons_append] at hrest
      exact ⟨c', b, rfl, (List.cons.inj hrest).1 ▸ hc⟩
  · have hmem : c ∈ numberBytes rest := hb ▸ List.mem_append_left _ hc
    exact List.mem_takeWhile_imp hmem
  · have h63 : (numberBytes rest).length ≤ 63 :=
      ((List.takeWhile_prefix _).length_le).trans (List.length_take_le _ _)
    rw [hb, List.length_append] at h63
    omega

/-- a token is read whole unless another number byte follows -/
theorem NumberToken.parseNumber {v : Binary64} {b r : Bytes} (h : NumberToken v b)
    (hr : ∀ x ∈ r.head?, isNumberByte x = false) : parseNumber (b ++ r) = some (.number v, r) := by
  have hnum : numberBytes (b ++ r) = b := by
    unfold numberBytes
    rw [List.take_append, List.take_of_length_le h.length]
    refine congrArg Prod.fst (Scanner.many_append isNumberByte h.bytes fun x hx => ?_)
    exact hr x (head_of_isPrefix (List.take_prefix _ _) hx)
  rw [CJSON.parseNumber, hnum, h.value, Option.map_some]
  show some (Node.number v, (b ++ r).drop b.length) = _
  rw [List.drop_left]

/-- the text of a finite double is a token -/
theorem numberToken_numberText {q : ℚ} (h : Representable q) :
    ∃ v, NumberToken v (numberText (.finite q h)) := by
  have hlen := length_numberText_le (.finite q h)
  have hnumeral : ∀ i, ∃ v, strtod (numeral i) = some (v, []) := fun i => by
    have := strtod_numeral (i := i) (r := []) (fun x hx => nomatch hx)
    rw [List.append_nil] at this
    exact ⟨_, this⟩
  rcases numberText_cases (.finite q h) with ⟨q', h', heq, e⟩ | ⟨hno, -⟩
  · obtain ⟨v, hv⟩ : ∃ v, strtod (numberText (.finite q h)) = some (v, []) := by
      rcases e with e | e | e <;> rw [e]
      · exact hnumeral _
      · exact strtod_formatG _ _
      · exact strtod_formatG _ _
    refine ⟨v, ?_, ?_, by omega, hv⟩
    · rcases e with e | e | e <;> rw [e]
      · exact head_numeral _
      · exact head_formatG
      · exact head_formatG
    · rcases e with e | e | e <;> rw [e]
      · exact isNumberByte_numeral
      · exact isNumberByte_formatG
      · exact isNumberByte_formatG
  · exact absurd rfl (hno q h)

/-- the text of a whole number is a token of its value -/
theorem numberToken_ofInt {i : ℤ} (h : i.natAbs < 10 ^ 15) :
    NumberToken (Binary64.ofInt i) (numeral i) := by
  have hlen : (numeral i).length ≤ 16 := by
    have h15 : (decimal i.natAbs).length ≤ 15 := length_decimal_le (by norm_num) h
    unfold numeral
    split_ifs
    · rw [List.length_cons]
      omega
    · omega
  refine ⟨head_numeral i, isNumberByte_numeral, by omega, ?_⟩
  have := strtod_numeral (i := i) (r := []) (fun x hx => nomatch hx)
  rwa [List.append_nil] at this

end CJSON
