import Warehouse.CJson.Strings
import Warehouse.Text.Utf8

/-!
# String literals

* `encodeUtf8_eq`        what `utf16_literal_to_utf8` writes for a code point is its UTF-8 encoding;
* `Literal`              the literals for a string of characters, with every kind of escape;
* `BrokenLiteral`        behind a literal stands an escape without its four digits;
* `parseString_utf8_iff`   what `parse_string` reads of a text in UTF-8.
-/

namespace CJSON
open Text

/-! ## the encoder -/

theorem continuationByte_eq (n : ℕ) : continuationByte n = UInt8.ofNat (n % 64 + 128) := by
  have hsmall : ∀ m < 2 ^ 8, (m ||| 0x80) &&& 0xBF = m % 64 + 128 := by decide +kernel
  have hmod : (n ||| 0x80) &&& 0xBF = ((n % 2 ^ 8 ||| 0x80) &&& 0xBF) := by
    have hle : (n ||| 0x80) &&& 0xBF < 2 ^ 8 := lt_of_le_of_lt Nat.and_le_right (by norm_num)
    rw [← Nat.mod_eq_of_lt hle, Nat.and_mod_two_pow, Nat.or_mod_two_pow]
  unfold continuationByte
  rw [hmod, hsmall _ (Nat.mod_lt _ (by norm_num)), Nat.mod_mod_of_dvd _ (by norm_num)]

/-- the mark fills the bits above the number -/
theorem firstByte_eq {n k mark : ℕ} (hmark : ∀ m < k, (m ||| mark) &&& 0xFF = m + mark)
    (h : n < k) : firstByte n mark = UInt8.ofNat (n % k + mark) := by
  unfold firstByte
  rw [hmark n h, Nat.mod_eq_of_lt h]

/-- the encoder of the parser -/
theorem encodeUtf8_eq {n : ℕ} (h : n.isValidChar) :
    encodeUtf8 n = some (String.utf8EncodeChar (Char.ofNat n)) := by
  have hlt : n < 0x110000 := by
    rcases h with h | h
    · exact h.trans (by norm_num)
    · exact h.2
  unfold encodeUtf8 String.utf8EncodeChar
  simp only [toNat_ofNat h, continuationByte_eq, Nat.shiftRight_eq_div_pow]
  by_cases h1 : n < 0x80
  · rw [if_pos h1, if_pos (Nat.le_of_lt_succ h1), show (0x7F : ℕ) = 2 ^ 7 - 1 from rfl,
      Nat.and_two_pow_sub_one_eq_mod, Nat.mod_eq_of_lt h1]
  rw [if_neg h1, if_neg fun hle => h1 (Nat.lt_succ_of_le hle)]
  by_cases h2 : n < 0x800
  · rw [if_pos h2, if_pos (Nat.le_of_lt_succ h2),
      firstByte_eq (k := 0x20) (by decide) (by omega)]
  rw [if_neg h2, if_neg fun hle => h2 (Nat.lt_succ_of_le hle)]
  by_cases h3 : n < 0x10000
  · rw [if_pos h3, if_pos (Nat.le_of_lt_succ h3),
      firstByte_eq (k := 0x10) (by decide) (by omega)]
  rw [if_neg h3, if_neg fun hle => h3 (Nat.lt_succ_of_le hle), if_pos (Nat.le_of_lt_succ hlt),
    firstByte_eq (k := 0x08) (by decide) (by omega)]

/-! ## the escapes of a literal -/

/-- four hexadecimal digits of a number -/
def Hex4 (b : Bytes) (n : ℕ) : Prop :=
  ∃ x y z w x' y' z' w', b = [x, y, z, w] ∧ hexValue x = some x' ∧ hexValue y = some y' ∧
    hexValue z = some z' ∧ hexValue w = some w' ∧ n = ((x' * 16 + y') * 16 + z') * 16 + w'

theorem hexValue_cases {c : UInt8} {n : ℕ} (h : hexValue c = some n) : c < 128 ∧ n < 16 := by
  unfold hexValue at h
  simp only [UInt8.le_iff_toNat_le, UInt8.lt_iff_toNat_lt, UInt8.reduceToNat] at h ⊢
  split_ifs at h with h1 h2 h3 <;> cases h <;> omega

theorem Hex4.parseHex4 {b : Bytes} {n : ℕ} (h : Hex4 b n) (r : Bytes) :
    CJSON.parseHex4 (b ++ r) = n := by
  obtain ⟨x, y, z, w, x', y', z', w', rfl, hx, hy, hz, hw, rfl⟩ := h
  simp only [List.cons_append, List.nil_append, CJSON.parseHex4, hx, hy, hz, hw]

theorem Hex4.lt {b : Bytes} {n : ℕ} (h : Hex4 b n) : n < 0x10000 := by
  obtain ⟨x, y, z, w, x', y', z', w', rfl, hx, hy, hz, hw, rfl⟩ := h
  have := (hexValue_cases hx).2
  have := (hexValue_cases hy).2
  have := (hexValue_cases hz).2
  have := (hexValue_cases hw).2
  omega

/-- a number that is not zero was read from digits -/
theorem hex4_of_ne_zero {b : Bytes} (h : parseHex4 b ≠ 0) :
    ∃ d r, b = d ++ r ∧ Hex4 d (parseHex4 b) := by
  unfold parseHex4 at h ⊢
  split at h
  · next x y z w r =>
    split at h
    · next x' y' z' w' hx hy hz hw =>
      exact ⟨[x, y, z, w], r, rfl, x, y, z, w, x', y', z', w', rfl, hx, hy, hz, hw, rfl⟩
    · exact absurd rfl h
  · exact absurd rfl h

/-- no such digits stand at the front -/
def NoHex4 (b : Bytes) : Prop := ∀ d r n, b = d ++ r → ¬ Hex4 d n

theorem parseHex4_of_noHex4 {b : Bytes} (h : NoHex4 b) : parseHex4 b = 0 := by
  by_contra hne
  obtain ⟨d, r, hb, hd⟩ := hex4_of_ne_zero hne
  exact h d r _ hb hd

theorem Hex4.length {b : Bytes} {n : ℕ} (h : Hex4 b n) : b.length = 4 := by
  obtain ⟨x, y, z, w, -, -, -, -, rfl, -⟩ := h
  rfl

theorem Hex4.ascii {b : Bytes} {n : ℕ} (h : Hex4 b n) : ∀ c ∈ b, c < 128 := by
  obtain ⟨x, y, z, w, x', y', z', w', rfl, hx, hy, hz, hw, -⟩ := h
  intro c hc
  simp only [List.mem_cons, List.not_mem_nil, or_false] at hc
  rcases hc with rfl | rfl | rfl | rfl
  · exact (hexValue_cases hx).1
  · exact (hexValue_cases hy).1
  · exact (hexValue_cases hz).1
  · exact (hexValue_cases hw).1

/-- the code point of two surrogates -/
def surrogatePair (high low : ℕ) : ℕ := 0x10000 + (high - 0xD800) * 1024 + (low - 0xDC00)

/-- one or two sequences for a character -/
inductive Escape16 : Char → Bytes → Prop
  | one {h : Bytes} {n : ℕ} (hh : Hex4 h n) (hn : n.isValidChar) :
      Escape16 (Char.ofNat n) (92 :: 117 :: h)
  | two {h l : Bytes} {high low : ℕ} (hh : Hex4 h high) (hl : Hex4 l low)
      (hhigh : 0xD800 ≤ high ∧ high ≤ 0xDBFF) (hlow : 0xDC00 ≤ low ∧ low ≤ 0xDFFF) :
      Escape16 (Char.ofNat (surrogatePair high low)) (92 :: 117 :: (h ++ 92 :: 117 :: l))

theorem surrogatePair_eq {high low : ℕ} (hhigh : 0xD800 ≤ high ∧ high ≤ 0xDBFF)
    (hlow : 0xDC00 ≤ low ∧ low ≤ 0xDFFF) :
    0x10000 + (((high &&& 0x3FF) <<< 10) ||| (low &&& 0x3FF)) = surrogatePair high low := by
  have h10 : (0x3FF : ℕ) = 2 ^ 10 - 1 := rfl
  rw [h10, Nat.and_two_pow_sub_one_eq_mod, Nat.and_two_pow_sub_one_eq_mod,
    ← Nat.shiftLeft_add_eq_or_of_lt (Nat.mod_lt _ (by norm_num)), Nat.shiftLeft_eq]
  unfold surrogatePair
  omega

theorem surrogatePair_valid {high low : ℕ} (hhigh : 0xD800 ≤ high ∧ high ≤ 0xDBFF)
    (hlow : 0xDC00 ≤ low ∧ low ≤ 0xDFFF) : (surrogatePair high low).isValidChar := by
  unfold surrogatePair Nat.isValidChar
  omega

/-- an escaped character is read -/
theorem Escape16.read {ch : Char} {e : Bytes} (h : Escape16 ch e) (r : Bytes) :
    utf16LiteralToUtf8 (e ++ r) = some (String.utf8EncodeChar ch, e.length) := by
  cases h with
  | one hh hn =>
    next b n =>
    have hlen := hh.length
    have hfirst : parseHex4 ((92 :: 117 :: b ++ r).drop 2) = n := hh.parseHex4 r
    have hno : ¬ (92 :: 117 :: b ++ r).length < 6 := by
      rw [List.length_append, List.length_cons, List.length_cons]
      omega
    unfold utf16LiteralToUtf8
    simp only [hfirst]
    unfold Nat.isValidChar at hn
    rw [if_neg hno, if_neg (by omega), if_neg (by omega), encodeUtf8_eq hn, Option.map_some,
      List.length_cons, List.length_cons, hlen]
  | two hh hl hhigh hlow =>
    next b b' high low =>
    have hlen := hh.length
    have hlen' := hl.length
    have hassoc : 92 :: 117 :: (b ++ 92 :: 117 :: b') ++ r =
        92 :: 117 :: (b ++ 92 :: 117 :: (b' ++ r)) := by
      rw [List.cons_append, List.cons_append, List.append_assoc]
      rfl
    rw [hassoc]
    have hfirst : parseHex4 ((92 :: 117 :: (b ++ 92 :: 117 :: (b' ++ r))).drop 2) = high :=
      hh.parseHex4 _
    have hsecond : (92 :: 117 :: (b ++ 92 :: 117 :: (b' ++ r))).drop 6 =
        92 :: 117 :: (b' ++ r) := by
      show (b ++ 92 :: 117 :: (b' ++ r)).drop 4 = _
      rw [← hlen, List.drop_left]
    have hlow' : parseHex4 ((92 :: 117 :: (b' ++ r)).drop 2) = low := hl.parseHex4 r
    unfold utf16LiteralToUtf8
    simp only [hfirst, hsecond, hlow', surrogatePair_eq hhigh hlow]
    have hno : ¬ (92 :: 117 :: (b ++ 92 :: 117 :: (b' ++ r))).length < 6 := by
      simp only [List.length_cons, List.length_append]
      omega
    have hno' : ¬ (92 :: 117 :: (b' ++ r)).length < 6 := by
      simp only [List.length_cons, List.length_append]
      omega
    have htake : ¬ (92 :: 117 :: (b' ++ r)).take 2 ≠ [92, 117] := fun h => h rfl
    rw [if_neg hno, if_neg (by omega), if_pos hhigh, if_neg hno', if_neg htake, if_neg (by omega),
      encodeUtf8_eq (surrogatePair_valid hhigh hlow), Option.map_some]
    simp only [List.length_cons, List.length_append, hlen, hlen']

theorem Escape16.ne_nil {ch : Char} {e : Bytes} (h : Escape16 ch e) : e ≠ [] := by
  cases h <;> exact List.cons_ne_nil _ _

/-- zero where four digits are missing -/
theorem utf16LiteralToUtf8_noHex4 {s : Bytes} (h : NoHex4 s) (hlen : 4 ≤ s.length) :
    utf16LiteralToUtf8 (92 :: 117 :: s) = some ([0], 6) := by
  have hno : ¬ (92 :: 117 :: s).length < 6 := by
    rw [List.length_cons, List.length_cons]
    omega
  unfold utf16LiteralToUtf8
  simp only [List.drop_succ_cons, List.drop_zero, parseHex4_of_noHex4 h]
  rw [if_neg hno, if_neg (by omega), if_neg (by omega)]
  rfl

/-- what is read is an escaped character, or zero -/
theorem utf16LiteralToUtf8_cases {s b : Bytes} {k : ℕ}
    (h : utf16LiteralToUtf8 (92 :: 117 :: s) = some (b, k)) :
    (NoHex4 s ∧ 4 ≤ s.length) ∨ ∃ ch e r, Escape16 ch e ∧ 92 :: 117 :: s = e ++ r := by
  unfold utf16LiteralToUtf8 at h
  simp only [List.drop_succ_cons, List.drop_zero] at h
  by_cases hd : ∃ d r n, s = d ++ r ∧ Hex4 d n
  · obtain ⟨d, r, n, rfl, hd⟩ := hd
    have hlen := hd.length
    have hlt := hd.lt
    have hdrop : (d ++ r).drop 4 = r := by rw [← hlen, List.drop_left]
    simp only [hd.parseHex4 r, hdrop] at h
    split_ifs at h with h1 h2 h3 h4 h5 h6
    · -- two surrogates
      rw [not_not] at h5
      obtain ⟨t, rfl⟩ : ∃ t, r = 92 :: 117 :: t := by
        refine ⟨r.drop 2, ?_⟩
        calc r = r.take 2 ++ r.drop 2 := (List.take_append_drop 2 r).symm
          _ = 92 :: 117 :: r.drop 2 := by rw [h5]; rfl
      simp only [List.drop_succ_cons, List.drop_zero] at h6
      rw [not_or, not_lt, not_lt] at h6
      obtain ⟨l, r, rfl, hl⟩ := hex4_of_ne_zero (b := t) fun h0 => by omega
      refine Or.inr ⟨_, _, r, .two hd hl h3 h6, ?_⟩
      rw [List.cons_append, List.cons_append, List.append_assoc]
      rfl
    · have hn : n.isValidChar := by
        unfold Nat.isValidChar
        omega
      exact Or.inr ⟨_, _, r, .one hd hn, rfl⟩
  · refine Or.inl ⟨fun d r n hs hn => hd ⟨d, r, n, hs, hn⟩, ?_⟩
    split_ifs at h with h1
    all_goals
      rw [List.length_cons, List.length_cons] at h1
      omega

/-! ## literals -/

/-- the letter behind a backslash, and the character -/
def shortEscapes : List (UInt8 × UInt8) :=
  [(98, 8), (102, 12), (110, 10), (114, 13), (116, 9), (34, 34), (92, 92), (47, 47)]

/-- what may stand between the quotes for a string of characters -/
inductive Literal : List Char → Bytes → Prop
  | nil : Literal [] []
  | plain {ch : Char} {cs : List Char} {b : Bytes} (h : ch ≠ '"' ∧ ch ≠ '\\') (hb : Literal cs b) :
      Literal (ch :: cs) (String.utf8EncodeChar ch ++ b)
  | short {d c : UInt8} {cs : List Char} {b : Bytes} (h : (d, c) ∈ shortEscapes)
      (hb : Literal cs b) : Literal (Char.ofNat c.toNat :: cs) (92 :: d :: b)
  | escape16 {ch : Char} {cs : List Char} {e b : Bytes} (h : Escape16 ch e) (hb : Literal cs b) :
      Literal (ch :: cs) (e ++ b)

theorem encode_plain {ch : Char} (h : ch ≠ '"' ∧ ch ≠ '\\') :
    ∀ c ∈ String.utf8EncodeChar ch, c ≠ 34 ∧ c ≠ 92 := by
  intro c hc
  rcases encode_cases ch with ⟨x, -, he, hx⟩ | hbig
  · rw [he] at hc
    rw [List.mem_singleton.mp hc]
    constructor
    · rintro rfl
      exact h.1 hx
    · rintro rfl
      exact h.2 hx
  · constructor
    · rintro rfl
      exact hbig _ hc (by decide)
    · rintro rfl
      exact hbig _ hc (by decide)

theorem plain_of_bytes {ch : Char} (h34 : ∀ c ∈ String.utf8EncodeChar ch, c ≠ 34)
    (h92 : ∀ c ∈ String.utf8EncodeChar ch, c ≠ 92) : ch ≠ '"' ∧ ch ≠ '\\' := by
  constructor
  · rintro rfl
    exact h34 34 (List.mem_singleton.mpr rfl) rfl
  · rintro rfl
    exact h92 92 (List.mem_singleton.mpr rfl) rfl

theorem encode_backslash {ch : Char} (h : ¬ ∀ c ∈ String.utf8EncodeChar ch, c ≠ 92) :
    String.utf8EncodeChar ch = [92] := by
  rcases encode_cases ch with ⟨c, -, he, -⟩ | hbig
  · rw [he] at h ⊢
    by_contra hne
    exact h fun x hx h92 => hne (by rw [← h92, List.mem_singleton.mp hx])
  · refine absurd (fun c hc h92 => ?_) h
    exact hbig c hc (by rw [h92]; decide)

theorem stringBody_plain {a b : Bytes} (h : ∀ c ∈ a, c ≠ 34 ∧ c ≠ 92) (hb : StringBody b) :
    StringBody (a ++ b) := by
  induction a with
  | nil => exact hb
  | cons c a ih =>
    exact .plain (h c (List.mem_cons_self ..)) (ih fun x hx => h x (List.mem_cons_of_mem _ hx))

theorem Hex4.plain {b : Bytes} {n : ℕ} (h : Hex4 b n) : ∀ c ∈ b, c ≠ 34 ∧ c ≠ 92 := by
  obtain ⟨x, y, z, w, x', y', z', w', rfl, hx, hy, hz, hw, -⟩ := h
  have hval : ∀ {c : UInt8} {k : ℕ}, hexValue c = some k → c ≠ 34 ∧ c ≠ 92 := by
    intro c k hc
    constructor <;>
    · rintro rfl
      cases hc
  intro c hc
  simp only [List.mem_cons, List.not_mem_nil, or_false] at hc
  rcases hc with rfl | rfl | rfl | rfl
  · exact hval hx
  · exact hval hy
  · exact hval hz
  · exact hval hw

theorem Escape16.stringBody {ch : Char} {e b : Bytes} (h : Escape16 ch e) (hb : StringBody b) :
    StringBody (e ++ b) := by
  cases h with
  | one hh hn => exact .escape _ (stringBody_plain hh.plain hb)
  | two hh hl hhigh hlow =>
    show StringBody (92 :: 117 :: (_ ++ 92 :: 117 :: _ ++ b))
    rw [List.append_assoc]
    exact .escape _ (stringBody_plain hh.plain (.escape _ (stringBody_plain hl.plain hb)))

theorem Literal.stringBody {cs : List Char} {b : Bytes} (h : Literal cs b) : StringBody b := by
  induction h with
  | nil => exact .nil
  | plain h hb ih => exact stringBody_plain (encode_plain h) ih
  | short h hb ih => exact .escape _ ih
  | escape16 h hb ih => exact h.stringBody ih

theorem unescapeFrom_append {a : Bytes} (h : ∀ c ∈ a, c ≠ 92) (r : Bytes) :
    unescapeFrom 0 (a ++ r) = (unescapeFrom 0 r).map fun out => a ++ out := by
  induction a with
  | nil =>
    show unescapeFrom 0 r = (unescapeFrom 0 r).map id
    rw [Option.map_id]
    rfl
  | cons c a ih =>
    rw [List.cons_append, unescapeFrom_plain (h c (List.mem_cons_self ..)),
      ih fun x hx => h x (List.mem_cons_of_mem _ hx), Option.map_map]
    rfl

theorem unescapeFrom_drop (k : ℕ) (s : Bytes) : unescapeFrom k s = unescapeFrom 0 (s.drop k) := by
  induction k generalizing s with
  | zero => rfl
  | succ k ih =>
    cases s with
    | nil => rfl
    | cons c s => exact ih s

/-- an escape of a letter, or of a character -/
theorem unescapeFrom_short {d c : UInt8} (h : (d, c) ∈ shortEscapes) (r : Bytes) :
    unescapeFrom 0 (92 :: d :: r) = (unescapeFrom 0 r).map fun out => c :: out := by
  simp only [shortEscapes, List.mem_cons, Prod.mk.injEq, List.not_mem_nil, or_false] at h
  rcases h with ⟨rfl, rfl⟩ | ⟨rfl, rfl⟩ | ⟨rfl, rfl⟩ | ⟨rfl, rfl⟩ | ⟨rfl, rfl⟩ | ⟨rfl, rfl⟩ |
    ⟨rfl, rfl⟩ | ⟨rfl, rfl⟩ <;> rfl

theorem unescapeFrom_u {s b : Bytes} {k : ℕ}
    (h : utf16LiteralToUtf8 (92 :: 117 :: s) = some (b, k)) :
    unescapeFrom 0 (92 :: 117 :: s) =
      (unescapeFrom (k - 1) (117 :: s)).map fun out => b ++ out := by
  simp only [unescapeFrom, h]
  rfl

theorem unescapeFrom_escape16 {ch : Char} {e : Bytes} (h : Escape16 ch e) (r : Bytes) :
    unescapeFrom 0 (e ++ r) =
      (unescapeFrom 0 r).map fun out => String.utf8EncodeChar ch ++ out := by
  have hread := h.read r
  obtain ⟨e', rfl⟩ : ∃ e', e = 92 :: 117 :: e' := by cases h <;> exact ⟨_, rfl⟩
  have hu : unescapeFrom 0 (92 :: 117 :: (e' ++ r)) =
      (unescapeFrom (117 :: e').length (117 :: (e' ++ r))).map
        fun out => String.utf8EncodeChar ch ++ out := unescapeFrom_u hread
  have hdrop : (117 :: e' ++ r).drop (117 :: e').length = r := List.drop_left
  rw [unescapeFrom_drop (117 :: e').length, ← List.cons_append, hdrop] at hu
  exact hu

theorem unescapeFrom_noHex4 {t : Bytes} (h : NoHex4 t) (hlen : 4 ≤ t.length) :
    unescapeFrom 0 (92 :: 117 :: t) = (unescapeFrom 0 (t.drop 4)).map fun out => 0 :: out := by
  rw [unescapeFrom_u (utf16LiteralToUtf8_noHex4 h hlen), unescapeFrom_drop]
  rfl

/-- no other letter may follow a backslash -/
theorem unescapeFrom_other {d : UInt8} (hs : ∀ c, (d, c) ∉ shortEscapes) (hd : d ≠ 117)
    (r : Bytes) : unescapeFrom 0 (92 :: d :: r) = none := by
  have hne : ∀ {x c : UInt8}, (x, c) ∈ shortEscapes → d ≠ x := fun {x c} hx h => hs c (h ▸ hx)
  have h98 : d ≠ 98 := hne (c := 8) (by decide)
  have h102 : d ≠ 102 := hne (c := 12) (by decide)
  have h110 : d ≠ 110 := hne (c := 10) (by decide)
  have h114 : d ≠ 114 := hne (c := 13) (by decide)
  have h116 : d ≠ 116 := hne (c := 9) (by decide)
  have hself : ¬ (d = 34 ∨ d = 92 ∨ d = 47) := by
    rintro (h | h | h)
    · exact hne (c := 34) (by decide) h
    · exact hne (c := 92) (by decide) h
    · exact hne (c := 47) (by decide) h
  rw [unescapeFrom.eq_def]
  simp only [ne_eq, not_true_eq_false, if_false]
  rw [if_neg h98, if_neg h102, if_neg h110, if_neg h114, if_neg h116, if_neg hself, if_neg hd]

theorem ascii_of_shortEscapes {d c : UInt8} (h : (d, c) ∈ shortEscapes) : d < 128 ∧ c < 128 := by
  simp only [shortEscapes, List.mem_cons, Prod.mk.injEq, List.not_mem_nil, or_false] at h
  rcases h with ⟨rfl, rfl⟩ | ⟨rfl, rfl⟩ | ⟨rfl, rfl⟩ | ⟨rfl, rfl⟩ | ⟨rfl, rfl⟩ | ⟨rfl, rfl⟩ |
    ⟨rfl, rfl⟩ | ⟨rfl, rfl⟩ <;> decide

theorem Literal.unescapeFrom {cs : List Char} {b : Bytes} (h : Literal cs b) (r : Bytes) :
    CJSON.unescapeFrom 0 (b ++ r) =
      (CJSON.unescapeFrom 0 r).map fun out => cs.flatMap String.utf8EncodeChar ++ out := by
  have hmore : ∀ {x : Option Bytes} {p q : Bytes},
      (x.map fun out => q ++ out).map (fun out => p ++ out) = x.map fun out => p ++ q ++ out := by
    intro x p q
    rw [Option.map_map]
    refine congrArg (fun f => x.map f) (funext fun out => ?_)
    exact (List.append_assoc p q out).symm
  induction h with
  | nil =>
    show CJSON.unescapeFrom 0 r = (CJSON.unescapeFrom 0 r).map id
    rw [Option.map_id]
    rfl
  | plain h hb ih =>
    rw [List.append_assoc, unescapeFrom_append fun c hc => (encode_plain h c hc).2, ih, hmore]
    rfl
  | short h hb ih =>
    rw [List.cons_append, List.cons_append, unescapeFrom_short h, ih, List.flatMap_cons,
      encode_ascii (ascii_of_shortEscapes h).2]
    exact hmore (p := [_])
  | escape16 h hb ih =>
    rw [List.append_assoc, unescapeFrom_escape16 h, ih, hmore]
    rfl

/-! ## what is read -/

theorem Escape16.ascii {ch : Char} {e : Bytes} (h : Escape16 ch e) : ∀ c ∈ e, c < 128 := by
  have hu : ∀ {b : Bytes}, (∀ c ∈ b, c < 128) → ∀ c ∈ 92 :: 117 :: b, c < 128 := by
    intro b hb c hc
    rcases List.mem_cons.mp hc with rfl | hc
    · decide
    rcases List.mem_cons.mp hc with rfl | hc
    · decide
    · exact hb c hc
  cases h with
  | one hh hn => exact hu hh.ascii
  | two hh hl hhigh hlow =>
    refine hu fun c hc => ?_
    rcases List.mem_append.mp hc with hc | hc
    · exact hh.ascii c hc
    · exact hu hl.ascii c hc

/-- an escape without digits stands behind a literal; the reader takes the four bytes there for a
NUL, which ends the string, and goes on -/
def BrokenLiteral (cs : List Char) (b : Bytes) : Prop :=
  ∃ l t out, b = l ++ 92 :: 117 :: t ∧ Literal cs l ∧ NoHex4 t ∧ 4 ≤ t.length ∧ StringBody t ∧
    unescape (t.drop 4) = some out

/-- the characters in front of the first NUL or broken escape -/
def Reads (cs : List Char) (b out : Bytes) : Prop :=
  (Literal cs b ∧ out = cs.flatMap String.utf8EncodeChar) ∨
    (BrokenLiteral cs b ∧ ∃ more, out = cs.flatMap String.utf8EncodeChar ++ 0 :: more)

theorem Reads.cons {ch : Char} {a : Bytes}
    (ha : ∀ {cs : List Char} {b : Bytes}, Literal cs b → Literal (ch :: cs) (a ++ b))
    {cs : List Char} {b out : Bytes} (h : Reads cs b out) :
    Reads (ch :: cs) (a ++ b) (String.utf8EncodeChar ch ++ out) := by
  rcases h with ⟨hl, rfl⟩ | ⟨⟨l, t, out', rfl, hl, ht⟩, more, rfl⟩
  · exact Or.inl ⟨ha hl, rfl⟩
  · refine Or.inr ⟨⟨a ++ l, t, out', ?_, ha hl, ht⟩, more, ?_⟩
    · rw [List.append_assoc]
    · rw [List.flatMap_cons, List.append_assoc]

/-- a part without a backslash -/
theorem stringBody_drop {a b : Bytes} (ha : ∀ c ∈ a, c ≠ 92) (h : StringBody (a ++ b)) :
    (∀ c ∈ a, c ≠ 34) ∧ StringBody b := by
  induction a with
  | nil => exact ⟨List.forall_mem_nil _, h⟩
  | cons c a ih =>
    rw [List.cons_append] at h
    generalize hab : a ++ b = ab at h
    cases h with
    | plain hc hb =>
      obtain ⟨hquote, hb⟩ := ih (fun x hx => ha x (List.mem_cons_of_mem _ hx)) (hab ▸ hb)
      exact ⟨fun x hx => (List.mem_cons.mp hx).elim (fun e => e ▸ hc.1) (hquote x), hb⟩
    | escape d hb => exact absurd rfl (ha 92 (List.mem_cons_self ..))

theorem stringBody_escape_drop {d : UInt8} {b : Bytes} (h : StringBody (92 :: d :: b)) :
    StringBody b := by
  cases h with
  | plain hc hb => exact absurd rfl hc.2
  | escape c hb => exact hb

theorem Escape16.stringBody_drop {ch : Char} {e b : Bytes} (h : Escape16 ch e)
    (hb : StringBody (e ++ b)) : StringBody b := by
  cases h with
  | one hh hn =>
    exact (CJSON.stringBody_drop (fun c hc => (hh.plain c hc).2) (stringBody_escape_drop hb)).2
  | two hh hl hhigh hlow =>
    replace hb : StringBody (92 :: 117 :: (_ ++ 92 :: 117 :: _ ++ b)) := hb
    rw [List.append_assoc] at hb
    have hb := (CJSON.stringBody_drop (fun c hc => (hh.plain c hc).2) (stringBody_escape_drop hb)).2
    exact (CJSON.stringBody_drop (fun c hc => (hl.plain c hc).2) (stringBody_escape_drop hb)).2

/-- whatever is made of the text, it reads so -/
def Readable (b : Bytes) : Prop := ∀ out, unescapeFrom 0 b = some out → ∃ cs, Reads cs b out

theorem readable_nil : Readable [] := by
  intro out h
  cases h
  exact ⟨[], Or.inl ⟨.nil, rfl⟩⟩

/-- a part in front that is read as a character -/
theorem Readable.append {ch : Char} {a r : Bytes} (hr : Readable r)
    (ha : ∀ {cs : List Char} {b : Bytes}, Literal cs b → Literal (ch :: cs) (a ++ b))
    (hread : unescapeFrom 0 (a ++ r) =
      (unescapeFrom 0 r).map fun out => String.utf8EncodeChar ch ++ out) : Readable (a ++ r) := by
  intro out h
  rw [hread] at h
  obtain ⟨out', hout, rfl⟩ := Option.map_eq_some_iff.mp h
  obtain ⟨cs, hcs⟩ := hr out' hout
  exact ⟨ch :: cs, hcs.cons ha⟩

theorem readable_escape {d : UInt8} {r : Bytes} (h : Utf8 (d :: r)) (hs : StringBody r)
    (ih : ∀ {r' : Bytes}, r'.length < (92 :: d :: r).length → Utf8 r' → StringBody r' →
      Readable r') : Readable (92 :: d :: r) := by
  have hr : d < 128 → Utf8 r := fun hd => (Utf8.cut (a := []) h hd).2
  by_cases hshort : ∃ c, (d, c) ∈ shortEscapes
  · obtain ⟨c, hc⟩ := hshort
    obtain ⟨hd128, hc128⟩ := ascii_of_shortEscapes hc
    have hread : Readable r := ih (by simp) (hr hd128) hs
    have hchar := encode_ascii hc128
    refine @Readable.append _ [92, d] r hread (.short hc) ?_
    rw [hchar]
    exact unescapeFrom_short hc r
  rw [not_exists] at hshort
  by_cases hd : d = 117
  · subst hd
    intro out hu
    cases hl : utf16LiteralToUtf8 (92 :: 117 :: r) with
    | none =>
      simp only [unescapeFrom, hl] at hu
      cases hu
    | some bk =>
      rcases utf16LiteralToUtf8_cases hl with ⟨hno, hlen⟩ | ⟨ch, e, r', he, hbody⟩
      · rw [unescapeFrom_noHex4 hno hlen] at hu
        obtain ⟨more, hmore, rfl⟩ := Option.map_eq_some_iff.mp hu
        exact ⟨[], Or.inr ⟨⟨[], r, more, rfl, .nil, hno, hlen, hs, hmore⟩, more, rfl⟩⟩
      · have hrest : Utf8 r' := by
          refine Utf8.drop_ascii (w := e) ?_ he.ascii
          rw [← hbody]
          exact (utf8_singleton (by decide)).append h
        have hs' : StringBody r' := he.stringBody_drop (hbody ▸ .escape 117 hs)
        have hlen : r'.length < (92 :: 117 :: r).length := by
          rw [hbody, List.length_append]
          have := List.length_pos_iff.mpr he.ne_nil
          omega
        rw [hbody] at hu ⊢
        exact (ih hlen hrest hs').append (.escape16 he) (unescapeFrom_escape16 he r') out hu
  · intro out hu
    rw [unescapeFrom_other hshort hd] at hu
    cases hu

/-- the loop over a text in UTF-8, character by character -/
theorem readable (n : ℕ) : ∀ {body : Bytes}, body.length ≤ n → Utf8 body → StringBody body →
    Readable body := by
  induction n using Nat.strong_induction_on with
  | _ n ih =>
    intro body hn h hs
    replace ih : ∀ {r : Bytes}, r.length < body.length → Utf8 r → StringBody r → Readable r :=
      fun {r} hr => ih r.length (by omega) le_rfl
    obtain ⟨cs, rfl⟩ := h
    cases cs with
    | nil => exact readable_nil
    | cons ch cs =>
      have hr := utf8_encode cs
      rw [List.flatMap_cons] at hs ih ⊢
      generalize cs.flatMap String.utf8EncodeChar = r at hs ih hr ⊢
      by_cases h92 : ∀ c ∈ String.utf8EncodeChar ch, c ≠ 92
      · obtain ⟨h34, hsr⟩ := stringBody_drop h92 hs
        have hlen : r.length < (String.utf8EncodeChar ch ++ r).length := by
          rw [List.length_append]
          have := List.length_pos_iff.mpr (String.utf8EncodeChar_ne_nil (c := ch))
          omega
        exact (ih hlen hr hsr).append (.plain (plain_of_bytes h34 h92)) (unescapeFrom_append h92 r)
      · rw [encode_backslash h92, List.singleton_append] at hs ih ⊢
        cases hs with
        | plain hc hb => exact absurd rfl hc.2
        | escape d hsr => exact readable_escape hr hsr ih

theorem ofBuffer_append_zero (a b : Bytes) :
    CString.ofBuffer (a ++ 0 :: b) = CString.ofBuffer a := by
  have hbytes : (a ++ 0 :: b).takeWhile (fun c => c != 0) = a.takeWhile fun c => c != 0 := by
    rw [List.takeWhile_append]
    split_ifs with hall
    · rw [List.takeWhile_cons_of_neg (by decide), List.append_nil]
      exact (List.takeWhile_prefix _).eq_of_length hall |>.symm
    · rfl
  unfold CString.ofBuffer
  rw [CString.mk.injEq]
  exact hbytes

theorem Literal.stringToken {cs : List Char} {b : Bytes} (h : Literal cs b) :
    StringToken (CString.ofBuffer (cs.flatMap String.utf8EncodeChar)) (34 :: (b ++ [34])) := by
  refine ⟨b, _, rfl, h.stringBody, ?_, rfl⟩
  have hu := h.unescapeFrom []
  rw [List.append_nil] at hu
  exact hu.trans (congrArg some (List.append_nil _))

theorem BrokenLiteral.stringToken {cs : List Char} {b : Bytes} (h : BrokenLiteral cs b) :
    StringToken (CString.ofBuffer (cs.flatMap String.utf8EncodeChar)) (34 :: (b ++ [34])) := by
  obtain ⟨l, t, out, rfl, hl, hno, hlen, hs, hu⟩ := h
  refine ⟨_, _, rfl, hl.stringBody.append (.escape 117 hs), ?_, (ofBuffer_append_zero _ out).symm⟩
  have hrest : unescapeFrom 0 (t.drop 4) = some out := hu
  unfold unescape
  rw [hl.unescapeFrom, unescapeFrom_noHex4 hno hlen, hrest]
  rfl

theorem quoted_append (body r : Bytes) : 34 :: (body ++ [34]) ++ r = 34 :: body ++ 34 :: r := by
  rw [List.cons_append, List.append_assoc]
  rfl

/-- the tokens in a text in UTF-8 -/
theorem StringToken.reads {v : CString} {b r : Bytes} (h : StringToken v b) (hb : Utf8 (b ++ r)) :
    ∃ body cs, b = 34 :: (body ++ [34]) ∧
      v = CString.ofBuffer (cs.flatMap String.utf8EncodeChar) ∧
      (Literal cs body ∨ BrokenLiteral cs body) := by
  obtain ⟨body, out, rfl, hs, hu, rfl⟩ := h
  rw [quoted_append] at hb
  have hbody := (hb.cut (by decide)).1
  have hutf := (Utf8.cut (a := []) hbody (by decide)).2
  obtain ⟨cs, hcs⟩ := readable body.length le_rfl hutf hs out hu
  rcases hcs with ⟨hl, rfl⟩ | ⟨hl, more, rfl⟩
  · exact ⟨body, cs, rfl, rfl, Or.inl hl⟩
  · exact ⟨body, cs, rfl, ofBuffer_append_zero _ more, Or.inr hl⟩

/-- **String literals.**  Of a text in UTF-8 the reader takes the literals for strings of
characters, each for its characters up to the first NUL, and the broken ones. -/
theorem parseString_utf8_iff {s r : Bytes} {v : CString} (hs : Utf8 s) :
    parseString s = some (v, r) ↔ ∃ body cs, s = 34 :: (body ++ 34 :: r) ∧
      v = CString.ofBuffer (cs.flatMap String.utf8EncodeChar) ∧
      (Literal cs body ∨ BrokenLiteral cs body) := by
  constructor
  · intro h
    obtain ⟨b, rfl, ht⟩ := parseString_sound h
    obtain ⟨body, cs, rfl, hv, hl⟩ := ht.reads hs
    exact ⟨body, cs, quoted_append body r, hv, hl⟩
  · rintro ⟨body, cs, rfl, rfl, hl⟩
    rw [← List.cons_append, ← quoted_append]
    rcases hl with hl | hl
    · exact hl.stringToken.parseString r
    · exact hl.stringToken.parseString r

/-- U+1F600 as two escapes -/
theorem parseString_utf8_iff_pair :
    parseString (ascii ("\"\\ud83d\\uDE00\"".toList)) =
      some (CString.ofBuffer [0xF0, 0x9F, 0x98, 0x80], []) := by
  have hhigh : Hex4 (ascii ['d', '8', '3', 'd']) 0xD83D :=
    ⟨_, _, _, _, 13, 8, 3, 13, rfl, by decide, by decide, by decide, by decide, by decide⟩
  have hlow : Hex4 (ascii ['D', 'E', '0', '0']) 0xDE00 :=
    ⟨_, _, _, _, 13, 14, 0, 0, rfl, by decide, by decide, by decide, by decide, by decide⟩
  refine (parseString_utf8_iff (utf8_of_ascii (ascii_of_all (by decide)))).mpr ?_
  refine ⟨_, _, ?_, ?_, Or.inl (.escape16 (.two hhigh hlow (by decide) (by decide)) .nil)⟩
  · rfl
  · rfl

/-- what follows an escape without digits is not seen -/
example : parseString (ascii ("\"a\\uzzzzb\"".toList)) = some (.lit ['a'], []) := by decide

end CJSON
