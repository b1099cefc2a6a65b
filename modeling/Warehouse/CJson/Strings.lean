import Warehouse.CJson.Node

/-!
# Strings in JSON texts

* `stringText`      what `print_string_ptr` writes;
* `parseString`     `parse_string`: find the closing quote, then resolve the escapes;
* `StringToken`     the texts `parse_string` reads, with the C string each one denotes;
* `parseString_sound`, `StringToken.parseString`   the reader takes exactly the tokens;
* `stringToken_stringText`   the text of a C string is a token of it;
* `StringToken.length_stringText_le`   what was read is not printed much longer.
-/

namespace CJSON
open Text

/-! ## printing -/

/-- a lower case hexadecimal digit -/
def hexDigit (n : ℕ) : UInt8 := UInt8.ofNat (if n < 10 then 48 + n else 87 + n)

/-- `%04x` -/
def hex4 (n : ℕ) : Bytes :=
  [hexDigit (n / 4096 % 16), hexDigit (n / 256 % 16), hexDigit (n / 16 % 16), hexDigit (n % 16)]

/-- what is written for one byte -/
def escape (c : UInt8) : Bytes :=
  if 31 < c ∧ c ≠ 34 ∧ c ≠ 92 then [c]
  else 92 ::
    if c = 92 then [92]
    else if c = 34 then [34]
    else if c = 8 then [98]
    else if c = 12 then [102]
    else if c = 10 then [110]
    else if c = 13 then [114]
    else if c = 9 then [116]
    else 117 :: hex4 c.toNat

/-- the additional characters a byte needs -/
def escapeCharacters (c : UInt8) : ℕ :=
  if c = 34 ∨ c = 92 ∨ c = 8 ∨ c = 12 ∨ c = 10 ∨ c = 13 ∨ c = 9 then 1
  else if c < 32 then 5
  else 0

def escaped (s : Bytes) : Bytes := s.flatMap escape

/-- the length that is reserved, without the quotes -/
def outputLength (s : Bytes) : ℕ := s.length + (s.map escapeCharacters).sum

def stringText (s : CString) : Bytes := 34 :: (escaped s.bytes ++ [34])

/-- the bytes with a one character escape sequence -/
def ShortEscape (c : UInt8) : Prop :=
  c = 34 ∨ c = 92 ∨ c = 8 ∨ c = 12 ∨ c = 10 ∨ c = 13 ∨ c = 9

/-- a byte is copied, has a short escape, or is written as a code point -/
theorem escape_cases (c : UInt8) :
    (31 < c ∧ c ≠ 34 ∧ c ≠ 92 ∧ escape c = [c] ∧ escapeCharacters c = 0) ∨ ShortEscape c ∨
    (c < 32 ∧ escape c = 92 :: 117 :: hex4 c.toNat ∧ escapeCharacters c = 5) := by
  by_cases hs : ShortEscape c
  · exact Or.inr (Or.inl hs)
  have hs' := hs
  simp only [ShortEscape, not_or] at hs'
  obtain ⟨h34, h92, h8, h12, h10, h13, h9⟩ := hs'
  by_cases hc : c < 32
  · have hle : ¬(31 < c) := by
      rw [UInt8.lt_iff_toNat_lt] at hc ⊢
      exact not_lt.mpr (Nat.le_of_lt_succ hc)
    refine Or.inr (Or.inr ⟨hc, ?_, ?_⟩)
    · rw [escape, if_neg fun e => hle e.1, if_neg h92, if_neg h34, if_neg h8, if_neg h12,
        if_neg h10, if_neg h13, if_neg h9]
    · unfold escapeCharacters
      exact (if_neg hs).trans (if_pos hc)
  · have hgt : 31 < c := by
      rw [UInt8.lt_iff_toNat_lt] at hc ⊢
      exact not_lt.mp hc
    refine Or.inl ⟨hgt, h34, h92, ?_, ?_⟩
    · rw [escape, if_pos ⟨hgt, h34, h92⟩]
    · unfold escapeCharacters
      exact (if_neg hs).trans (if_neg hc)

theorem length_escape (c : UInt8) : (escape c).length = 1 + escapeCharacters c := by
  rcases escape_cases c with ⟨-, -, -, h, h'⟩ | h | ⟨-, h, h'⟩
  · rw [h, h']
    rfl
  · rcases h with rfl | rfl | rfl | rfl | rfl | rfl | rfl <;> rfl
  · rw [h, h']
    rfl

theorem length_escaped (s : Bytes) : (escaped s).length = outputLength s := by
  induction s with
  | nil => rfl
  | cons c s ih =>
    unfold escaped outputLength at ih ⊢
    rw [List.flatMap_cons, List.length_append, ih, length_escape, List.length_cons, List.map_cons,
      List.sum_cons]
    omega

/-- the reserved length is the length that is written -/
theorem length_stringText (s : CString) : (stringText s).length = outputLength s.bytes + 2 := by
  rw [stringText, List.length_cons, List.length_append, length_escaped, List.length_singleton]

/-! ## parsing -/

def hexValue (c : UInt8) : Option ℕ :=
  if 48 ≤ c ∧ c ≤ 57 then some (c.toNat - 48)
  else if 65 ≤ c ∧ c ≤ 70 then some (10 + c.toNat - 65)
  else if 97 ≤ c ∧ c ≤ 102 then some (10 + c.toNat - 97)
  else none

/-- `parse_hex4`: zero when one of the four bytes is not a hexadecimal digit -/
def parseHex4 : Bytes → ℕ
  | a :: b :: c :: d :: _ =>
    match hexValue a, hexValue b, hexValue c, hexValue d with
    | some a, some b, some c, some d => ((a * 16 + b) * 16 + c) * 16 + d
    | _, _, _, _ => 0
  | _ => 0

def continuationByte (codepoint : ℕ) : UInt8 := UInt8.ofNat ((codepoint ||| 0x80) &&& 0xBF)

def firstByte (codepoint mark : ℕ) : UInt8 := UInt8.ofNat ((codepoint ||| mark) &&& 0xFF)

def encodeUtf8 (codepoint : ℕ) : Option Bytes :=
  if codepoint < 0x80 then some [UInt8.ofNat (codepoint &&& 0x7F)]
  else if codepoint < 0x800 then
    some [firstByte (codepoint >>> 6) 0xC0, continuationByte codepoint]
  else if codepoint < 0x10000 then
    some [firstByte (codepoint >>> 12) 0xE0, continuationByte (codepoint >>> 6),
      continuationByte codepoint]
  else if codepoint ≤ 0x10FFFF then
    some [firstByte (codepoint >>> 18) 0xF0, continuationByte (codepoint >>> 12),
      continuationByte (codepoint >>> 6), continuationByte codepoint]
  else none

/-- `utf16_literal_to_utf8`: the bytes of a literal that starts the input, and its length -/
def utf16LiteralToUtf8 (input : Bytes) : Option (Bytes × ℕ) :=
  if input.length < 6 then none
  else
    let first := parseHex4 (input.drop 2)
    if 0xDC00 ≤ first ∧ first ≤ 0xDFFF then none
    else if 0xD800 ≤ first ∧ first ≤ 0xDBFF then
      let secondSequence := input.drop 6
      let second := parseHex4 (secondSequence.drop 2)
      if secondSequence.length < 6 then none
      else if secondSequence.take 2 ≠ [92, 117] then none
      else if second < 0xDC00 ∨ second > 0xDFFF then none
      else (encodeUtf8 (0x10000 + (((first &&& 0x3FF) <<< 10) ||| (second &&& 0x3FF)))).map
        fun b => (b, 12)
    else (encodeUtf8 first).map fun b => (b, 6)

/-- the first loop of `parse_string`: the text up to the closing quote, escapes skipped in pairs,
and what follows the quote -/
def closingQuote : Bytes → Option (Bytes × Bytes)
  | [] => none
  | [c] => if c = 34 then some ([], []) else none
  | c :: d :: rest =>
    if c = 34 then some ([], d :: rest)
    else if c = 92 then (closingQuote rest).map fun (body, r) => (c :: d :: body, r)
    else (closingQuote (d :: rest)).map fun (body, r) => (c :: body, r)

/-- the second loop of `parse_string`; the first argument counts the bytes of a sequence that are
still to be passed over -/
def unescapeFrom : ℕ → Bytes → Option Bytes
  | _, [] => some []
  | k + 1, _ :: rest => unescapeFrom k rest
  | 0, c :: rest =>
    if c ≠ 92 then (unescapeFrom 0 rest).map fun out => c :: out
    else match rest with
      -- the byte after the text is the closing quote
      | [] => some [34]
      | d :: _ =>
        if d = 98 then (unescapeFrom 1 rest).map fun out => 8 :: out
        else if d = 102 then (unescapeFrom 1 rest).map fun out => 12 :: out
        else if d = 110 then (unescapeFrom 1 rest).map fun out => 10 :: out
        else if d = 114 then (unescapeFrom 1 rest).map fun out => 13 :: out
        else if d = 116 then (unescapeFrom 1 rest).map fun out => 9 :: out
        else if d = 34 ∨ d = 92 ∨ d = 47 then (unescapeFrom 1 rest).map fun out => d :: out
        else if d = 117 then
          match utf16LiteralToUtf8 (c :: rest) with
          | some (b, sequenceLength) =>
            (unescapeFrom (sequenceLength - 1) rest).map fun out => b ++ out
          | none => none
        else none

def unescape (body : Bytes) : Option Bytes := unescapeFrom 0 body

def parseString (rest : Bytes) : Option (CString × Bytes) :=
  match rest with
  | [] => none
  | c :: rest =>
    if c = 34 then
      (closingQuote rest).bind fun (body, r) =>
        (unescape body).map fun out => (CString.ofBuffer out, r)
    else none

/-! ## string tokens -/

/-- a text without an unescaped quote, in which no escape is cut short -/
inductive StringBody : Bytes → Prop
  | nil : StringBody []
  | plain {c : UInt8} {b : Bytes} (h : c ≠ 34 ∧ c ≠ 92) (hb : StringBody b) : StringBody (c :: b)
  | escape (c : UInt8) {b : Bytes} (hb : StringBody b) : StringBody (92 :: c :: b)

/-- the texts `parse_string` reads, with their values -/
def StringToken (v : CString) (b : Bytes) : Prop :=
  ∃ body out, b = 34 :: (body ++ [34]) ∧ StringBody body ∧ unescape body = some out ∧
    v = CString.ofBuffer out

theorem closingQuote_sound {s body r : Bytes} (h : closingQuote s = some (body, r)) :
    s = body ++ 34 :: r ∧ StringBody body := by
  induction s using closingQuote.induct generalizing body with
  | case1 => cases h
  | case2 =>
    obtain ⟨rfl, rfl⟩ := Prod.mk.injEq .. ▸ Option.some.inj h
    exact ⟨rfl, .nil⟩
  | case3 c hc =>
    rw [CJSON.closingQuote, if_neg hc] at h
    cases h
  | case4 d rest =>
    obtain ⟨rfl, rfl⟩ := Prod.mk.injEq .. ▸ Option.some.inj h
    exact ⟨rfl, .nil⟩
  | case5 d rest hc ih =>
    rw [CJSON.closingQuote, if_neg hc, if_pos rfl] at h
    obtain ⟨⟨body', r'⟩, hrest, heq⟩ := Option.map_eq_some_iff.mp h
    obtain ⟨rfl, rfl⟩ := Prod.mk.injEq .. ▸ heq
    obtain ⟨e, hb⟩ := ih hrest
    exact ⟨by rw [e]; rfl, .escape d hb⟩
  | case6 c d rest h34 h92 ih =>
    rw [CJSON.closingQuote, if_neg h34, if_neg h92] at h
    obtain ⟨⟨body', r'⟩, hrest, heq⟩ := Option.map_eq_some_iff.mp h
    obtain ⟨rfl, rfl⟩ := Prod.mk.injEq .. ▸ heq
    obtain ⟨e, hb⟩ := ih hrest
    exact ⟨by rw [e]; rfl, .plain ⟨h34, h92⟩ hb⟩

theorem StringBody.closingQuote {body : Bytes} (h : StringBody body) (r : Bytes) :
    closingQuote (body ++ 34 :: r) = some (body, r) := by
  induction h with
  | nil =>
    cases r with
    | nil => rfl
    | cons d r => rfl
  | @plain c b hc hb ih =>
    have hcons : ∃ d t, b ++ 34 :: r = d :: t :=
      List.exists_cons_of_ne_nil (List.append_ne_nil_of_right_ne_nil _ (List.cons_ne_nil _ _))
    obtain ⟨d, t, ht⟩ := hcons
    rw [List.cons_append, ht, CJSON.closingQuote, if_neg hc.1, if_neg hc.2, ← ht, ih,
      Option.map_some]
  | @escape c b hb ih =>
    rw [List.cons_append, List.cons_append, CJSON.closingQuote, if_neg (by decide), if_pos rfl, ih,
      Option.map_some]

theorem parseString_sound {rest r : Bytes} {v : CString} (h : parseString rest = some (v, r)) :
    ∃ b, rest = b ++ r ∧ StringToken v b := by
  cases rest with
  | nil => cases h
  | cons c rest =>
    rw [parseString] at h
    split_ifs at h with hc
    obtain ⟨⟨body, r'⟩, hq, hbody⟩ := Option.bind_eq_some_iff.mp h
    obtain ⟨out, hout, heq⟩ := Option.map_eq_some_iff.mp hbody
    obtain ⟨rfl, rfl⟩ := Prod.mk.injEq .. ▸ heq
    obtain ⟨rfl, hb⟩ := closingQuote_sound hq
    refine ⟨34 :: (body ++ [34]), ?_, body, out, rfl, hb, hout, rfl⟩
    rw [hc, List.cons_append, List.append_assoc]
    rfl

theorem StringToken.parseString {v : CString} {b : Bytes} (h : StringToken v b) (r : Bytes) :
    parseString (b ++ r) = some (v, r) := by
  obtain ⟨body, out, rfl, hbody, hout, rfl⟩ := h
  rw [List.cons_append, List.append_assoc, CJSON.parseString, if_pos rfl]
  show ((closingQuote (body ++ 34 :: r)).bind _) = _
  rw [hbody.closingQuote, Option.bind_some]
  show (unescape body).map _ = _
  rw [hout, Option.map_some]

/-! ## the text of a C string is a token -/

theorem StringBody.append {a b : Bytes} (ha : StringBody a) (hb : StringBody b) :
    StringBody (a ++ b) := by
  induction ha with
  | nil => exact hb
  | plain h _ ih => exact .plain h ih
  | escape c _ ih => exact .escape c ih

theorem hexDigit_toNat {n : ℕ} (h : n < 16) :
    (hexDigit n).toNat = if n < 10 then 48 + n else 87 + n := by
  unfold hexDigit
  rw [UInt8.toNat_ofNat']
  split_ifs <;> omega

theorem hexValue_hexDigit {n : ℕ} (h : n < 16) : hexValue (hexDigit n) = some n := by
  have hn := hexDigit_toNat h
  interval_cases n <;> rfl

theorem hexDigit_plain {n : ℕ} (h : n < 16) : hexDigit n ≠ 34 ∧ hexDigit n ≠ 92 := by
  interval_cases n <;> decide

theorem stringBody_escape (c : UInt8) : StringBody (escape c) := by
  rcases escape_cases c with ⟨-, h34, h92, h, -⟩ | h | ⟨-, h, -⟩
  · rw [h]
    exact .plain ⟨h34, h92⟩ .nil
  · rcases h with rfl | rfl | rfl | rfl | rfl | rfl | rfl <;> exact .escape _ .nil
  · rw [h]
    exact .escape _ <| .plain (hexDigit_plain (Nat.mod_lt _ (by norm_num))) <|
      .plain (hexDigit_plain (Nat.mod_lt _ (by norm_num))) <|
      .plain (hexDigit_plain (Nat.mod_lt _ (by norm_num))) <|
      .plain (hexDigit_plain (Nat.mod_lt _ (by norm_num))) .nil

theorem stringBody_escaped (s : Bytes) : StringBody (escaped s) := by
  induction s with
  | nil => exact .nil
  | cons c s ih => exact (stringBody_escape c).append ih

theorem parseHex4_hex4 {n : ℕ} (h : n < 65536) (r : Bytes) : parseHex4 (hex4 n ++ r) = n := by
  have hd : ∀ k, hexValue (hexDigit (k % 16)) = some (k % 16) := fun k =>
    hexValue_hexDigit (Nat.mod_lt _ (by norm_num))
  simp only [hex4, List.cons_append, List.nil_append, parseHex4, hd]
  omega

/-- a control byte comes back from its code point -/
theorem utf16LiteralToUtf8_hex4 {c : UInt8} (h : c < 32) (r : Bytes) :
    utf16LiteralToUtf8 (92 :: 117 :: (hex4 c.toNat ++ r)) = some ([c], 6) := by
  have hc : c.toNat < 32 := UInt8.lt_iff_toNat_lt.mp h
  have hhex : parseHex4 ((92 :: 117 :: (hex4 c.toNat ++ r)).drop 2) = c.toNat :=
    parseHex4_hex4 (by omega) r
  have hlen : ¬(92 :: 117 :: (hex4 c.toNat ++ r)).length < 6 := by
    simp [hex4]
  have hutf : encodeUtf8 c.toNat = some [c] := by
    rw [encodeUtf8, if_pos (by omega), show (0x7F : ℕ) = 2 ^ 7 - 1 from rfl,
      Nat.and_two_pow_sub_one_eq_mod, Nat.mod_eq_of_lt (by omega), UInt8.ofNat_toNat]
  simp only [utf16LiteralToUtf8]
  rw [if_neg hlen, hhex, if_neg (by omega), if_neg (by omega), hutf, Option.map_some]

theorem unescapeFrom_plain {c : UInt8} (h : c ≠ 92) (r : Bytes) :
    unescapeFrom 0 (c :: r) = (unescapeFrom 0 r).map fun out => c :: out := by
  rw [unescapeFrom.eq_def]
  exact if_pos h

theorem unescapeFrom_escape (c : UInt8) (r : Bytes) :
    unescapeFrom 0 (escape c ++ r) = (unescapeFrom 0 r).map fun out => c :: out := by
  rcases escape_cases c with ⟨-, -, h92, h, -⟩ | h | ⟨hc, h, -⟩
  · rw [h, List.singleton_append, unescapeFrom_plain h92]
  · rcases h with rfl | rfl | rfl | rfl | rfl | rfl | rfl <;> rfl
  · have hutf := utf16LiteralToUtf8_hex4 hc r
    rw [h, List.cons_append, List.cons_append]
    simp only [unescapeFrom, hutf]
    rfl

theorem unescape_escaped (s : Bytes) : unescape (escaped s) = some s := by
  unfold unescape
  induction s with
  | nil => rfl
  | cons c s ih =>
    rw [escaped, List.flatMap_cons, unescapeFrom_escape, ← escaped, ih, Option.map_some]

theorem stringToken_stringText (s : CString) : StringToken s (stringText s) :=
  ⟨escaped s.bytes, s.bytes, rfl, stringBody_escaped s.bytes, unescape_escaped s.bytes,
    (CString.ofBuffer_bytes s).symm⟩

/-! ## lengths -/

theorem length_encodeUtf8_le {codepoint : ℕ} {b : Bytes} (h : encodeUtf8 codepoint = some b) :
    b.length ≤ 4 := by
  unfold encodeUtf8 at h
  split_ifs at h <;> cases h <;> exact by simp

theorem length_utf16LiteralToUtf8_le {input b : Bytes} {n : ℕ}
    (h : utf16LiteralToUtf8 input = some (b, n)) : b.length ≤ 4 := by
  unfold utf16LiteralToUtf8 at h
  dsimp only at h
  split_ifs at h
  · obtain ⟨b', hb, he⟩ := Option.map_eq_some_iff.mp h
    cases he
    exact length_encodeUtf8_le hb
  · obtain ⟨b', hb, he⟩ := Option.map_eq_some_iff.mp h
    cases he
    exact length_encodeUtf8_le hb

/-- what one byte of a literal adds -/
theorem length_map_le {r : Option Bytes} {f : Bytes → Bytes} {out rest : Bytes} (c : UInt8)
    (hf : ∀ x, (f x).length ≤ x.length + 4)
    (hr : ∀ {x : Bytes}, r = some x → x.length ≤ 4 * rest.length) (h : r.map f = some out) :
    out.length ≤ 4 * (c :: rest).length := by
  obtain ⟨x, hx, rfl⟩ := Option.map_eq_some_iff.mp h
  have h1 := hf x
  have h2 := hr hx
  rw [List.length_cons]
  omega

/-- every byte of a literal yields at most four -/
theorem length_unescapeFrom_le {k : ℕ} {s out : Bytes} (h : unescapeFrom k s = some out) :
    out.length ≤ 4 * s.length := by
  fun_induction unescapeFrom k s generalizing out with
  | case1 => cases h; exact Nat.zero_le _
  | case2 k c rest ih =>
    have := ih h
    rw [List.length_cons]
    omega
  | case4 c => cases h; exact by simp
  | case11 c hc rest b n _ _ _ _ _ _ hb ih =>
    rw [hb] at h
    have hlen := length_utf16LiteralToUtf8_le hb
    exact length_map_le c (fun x => by rw [List.length_append]; omega) ih h
  | case12 c hc rest _ _ _ _ _ _ hb => rw [hb] at h; cases h
  | case13 => cases h
  | _ =>
    rename_i ih
    exact length_map_le _ (fun x => by rw [List.length_cons]; omega) ih h

theorem outputLength_le (s : Bytes) : outputLength s ≤ 6 * s.length := by
  unfold outputLength
  have hsum : (s.map escapeCharacters).sum ≤ s.length * 5 := by
    have h5 : ∀ x ∈ s.map escapeCharacters, x ≤ 5 := by
      intro x hx
      obtain ⟨c, -, rfl⟩ := List.mem_map.mp hx
      unfold escapeCharacters
      split_ifs <;> omega
    simpa using List.sum_le_card_nsmul _ 5 h5
  omega

theorem StringToken.length_stringText_le {v : CString} {b : Bytes} (h : StringToken v b) :
    (stringText v).length ≤ 24 * b.length := by
  obtain ⟨body, out, rfl, -, hout, rfl⟩ := h
  have h1 : (CString.ofBuffer out).bytes.length ≤ out.length := (List.takeWhile_prefix _).length_le
  have h2 := outputLength_le (CString.ofBuffer out).bytes
  have h3 : out.length ≤ 4 * body.length := length_unescapeFrom_le hout
  rw [length_stringText, List.length_cons, List.length_append, List.length_singleton]
  omega

end CJSON
