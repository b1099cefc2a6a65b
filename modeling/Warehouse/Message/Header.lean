import Warehouse.CJson.Fields
import Warehouse.Message.Decoder

/-!
# The header of a decoded message

The three header fields pass through a double and the saturating narrowing to `int` on their way
from the text into the message.

* `narrowed`          what is left of a written number; `valueint_ofRat`, `narrowed_eq_iff`;
* `HeaderOf`          the header is what is left of the three written numbers;
* `FaithfulHeader`    the header is the three written numbers, and the type an enumerator;
* `header_decoded`    what is accepted, what becomes of it, and when nothing is lost.
-/

namespace Hub
open Text Numeric CJSON

/-- an enumerator of `MessageType` -/
def IsMessageType (type : ℤ) : Prop :=
  type = ALERT ∨ type = NOTIFICATION ∨ type = INVENTORY ∨ type = CREDENTIALS

theorem IsMessageType.range {type : ℤ} (h : IsMessageType type) :
    INT_MIN ≤ type ∧ type ≤ INT_MAX := by
  rcases h with rfl | rfl | rfl | rfl <;> decide

namespace Message

/-! ## narrowing -/

/-- a number after the nearest double, saturation to `int` and the loss of its fraction -/
def narrowed (q : ℚ) : ℤ :=
  if (INT_MAX : ℚ) ≤ nearest q then INT_MAX
  else if nearest q ≤ INT_MIN then INT_MIN
  else truncate (nearest q)

/-- an infinity stands for a number beyond every `int` -/
theorem narrowed_of_overflow {q : ℚ} (h : ¬|nearest q| < 2 ^ 1024) :
    narrowed q = if q < 0 then INT_MIN else INT_MAX := by
  have hbig : (2 : ℚ) ^ 31 ≤ |nearest q| :=
    (pow_le_pow_right₀ (by norm_num) (by norm_num)).trans (not_lt.mp h)
  have hmax : ((INT_MAX : ℤ) : ℚ) = 2 ^ 31 - 1 := by norm_num [INT_MAX]
  have hmin : ((INT_MIN : ℤ) : ℚ) = -2 ^ 31 := by norm_num [INT_MIN]
  unfold narrowed
  rw [hmax, hmin]
  by_cases hq : q < 0
  · rw [abs_of_nonpos (nearest_nonpos hq.le)] at hbig
    rw [if_pos hq, if_neg (by linarith), if_pos (by linarith)]
  · rw [abs_of_nonneg (nearest_nonneg (not_lt.mp hq))] at hbig
    rw [if_neg hq, if_pos (by linarith)]

/-- the double of a written number, narrowed -/
theorem valueint_ofRat (q : ℚ) : valueint (Binary64.ofRat q) = narrowed q := by
  have hmax : |INT_MAX| < 2 ^ 53 := by decide
  have hmin : |INT_MIN| < 2 ^ 53 := by decide
  by_cases h : |nearest q| < 2 ^ 1024
  · unfold valueint narrowed
    rw [Binary64.ofInt_eq hmax, Binary64.ofInt_eq hmin, Binary64.ofRat, dif_pos h,
      Binary64.le_finite, Binary64.le_finite]
    simp only [decide_eq_true_eq]
  · rw [narrowed_of_overflow h, Binary64.ofRat, dif_neg h]
    unfold valueint
    rw [Binary64.ofInt_eq hmax, Binary64.ofInt_eq hmin]
    by_cases hq : q < 0
    · rw [if_pos hq, decide_eq_true hq]
      rfl
    · rw [if_neg hq, decide_eq_false hq]
      rfl

theorem narrowed_range (q : ℚ) : INT_MIN ≤ narrowed q ∧ narrowed q ≤ INT_MAX :=
  valueint_ofRat q ▸ valueint_range _

theorem narrowed_intCast {i : ℤ} (h : INT_MIN ≤ i ∧ i ≤ INT_MAX) : narrowed i = i := by
  rw [← valueint_ofRat]
  exact valueint_ofInt h.1 h.2

/-- **Nothing is lost exactly on the whole numbers of the type `int`.** -/
theorem narrowed_eq_iff (q : ℚ) :
    (narrowed q : ℚ) = q ↔ ∃ i : ℤ, (INT_MIN ≤ i ∧ i ≤ INT_MAX) ∧ q = i := by
  constructor
  · exact fun h => ⟨narrowed q, narrowed_range q, h.symm⟩
  · rintro ⟨i, hi, rfl⟩
    rw [narrowed_intCast hi]

/-! ## the fields of a string -/

/-- the string starts with an object text of these fields, after a lead and before its first NUL -/
def HasFields (s : Bytes) (fs : List (CString × Bytes)) : Prop :=
  ∃ lead b t, (CString.ofBuffer s).bytes = lead ++ (b ++ t) ∧ Lead lead ∧
    ObjectText CJSON_NESTING_LIMIT fs b

/-- three numbers and an object -/
structure HeaderKinds (fs : List (CString × Bytes)) : Prop where
  clientID : ∃ q, Writes fs clientIDKey q
  type : ∃ q, Writes fs typeKey q
  subType : ∃ q, Writes fs subTypeKey q
  content : WritesObject fs contentKey

/-- what is left of the three written numbers -/
structure HeaderOf (fs : List (CString × Bytes)) (m : Message) : Prop where
  clientID : ∃ q, Writes fs clientIDKey q ∧ m.clientID = narrowed q
  type : ∃ q, Writes fs typeKey q ∧ m.type = narrowed q
  subType : ∃ q, Writes fs subTypeKey q ∧ m.subType = narrowed q

/-- the header is the three written numbers, and the type an enumerator -/
structure FaithfulHeader (fs : List (CString × Bytes)) (m : Message) : Prop where
  clientID : Writes fs clientIDKey m.clientID
  type : Writes fs typeKey m.type
  subType : Writes fs subTypeKey m.subType
  enumerator : IsMessageType m.type

/-- the three written numbers are whole numbers of the type `int`, and the type is an enumerator -/
structure ExactHeader (fs : List (CString × Bytes)) : Prop where
  clientID : ∃ i : ℤ, (INT_MIN ≤ i ∧ i ≤ INT_MAX) ∧ Writes fs clientIDKey i
  type : ∃ i : ℤ, IsMessageType i ∧ Writes fs typeKey i
  subType : ∃ i : ℤ, (INT_MIN ≤ i ∧ i ≤ INT_MAX) ∧ Writes fs subTypeKey i

/-- an accepted string has a faithful header, and a string with another header is rejected -/
def DecodesFaithfully (s : Bytes) : Prop :=
  ∀ fs, HasFields s fs → (∀ m, fromJSONString s = .ok m → FaithfulHeader fs m) ∧
    (¬ExactHeader fs → ∃ what, fromJSONString s = .error (.runtimeError what))

theorem HasFields.parse {s : Bytes} {fs : List (CString × Bytes)} (h : HasFields s fs) :
    ∃ ms d, parse (CString.ofBuffer s) = some (.object ms) ∧ Denotes d ms fs := by
  obtain ⟨lead, b, t, hs, hl, hb⟩ := h
  obtain ⟨ms, d, hms, hden⟩ := hb.derives
  exact ⟨ms, d, parse_object_iff.mpr ⟨lead, b, t, hs, hl, hms⟩, hden⟩

theorem fromJSONString_of_parse {s : Bytes} {ms : List (CString × Node)} {m : Message}
    (h : parse (CString.ofBuffer s) = some (.object ms)) :
    fromJSONString s = .ok m ↔ ofMembers ms = some m := by
  rw [fromJSONString_parse, h]
  dsimp only
  cases ofMembers ms with
  | none => exact iff_of_false nofun nofun
  | some m' => rw [Except.ok.injEq, Option.some_inj]

/-- an accepted string has fields -/
theorem hasFields_of_accepted {s : Bytes} {m : Message} (h : fromJSONString s = .ok m) :
    ∃ fs, HasFields s fs := by
  obtain ⟨lead, b, t, hs, hl, ms, hd, -⟩ := fromJSONString_ok_iff.mp h
  obtain ⟨fs, hfs⟩ := exists_objectText hd
  exact ⟨fs, lead, b, t, hs, hl, hfs⟩

/-- only the kinds of the four fields are checked -/
theorem accepted_iff_headerKinds {s : Bytes} {fs : List (CString × Bytes)} (h : HasFields s fs) :
    (∃ m, fromJSONString s = .ok m) ↔ HeaderKinds fs := by
  obtain ⟨ms, d, hp, hden⟩ := h.parse
  have hnum : ∀ key, (∃ v, getObjectItemCaseSensitive (.object ms) key = some (.number v)) ↔
      ∃ q, Writes fs key q := fun key => by
    simp only [hden.number_iff]
    exact ⟨fun ⟨v, q, hq, _⟩ => ⟨q, hq⟩, fun ⟨q, hq⟩ => ⟨_, q, hq, rfl⟩⟩
  simp only [fromJSONString_of_parse hp]
  rw [← headerOk_iff]
  unfold HeaderOk
  rw [hnum, hnum, hnum, hden.object_iff]
  exact ⟨fun ⟨h1, h2, h3, h4⟩ => ⟨h1, h2, h3, h4⟩, fun ⟨h1, h2, h3, h4⟩ => ⟨h1, h2, h3, h4⟩⟩

/-- the decoder narrows -/
theorem headerOf {s : Bytes} {fs : List (CString × Bytes)} {m : Message} (h : HasFields s fs)
    (hm : fromJSONString s = .ok m) : HeaderOf fs m := by
  obtain ⟨ms, d, hp, hden⟩ := h.parse
  rw [fromJSONString_of_parse hp, ofMembers] at hm
  split at hm
  · next id type subType cs hid htype hsub hcont =>
    obtain rfl := Option.some.inj hm
    obtain ⟨q1, hq1, rfl⟩ := hden.number_iff.mp hid
    obtain ⟨q2, hq2, rfl⟩ := hden.number_iff.mp htype
    obtain ⟨q3, hq3, rfl⟩ := hden.number_iff.mp hsub
    exact ⟨⟨q1, hq1, valueint_ofRat q1⟩, ⟨q2, hq2, valueint_ofRat q2⟩, ⟨q3, hq3, valueint_ofRat q3⟩⟩
  · cases hm

/-! ## faithful headers -/

/-- a field of the header is the written number exactly when that is an `int` -/
theorem writes_narrowed_iff {fs : List (CString × Bytes)} {key : CString} {n : ℤ}
    (h : ∃ q, Writes fs key q ∧ n = narrowed q) :
    Writes fs key n ↔ ∃ i : ℤ, (INT_MIN ≤ i ∧ i ≤ INT_MAX) ∧ Writes fs key i := by
  obtain ⟨q, hq, rfl⟩ := h
  calc Writes fs key (narrowed q) ↔ (narrowed q : ℚ) = q :=
        ⟨fun hw => hw.unique hq, fun he => by rwa [he]⟩
    _ ↔ ∃ i : ℤ, (INT_MIN ≤ i ∧ i ≤ INT_MAX) ∧ q = i := narrowed_eq_iff q
    _ ↔ ∃ i : ℤ, (INT_MIN ≤ i ∧ i ≤ INT_MAX) ∧ Writes fs key i :=
        exists_congr fun i => and_congr_right fun _ => ⟨fun he => he ▸ hq, fun hw => hq.unique hw⟩

theorem HeaderOf.faithful_iff {fs : List (CString × Bytes)} {m : Message} (h : HeaderOf fs m) :
    FaithfulHeader fs m ↔ ExactHeader fs := by
  constructor
  · rintro ⟨h1, h2, h3, h4⟩
    exact ⟨(writes_narrowed_iff h.clientID).mp h1, ⟨m.type, h4, h2⟩,
      (writes_narrowed_iff h.subType).mp h3⟩
  · rintro ⟨h1, ⟨i, hi, hw⟩, h3⟩
    obtain ⟨q, hq, htype⟩ := h.type
    obtain rfl := hq.unique hw
    rw [narrowed_intCast hi.range] at htype
    exact ⟨(writes_narrowed_iff h.clientID).mpr h1, htype ▸ hw,
      (writes_narrowed_iff h.subType).mpr h3, htype ▸ hi⟩

/-- **What the header of an accepted string is.**  The string starts with an object text; whether
it is accepted depends on the kinds of four fields alone; the header is what is left of the three
numbers; and it is faithful exactly when they are whole numbers of the type `int`, the type among
the enumerators. -/
theorem header_decoded (s : Bytes) :
    ((∃ m, fromJSONString s = .ok m) → ∃ fs, HasFields s fs) ∧
    ∀ fs, HasFields s fs →
      ((∃ m, fromJSONString s = .ok m) ↔ HeaderKinds fs) ∧
      ∀ m, fromJSONString s = .ok m →
        HeaderOf fs m ∧ (FaithfulHeader fs m ↔ ExactHeader fs) := by
  refine ⟨fun ⟨m, hm⟩ => hasFields_of_accepted hm, fun fs hfs => ⟨accepted_iff_headerKinds hfs, ?_⟩⟩
  intro m hm
  have hof := headerOf hfs hm
  exact ⟨hof, hof.faithful_iff⟩

/-- a header with a fraction -/
def fractionText : Bytes :=
  ascii ("\x7b\"clientID\":1.5,\"type\":0,\"subType\":2,\"content\":\x7b\x7d\x7d".toList)

def fractionFields : List (CString × Bytes) :=
  [(clientIDKey, ascii ['1', '.', '5']), (typeKey, ascii ['0']), (subTypeKey, ascii ['2']),
    (contentKey, [123, 125])]

theorem written_fraction : written (ascii ['1', '.', '5']) = 3 / 2 := by
  show (((15 : ℕ) : ℚ) * 10 ^ ((0 : ℤ) - ((1 : ℕ) : ℤ))) = 3 / 2
  norm_num

theorem fractionFields_kinds : HeaderKinds fractionFields :=
  ⟨⟨_, _, rfl, rfl, rfl⟩, ⟨_, _, rfl, rfl, rfl⟩, ⟨_, _, rfl, rfl, rfl⟩,
    _, 1, [], rfl, .empty blank_nil⟩

theorem hasFields_fractionText : HasFields fractionText fractionFields := by
  have hnumber : ∀ b, isNumberText b = true → Derives 999 (.value (.number (.ofRat (written b)))) b :=
    fun b hb => .number (numberToken_iff.mpr ⟨hb, rfl⟩)
  have hfields := FieldTexts.more blank_nil (stringToken_stringText clientIDKey) blank_nil blank_nil
    (hnumber (ascii ['1', '.', '5']) rfl) blank_nil <|
    .more blank_nil (stringToken_stringText typeKey) blank_nil blank_nil
    (hnumber (ascii ['0']) rfl) blank_nil <|
    .more blank_nil (stringToken_stringText subTypeKey) blank_nil blank_nil
    (hnumber (ascii ['2']) rfl) blank_nil <|
    .last blank_nil (stringToken_stringText contentKey) blank_nil blank_nil
    (.emptyObject (d := 998) blank_nil) blank_nil
  have hnul : Node.NulFree fractionText := Node.nulFree_of_all (by decide)
  refine ⟨[], fractionText, [], ?_, lead_nil, Eq.mp (congrArg (ObjectText _ _) ?_) (.fields hfields)⟩
  · rw [ofBuffer_of_nulFree hnul, List.append_nil, List.nil_append]
  · decide

/-- the fraction of the client is dropped -/
theorem fraction_dropped : (∃ m, fromJSONString fractionText = .ok m ∧ m.clientID = 1) ∧
    ¬DecodesFaithfully fractionText := by
  have hq : Writes fractionFields clientIDKey (3 / 2) := written_fraction ▸ ⟨_, rfl, rfl, rfl⟩
  have hrep : Representable (3 / 2) := by
    refine ⟨?_, 3, -1, by norm_num, by norm_num, by norm_num⟩
    calc |(3 / 2 : ℚ)| < 2 ^ 1 := by norm_num
      _ ≤ 2 ^ 1024 := pow_le_pow_right₀ (by norm_num) (by norm_num)
  have hone : narrowed (3 / 2) = 1 := by
    unfold narrowed
    rw [nearest_eq_self hrep]
    norm_num [INT_MAX, INT_MIN, truncate]
  obtain ⟨m, hm⟩ := (accepted_iff_headerKinds hasFields_fractionText).mpr fractionFields_kinds
  obtain ⟨q, hq', hid⟩ := (headerOf hasFields_fractionText hm).clientID
  obtain rfl := hq.unique hq'
  refine ⟨⟨m, hm, hid.trans hone⟩, fun h => ?_⟩
  have hw := ((h fractionFields hasFields_fractionText).1 m hm).clientID
  rw [hid, hone] at hw
  exact absurd (hq.unique hw) (by norm_num)

end Message

end Hub
