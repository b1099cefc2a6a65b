import Warehouse.CJson.Grammar

/-!
# The fields of an object text

An object text seen from outside: its keys, and the texts of its values as they stand in it.

* `ObjectText`        the object texts, with their fields; `exists_objectText`;
* `Denotes`           the members of the parsed object and the fields, one by one;
* `Denotes.item`      the first member of a name is the value of the first field of it;
* `written`           the number a text writes; `numberToken_iff` which texts are numbers;
* `Denotes.number_iff`   a member is a number exactly when its field writes one.
-/

namespace CJSON
open Text Numeric

/-! ## object texts -/

/-- the fields of an object, between the braces -/
inductive FieldTexts (d : ℕ) : List (CString × Bytes) → Bytes → Prop
  | last {k : CString} {j : Node} {w kb w1 w2 b w' : Bytes} (hw : Blank w)
      (hk : StringToken k kb) (hw1 : Blank w1) (hw2 : Blank w2) (hj : Derives d (.value j) b)
      (hw' : Blank w') :
      FieldTexts d [(k, b)] (w ++ (kb ++ (w1 ++ ([58] ++ (w2 ++ (b ++ w'))))))
  | more {k : CString} {j : Node} {fs : List (CString × Bytes)} {w kb w1 w2 b w' bs : Bytes}
      (hw : Blank w) (hk : StringToken k kb) (hw1 : Blank w1) (hw2 : Blank w2)
      (hj : Derives d (.value j) b) (hw' : Blank w') (hfs : FieldTexts d fs bs) :
      FieldTexts d ((k, b) :: fs)
        (w ++ (kb ++ (w1 ++ ([58] ++ (w2 ++ (b ++ (w' ++ ([44] ++ bs))))))))

/-- an object with at most `d` containers on a path -/
inductive ObjectText : ℕ → List (CString × Bytes) → Bytes → Prop
  | empty {d : ℕ} {w : Bytes} (hw : Blank w) : ObjectText (d + 1) [] ([123] ++ (w ++ [125]))
  | fields {d : ℕ} {fs : List (CString × Bytes)} {b : Bytes} (h : FieldTexts d fs b) :
      ObjectText (d + 1) fs ([123] ++ (b ++ [125]))

/-- the text of the first field of a name -/
def fieldText (fs : List (CString × Bytes)) (key : CString) : Option Bytes :=
  (fs.find? fun f => key = f.1).map Prod.snd

/-- members with the keys of the fields, and values of which the fields are texts -/
def Denotes (d : ℕ) (ms : List (CString × Node)) (fs : List (CString × Bytes)) : Prop :=
  List.Forall₂ (fun m f => m.1 = f.1 ∧ Derives d (.value m.2) f.2) ms fs

theorem FieldTexts.derives {d : ℕ} {fs : List (CString × Bytes)} {b : Bytes}
    (h : FieldTexts d fs b) : ∃ ms, Derives d (.members ms) b ∧ Denotes d ms fs := by
  induction h with
  | last hw hk hw1 hw2 hj hw' =>
    exact ⟨[(_, _)], .member hw hk hw1 hw2 hj hw', .cons ⟨rfl, hj⟩ .nil⟩
  | more hw hk hw1 hw2 hj hw' hfs ih =>
    obtain ⟨ms, hms, hden⟩ := ih
    exact ⟨(_, _) :: ms, .members hw hk hw1 hw2 hj hw' hms, .cons ⟨rfl, hj⟩ hden⟩

theorem ObjectText.derives {d : ℕ} {fs : List (CString × Bytes)} {b : Bytes}
    (h : ObjectText d fs b) :
    ∃ ms d', Derives d (.value (.object ms)) b ∧ Denotes d' ms fs := by
  cases h with
  | @empty d w hw => exact ⟨[], d, .emptyObject hw, .nil⟩
  | @fields d fs b h =>
    obtain ⟨ms, hms, hden⟩ := h.derives
    exact ⟨ms, d, .object hms, hden⟩

theorem exists_fieldTexts {d : ℕ} {ms : List (CString × Node)} {b : Bytes}
    (h : Derives d (.members ms) b) : ∃ fs, FieldTexts d fs b := by
  generalize hp : Phrase.members ms = p at h
  induction h generalizing ms with
  | member hw hk hw1 hw2 hj hw' => exact ⟨_, .last hw hk hw1 hw2 hj hw'⟩
  | members hw hk hw1 hw2 hj hw' hms _ ih =>
    obtain ⟨fs, hfs⟩ := ih rfl
    exact ⟨_, .more hw hk hw1 hw2 hj hw' hfs⟩
  | _ => cases hp

/-- every object text has its fields -/
theorem exists_objectText {d : ℕ} {ms : List (CString × Node)} {b : Bytes}
    (h : Derives d (.value (.object ms)) b) : ∃ fs, ObjectText d fs b := by
  cases h with
  | emptyObject hw => exact ⟨[], .empty hw⟩
  | object h =>
    obtain ⟨fs, hfs⟩ := exists_fieldTexts h
    exact ⟨fs, .fields hfs⟩

/-! ## members and fields -/

/-- **A text has one value**, whatever the levels it is read with. -/
theorem Derives.value_unique {d d' : ℕ} {j j' : Node} {b : Bytes} (h : Derives d (.value j) b)
    (h' : Derives d' (.value j') b) : j = j' := by
  have h1 := (h.mono (le_max_left d d')).parses [] fun _ x hx => nomatch hx
  have h2 := (h'.mono (le_max_right d d')).parses [] fun _ x hx => nomatch hx
  rw [h1, Option.some_inj, Prod.mk.injEq] at h2
  exact h2.1

theorem Denotes.item {d : ℕ} {ms : List (CString × Node)} {fs : List (CString × Bytes)}
    (h : Denotes d ms fs) (key : CString) :
    (∃ j b, getObjectItemCaseSensitive (.object ms) key = some j ∧ fieldText fs key = some b ∧
      Derives d (.value j) b) ∨
    (getObjectItemCaseSensitive (.object ms) key = none ∧ fieldText fs key = none) := by
  unfold Denotes at h
  unfold getObjectItemCaseSensitive getObjectItemWith fieldText
  dsimp only
  induction h with
  | nil => exact Or.inr ⟨rfl, rfl⟩
  | @cons m f ms fs hmf _ ih =>
    rw [List.find?_cons, List.find?_cons, hmf.1]
    by_cases hk : key = f.1
    · rw [decide_eq_true hk]
      exact Or.inl ⟨m.2, f.2, rfl, rfl, hmf.2⟩
    · rw [decide_eq_false hk]
      exact ih

/-! ## numbers -/

/-- the number a text writes -/
def written (b : Bytes) : ℚ := decimalValue (decimalNumber b).1

/-- is this a number that the scanner reads to its end? -/
def isNumberText (b : Bytes) : Bool :=
  (b.head?.any fun c => c == 45 || isDigit c) && b.all isNumberByte && decide (b.length ≤ 63) &&
    !((decimalNumber b).1.whole.isEmpty && (decimalNumber b).1.frac.isEmpty) &&
    (decimalNumber b).2.isEmpty

theorem isNumberText_iff {b : Bytes} : isNumberText b = true ↔
    (∃ c t, b = c :: t ∧ (c = 45 ∨ isDigit c = true)) ∧ (∀ c ∈ b, isNumberByte c = true) ∧
      b.length ≤ 63 ∧ ¬((decimalNumber b).1.whole = [] ∧ (decimalNumber b).1.frac = []) ∧
      (decimalNumber b).2 = [] := by
  have hhead : (b.head?.any fun c => c == 45 || isDigit c) = true ↔
      ∃ c t, b = c :: t ∧ (c = 45 ∨ isDigit c = true) := by
    cases b with
    | nil => exact iff_of_false nofun nofun
    | cons c t =>
      show (c == 45 || isDigit c) = true ↔ _
      rw [Bool.or_eq_true, beq_iff_eq]
      exact ⟨fun hc => ⟨c, t, rfl, hc⟩, fun ⟨c', t', he, hc⟩ => (List.cons.inj he).1 ▸ hc⟩
  unfold isNumberText
  rw [Bool.and_eq_true, Bool.and_eq_true, Bool.and_eq_true, Bool.and_eq_true, hhead,
    List.all_eq_true, decide_eq_true_iff, Bool.not_eq_true', Bool.and_eq_false_iff,
    List.isEmpty_iff, ← Bool.not_eq_true, ← Bool.not_eq_true, List.isEmpty_iff, List.isEmpty_iff,
    not_and_or, and_assoc, and_assoc, and_assoc]

/-- **The number tokens**, with the doubles nearest to what they write. -/
theorem numberToken_iff {v : Binary64} {b : Bytes} :
    NumberToken v b ↔ isNumberText b = true ∧ v = Binary64.ofRat (written b) := by
  rw [isNumberText_iff]
  constructor
  · rintro ⟨h1, h2, h3, h4⟩
    unfold strtod at h4
    split_ifs at h4 with hd
    rw [Option.some_inj, Prod.mk.injEq] at h4
    exact ⟨⟨h1, h2, h3, hd, h4.2⟩, h4.1.symm⟩
  · rintro ⟨⟨h1, h2, h3, hd, hscan⟩, rfl⟩
    refine ⟨h1, h2, h3, ?_⟩
    rw [strtod, if_neg hd, hscan]
    rfl

/-- the first field of the name is a number, and this is the number -/
def Writes (fs : List (CString × Bytes)) (key : CString) (q : ℚ) : Prop :=
  ∃ b, fieldText fs key = some b ∧ isNumberText b = true ∧ q = written b

theorem Writes.unique {fs : List (CString × Bytes)} {key : CString} {q q' : ℚ}
    (h : Writes fs key q) (h' : Writes fs key q') : q = q' := by
  obtain ⟨b, hb, -, rfl⟩ := h
  obtain ⟨b', hb', -, rfl⟩ := h'
  obtain rfl := Option.some.inj (hb.symm.trans hb')
  rfl

theorem Denotes.number_iff {d : ℕ} {ms : List (CString × Node)} {fs : List (CString × Bytes)}
    (h : Denotes d ms fs) {key : CString} {v : Binary64} :
    getObjectItemCaseSensitive (.object ms) key = some (.number v) ↔
      ∃ q, Writes fs key q ∧ v = Binary64.ofRat q := by
  rcases h.item key with ⟨j, b, hj, hb, hd⟩ | ⟨hj, hb⟩
  · rw [hj, Option.some_inj]
    constructor
    · rintro rfl
      cases hd with
      | number hv =>
        obtain ⟨hb', hv⟩ := numberToken_iff.mp hv
        exact ⟨_, ⟨b, hb, hb', rfl⟩, hv⟩
    · rintro ⟨q, ⟨b', hb', htext, rfl⟩, rfl⟩
      obtain rfl := Option.some.inj (hb.symm.trans hb')
      have htoken : Derives d (.value (.number (.ofRat (written b)))) b :=
        .number (numberToken_iff.mpr ⟨htext, rfl⟩)
      exact hd.value_unique htoken
  · rw [hj]
    refine iff_of_false nofun ?_
    rintro ⟨q, ⟨b', hb', -⟩, -⟩
    rw [hb] at hb'
    cases hb'

/-- the first field of the name is an object -/
def WritesObject (fs : List (CString × Bytes)) (key : CString) : Prop :=
  ∃ b d gs, fieldText fs key = some b ∧ ObjectText d gs b

theorem Denotes.object_iff {d : ℕ} {ms : List (CString × Node)} {fs : List (CString × Bytes)}
    (h : Denotes d ms fs) {key : CString} :
    (∃ cs, getObjectItemCaseSensitive (.object ms) key = some (.object cs)) ↔
      WritesObject fs key := by
  rcases h.item key with ⟨j, b, hj, hb, hd⟩ | ⟨hj, hb⟩
  · rw [hj]
    constructor
    · rintro ⟨cs, hcs⟩
      obtain rfl := Option.some.inj hcs
      obtain ⟨gs, hgs⟩ := exists_objectText hd
      exact ⟨b, d, gs, hb, hgs⟩
    · rintro ⟨b', d', gs, hb', hgs⟩
      obtain rfl := Option.some.inj (hb.symm.trans hb')
      obtain ⟨cs, -, hcs, -⟩ := hgs.derives
      exact ⟨cs, congrArg some (hd.value_unique hcs)⟩
  · rw [hj]
    refine iff_of_false nofun ?_
    rintro ⟨b', d', gs, hb', -⟩
    rw [hb] at hb'
    cases hb'

end CJSON
