import Warehouse.CJson.Parse

/-!
# The grammar of the parser

`Derives d p b`: the bytes `b` are a text of the phrase `p` with at most `d` containers on a path.
A phrase is a value, the elements of an array, or the members of an object.

* `Derives.parses`        every text is parsed, whatever follows it (`completeness`);
* `parseValue_sound`      what is parsed is a text, and the rest is untouched (`soundness`);
* `Derives.prefix_free`   an object text that starts another one is all of it;
* `parse_object_iff`      the strings on which `cJSON_Parse` returns an object.
-/

namespace CJSON
open Text Numeric

inductive Phrase
  | value (j : Node)
  | items (js : List Node)
  | members (ms : List (CString × Node))

inductive Derives : ℕ → Phrase → Bytes → Prop
  | litNull {d : ℕ} : Derives d (.value .null) (ascii ['n', 'u', 'l', 'l'])
  | litFalse {d : ℕ} : Derives d (.value (.bool false)) (ascii ['f', 'a', 'l', 's', 'e'])
  | litTrue {d : ℕ} : Derives d (.value (.bool true)) (ascii ['t', 'r', 'u', 'e'])
  | number {d : ℕ} {v : Binary64} {b : Bytes} (h : NumberToken v b) :
      Derives d (.value (.number v)) b
  | string {d : ℕ} {v : CString} {b : Bytes} (h : StringToken v b) :
      Derives d (.value (.string v)) b
  | emptyArray {d : ℕ} {w : Bytes} (hw : Blank w) :
      Derives (d + 1) (.value (.array [])) ([91] ++ (w ++ [93]))
  | array {d : ℕ} {js : List Node} {b : Bytes} (h : Derives d (.items js) b) :
      Derives (d + 1) (.value (.array js)) ([91] ++ (b ++ [93]))
  | emptyObject {d : ℕ} {w : Bytes} (hw : Blank w) :
      Derives (d + 1) (.value (.object [])) ([123] ++ (w ++ [125]))
  | object {d : ℕ} {ms : List (CString × Node)} {b : Bytes} (h : Derives d (.members ms) b) :
      Derives (d + 1) (.value (.object ms)) ([123] ++ (b ++ [125]))
  | item {d : ℕ} {j : Node} {w b w' : Bytes} (hw : Blank w) (hj : Derives d (.value j) b)
      (hw' : Blank w') : Derives d (.items [j]) (w ++ (b ++ w'))
  | items {d : ℕ} {j : Node} {js : List Node} {w b w' bs : Bytes} (hw : Blank w)
      (hj : Derives d (.value j) b) (hw' : Blank w') (hjs : Derives d (.items js) bs) :
      Derives d (.items (j :: js)) (w ++ (b ++ (w' ++ ([44] ++ bs))))
  | member {d : ℕ} {k : CString} {j : Node} {w kb w1 w2 b w' : Bytes} (hw : Blank w)
      (hk : StringToken k kb) (hw1 : Blank w1) (hw2 : Blank w2) (hj : Derives d (.value j) b)
      (hw' : Blank w') :
      Derives d (.members [(k, j)]) (w ++ (kb ++ (w1 ++ ([58] ++ (w2 ++ (b ++ w'))))))
  | members {d : ℕ} {k : CString} {j : Node} {ms : List (CString × Node)}
      {w kb w1 w2 b w' bs : Bytes} (hw : Blank w)
      (hk : StringToken k kb) (hw1 : Blank w1) (hw2 : Blank w2) (hj : Derives d (.value j) b)
      (hw' : Blank w') (hms : Derives d (.members ms) bs) :
      Derives d (.members ((k, j) :: ms))
        (w ++ (kb ++ (w1 ++ ([58] ++ (w2 ++ (b ++ (w' ++ ([44] ++ bs))))))))

/-! ## the first byte of a value -/

theorem lt_of_numberHead {c : UInt8} (h : c = 45 ∨ isDigit c = true) : 32 < c ∧ c ≠ 93 := by
  rcases h with rfl | h
  · decide
  · refine ⟨?_, by rintro rfl; revert h; decide⟩
    rw [isDigit_iff] at h
    rw [UInt8.lt_iff_toNat_lt]
    exact lt_of_lt_of_le (by decide) h.1

theorem Derives.head {d : ℕ} {j : Node} {b : Bytes} (h : Derives d (.value j) b) :
    ∃ c t, b = c :: t ∧ 32 < c ∧ c ≠ 93 := by
  cases h with
  | litNull => exact ⟨_, _, rfl, by decide⟩
  | litFalse => exact ⟨_, _, rfl, by decide⟩
  | litTrue => exact ⟨_, _, rfl, by decide⟩
  | number h =>
    obtain ⟨c, t, hb, hc⟩ := h.head
    exact ⟨c, t, hb, lt_of_numberHead hc⟩
  | string h =>
    obtain ⟨body, out, rfl, -⟩ := h
    exact ⟨_, _, rfl, by decide⟩
  | emptyArray hw => exact ⟨_, _, rfl, by decide⟩
  | array h => exact ⟨_, _, rfl, by decide⟩
  | emptyObject hw => exact ⟨_, _, rfl, by decide⟩
  | object h => exact ⟨_, _, rfl, by decide⟩

theorem StringToken.head {v : CString} {b : Bytes} (h : StringToken v b) : ∃ t, b = 34 :: t := by
  obtain ⟨body, out, rfl, -⟩ := h
  exact ⟨_, rfl⟩

/-- elements do not start with the closing bracket -/
theorem Derives.items_head {d : ℕ} {js : List Node} {b : Bytes} (h : Derives d (.items js) b) :
    ∃ w c t, b = w ++ c :: t ∧ Blank w ∧ 32 < c ∧ c ≠ 93 := by
  cases h with
  | item hw hj hw' =>
    obtain ⟨c, t, rfl, hc⟩ := hj.head
    exact ⟨_, c, _, rfl, hw, hc⟩
  | items hw hj hw' hjs =>
    obtain ⟨c, t, rfl, hc⟩ := hj.head
    exact ⟨_, c, _, rfl, hw, hc⟩

theorem Derives.members_head {d : ℕ} {ms : List (CString × Node)} {b : Bytes}
    (h : Derives d (.members ms) b) : ∃ w t, b = w ++ 34 :: t ∧ Blank w := by
  cases h with
  | member hw hk hw1 hw2 hj hw' =>
    obtain ⟨t, rfl⟩ := hk.head
    exact ⟨_, _, rfl, hw⟩
  | members hw hk hw1 hw2 hj hw' hms =>
    obtain ⟨t, rfl⟩ := hk.head
    exact ⟨_, _, rfl, hw⟩

/-- a byte that is neither part of a number nor hides what follows -/
theorem not_isNumberByte_of_le {c : UInt8} (h : c ≤ 32) : isNumberByte c = false := by
  have h32 : c.toNat ≤ 32 := UInt8.le_iff_toNat_le.mp h
  have hne : ∀ x : UInt8, 32 < x.toNat → (c == x) = false := fun x hx =>
    beq_eq_false_iff_ne.mpr fun e => by rw [e] at h32; omega
  have hd : isDigit c = false := by
    rw [Bool.eq_false_iff, Ne, isDigit_iff]
    omega
  rw [isNumberByte, hd, hne 43 (by decide), hne 45 (by decide), hne 46 (by decide),
    hne 101 (by decide), hne 69 (by decide)]
  rfl

/-- after a value stand blanks and a comma or a bracket -/
theorem stop_append {w : Bytes} (hw : Blank w) {c : UInt8} (hc : isNumberByte c = false)
    (r : Bytes) : ∀ x ∈ (w ++ c :: r).head?, isNumberByte x = false := by
  intro x hx
  cases w with
  | nil => exact Option.some.inj hx ▸ hc
  | cons a w => exact Option.some.inj hx ▸ not_isNumberByte_of_le (hw a (List.mem_cons_self ..))

/-! ## completeness -/

/-- a value that starts with none of the letters of the three literals -/
theorem parseByFirst_cons (array object : Bytes → Option (Node × Bytes)) {c : UInt8}
    (h : c ≠ 110 ∧ c ≠ 102 ∧ c ≠ 116) (t : Bytes) : parseByFirst array object (c :: t) =
      if c = 34 then (parseString (c :: t)).map fun (s, r) => (.string s, r)
      else if c = 45 ∨ isDigit c = true then parseNumber (c :: t)
      else if c = 91 then array t
      else if c = 123 then object t
      else none := by
  have hne : ∀ (n : ℕ) (x : UInt8) (l : Bytes), c ≠ x → (c :: t).take (n + 1) ≠ x :: l :=
    fun n x l hcx e => hcx (List.cons.inj e).1
  unfold parseByFirst
  exact (if_neg (hne 3 110 _ h.1)).trans <| (if_neg (hne 4 102 _ h.2.1)).trans <|
    if_neg (hne 3 116 _ h.2.2)

/-- the two containers, whatever number of levels is left above zero -/
theorem parseValue_array (d : ℕ) (r : Bytes) :
    parseValue (d + 1) (91 :: r) = parseArray (parseValue d) r := by
  rw [parseValue, parseByFirst_cons _ _ (by decide)]
  rfl

theorem parseValue_object (d : ℕ) (r : Bytes) :
    parseValue (d + 1) (123 :: r) = parseObject (parseValue d) r := by
  rw [parseValue, parseByFirst_cons _ _ (by decide)]
  rfl

theorem parseValue_eq (d : ℕ) : ∃ array object, parseValue d = parseByFirst array object := by
  cases d with
  | zero => exact ⟨_, _, rfl⟩
  | succ d => exact ⟨_, _, rfl⟩

theorem parseValue_string {v : CString} {b : Bytes} (h : StringToken v b) (d : ℕ) (r : Bytes) :
    parseValue d (b ++ r) = some (.string v, r) := by
  obtain ⟨array, object, he⟩ := parseValue_eq d
  have hp := h.parseString r
  obtain ⟨body, out, rfl, -⟩ := h
  rw [List.cons_append] at hp ⊢
  rw [he, parseByFirst_cons _ _ (by decide), if_pos rfl, hp, Option.map_some]

theorem parseValue_number {v : Binary64} {b r : Bytes} (h : NumberToken v b) (d : ℕ)
    (hr : ∀ x ∈ r.head?, isNumberByte x = false) :
    parseValue d (b ++ r) = some (.number v, r) := by
  obtain ⟨array, object, he⟩ := parseValue_eq d
  have hp := h.parseNumber hr
  obtain ⟨c, t, rfl, hc⟩ := h.head
  have hne : c ≠ 110 ∧ c ≠ 102 ∧ c ≠ 116 ∧ c ≠ 34 := by
    rcases hc with rfl | hc
    · decide
    · refine ⟨?_, ?_, ?_, ?_⟩ <;> (rintro rfl; revert hc; decide)
  rw [List.cons_append] at hp ⊢
  rw [he, parseByFirst_cons _ _ ⟨hne.1, hne.2.1, hne.2.2.1⟩, if_neg hne.2.2.2, if_pos hc, hp]

/-- what the parser makes of a phrase, whatever follows it -/
def Parses (d : ℕ) : Phrase → Bytes → Prop
  | .value j, b => ∀ r, (j.isNumber = true → ∀ x ∈ r.head?, isNumberByte x = false) →
      parseValue d (b ++ r) = some (j, r)
  | .items js, b => ∀ fuel r, js.length ≤ fuel →
      parseItems (parseValue d) fuel (b ++ 93 :: r) = some (js, r)
  | .members ms, b => ∀ fuel r, ms.length ≤ fuel →
      parseMembers (parseValue d) fuel (b ++ 125 :: r) = some (ms, r)

/-- elements and members are texts of at least one byte each -/
def Fits : Phrase → Bytes → Prop
  | .value _, _ => True
  | .items js, b => js.length ≤ b.length
  | .members ms, b => ms.length ≤ b.length

theorem Derives.fits {d : ℕ} {p : Phrase} {b : Bytes} (h : Derives d p b) : Fits p b := by
  induction h with
  | item hw hj hw' =>
    obtain ⟨c, t, rfl, -⟩ := hj.head
    simp [Fits]
    omega
  | items hw hj hw' hjs _ ih =>
    have : _ ≤ _ := ih
    simp only [Fits, List.length_cons, List.length_append, List.length_nil] at this ⊢
    omega
  | member hw hk hw1 hw2 hj hw' =>
    simp [Fits]
    omega
  | members hw hk hw1 hw2 hj hw' hms _ ih =>
    have : _ ≤ _ := ih
    simp only [Fits, List.length_cons, List.length_append, List.length_nil] at this ⊢
    omega
  | _ => trivial

/-- one element, and the comma or the bracket after it -/
theorem parseItems_step {d : ℕ} {j : Node} {w b w' : Bytes} (hw : Blank w)
    (hj : Derives d (.value j) b) (ih : Parses d (.value j) b) (hw' : Blank w') {c : UInt8}
    (hc : 32 < c) (hcn : isNumberByte c = false) (fuel : ℕ) (r : Bytes) :
    parseItems (parseValue d) (fuel + 1) (w ++ (b ++ (w' ++ c :: r))) =
      if c = 44 then (parseItems (parseValue d) fuel r).map fun (js, r) => (j :: js, r)
      else if c = 93 then some ([j], r)
      else none := by
  have hval : parseValue d (skipWhitespace (w ++ (b ++ (w' ++ c :: r)))) = some (j, w' ++ c :: r) := by
    rw [← ih _ fun _ => stop_append hw' hcn r]
    obtain ⟨a, t, rfl, ha, -⟩ := hj.head
    rw [List.cons_append, skipWhitespace_append hw ha]
  rw [parseItems, hval, Option.bind_some]
  dsimp only
  rw [skipWhitespace_append hw' hc]

/-- one member, and the comma or the brace after it -/
theorem parseMembers_step {d : ℕ} {k : CString} {j : Node} {w kb w1 w2 b w' : Bytes} (hw : Blank w)
    (hk : StringToken k kb) (hw1 : Blank w1) (hw2 : Blank w2) (hj : Derives d (.value j) b)
    (ih : Parses d (.value j) b) (hw' : Blank w') {c : UInt8}
    (hc : 32 < c) (hcn : isNumberByte c = false) (fuel : ℕ) (r : Bytes) :
    parseMembers (parseValue d) (fuel + 1)
      (w ++ (kb ++ (w1 ++ 58 :: (w2 ++ (b ++ (w' ++ c :: r)))))) =
      if c = 44 then (parseMembers (parseValue d) fuel r).map fun (ms, r) => ((k, j) :: ms, r)
      else if c = 125 then some ([(k, j)], r)
      else none := by
  have hkey : parseString (skipWhitespace (w ++ (kb ++ (w1 ++ 58 :: (w2 ++ (b ++ (w' ++ c :: r)))))))
      = some (k, w1 ++ 58 :: (w2 ++ (b ++ (w' ++ c :: r)))) := by
    rw [← hk.parseString]
    obtain ⟨t, rfl⟩ := hk.head
    rw [List.cons_append, skipWhitespace_append hw (by decide)]
  have hval : parseValue d (skipWhitespace (w2 ++ (b ++ (w' ++ c :: r)))) = some (j, w' ++ c :: r) := by
    rw [← ih _ fun _ => stop_append hw' hcn r]
    obtain ⟨a, t, rfl, ha, -⟩ := hj.head
    rw [List.cons_append, skipWhitespace_append hw2 ha]
  have hmember : parseMember (parseValue d)
      (w ++ (kb ++ (w1 ++ 58 :: (w2 ++ (b ++ (w' ++ c :: r)))))) = some ((k, j), w' ++ c :: r) := by
    rw [parseMember, hkey, Option.bind_some]
    dsimp only
    rw [skipWhitespace_append hw1 (by decide)]
    dsimp only
    rw [if_pos rfl, hval, Option.map_some]
  obtain ⟨a, s, hs⟩ : ∃ a s, w ++ (kb ++ (w1 ++ 58 :: (w2 ++ (b ++ (w' ++ c :: r))))) = a :: s := by
    refine List.exists_cons_of_ne_nil (List.append_ne_nil_of_right_ne_nil _ ?_)
    obtain ⟨t, rfl⟩ := hk.head
    exact List.cons_ne_nil _ _
  rw [hs] at hmember ⊢
  simp only [parseMembers, hmember, Option.bind_some]
  rw [skipWhitespace_append hw' hc]

/-- the elements in their brackets -/
theorem parses_array {d : ℕ} {js : List Node} {b : Bytes} (h : Derives d (.items js) b)
    (ih : Parses d (.items js) b) : Parses (d + 1) (.value (.array js)) (91 :: (b ++ [93])) := by
  intro r _
  show parseValue (d + 1) (91 :: (b ++ [93] ++ r)) = _
  obtain ⟨w, c, t, hb, hw, hc, hc93⟩ := h.items_head
  have hskip : skipWhitespace (b ++ 93 :: r) = c :: (t ++ 93 :: r) := by
    rw [hb, List.append_assoc, List.cons_append, skipWhitespace_append hw hc]
  have hfits : js.length ≤ (b ++ 93 :: r).length := by
    have := h.fits
    simp only [Fits] at this
    rw [List.length_append]
    omega
  rw [parseValue_array, List.append_assoc, List.singleton_append, parseArray, hskip]
  dsimp only
  rw [if_neg hc93, parseItems_skip hc hskip, ih _ r hfits, Option.map_some]

/-- the members in their braces -/
theorem parses_object {d : ℕ} {ms : List (CString × Node)} {b : Bytes}
    (h : Derives d (.members ms) b) (ih : Parses d (.members ms) b) :
    Parses (d + 1) (.value (.object ms)) (123 :: (b ++ [125])) := by
  intro r _
  show parseValue (d + 1) (123 :: (b ++ [125] ++ r)) = _
  obtain ⟨w, t, hb, hw⟩ := h.members_head
  have hskip : skipWhitespace (b ++ 125 :: r) = 34 :: (t ++ 125 :: r) := by
    rw [hb, List.append_assoc, List.cons_append, skipWhitespace_append hw (by decide)]
  have hfits : ms.length ≤ (b ++ 125 :: r).length := by
    have := h.fits
    simp only [Fits] at this
    rw [List.length_append]
    omega
  rw [parseValue_object, List.append_assoc, List.singleton_append, parseObject, hskip]
  dsimp only
  rw [if_neg (by decide), parseMembers_skip (by decide) hskip, ih _ r hfits, Option.map_some]

/-- **Completeness.** -/
theorem Derives.parses {d : ℕ} {p : Phrase} {b : Bytes} (h : Derives d p b) : Parses d p b := by
  induction h with
  | @litNull d =>
    intro r _
    obtain ⟨array, object, he⟩ := parseValue_eq d
    rw [he]
    rfl
  | @litFalse d =>
    intro r _
    obtain ⟨array, object, he⟩ := parseValue_eq d
    rw [he]
    rfl
  | @litTrue d =>
    intro r _
    obtain ⟨array, object, he⟩ := parseValue_eq d
    rw [he]
    rfl
  | @number d v b h => exact fun r hr => parseValue_number h d (hr rfl)
  | @string d v b h => exact fun r _ => parseValue_string h d r
  | @emptyArray d w hw =>
    intro r _
    show parseValue (d + 1) (91 :: (w ++ [93] ++ r)) = _
    rw [parseValue_array, parseArray, List.append_assoc, List.singleton_append,
      skipWhitespace_append hw (by decide)]
    rfl
  | array h ih => exact parses_array h ih
  | @emptyObject d w hw =>
    intro r _
    show parseValue (d + 1) (123 :: (w ++ [125] ++ r)) = _
    rw [parseValue_object, parseObject, List.append_assoc, List.singleton_append,
      skipWhitespace_append hw (by decide)]
    rfl
  | object h ih => exact parses_object h ih
  | @item d j w b w' hw hj hw' ih =>
    intro fuel r hfuel
    obtain ⟨n, rfl⟩ : ∃ n, fuel = n + 1 := ⟨fuel - 1, by simp at hfuel; omega⟩
    simp only [List.append_assoc]
    rw [parseItems_step hw hj ih hw' (by decide) (by decide), if_neg (by decide), if_pos rfl]
  | @items d j js w b w' bs hw hj hw' hjs ihj ihjs =>
    intro fuel r hfuel
    obtain ⟨n, rfl⟩ : ∃ n, fuel = n + 1 := ⟨fuel - 1, by simp at hfuel; omega⟩
    simp only [List.append_assoc, List.cons_append, List.nil_append]
    rw [parseItems_step hw hj ihj hw' (by decide) (by decide), if_pos rfl,
      ihjs n r (by simpa using hfuel), Option.map_some]
  | @member d k j w kb w1 w2 b w' hw hk hw1 hw2 hj hw' ih =>
    intro fuel r hfuel
    obtain ⟨n, rfl⟩ : ∃ n, fuel = n + 1 := ⟨fuel - 1, by simp at hfuel; omega⟩
    simp only [List.append_assoc, List.cons_append, List.nil_append]
    rw [parseMembers_step hw hk hw1 hw2 hj ih hw' (by decide) (by decide), if_neg (by decide),
      if_pos rfl]
  | @members d k j ms w kb w1 w2 b w' bs hw hk hw1 hw2 hj hw' hms ihj ihms =>
    intro fuel r hfuel
    obtain ⟨n, rfl⟩ : ∃ n, fuel = n + 1 := ⟨fuel - 1, by simp at hfuel; omega⟩
    simp only [List.append_assoc, List.cons_append, List.nil_append]
    rw [parseMembers_step hw hk hw1 hw2 hj ihj hw' (by decide) (by decide), if_pos rfl,
      ihms n r (by simpa using hfuel), Option.map_some]

/-! ## soundness -/

/-- what a value parser takes is a text -/
def Sound (d : ℕ) (value : Bytes → Option (Node × Bytes)) : Prop :=
  ∀ {s r : Bytes} {j : Node}, value s = some (j, r) → ∃ b, s = b ++ r ∧ Derives d (.value j) b

theorem Sound.skip {d : ℕ} {value : Bytes → Option (Node × Bytes)} (hv : Sound d value)
    {s r : Bytes} {j : Node} (h : value (skipWhitespace s) = some (j, r)) :
    ∃ w b, s = w ++ (b ++ r) ∧ Blank w ∧ Derives d (.value j) b := by
  obtain ⟨b, hb, hd⟩ := hv h
  obtain ⟨w, hs, hw⟩ := skipWhitespace_sound hb
  exact ⟨w, b, hs, hw, hd⟩

theorem parseString_skip {s r : Bytes} {k : CString}
    (h : parseString (skipWhitespace s) = some (k, r)) :
    ∃ w b, s = w ++ (b ++ r) ∧ Blank w ∧ StringToken k b := by
  obtain ⟨b, hb, hk⟩ := parseString_sound h
  obtain ⟨w, hs, hw⟩ := skipWhitespace_sound hb
  exact ⟨w, b, hs, hw, hk⟩

theorem parseItems_sound {d : ℕ} {value : Bytes → Option (Node × Bytes)} (hv : Sound d value)
    {fuel : ℕ} {s r : Bytes} {js : List Node} (h : parseItems value fuel s = some (js, r)) :
    ∃ b, s = b ++ 93 :: r ∧ Derives d (.items js) b := by
  induction fuel generalizing s js with
  | zero => cases h
  | succ fuel ih =>
    obtain ⟨⟨j, r1⟩, hj, hmore⟩ := Option.bind_eq_some_iff.mp h
    obtain ⟨w, b, rfl, hw, hd⟩ := hv.skip hj
    dsimp only at hmore
    split at hmore
    · cases hmore
    · next c r2 hskip =>
      split_ifs at hmore with h44 h93
      · obtain ⟨⟨js', r'⟩, hjs, heq⟩ := Option.map_eq_some_iff.mp hmore
        obtain ⟨rfl, rfl⟩ := Prod.mk.injEq .. ▸ heq
        obtain ⟨bs, rfl, hds⟩ := ih hjs
        obtain ⟨w', rfl, hw'⟩ := skipWhitespace_sound hskip
        refine ⟨_, ?_, Derives.items hw hd hw' hds⟩
        simp [h44]
      · obtain ⟨rfl, rfl⟩ := Prod.mk.injEq .. ▸ Option.some.inj hmore
        obtain ⟨w', rfl, hw'⟩ := skipWhitespace_sound hskip
        refine ⟨_, ?_, Derives.item hw hd hw'⟩
        simp [h93]

theorem parseMember_sound {d : ℕ} {value : Bytes → Option (Node × Bytes)} (hv : Sound d value)
    {s r : Bytes} {k : CString} {j : Node} (h : parseMember value s = some ((k, j), r)) :
    ∃ w kb w1 w2 b, s = w ++ (kb ++ (w1 ++ 58 :: (w2 ++ (b ++ r)))) ∧ Blank w ∧
      StringToken k kb ∧ Blank w1 ∧ Blank w2 ∧ Derives d (.value j) b := by
  obtain ⟨⟨k', r1⟩, hk, hmore⟩ := Option.bind_eq_some_iff.mp h
  obtain ⟨w, kb, rfl, hw, hkt⟩ := parseString_skip hk
  dsimp only at hmore
  split at hmore
  · cases hmore
  · next c r2 hskip =>
    split_ifs at hmore with h58
    obtain ⟨⟨j', r'⟩, hj, heq⟩ := Option.map_eq_some_iff.mp hmore
    obtain ⟨hkj, rfl⟩ := Prod.mk.injEq .. ▸ heq
    obtain ⟨rfl, rfl⟩ := Prod.mk.injEq .. ▸ hkj
    obtain ⟨w2, b, rfl, hw2, hd⟩ := hv.skip hj
    obtain ⟨w1, rfl, hw1⟩ := skipWhitespace_sound hskip
    exact ⟨w, kb, w1, w2, b, by rw [h58], hw, hkt, hw1, hw2, hd⟩

theorem parseMembers_sound {d : ℕ} {value : Bytes → Option (Node × Bytes)} (hv : Sound d value)
    {fuel : ℕ} {s r : Bytes} {ms : List (CString × Node)}
    (h : parseMembers value fuel s = some (ms, r)) :
    ∃ b, s = b ++ 125 :: r ∧ Derives d (.members ms) b := by
  induction fuel generalizing s ms with
  | zero => cases h
  | succ fuel ih =>
    cases s with
    | nil => cases h
    | cons a s =>
      obtain ⟨⟨⟨k, j⟩, r1⟩, hm, h⟩ := Option.bind_eq_some_iff.mp h
      obtain ⟨w, kb, w1, w2, b, hs, hw, hk, hw1, hw2, hd⟩ := parseMember_sound hv hm
      rw [hs]
      dsimp only at h
      split at h
      · cases h
      · next c r2 hskip =>
        split_ifs at h with h44 h125
        · obtain ⟨⟨ms', r'⟩, hms, heq⟩ := Option.map_eq_some_iff.mp h
          obtain ⟨rfl, rfl⟩ := Prod.mk.injEq .. ▸ heq
          obtain ⟨bs, rfl, hds⟩ := ih hms
          obtain ⟨w', rfl, hw'⟩ := skipWhitespace_sound hskip
          refine ⟨_, ?_, Derives.members hw hk hw1 hw2 hd hw' hds⟩
          simp [h44]
        · obtain ⟨rfl, rfl⟩ := Prod.mk.injEq .. ▸ Option.some.inj h
          obtain ⟨w', rfl, hw'⟩ := skipWhitespace_sound hskip
          refine ⟨_, ?_, Derives.member hw hk hw1 hw2 hd hw'⟩
          simp [h125]

/-- blanks may be put before elements and members -/
theorem Derives.items_blank {d : ℕ} {js : List Node} {w b : Bytes} (hw : Blank w)
    (h : Derives d (.items js) b) : Derives d (.items js) (w ++ b) := by
  have happ : ∀ {w' : Bytes}, Blank w' → Blank (w ++ w') := fun hw' c hc =>
    (List.mem_append.mp hc).elim (hw c) (hw' c)
  cases h with
  | item hw' hj hw'' =>
    rw [← List.append_assoc]
    exact .item (happ hw') hj hw''
  | items hw' hj hw'' hjs =>
    rw [← List.append_assoc]
    exact .items (happ hw') hj hw'' hjs

theorem Derives.members_blank {d : ℕ} {ms : List (CString × Node)} {w b : Bytes} (hw : Blank w)
    (h : Derives d (.members ms) b) : Derives d (.members ms) (w ++ b) := by
  have happ : ∀ {w' : Bytes}, Blank w' → Blank (w ++ w') := fun hw' c hc =>
    (List.mem_append.mp hc).elim (hw c) (hw' c)
  cases h with
  | member hw' hk hw1 hw2 hj hw'' =>
    rw [← List.append_assoc]
    exact .member (happ hw') hk hw1 hw2 hj hw''
  | members hw' hk hw1 hw2 hj hw'' hms =>
    rw [← List.append_assoc]
    exact .members (happ hw') hk hw1 hw2 hj hw'' hms

theorem parseArray_sound {d : ℕ} {value : Bytes → Option (Node × Bytes)} (hv : Sound d value)
    {s r : Bytes} {j : Node} (h : parseArray value s = some (j, r)) :
    ∃ b, 91 :: s = b ++ r ∧ Derives (d + 1) (.value j) b := by
  unfold parseArray at h
  split at h
  · cases h
  · next c r1 hskip =>
    obtain ⟨w, rfl, hw⟩ := skipWhitespace_sound hskip
    split_ifs at h with h93
    · obtain ⟨rfl, rfl⟩ := Prod.mk.injEq .. ▸ Option.some.inj h
      refine ⟨_, ?_, .emptyArray hw⟩
      simp [h93]
    · obtain ⟨⟨js, r'⟩, hjs, heq⟩ := Option.map_eq_some_iff.mp h
      obtain ⟨rfl, rfl⟩ := Prod.mk.injEq .. ▸ heq
      obtain ⟨b, hb, hd⟩ := parseItems_sound hv hjs
      refine ⟨_, ?_, .array (hd.items_blank hw)⟩
      simp [hb]

theorem parseObject_sound {d : ℕ} {value : Bytes → Option (Node × Bytes)} (hv : Sound d value)
    {s r : Bytes} {j : Node} (h : parseObject value s = some (j, r)) :
    ∃ b, 123 :: s = b ++ r ∧ Derives (d + 1) (.value j) b := by
  unfold parseObject at h
  split at h
  · cases h
  · next c r1 hskip =>
    obtain ⟨w, rfl, hw⟩ := skipWhitespace_sound hskip
    split_ifs at h with h125
    · obtain ⟨rfl, rfl⟩ := Prod.mk.injEq .. ▸ Option.some.inj h
      refine ⟨_, ?_, .emptyObject hw⟩
      simp [h125]
    · obtain ⟨⟨ms, r'⟩, hms, heq⟩ := Option.map_eq_some_iff.mp h
      obtain ⟨rfl, rfl⟩ := Prod.mk.injEq .. ▸ heq
      obtain ⟨b, hb, hd⟩ := parseMembers_sound hv hms
      refine ⟨_, ?_, .object (hd.members_blank hw)⟩
      simp [hb]

/-- the choice on the first bytes, with the two containers -/
theorem parseByFirst_sound {d : ℕ} {array object : Bytes → Option (Node × Bytes)}
    (ha : ∀ {s r : Bytes} {j : Node}, array s = some (j, r) →
      ∃ b, 91 :: s = b ++ r ∧ Derives d (.value j) b)
    (ho : ∀ {s r : Bytes} {j : Node}, object s = some (j, r) →
      ∃ b, 123 :: s = b ++ r ∧ Derives d (.value j) b) : Sound d (parseByFirst array object) := by
  intro s r j h
  have hlit : ∀ {n : ℕ} {l : Bytes}, s.take n = l → s.drop n = r → s = l ++ r := fun hl hr => by
    rw [← hl, ← hr, List.take_append_drop]
  unfold parseByFirst at h
  split_ifs at h with hn hf ht
  · obtain ⟨rfl, hr⟩ := Prod.mk.injEq .. ▸ Option.some.inj h
    exact ⟨_, hlit hn hr, .litNull⟩
  · obtain ⟨rfl, hr⟩ := Prod.mk.injEq .. ▸ Option.some.inj h
    exact ⟨_, hlit hf hr, .litFalse⟩
  · obtain ⟨rfl, hr⟩ := Prod.mk.injEq .. ▸ Option.some.inj h
    exact ⟨_, hlit ht hr, .litTrue⟩
  · cases s with
    | nil => cases h
    | cons c after =>
      dsimp only at h
      split_ifs at h with h34 hnum h91 h123
      · obtain ⟨⟨v, r'⟩, hv, heq⟩ := Option.map_eq_some_iff.mp h
        obtain ⟨rfl, rfl⟩ := Prod.mk.injEq .. ▸ heq
        obtain ⟨b, hb, hk⟩ := parseString_sound hv
        exact ⟨b, hb, .string hk⟩
      · obtain ⟨v, b, rfl, hb, hk⟩ := parseNumber_sound h ⟨c, after, rfl, hnum⟩
        exact ⟨b, hb, .number hk⟩
      · rw [h91]
        exact ha h
      · rw [h123]
        exact ho h

/-- **Soundness.** -/
theorem parseValue_sound (d : ℕ) : Sound d (parseValue d) := by
  induction d with
  | zero =>
    rw [parseValue]
    exact parseByFirst_sound (fun h => absurd h (by simp)) (fun h => absurd h (by simp))
  | succ d ih =>
    rw [parseValue]
    exact parseByFirst_sound (parseArray_sound ih) (parseObject_sound ih)

/-! ## objects -/

/-- more levels do no harm -/
theorem Derives.mono {d d' : ℕ} {p : Phrase} {b : Bytes} (h : Derives d p b) (hd : d ≤ d') :
    Derives d' p b := by
  have hsucc : ∀ {n : ℕ}, n + 1 ≤ d' → ∃ n', d' = n' + 1 ∧ n ≤ n' := fun {n} h =>
    ⟨d' - 1, by omega, by omega⟩
  induction h generalizing d' with
  | litNull => exact .litNull
  | litFalse => exact .litFalse
  | litTrue => exact .litTrue
  | number h => exact .number h
  | string h => exact .string h
  | emptyArray hw =>
    obtain ⟨n, rfl, -⟩ := hsucc hd
    exact .emptyArray hw
  | array h ih =>
    obtain ⟨n, rfl, hn⟩ := hsucc hd
    exact .array (ih hn fun h => ⟨_, (Nat.sub_add_cancel (by omega)).symm, by omega⟩)
  | emptyObject hw =>
    obtain ⟨n, rfl, -⟩ := hsucc hd
    exact .emptyObject hw
  | object h ih =>
    obtain ⟨n, rfl, hn⟩ := hsucc hd
    exact .object (ih hn fun h => ⟨_, (Nat.sub_add_cancel (by omega)).symm, by omega⟩)
  | item hw hj hw' ih => exact .item hw (ih hd hsucc) hw'
  | items hw hj hw' hjs ihj ihjs => exact .items hw (ihj hd hsucc) hw' (ihjs hd hsucc)
  | member hw hk hw1 hw2 hj hw' ih => exact .member hw hk hw1 hw2 (ih hd hsucc) hw'
  | members hw hk hw1 hw2 hj hw' hms ihj ihms =>
    exact .members hw hk hw1 hw2 (ihj hd hsucc) hw' (ihms hd hsucc)

/-- a text has at most the levels it was parsed with -/
theorem Derives.nesting_le {d : ℕ} {p : Phrase} {b : Bytes} (h : Derives d p b) :
    match p with
    | .value j => j.nesting ≤ d
    | .items js => Node.nestingItems js ≤ d
    | .members ms => Node.nestingMembers ms ≤ d := by
  induction h with
  | array h ih => exact Nat.succ_le_succ ih
  | object h ih => exact Nat.succ_le_succ ih
  | item hw hj hw' ih => exact max_le ih (Nat.zero_le _)
  | items hw hj hw' hjs ihj ihjs => exact max_le ihj ihjs
  | member hw hk hw1 hw2 hj hw' ih => exact max_le ih (Nat.zero_le _)
  | members hw hk hw1 hw2 hj hw' hms ihj ihms => exact max_le ihj ihms
  | emptyArray hw => exact Nat.succ_le_succ (Nat.zero_le _)
  | emptyObject hw => exact Nat.succ_le_succ (Nat.zero_le _)
  | _ => exact Nat.zero_le _

/-- an object is parsed whatever follows its closing brace -/
theorem Derives.parse_object {d : ℕ} {ms : List (CString × Node)} {b : Bytes}
    (h : Derives d (.value (.object ms)) b) (r : Bytes) :
    parseValue d (b ++ r) = some (.object ms, r) :=
  h.parses r fun hn => nomatch hn

/-- **No object text is cut short.**  An object text that starts another one is all of it. -/
theorem Derives.prefix_free {d d' : ℕ} {ms ms' : List (CString × Node)} {b b' : Bytes}
    (h : Derives d (.value (.object ms)) b) (h' : Derives d' (.value (.object ms')) b')
    (hp : b <+: b') : b = b' ∧ ms = ms' := by
  obtain ⟨t, rfl⟩ := hp
  have h1 := (h.mono (le_max_left d d')).parse_object t
  have h2 := (h'.mono (le_max_right d d')).parse_object []
  rw [List.append_nil, h1, Option.some_inj, Prod.mk.injEq] at h2
  obtain ⟨hms, rfl⟩ := h2
  exact ⟨(List.append_nil b).symm, by injection hms⟩

/-- object texts start and end with a brace -/
theorem Derives.object_eq {d : ℕ} {ms : List (CString × Node)} {b : Bytes}
    (h : Derives d (.value (.object ms)) b) : ∃ t, b = 123 :: (t ++ [125]) := by
  cases h with
  | emptyObject hw => exact ⟨_, rfl⟩
  | object h => exact ⟨_, rfl⟩

/-! ## whole buffers -/

/-- an optional byte order mark, and blanks -/
def Lead (lead : Bytes) : Prop :=
  ∃ bom w, lead = bom ++ w ∧ (bom = [] ∨ bom = [0xEF, 0xBB, 0xBF]) ∧ Blank w

/-- an object behind a lead is parsed, and what follows it stays -/
theorem parse_lead {d : ℕ} {ms : List (CString × Node)} {lead b : Bytes} (hl : Lead lead)
    (h : Derives d (.value (.object ms)) b) (r : Bytes) :
    parseValue d (skipWhitespace (skipUtf8Bom (lead ++ (b ++ r)))) = some (.object ms, r) := by
  obtain ⟨bom, w, rfl, hbom, hw⟩ := hl
  obtain ⟨t, rfl⟩ := h.object_eq
  have hskip : skipWhitespace (w ++ (123 :: (t ++ [125]) ++ r)) = 123 :: (t ++ [125]) ++ r := by
    rw [List.cons_append, skipWhitespace_append hw (by decide)]
  rcases hbom with rfl | rfl
  · have hno : skipUtf8Bom ([] ++ w ++ (123 :: (t ++ [125]) ++ r))
        = w ++ (123 :: (t ++ [125]) ++ r) := by
      refine if_neg fun hb => ?_
      cases w with
      | nil => exact absurd (List.cons.inj hb.2).1 (by decide)
      | cons c w =>
        have hc : c = 0xEF := (List.cons.inj hb.2).1
        have hc32 := hw c (List.mem_cons_self ..)
        rw [hc] at hc32
        exact absurd hc32 (by decide)
    rw [hno, hskip, h.parse_object]
  · have hbom : skipUtf8Bom ([0xEF, 0xBB, 0xBF] ++ w ++ (123 :: (t ++ [125]) ++ r))
        = w ++ (123 :: (t ++ [125]) ++ r) := by
      refine if_pos ⟨?_, rfl⟩
      simp only [List.length_append, List.length_cons, List.length_nil]
      omega
    rw [hbom, hskip, h.parse_object]

/-- **`cJSON_Parse` on an object.**  The string starts with an object text, after a lead; what
follows the text does not matter. -/
theorem parse_object_iff {value : CString} {ms : List (CString × Node)} :
    parse value = some (.object ms) ↔ ∃ lead b t, value.bytes = lead ++ (b ++ t) ∧ Lead lead ∧
      Derives CJSON_NESTING_LIMIT (.value (.object ms)) b := by
  unfold parse
  constructor
  · intro h
    obtain ⟨⟨j, r⟩, hp, rfl⟩ := Option.map_eq_some_iff.mp h
    obtain ⟨w, b, hs, hw, hd⟩ := Sound.skip (parseValue_sound _) hp
    -- the terminating NUL is not part of the text
    have hcut : ∀ lead, value.bytes ++ [0] = lead ++ (b ++ r) → Lead lead →
        ∃ lead b t, value.bytes = lead ++ (b ++ t) ∧ Lead lead ∧
          Derives CJSON_NESTING_LIMIT (.value (.object ms)) b := by
      intro lead heq hl
      obtain ⟨t, c, rfl⟩ | rfl := (List.eq_nil_or_concat' r).symm
      · rw [← List.append_assoc, ← List.append_assoc] at heq
        obtain ⟨heq, -⟩ := List.append_inj' heq rfl
        exact ⟨lead, b, t, by rw [heq, List.append_assoc], hl, hd⟩
      · obtain ⟨t, rfl⟩ := hd.object_eq
        rw [List.append_nil, ← List.cons_append, ← List.append_assoc] at heq
        exact absurd (List.append_inj' heq rfl).2 (by decide)
    unfold skipUtf8Bom at hs
    split_ifs at hs with hbom
    · refine hcut ([0xEF, 0xBB, 0xBF] ++ w) ?_ ⟨_, w, rfl, Or.inr rfl, hw⟩
      rw [← List.take_append_drop 3 (value.bytes ++ [0]), hs, hbom.2, List.append_assoc]
    · exact hcut w hs ⟨[], w, rfl, Or.inl rfl, hw⟩
  · rintro ⟨lead, b, t, hb, hl, hd⟩
    rw [hb, List.append_assoc, List.append_assoc, parse_lead hl hd, Option.map_some]

end CJSON
