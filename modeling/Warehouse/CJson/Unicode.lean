import Warehouse.CJson.Literals
import Warehouse.CJson.Rendered

/-!
# Trees in UTF-8

* `AllStrings`           a property of the strings of a tree, the names of members included;
* `parse_utf8`, `Derives.utf8`   of a text in UTF-8 the parser makes strings in UTF-8;
* `Node.utf8_render_iff`   a tree is printed in UTF-8 exactly when its strings are in UTF-8.
-/

namespace CJSON
open Text Numeric

/-! ## strings -/

/-- the bytes in front of the first NUL -/
theorem utf8_ofBuffer {b : Bytes} (h : Utf8 b) : Utf8 (CString.ofBuffer b).bytes := by
  show Utf8 (b.takeWhile fun c => c != 0)
  have hsplit : b.takeWhile (fun c => c != 0) ++ b.dropWhile (fun c => c != 0) = b :=
    List.takeWhile_append_dropWhile
  cases hd : b.dropWhile (fun c => c != 0) with
  | nil =>
    rw [hd, List.append_nil] at hsplit
    rw [hsplit]
    exact h
  | cons c r =>
    have hhead := List.head?_dropWhile_not (fun c : UInt8 => c != 0) b
    rw [hd] at hhead
    have hzero : c = 0 := bne_eq_false_iff_eq.mp hhead
    rw [hd, hzero] at hsplit
    rw [← hsplit] at h
    exact (h.cut (by decide)).1

theorem StringToken.utf8 {v : CString} {b r : Bytes} (h : StringToken v b) (hb : Utf8 (b ++ r)) :
    Utf8 v.bytes ∧ Utf8 r := by
  obtain ⟨body, cs, rfl, rfl, -⟩ := h.reads hb
  rw [quoted_append] at hb
  exact ⟨utf8_ofBuffer (utf8_encode cs), (hb.cut (by decide)).2⟩

/-! ## trees -/

namespace Node

mutual

/-- every string of the tree satisfies `P`, the names of the members too -/
def AllStrings (P : CString → Prop) : Node → Prop
  | string s => P s
  | array js => AllStringsItems P js
  | object ms => AllStringsMembers P ms
  | _ => True

def AllStringsItems (P : CString → Prop) : List Node → Prop
  | [] => True
  | j :: js => AllStrings P j ∧ AllStringsItems P js

def AllStringsMembers (P : CString → Prop) : List (CString × Node) → Prop
  | [] => True
  | (k, j) :: ms => P k ∧ AllStrings P j ∧ AllStringsMembers P ms

end

end Node

def Phrase.AllStrings (P : CString → Prop) : Phrase → Prop
  | .value j => j.AllStrings P
  | .items js => Node.AllStringsItems P js
  | .members ms => Node.AllStringsMembers P ms

def InUtf8 (s : CString) : Prop := Utf8 s.bytes

theorem Blank.ascii {w : Bytes} (h : Blank w) : ∀ c ∈ w, c < 128 := by
  intro c hc
  have hle := UInt8.le_iff_toNat_le.mp (h c hc)
  exact UInt8.lt_iff_toNat_lt.mpr (lt_of_le_of_lt hle (by decide))

theorem ascii_of_isNumberByte {c : UInt8} (h : isNumberByte c = true) : c < 128 := by
  simp only [isNumberByte, Bool.or_eq_true, beq_iff_eq, isDigit_iff] at h
  rcases h with ((((⟨-, h⟩ | rfl) | rfl) | rfl) | rfl) | rfl
  · exact UInt8.lt_iff_toNat_lt.mpr (lt_of_le_of_lt h (by decide))
  all_goals decide

/-- **The parser.**  In a text in UTF-8 the strings of a phrase are in UTF-8, and so is what
follows the phrase. -/
theorem Derives.utf8 {d : ℕ} {p : Phrase} {b : Bytes} (h : Derives d p b) :
    ∀ {r : Bytes}, Utf8 (b ++ r) → p.AllStrings InUtf8 ∧ Utf8 r := by
  have hone : ∀ {c : UInt8}, c < 128 → ∀ x ∈ [c], x < 128 := fun hc x hx =>
    List.mem_singleton.mp hx ▸ hc
  induction h with
  | litNull => exact fun hr => ⟨trivial, hr.drop_ascii (ascii_of_all (by decide))⟩
  | litFalse => exact fun hr => ⟨trivial, hr.drop_ascii (ascii_of_all (by decide))⟩
  | litTrue => exact fun hr => ⟨trivial, hr.drop_ascii (ascii_of_all (by decide))⟩
  | number h =>
    exact fun hr => ⟨trivial, hr.drop_ascii fun c hc => ascii_of_isNumberByte (h.bytes c hc)⟩
  | string h => exact fun hr => h.utf8 hr
  | emptyArray hw =>
    intro r hr
    simp only [List.append_assoc] at hr
    have hr := (hr.drop_ascii (hone (by decide))).drop_ascii hw.ascii
    exact ⟨trivial, hr.drop_ascii (hone (by decide))⟩
  | array h ih =>
    intro r hr
    simp only [List.append_assoc] at hr
    obtain ⟨hjs, hr⟩ := ih (hr.drop_ascii (hone (by decide)))
    exact ⟨hjs, hr.drop_ascii (hone (by decide))⟩
  | emptyObject hw =>
    intro r hr
    simp only [List.append_assoc] at hr
    have hr := (hr.drop_ascii (hone (by decide))).drop_ascii hw.ascii
    exact ⟨trivial, hr.drop_ascii (hone (by decide))⟩
  | object h ih =>
    intro r hr
    simp only [List.append_assoc] at hr
    obtain ⟨hms, hr⟩ := ih (hr.drop_ascii (hone (by decide)))
    exact ⟨hms, hr.drop_ascii (hone (by decide))⟩
  | item hw hj hw' ih =>
    intro r hr
    simp only [List.append_assoc] at hr
    obtain ⟨hj, hr⟩ := ih (hr.drop_ascii hw.ascii)
    exact ⟨⟨hj, trivial⟩, hr.drop_ascii hw'.ascii⟩
  | items hw hj hw' hjs ih ihs =>
    intro r hr
    simp only [List.append_assoc] at hr
    obtain ⟨hj, hr⟩ := ih (hr.drop_ascii hw.ascii)
    obtain ⟨hjs, hr⟩ := ihs ((hr.drop_ascii hw'.ascii).drop_ascii (hone (by decide)))
    exact ⟨⟨hj, hjs⟩, hr⟩
  | member hw hk hw1 hw2 hj hw' ih =>
    intro r hr
    simp only [List.append_assoc] at hr
    obtain ⟨hk, hr⟩ := hk.utf8 (hr.drop_ascii hw.ascii)
    have hr := (hr.drop_ascii hw1.ascii).drop_ascii (hone (by decide))
    obtain ⟨hj, hr⟩ := ih (hr.drop_ascii hw2.ascii)
    exact ⟨⟨hk, hj, trivial⟩, hr.drop_ascii hw'.ascii⟩
  | members hw hk hw1 hw2 hj hw' hms ih ihs =>
    intro r hr
    simp only [List.append_assoc] at hr
    obtain ⟨hk, hr⟩ := hk.utf8 (hr.drop_ascii hw.ascii)
    have hr := (hr.drop_ascii hw1.ascii).drop_ascii (hone (by decide))
    obtain ⟨hj, hr⟩ := ih (hr.drop_ascii hw2.ascii)
    obtain ⟨hms, hr⟩ := ihs ((hr.drop_ascii hw'.ascii).drop_ascii (hone (by decide)))
    exact ⟨⟨hk, hj, hms⟩, hr⟩

theorem skipUtf8Bom_utf8 {b : Bytes} (h : Utf8 b) : Utf8 (skipUtf8Bom b) := by
  unfold skipUtf8Bom
  split_ifs with hbom
  · rw [← List.take_append_drop 3 b, hbom.2] at h
    exact h.drop_bom
  · exact h

/-- `cJSON_Parse` makes strings in UTF-8 of a text in UTF-8 -/
theorem parse_utf8 {value : CString} {j : Node} (h : parse value = some j)
    (hv : Utf8 value.bytes) : j.AllStrings InUtf8 := by
  obtain ⟨⟨j', r⟩, hp, rfl⟩ := Option.map_eq_some_iff.mp h
  obtain ⟨w, b, hs, hw, hd⟩ := Sound.skip (parseValue_sound _) hp
  have hutf := skipUtf8Bom_utf8 (hv.append (utf8_singleton (show (0 : UInt8) < 128 by decide)))
  rw [hs] at hutf
  exact (hd.utf8 (hutf.drop_ascii hw.ascii)).1

/-! ## printed texts -/

theorem hex4_hex4 {n : ℕ} (h : n < 0x10000) : Hex4 (hex4 n) n := by
  have hd : ∀ k, hexValue (hexDigit (k % 16)) = some (k % 16) := fun k =>
    hexValue_hexDigit (Nat.mod_lt _ (by norm_num))
  exact ⟨_, _, _, _, _, _, _, _, rfl, hd _, hd _, hd _, hd _, by omega⟩

theorem escape_ascii {c : UInt8} (h : c < 128) : Utf8 (escape c) := by
  rcases escape_cases c with ⟨-, -, -, he, -⟩ | hs | ⟨hc, he, -⟩
  · rw [he]
    exact utf8_singleton h
  · refine utf8_of_ascii (ascii_of_all ?_)
    rcases hs with rfl | rfl | rfl | rfl | rfl | rfl | rfl <;> decide
  · rw [he]
    have hlt : c.toNat < 0x10000 := c.toNat_lt.trans (by norm_num)
    exact Utf8.append (a := [92, 117]) (utf8_of_ascii (ascii_of_all (by decide)))
      (utf8_of_ascii (hex4_hex4 hlt).ascii)

/-- from 128 on nothing is escaped -/
theorem escape_of_not_ascii {c : UInt8} (h : ¬ c < 128) : escape c = [c] := by
  rcases escape_cases c with ⟨-, -, -, he, -⟩ | hs | ⟨hc, -, -⟩
  · exact he
  · rcases hs with rfl | rfl | rfl | rfl | rfl | rfl | rfl <;> exact absurd (by decide) h
  · exact absurd (UInt8.lt_trans hc (by decide)) h

theorem utf8_escaped {s : Bytes} (h : Utf8 s) : Utf8 (escaped s) := by
  obtain ⟨cs, rfl⟩ := h
  induction cs with
  | nil => exact utf8_nil
  | cons ch cs ih =>
    unfold escaped at ih ⊢
    rw [List.flatMap_cons, List.flatMap_append]
    refine Utf8.append ?_ ih
    rcases encode_cases ch with ⟨c, hc, he, -⟩ | hbig
    · rw [he, List.flatMap_singleton]
      exact escape_ascii hc
    · have hcopy : (String.utf8EncodeChar ch).flatMap escape = String.utf8EncodeChar ch := by
        calc (String.utf8EncodeChar ch).flatMap escape
            = (String.utf8EncodeChar ch).flatMap fun c => [c] :=
              List.flatMap_congr fun c hc => escape_of_not_ascii (hbig c hc)
          _ = String.utf8EncodeChar ch := List.flatMap_singleton' _
      rw [hcopy]
      exact utf8_char ch

theorem utf8_stringText {s : CString} (h : InUtf8 s) : Utf8 (stringText s) :=
  (utf8_singleton (c := 34) (by decide)).append
    ((utf8_escaped h).append (utf8_singleton (by decide)))

namespace Node

theorem allStrings_of_mem {P : CString → Prop} {m : CString × Node} {ms : List (CString × Node)}
    (h : AllStrings P (object ms)) (hm : m ∈ ms) : m.2.AllStrings P := by
  replace h : AllStringsMembers P ms := h
  induction ms with
  | nil => cases hm
  | cons x ms ih =>
    obtain ⟨k, j⟩ := x
    obtain ⟨-, hj, hms⟩ := h
    rcases List.mem_cons.mp hm with rfl | hm
    · exact hj
    · exact ih hm hms

theorem utf8_renderItems {js : List Node} (ih : ∀ j ∈ js, j.AllStrings InUtf8 → Utf8 (render j))
    (h : AllStringsItems InUtf8 js) : Utf8 (renderItems js) := by
  induction js with
  | nil => exact utf8_nil
  | cons j js ihjs =>
    rw [renderItems]
    refine (ih j (List.mem_cons_self ..) h.1).append (Utf8.append ?_
      (ihjs (fun x hx => ih x (List.mem_cons_of_mem _ hx)) h.2))
    split_ifs
    · exact utf8_nil
    · exact utf8_singleton (by decide)

theorem utf8_renderMembers {ms : List (CString × Node)}
    (ih : ∀ m ∈ ms, m.2.AllStrings InUtf8 → Utf8 (render m.2))
    (h : AllStringsMembers InUtf8 ms) : Utf8 (renderMembers ms) := by
  induction ms with
  | nil => exact utf8_nil
  | cons m ms ihms =>
    obtain ⟨k, j⟩ := m
    obtain ⟨hk, hj, hms⟩ := h
    rw [renderMembers]
    refine (utf8_stringText hk).append ((utf8_singleton (c := 58) (by decide)).append
      (Utf8.append (ih (k, j) (List.mem_cons_self ..) hj) (Utf8.append ?_
        (ihms (fun x hx => ih x (List.mem_cons_of_mem _ hx)) hms))))
    split_ifs
    · exact utf8_nil
    · exact utf8_singleton (by decide)

theorem utf8_numberText (x : Binary64) : Utf8 (numberText x) := by
  have hnum : ∀ {b : Bytes}, (∀ c ∈ b, isNumberByte c = true) → Utf8 b := fun hb =>
    utf8_of_ascii fun c hc => ascii_of_isNumberByte (hb c hc)
  rcases numberText_cases x with ⟨q, h, -, e | e | e⟩ | ⟨-, e⟩ <;> rw [e]
  · exact hnum isNumberByte_numeral
  · exact hnum isNumberByte_formatG
  · exact hnum isNumberByte_formatG
  · exact utf8_of_ascii (ascii_of_all (by decide))

theorem utf8_render (j : Node) : j.AllStrings InUtf8 → Utf8 (render j) := by
  induction j using induct with
  | null => exact fun _ => utf8_of_ascii (ascii_of_all (by decide))
  | bool b => cases b <;> exact fun _ => utf8_of_ascii (ascii_of_all (by decide))
  | number x => exact fun _ => utf8_numberText x
  | string s => exact fun h => utf8_stringText h
  | array js ih =>
    exact fun h => (utf8_singleton (c := 91) (by decide)).append
      ((utf8_renderItems ih h).append (utf8_singleton (by decide)))
  | object ms ih =>
    exact fun h => (utf8_singleton (c := 123) (by decide)).append
      ((utf8_renderMembers ih h).append (utf8_singleton (by decide)))

/-- reading a text back keeps the strings -/
theorem allStrings_of_reread {P : CString → Prop} (j : Node) :
    j.reread.AllStrings P → j.AllStrings P := by
  induction j using induct with
  | null => exact id
  | bool b => exact id
  | number d => exact fun _ => trivial
  | string s => exact id
  | array js ih =>
    intro h
    replace h : AllStringsItems P (rereadItems js) := h
    show AllStringsItems P js
    induction js with
    | nil => trivial
    | cons j js ihjs =>
      exact ⟨ih j (List.mem_cons_self ..) h.1,
        ihjs (fun x hx => ih x (List.mem_cons_of_mem _ hx)) h.2⟩
  | object ms ih =>
    intro h
    replace h : AllStringsMembers P (rereadMembers ms) := h
    show AllStringsMembers P ms
    induction ms with
    | nil => trivial
    | cons m ms ihms =>
      obtain ⟨k, j⟩ := m
      obtain ⟨hk, hj, hms⟩ := h
      exact ⟨hk, ih (k, j) (List.mem_cons_self ..) hj,
        ihms (fun x hx => ih x (List.mem_cons_of_mem _ hx)) hms⟩

/-- **The printer.**  A text is in UTF-8 exactly when the strings of the tree are. -/
theorem utf8_render_iff (j : Node) : Utf8 (render j) ↔ j.AllStrings InUtf8 := by
  constructor
  · intro h
    have hd := derives_render j j.nesting le_rfl
    rw [← List.append_nil (render j)] at h
    exact allStrings_of_reread j (hd.utf8 h).1
  · exact utf8_render j

end Node

end CJSON
