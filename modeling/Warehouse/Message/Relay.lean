import Warehouse.Message.Acceptance
import Warehouse.CJson.Stable
import Warehouse.CJson.Unicode

/-!
# Messages that are passed on

A message that was received and is sent again.  Its text may differ from what was received: names
that are not known are dropped, blanks and escapes are gone.  From then on the text stays.

* `relay`                what is received is sent again;
* `encoding_reread`      the encoding of a decoded encoding;
* `relay_stable_iff`     when a text that was passed on once stays as it is;
* `relay_utf8`           when a text is passed on in UTF-8.
-/

namespace Hub
open Text Numeric CJSON

namespace Message

/-- `fromJSONString`, then `toJSONString` -/
def relay (text : Bytes) : Except Exn Bytes := fromJSONString text >>= toJSONString

/-- the message in an encoding -/
theorem fromJSONString_encoding_reread {m : Message} (hw : m.Wide) {ms : List (CString × Node)}
    (hms : m.content = some (.object ms)) (hlevels : (Node.object ms).nesting ≤ 999) :
    fromJSONString m.encoding = .ok { m with content := some (Node.object ms).reread } := by
  have hcont : m.content.bind Node.duplicate = some (.object ms) := by
    rw [hms, Option.bind_some]
    exact duplicate_of_nesting hlevels
  have hnest : m.root.nesting ≤ CJSON_NESTING_LIMIT := by
    rw [root_eq, rootMembers, hcont]
    show max 0 (max 0 (max 0 (max (Node.object ms).nesting 0))) + 1 ≤ 1000
    omega
  have hdup : (Node.object (Node.rereadMembers ms)).duplicate =
      some (Node.object (Node.rereadMembers ms)) := by
    apply duplicate_of_nesting
    have h : (Node.object ms).reread.nesting ≤ 999 := (Node.nesting_reread _).trans_le hlevels
    exact h
  have hmembers : ofMembers (Node.rereadMembers m.rootMembers)
      = some { m with content := some (Node.object ms).reread } := by
    rw [rereadMembers_rootMembers hw, ofMembers_four hw.clientID hw.type hw.subType, hcont]
    show some (Message.mk _ _ _ (Node.object (Node.rereadMembers ms)).duplicate) = _
    rw [hdup]
    rfl
  refine fromJSONString_ok_iff.mpr ⟨[], m.encoding, [], ?_, lead_nil,
    _, derives_encoding m hnest, hmembers⟩
  rw [List.nil_append, List.append_nil]
  exact ofBuffer_of_nulFree (Node.nulFree_render m.root)

/-- the text of the content, between that of the header and the end -/
theorem encoding_of_content {m : Message} (hw : m.Wide) : ∃ lead, ∀ c : Node, c.nesting ≤ 999 →
    Message.encoding { m with content := some c } = lead ++ (c.render ++ ascii ['}']) := by
  refine ⟨ascii ['{', '"', 'c', 'l', 'i', 'e', 'n', 't', 'I', 'D', '"', ':'] ++ (numeral m.clientID
      ++ (ascii [',', '"', 't', 'y', 'p', 'e', '"', ':'] ++ (numeral m.type
      ++ (ascii [',', '"', 's', 'u', 'b', 'T', 'y', 'p', 'e', '"', ':'] ++ (numeral m.subType
      ++ ascii [',', '"', 'c', 'o', 'n', 't', 'e', 'n', 't', '"', ':']))))), fun c hc => ?_⟩
  have hw' : Wide { m with content := some c } := ⟨hw.clientID, hw.type, hw.subType⟩
  rw [encoding_eq hw']
  dsimp only
  rw [Option.bind_some, duplicate_of_nesting hc]
  simp only [List.append_assoc]

/-- the encoding of a message read back is shorter, or the same -/
theorem encoding_reread {m : Message} (hw : m.Wide) {ms : List (CString × Node)}
    (hms : m.content = some (.object ms)) (hlevels : (Node.object ms).nesting ≤ 999) :
    Node.Rereads ((Node.object ms).AllNumbers Node.Moderate) m.encoding
      (Message.encoding { m with content := some (Node.object ms).reread }) := by
  obtain ⟨lead, hlead⟩ := encoding_of_content hw
  have hm : m.encoding = lead ++ ((Node.object ms).render ++ ascii ['}']) := by
    rw [← hlead _ hlevels, ← hms]
  rw [hm, hlead _ ((Node.nesting_reread _).trans_le hlevels)]
  exact (Node.rereads (.object ms)).around lead (ascii ['}'])

/-- **A text that was passed on once stays as it is.**  Whatever was received, the text that is sent
for it is sent again for itself, exactly when no number of its content is too large for its digits. -/
theorem relay_stable_iff {s text : Bytes} {m : Message} (hs : fromJSONString s = .ok m)
    (ht : m.toJSONString = .ok text) :
    relay text = .ok text ↔ ∀ c, m.content = some c → c.AllNumbers Node.Moderate := by
  obtain ⟨hw, ms, hms, hlevels, -⟩ := decoded hs
  have htext := toJSONString_ok ht
  have hread := fromJSONString_encoding_reread hw hms hlevels
  have hrereads := encoding_reread hw hms hlevels
  have hrelay : relay text = Message.toJSONString { m with content := some (Node.object ms).reread } := by
    unfold relay
    rw [htext, hread]
    rfl
  have hall : (∀ c, m.content = some c → c.AllNumbers Node.Moderate) ↔
      (Node.object ms).AllNumbers Node.Moderate := by
    rw [hms]
    exact ⟨fun h => h _ rfl, fun h c hc => Option.some.inj hc ▸ h⟩
  rw [hrelay, hall, ← hrereads.eq_iff, htext]
  constructor
  · exact fun h => (toJSONString_ok h).symm
  · intro h
    have hm := ht
    rw [toJSONString_eq] at hm ⊢
    rw [h]
    split_ifs at hm ⊢
    rfl

/-- the text of an order is passed on as it is -/
theorem relay_stable_small : relay orderMessage.encoding = .ok orderMessage.encoding := by
  have hlen := length_orderMessage
  have hprint : orderMessage.toJSONString = .ok orderMessage.encoding := by
    rw [toJSONString_eq, if_pos (by unfold INT_MAX; omega)]
  obtain ⟨text, ht, hm⟩ := fromJSONString_encoding orderMessage_sendable (hlen.trans (by norm_num))
  rw [toJSONString_ok ht] at hm
  refine (relay_stable_iff (m := orderMessage) hm hprint).mpr fun c hc => ?_
  rw [← Option.some.inj hc]
  have hfive : Node.Moderate (Binary64.ofInt 5) := by
    rw [Binary64.ofInt_eq (by norm_num)]
    exact Node.moderate_of_le_ten _ (by norm_num)
  exact ⟨⟨⟨hfive, trivial⟩, trivial, trivial⟩, trivial, trivial⟩

/-! ## texts in UTF-8 -/

/-- the names and numbers of the header are ASCII -/
theorem utf8_encoding_iff (m : Message) : Utf8 m.encoding ↔
    ∀ c, m.content.bind Node.duplicate = some c → c.AllStrings InUtf8 := by
  have hkeys : InUtf8 clientIDKey ∧ InUtf8 typeKey ∧ InUtf8 subTypeKey ∧ InUtf8 contentKey :=
    ⟨utf8_of_ascii (ascii_of_all (by decide)), utf8_of_ascii (ascii_of_all (by decide)),
      utf8_of_ascii (ascii_of_all (by decide)), utf8_of_ascii (ascii_of_all (by decide))⟩
  obtain ⟨k1, k2, k3, k4⟩ := hkeys
  rw [encoding, Node.utf8_render_iff, root_eq, rootMembers]
  cases m.content.bind Node.duplicate with
  | none =>
    refine iff_of_true ⟨k1, trivial, k2, trivial, k3, trivial, trivial⟩ ?_
    intro c hc
    cases hc
  | some c =>
    constructor
    · rintro ⟨-, -, -, -, -, -, -, hc, -⟩ c' hc'
      exact Option.some.inj hc' ▸ hc
    · exact fun h => ⟨k1, trivial, k2, trivial, k3, trivial, k4, h c rfl, trivial⟩

/-- the content of a text in UTF-8 -/
theorem decoded_utf8 {s : Bytes} {m : Message} (h : fromJSONString s = .ok m) (hs : Utf8 s) :
    ∀ c, m.content = some c → c.AllStrings InUtf8 := by
  obtain ⟨lead, b, t, hb, hl, ms, hd, hm⟩ := fromJSONString_ok_iff.mp h
  have hp := parse_object_iff.mpr ⟨lead, b, t, hb, hl, hd⟩
  have hall : (Node.object ms).AllStrings InUtf8 := parse_utf8 hp (utf8_ofBuffer hs)
  unfold ofMembers at hm
  split at hm
  · next id type subType cs hid htype hsub hcont =>
    obtain rfl := Option.some.inj hm
    obtain ⟨k, hk⟩ := mem_of_getObjectItemWith hcont
    intro c hc
    rw [Node.duplicate_some hc]
    exact Node.allStrings_of_mem hall hk
  · cases hm

/-- **Characters are passed on.**  The text that is sent for a message that was received is in
UTF-8 exactly when the strings of its content are, as they are when the text that was received is
in UTF-8. -/
theorem relay_utf8 {s text : Bytes} {m : Message} (hs : fromJSONString s = .ok m)
    (ht : m.toJSONString = .ok text) :
    (Utf8 text ↔ ∀ c, m.content = some c → c.AllStrings InUtf8) ∧ (Utf8 s → Utf8 text) := by
  obtain ⟨-, cs, hcs, hlevels, -⟩ := decoded hs
  have hiff : Utf8 text ↔ ∀ c, m.content = some c → c.AllStrings InUtf8 := by
    rw [toJSONString_ok ht, utf8_encoding_iff, hcs, Option.bind_some, duplicate_of_nesting hlevels]
  exact ⟨hiff, fun hutf => hiff.mpr (decoded_utf8 hs hutf)⟩

/-- an accented letter -/
def accentMessage : Message :=
  ⟨1, 0, 2, some (.object [(.lit ['k'], .string (CString.ofBuffer [0xC3, 0xA9]))])⟩

theorem relay_utf8_accent : Utf8 accentMessage.encoding := by
  have hw : accentMessage.Wide := ⟨by decide, by decide, by decide⟩
  have hread := fromJSONString_encoding_reread hw rfl (by decide)
  have hlen : accentMessage.encoding.length ≤ 100 + 15 := length_encoding_le hw fun c hc => by
    rw [← Option.some.inj hc]
    decide
  have hprint : accentMessage.toJSONString = .ok accentMessage.encoding := by
    rw [toJSONString_eq, if_pos (by unfold INT_MAX; omega)]
  refine (relay_utf8 (m := accentMessage) hread hprint).1.mpr fun c hc => ?_
  rw [← Option.some.inj hc]
  exact ⟨utf8_of_ascii (ascii_of_all (by decide)), utf8_char (Char.ofNat 0xE9), trivial⟩

end Message

end Hub
