import Warehouse.Message.Model

/-!
# The round trip of a message

* `Sendable`        32 bit header fields, an object of at most 999 levels as content, whole numbers
                    below `10^15`;
* `messageText_encoding`   the encoding of such a message is a text of it;
* `round_trip`      it is decoded to itself, and what is decoded is such a message, as long as the
                    text fits the print buffer;
* `decoded`, `toJSONString_decoded`   what a decoded message looks like; the encoder takes it.
-/

namespace Hub
open Text Numeric CJSON

namespace Message

structure Sendable (m : Message) : Prop where
  wide : m.Wide
  object : ∃ ms, m.content = some (.object ms)
  levels : ∀ c, m.content = some c → c.nesting ≤ 999
  numbers : ∀ c, m.content = some c → c.AllNumbers Node.WholeNumber

/-- an `int` is a whole number of at most ten digits -/
theorem wholeNumber_ofInt {i : ℤ} (h : INT_MIN ≤ i ∧ i ≤ INT_MAX) :
    Node.WholeNumber (Binary64.ofInt i) := by
  unfold INT_MIN INT_MAX at h
  exact ⟨i, by norm_num; omega, rfl⟩

/-- the four members of a message -/
theorem ofMembers_four {a b c : ℤ} (ha : INT_MIN ≤ a ∧ a ≤ INT_MAX) (hb : INT_MIN ≤ b ∧ b ≤ INT_MAX)
    (hc : INT_MIN ≤ c ∧ c ≤ INT_MAX) (content : Option Node) :
    ofMembers ([(clientIDKey, .number (Binary64.ofInt a)), (typeKey, .number (Binary64.ofInt b)),
      (subTypeKey, .number (Binary64.ofInt c))] ++ (content.map fun j => (contentKey, j)).toList)
    = match content with
      | some (.object ms) => some ⟨a, b, c, (Node.object ms).duplicate⟩
      | _ => none := by
  generalize hlist : [(clientIDKey, Node.number (Binary64.ofInt a)),
    (typeKey, .number (Binary64.ofInt b)), (subTypeKey, .number (Binary64.ofInt c))]
    ++ (content.map fun j => (contentKey, j)).toList = members
  have hget : ∀ name : CString, getObjectItemCaseSensitive (.object members) name =
        if name = clientIDKey then some (.number (Binary64.ofInt a))
        else if name = typeKey then some (.number (Binary64.ofInt b))
        else if name = subTypeKey then some (.number (Binary64.ofInt c))
        else if name = contentKey then content
        else none := by
    intro name
    rw [← hlist]
    unfold getObjectItemCaseSensitive getObjectItemWith
    cases content with
    | none =>
      simp only [Option.map_none, Option.toList_none, List.append_nil, List.find?_cons,
        List.find?_nil]
      split_ifs <;> simp_all
    | some j =>
      simp only [Option.map_some, Option.toList_some, List.cons_append, List.nil_append,
        List.find?_cons, List.find?_nil]
      split_ifs <;> simp_all
  have hne : typeKey ≠ clientIDKey ∧ subTypeKey ≠ clientIDKey ∧ subTypeKey ≠ typeKey ∧
      contentKey ≠ clientIDKey ∧ contentKey ≠ typeKey ∧ contentKey ≠ subTypeKey := by decide
  obtain ⟨h1, h2, h3, h4, h5, h6⟩ := hne
  have hid := hget clientIDKey
  have htype := hget typeKey
  have hsub := hget subTypeKey
  have hcont := hget contentKey
  rw [if_pos rfl] at hid
  rw [if_neg h1, if_pos rfl] at htype
  rw [if_neg h2, if_neg h3, if_pos rfl] at hsub
  rw [if_neg h4, if_neg h5, if_neg h6, if_pos rfl] at hcont
  unfold ofMembers
  rw [hid, htype, hsub, hcont]
  rcases content with _ | j
  · rfl
  · cases j with
    | object ms =>
      dsimp only
      rw [valueint_ofInt ha.1 ha.2, valueint_ofInt hb.1 hb.2, valueint_ofInt hc.1 hc.2]
    | _ => rfl

/-- the members that were put there are found again -/
theorem ofMembers_root {m : Message} (hw : m.Wide) {ms : List (CString × Node)}
    (hc : m.content.bind Node.duplicate = some (.object ms)) :
    ofMembers m.rootMembers = some { m with content := (Node.object ms).duplicate } := by
  rw [rootMembers, ofMembers_four hw.clientID hw.type hw.subType, hc]

/-- the members the encoding is read back to -/
theorem rereadMembers_rootMembers {m : Message} (hw : m.Wide) :
    Node.rereadMembers m.rootMembers
      = [(clientIDKey, .number (Binary64.ofInt m.clientID)),
        (typeKey, .number (Binary64.ofInt m.type)),
        (subTypeKey, .number (Binary64.ofInt m.subType))]
        ++ (((m.content.bind Node.duplicate).map Node.reread).map fun j =>
          (contentKey, j)).toList := by
  have hnum : ∀ {i : ℤ}, INT_MIN ≤ i ∧ i ≤ INT_MAX →
      (Node.number (Binary64.ofInt i)).reread = .number (Binary64.ofInt i) := fun hi =>
    Node.rereadNumber_whole (wholeNumber_ofInt hi)
  unfold rootMembers
  cases m.content.bind Node.duplicate with
  | none => simp [Node.rereadMembers, hnum hw.clientID, hnum hw.type, hnum hw.subType]
  | some c => simp [Node.rereadMembers, hnum hw.clientID, hnum hw.type, hnum hw.subType]

/-- what is found in these members -/
theorem ofMembers_reread {m m' : Message} (hw : m.Wide)
    (h : ofMembers (Node.rereadMembers m.rootMembers) = some m') :
    ∃ c, m.content = some c ∧ m' = { m with content := c.reread.duplicate } := by
  rw [rereadMembers_rootMembers hw, ofMembers_four hw.clientID hw.type hw.subType] at h
  split at h
  · next ms hms =>
    obtain ⟨c0, hc0, hre⟩ := Option.map_eq_some_iff.mp hms
    obtain ⟨c, hc, hdup⟩ := Option.bind_eq_some_iff.mp hc0
    rw [Node.duplicate_some hdup] at hre
    exact ⟨c, hc, by rw [hre]; exact (Option.some.inj h).symm⟩
  · cases h

/-- the limit on copies is far above the limit on parsing -/
theorem duplicate_of_nesting {c : Node} (h : c.nesting ≤ 999) : c.duplicate = some c :=
  Node.duplicate_eq (c.height_le_nesting.trans (h.trans (by decide)))

theorem messageText_encoding {m : Message} (h : m.Sendable) : MessageText m m.encoding := by
  obtain ⟨ms, hms⟩ := h.object
  have hlevels : (Node.object ms).nesting ≤ 999 := h.levels _ hms
  have hdup := duplicate_of_nesting hlevels
  have hcont : m.content.bind Node.duplicate = some (.object ms) := by
    rw [hms, Option.bind_some, hdup]
  have hroot : m.rootMembers = [(clientIDKey, .number (Binary64.ofInt m.clientID)),
      (typeKey, .number (Binary64.ofInt m.type)), (subTypeKey, .number (Binary64.ofInt m.subType)),
      (contentKey, .object ms)] := by
    rw [rootMembers, hcont]
    rfl
  have hnest : m.root.nesting ≤ CJSON_NESTING_LIMIT := by
    rw [root_eq, hroot]
    simp only [Node.nesting, Node.nestingMembers] at hlevels ⊢
    unfold CJSON_NESTING_LIMIT
    omega
  have hnumbers : m.root.AllNumbers Node.WholeNumber := by
    rw [root_eq, hroot]
    exact ⟨wholeNumber_ofInt h.wide.clientID, wholeNumber_ofInt h.wide.type,
      wholeNumber_ofInt h.wide.subType, h.numbers _ hms, trivial⟩
  refine ⟨m.rootMembers, ?_, ?_⟩
  · have hd := Node.derives_render m.root _ hnest
    rw [Node.reread_eq_self m.root hnumbers] at hd
    rw [← root_eq]
    exact hd
  · rw [ofMembers_root h.wide hcont, hdup, ← hms]

/-- an encoding that fits the print buffer comes back -/
theorem fromJSONString_encoding {m : Message} (h : m.Sendable)
    (hlen : m.encoding.length ≤ 2147483645) :
    ∃ text, m.toJSONString = .ok text ∧ fromJSONString text = .ok m := by
  refine ⟨m.encoding, ?_, fromJSONString_ok_iff.mpr ⟨[], m.encoding, [], ?_, ?_, ?_⟩⟩
  · rw [toJSONString_eq, if_pos (by unfold INT_MAX; omega)]
  · rw [List.nil_append, List.append_nil]
    exact ofBuffer_of_nulFree (Node.nulFree_render m.root)
  · exact ⟨[], [], rfl, Or.inl rfl, blank_nil⟩
  · exact messageText_encoding h

/-- what the decoder returns: header fields of the type `int`, and an object from the text -/
theorem decoded {s : Bytes} {m : Message} (h : fromJSONString s = .ok m) :
    m.Wide ∧ ∃ cs, m.content = some (.object cs) ∧ (Node.object cs).nesting ≤ 999 ∧
      (Node.object cs).render.length ≤ 25 * s.length := by
  obtain ⟨lead, b, t, hs, -, ms, hd, hm⟩ := fromJSONString_ok_iff.mp h
  unfold ofMembers at hm
  split at hm
  · next id type subType cs hid htype hsub hcont =>
    obtain rfl := Option.some.inj hm
    obtain ⟨k, hk⟩ := mem_of_getObjectItemWith hcont
    have hcs : (Node.object cs).nesting ≤ 999 := by
      have hle : (Node.object cs).nesting ≤ _ := Node.nesting_le_of_mem hk
      have hroot : (Node.object ms).nesting ≤ CJSON_NESTING_LIMIT := hd.nesting_le
      rw [Node.nesting] at hroot
      unfold CJSON_NESTING_LIMIT at hroot
      omega
    have hlen : (Node.object cs).render.length ≤ 25 * s.length := by
      have h1 : (Node.object cs).render.length ≤ _ := Node.length_render_le_of_mem hk
      have h2 : (Node.object ms).render.length ≤ 25 * b.length := hd.length_render_le
      have h3 : (CString.ofBuffer s).bytes.length ≤ s.length :=
        (List.takeWhile_prefix _).length_le
      rw [hs, List.length_append, List.length_append] at h3
      omega
    exact ⟨⟨valueint_range _, valueint_range _, valueint_range _⟩, cs, duplicate_of_nesting hcs,
      hcs, hlen⟩
  · cases hm

/-- what was decoded can be sent again -/
theorem sendable_of_decoded {s : Bytes} {m : Message} (h : fromJSONString s = .ok m)
    (hnum : ∀ c, m.content = some c → c.AllNumbers Node.WholeNumber) : m.Sendable := by
  obtain ⟨hw, cs, hcs, hnest, -⟩ := decoded h
  exact ⟨hw, ⟨cs, hcs⟩, fun c hc => Option.some.inj (hcs.symm.trans hc) ▸ hnest, hnum⟩

/-- a decoded message is copied as it is -/
theorem copy_decoded {s : Bytes} {m : Message} (h : fromJSONString s = .ok m) : m.copy = m := by
  obtain ⟨-, cs, hcs, hnest, -⟩ := decoded h
  unfold copy
  rw [hcs, Option.bind_some, duplicate_of_nesting hnest, ← hcs]

/-- what an encoding needs besides the text of the content -/
theorem length_encoding_le {m : Message} (hw : m.Wide) {n : ℕ}
    (hc : ∀ c, m.content = some c → c.render.length ≤ n) : m.encoding.length ≤ 100 + n := by
  have h1 := length_numeral_le hw.clientID
  have h2 := length_numeral_le hw.type
  have h3 := length_numeral_le hw.subType
  rw [encoding_eq hw]
  cases hd : m.content.bind Node.duplicate with
  | none =>
    simp only [List.length_append, ascii, List.length_map, List.length_cons, List.length_nil]
    omega
  | some c =>
    obtain ⟨c0, hc0, hdup⟩ := Option.bind_eq_some_iff.mp hd
    have hlen := hc c0 hc0
    rw [← Node.duplicate_some hdup] at hlen
    simp only [List.length_append, ascii, List.length_map, List.length_cons, List.length_nil]
    omega

/-- a message decoded from a text of moderate length has an encoding -/
theorem toJSONString_decoded {s : Bytes} {m : Message} (h : fromJSONString s = .ok m)
    (hs : s.length ≤ 2 ^ 26) : m.toJSONString = .ok m.encoding := by
  obtain ⟨hw, cs, hcs, -, hlen⟩ := decoded h
  have henc : m.encoding.length ≤ 100 + (Node.object cs).render.length :=
    length_encoding_le hw fun c hc => by rw [Option.some.inj (hc.symm.trans hcs)]
  rw [toJSONString_eq, if_pos (by unfold INT_MAX; omega)]

/-- **The round trip.**  A message is decoded from its own encoding, and every decoded message is
one for which that holds, while the encoding fits the print buffer. -/
theorem round_trip :
    (∀ m : Message, m.Sendable → m.encoding.length ≤ 2147483645 →
      ∃ text, m.toJSONString = .ok text ∧ fromJSONString text = .ok m) ∧
    (∀ (s : Bytes) (m : Message), fromJSONString s = .ok m →
      (∀ c, m.content = some c → c.AllNumbers Node.WholeNumber) →
      m.Sendable ∧ (m.encoding.length ≤ 2147483645 →
        ∃ text, m.toJSONString = .ok text ∧ fromJSONString text = fromJSONString s)) := by
  refine ⟨fun m h hlen => fromJSONString_encoding h hlen, fun s m hs hnum => ?_⟩
  have hm := sendable_of_decoded hs hnum
  refine ⟨hm, fun hlen => ?_⟩
  obtain ⟨text, ht, hd⟩ := fromJSONString_encoding hm hlen
  exact ⟨text, ht, hd.trans hs.symm⟩

/-- a small message: an empty content -/
def smallMessage : Message := ⟨1, 0, 2, some (.object [])⟩

theorem smallMessage_sendable : smallMessage.Sendable :=
  ⟨⟨by decide, by decide, by decide⟩, ⟨[], rfl⟩, fun c hc => by rw [← Option.some.inj hc]; decide,
    fun c hc => by rw [← Option.some.inj hc]; exact trivial⟩

theorem smallMessage_encoding : smallMessage.encoding =
    ascii ("\x7b\"clientID\":1,\"type\":0,\"subType\":2,\"content\":\x7b\x7d\x7d".toList) := by
  rw [encoding_eq smallMessage_sendable.wide]
  decide

/-- an order: five of product 7, and a remark -/
def orderMessage : Message :=
  ⟨2, 3, 1, some (.object [
    (.lit ['i', 't', 'e', 'm', 's'],
      .array [.object [(.lit ['7'], .number (Binary64.ofInt 5))], .null]),
    (.lit ['r', 'e', 'm', 'a', 'r', 'k'], .string (.lit ['s', 'o', 'o', 'n']))])⟩

theorem orderMessage_sendable : orderMessage.Sendable :=
  ⟨⟨by decide, by decide, by decide⟩, ⟨_, rfl⟩, fun c hc => by rw [← Option.some.inj hc]; decide,
    fun c hc => by
      rw [← Option.some.inj hc]
      exact ⟨⟨⟨⟨5, by decide, rfl⟩, trivial⟩, trivial, trivial⟩, trivial, trivial⟩⟩

theorem length_orderMessage : orderMessage.encoding.length ≤ 200 := by
  refine length_encoding_le (n := 100) orderMessage_sendable.wide fun c hc => ?_
  have hfive : numberText (Binary64.ofInt 5) = numeral 5 := numberText_ofInt (by decide)
  rw [← Option.some.inj hc]
  simp only [Node.render, Node.renderMembers, Node.renderItems, hfive]
  decide

/-- the hypotheses can be met, of both halves -/
theorem round_trip_small :
    (∃ text, orderMessage.toJSONString = .ok text ∧ fromJSONString text = .ok orderMessage) ∧
    ∃ text, orderMessage.toJSONString = .ok text ∧
      fromJSONString text = fromJSONString orderMessage.encoding := by
  have hlen : orderMessage.encoding.length ≤ 2147483645 :=
    length_orderMessage.trans (by norm_num)
  obtain ⟨text, ht, hm⟩ := round_trip.1 orderMessage orderMessage_sendable hlen
  obtain rfl := toJSONString_ok ht
  refine ⟨⟨_, ht, hm⟩, ?_⟩
  exact (round_trip.2 orderMessage.encoding orderMessage hm orderMessage_sendable.numbers).2 hlen

/-- a content with one string of `n` bytes -/
def longMessage (n : ℕ) : Message :=
  ⟨1, 0, 2, some (.object [(.lit ['k'], .string ⟨List.replicate n 97, fun b hb => by
    rw [List.eq_of_mem_replicate hb]; decide⟩)])⟩

theorem longMessage_sendable (n : ℕ) : (longMessage n).Sendable :=
  ⟨⟨by simp only [longMessage]; decide, by simp only [longMessage]; decide,
    by simp only [longMessage]; decide⟩, ⟨_, rfl⟩,
    fun c hc => by rw [← Option.some.inj hc]; simp [Node.nesting, Node.nestingMembers],
    fun c hc => by rw [← Option.some.inj hc]; exact ⟨trivial, trivial⟩⟩

theorem le_length_encoding (n : ℕ) : n ≤ (longMessage n).encoding.length := by
  have hdup : (longMessage n).content.bind Node.duplicate = (longMessage n).content := by
    obtain ⟨ms, hms⟩ := (longMessage_sendable n).object
    rw [hms, Option.bind_some]
    exact duplicate_of_nesting ((longMessage_sendable n).levels _ hms)
  rw [encoding_eq (longMessage_sendable n).wide, hdup]
  simp only [longMessage, List.length_append, Node.render, Node.renderMembers, length_stringText,
    outputLength, List.length_replicate]
  omega

/-- a longer text than the print buffer may hold: there is no encoding to decode -/
theorem round_trip_long :
    (longMessage (2 ^ 31)).Sendable ∧ ¬∃ text, (longMessage (2 ^ 31)).toJSONString = .ok text := by
  refine ⟨longMessage_sendable _, ?_⟩
  rintro ⟨text, ht⟩
  have hlen := le_length_encoding (2 ^ 31)
  rw [toJSONString_eq, if_neg (by unfold INT_MAX; omega)] at ht
  cases ht

end Message

end Hub
