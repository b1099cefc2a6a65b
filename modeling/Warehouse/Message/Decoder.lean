import Warehouse.Message.RoundTrip

/-!
# What the decoder accepts

* `fromJSONString_prefix`   no strict prefix of an encoding is a message;
* `decoded_encoding_iff`    when an encoding gives its message back;
* `Whole`                   one message object, blanks around it, and a byte order mark before it;
* `acceptsOnlyWhole_iff`    the decoder accepts a string for what all of it says exactly when only
                            blanks follow the first message object.
-/

namespace Hub
open Text CJSON

namespace Message

/-! ## truncated messages -/

/-- there is no lead where a brace comes first -/
theorem lead_eq_nil {lead t s : Bytes} (hl : Lead lead) (h : lead ++ t <+: 123 :: s) :
    lead = [] := by
  obtain ⟨bom, w, rfl, hbom, hw⟩ := hl
  rcases hbom with rfl | rfl
  · cases w with
    | nil => rfl
    | cons c w =>
      obtain ⟨rfl, -⟩ := List.cons_prefix_cons.mp h
      exact absurd (hw _ (List.mem_cons_self ..)) (by decide)
  · exact absurd (List.cons_prefix_cons.mp h).1 (by decide)

/-- what is decoded from a prefix of an encoding is decoded from all of it -/
theorem decoded_of_isPrefix {m m' : Message} {s : Bytes} (hs : s <+: m.encoding)
    (h : fromJSONString s = .ok m') :
    s = m.encoding ∧ ofMembers (Node.rereadMembers m.rootMembers) = some m' := by
  obtain ⟨lead, b, t, hb, hl, ms, hd, hm⟩ := fromJSONString_ok_iff.mp h
  have hnul : Node.NulFree s := fun c hc => Node.nulFree_render m.root c (hs.subset hc)
  rw [ofBuffer_of_nulFree hnul] at hb
  have hd' := derives_encoding m le_rfl
  obtain ⟨x, hx⟩ := hd'.object_eq
  -- the text starts with its brace, so there is no lead and the object is a prefix
  obtain rfl := lead_eq_nil hl (hb ▸ hx ▸ hs)
  have hpre : b <+: m.encoding := (List.prefix_append b t).trans (hb ▸ hs)
  obtain ⟨heq, rfl⟩ := hd.prefix_free hd' hpre
  refine ⟨List.IsPrefix.eq_of_length_le hs ?_, hm⟩
  rw [← heq, hb, List.nil_append, List.length_append]
  omega

/-- an encoding that is decoded gives the message back exactly when its content is read back -/
theorem decoded_encoding_iff {m m' : Message} (hw : m.Wide)
    (h : fromJSONString m.encoding = .ok m') :
    m' = m ↔ ∀ c, m.content = some c → c.reread = c := by
  obtain ⟨c, hc, hm'⟩ := ofMembers_reread hw (decoded_of_isPrefix List.prefix_rfl h).2
  obtain ⟨-, cs, hcs, -⟩ := decoded h
  have hdup : c.reread.duplicate = some c.reread := by
    rw [hm'] at hcs
    rw [show c.reread.duplicate = _ from hcs, Node.duplicate_some hcs]
  rw [hdup] at hm'
  rw [hm', hc]
  constructor
  · intro he c' hc'
    obtain rfl := Option.some.inj hc'
    have hcontent : some c.reread = m.content := congrArg content he
    exact Option.some.inj (hcontent.trans hc)
  · intro hall
    rw [hall c rfl, ← hc]

theorem rejected_of_isPrefix {m : Message} {text s : Bytes} (hm : m.toJSONString = .ok text)
    (hs : s <+: text) (hne : s ≠ text) : ∃ what, fromJSONString s = .error (.runtimeError what) := by
  obtain rfl := toJSONString_ok hm
  rcases fromJSONString_cases s with ⟨m', hm'⟩ | h
  · exact absurd (decoded_of_isPrefix hs hm').1 hne
  · exact h

/-- **A truncated message is never a message.**  Every strict prefix of an encoding is rejected, in
particular what a buffer of 1024 bytes keeps of a longer one. -/
theorem fromJSONString_prefix (m : Message) (text : Bytes) (hm : m.toJSONString = .ok text) :
    (∀ s, s <+: text → s ≠ text → ∃ what, fromJSONString s = .error (.runtimeError what)) ∧
    (1024 < text.length → ∃ what, fromJSONString (text.take 1024) = .error (.runtimeError what)) := by
  refine ⟨fun s hs hne => rejected_of_isPrefix hm hs hne, fun hlen => ?_⟩
  refine rejected_of_isPrefix hm (List.take_prefix _ _) fun e => ?_
  have hle := List.length_take_le 1024 text
  rw [e] at hle
  omega

theorem fromJSONString_prefix_small :
    (∀ s, s <+: smallMessage.encoding → s ≠ smallMessage.encoding →
      ∃ what, fromJSONString s = .error (.runtimeError what)) ∧
    (1024 < smallMessage.encoding.length →
      ∃ what, fromJSONString (smallMessage.encoding.take 1024) = .error (.runtimeError what)) :=
  fromJSONString_prefix smallMessage smallMessage.encoding (by
    rw [toJSONString_eq, if_pos (by rw [smallMessage_encoding]; decide)])

/-! ## whole strings -/

/-- the first members of the four names are of the kinds a message needs -/
def HeaderOk (ms : List (CString × Node)) : Prop :=
  (∃ d, getObjectItemCaseSensitive (.object ms) clientIDKey = some (.number d)) ∧
  (∃ d, getObjectItemCaseSensitive (.object ms) typeKey = some (.number d)) ∧
  (∃ d, getObjectItemCaseSensitive (.object ms) subTypeKey = some (.number d)) ∧
  (∃ cs, getObjectItemCaseSensitive (.object ms) contentKey = some (.object cs))

theorem headerOk_iff (ms : List (CString × Node)) : HeaderOk ms ↔ ∃ m, ofMembers ms = some m := by
  unfold HeaderOk ofMembers
  constructor
  · rintro ⟨⟨d1, h1⟩, ⟨d2, h2⟩, ⟨d3, h3⟩, cs, h4⟩
    rw [h1, h2, h3, h4]
    exact ⟨_, rfl⟩
  · rintro ⟨m, h⟩
    split at h
    · next id type subType cs hid htype hsub hcont =>
      exact ⟨⟨id, hid⟩, ⟨type, htype⟩, ⟨subType, hsub⟩, cs, hcont⟩
    · cases h

/-- an object text of the parser's grammar with such a header -/
def MessageObject (b : Bytes) : Prop :=
  ∃ ms, Derives CJSON_NESTING_LIMIT (.value (.object ms)) b ∧ HeaderOk ms

theorem messageObject_iff (b : Bytes) : MessageObject b ↔ ∃ m, MessageText m b := by
  constructor
  · rintro ⟨ms, hd, hh⟩
    obtain ⟨m, hm⟩ := (headerOk_iff ms).mp hh
    exact ⟨m, ms, hd, hm⟩
  · rintro ⟨m, ms, hd, hm⟩
    exact ⟨ms, hd, (headerOk_iff ms).mpr ⟨m, hm⟩⟩

/-- the entire string is one message object, apart from blanks and a byte order mark -/
def Whole (s : Bytes) : Prop :=
  ∃ lead b trail, s = lead ++ (b ++ trail) ∧ Lead lead ∧ MessageObject b ∧ Blank trail

/-- the decoder returns a message only for a whole string, and throws for every other one -/
def AcceptsOnlyWhole (s : Bytes) : Prop :=
  (∀ m, fromJSONString s = .ok m → Whole s) ∧
  (¬Whole s → ∃ what, fromJSONString s = .error (.runtimeError what))

/-- nothing but blanks stands behind a message object that starts the C string -/
def OnlyBlanksFollow (s : Bytes) : Prop :=
  ∀ lead b t, s = lead ++ (b ++ t) → Node.NulFree (lead ++ b) → Lead lead → MessageObject b →
    Blank t

/-- what follows the first message object is determined by the string -/
theorem rest_unique {lead lead' b b' t t' : Bytes} (hl : Lead lead) (hl' : Lead lead')
    (hb : MessageObject b) (hb' : MessageObject b')
    (h : lead ++ (b ++ t) = lead' ++ (b' ++ t')) : t = t' := by
  obtain ⟨ms, hd, -⟩ := hb
  obtain ⟨ms', hd', -⟩ := hb'
  have h1 := parse_lead hl hd t
  rw [h, parse_lead hl' hd' t', Option.some_inj, Prod.mk.injEq] at h1
  exact h1.2.symm

/-- a string is accepted when a message object starts it, before its first NUL -/
theorem accepted_of_start {lead b t : Bytes} (hl : Lead lead) (hb : MessageObject b)
    (hnul : Node.NulFree (lead ++ b)) : ∃ m, fromJSONString (lead ++ (b ++ t)) = .ok m := by
  obtain ⟨m, hm⟩ := (messageObject_iff b).mp hb
  refine ⟨m, fromJSONString_ok_iff.mpr ⟨lead, b, t.takeWhile fun c => c != 0, ?_, hl, hm⟩⟩
  show (lead ++ (b ++ t)).takeWhile (fun c => c != 0) = _
  rw [← List.append_assoc, List.takeWhile_append_of_pos fun c hc => bne_iff_ne.mpr (hnul c hc),
    List.append_assoc]

/-- and only then -/
theorem start_of_accepted {s : Bytes} {m : Message} (h : fromJSONString s = .ok m) :
    ∃ lead b t, s = lead ++ (b ++ t) ∧ Node.NulFree (lead ++ b) ∧ Lead lead ∧ MessageObject b := by
  obtain ⟨lead, b, t, hs, hl, hm⟩ := fromJSONString_ok_iff.mp h
  refine ⟨lead, b, t ++ s.dropWhile (fun c => c != 0), ?_, fun c hc => ?_, hl,
    (messageObject_iff b).mpr ⟨m, hm⟩⟩
  · rw [← List.append_assoc b, ← List.append_assoc lead, ← hs]
    exact List.takeWhile_append_dropWhile.symm
  · refine (CString.ofBuffer s).nulFree c ?_
    rw [hs, ← List.append_assoc]
    exact List.mem_append_left _ hc

/-- **The decoder reads the whole string exactly when only blanks follow the message.** -/
theorem acceptsOnlyWhole_iff (s : Bytes) : AcceptsOnlyWhole s ↔ OnlyBlanksFollow s := by
  constructor
  · rintro ⟨haccept, -⟩ lead b t rfl hnul hl hb
    obtain ⟨m, hm⟩ := accepted_of_start (t := t) hl hb hnul
    obtain ⟨lead', b', trail, heq, hl', hb', htrail⟩ := haccept m hm
    rw [rest_unique hl hl' hb hb' heq]
    exact htrail
  · intro honly
    have haccept : ∀ m, fromJSONString s = .ok m → Whole s := fun m hm => by
      obtain ⟨lead, b, t, rfl, hnul, hl, hb⟩ := start_of_accepted hm
      exact ⟨lead, b, t, rfl, hl, hb, honly lead b t rfl hnul hl hb⟩
    refine ⟨haccept, fun hno => ?_⟩
    rcases fromJSONString_cases s with ⟨m, hm⟩ | h
    · exact absurd (haccept m hm) hno
    · exact h

theorem lead_nil : Lead [] := ⟨[], [], rfl, Or.inl rfl, blank_nil⟩

/-- what follows an encoding is not looked at -/
theorem fromJSONString_encoding_append {m : Message} (h : m.Sendable) {t : Bytes}
    (ht : Node.NulFree t) : fromJSONString (m.encoding ++ t) = .ok m := by
  refine fromJSONString_ok_iff.mpr ⟨[], m.encoding, t, ?_, lead_nil, messageText_encoding h⟩
  exact ofBuffer_of_nulFree ((Node.nulFree_render m.root).append ht)

/-- a message with a letter behind it -/
theorem acceptsOnlyWhole_trailing :
    fromJSONString (smallMessage.encoding ++ ascii ['x']) = .ok smallMessage ∧
      ¬Whole (smallMessage.encoding ++ ascii ['x']) := by
  refine ⟨fromJSONString_encoding_append smallMessage_sendable
    (Node.nulFree_singleton (by decide)), ?_⟩
  rintro ⟨lead, b, trail, heq, hl', hb, htrail⟩
  have ht : ascii ['x'] = trail := rest_unique lead_nil hl'
    ((messageObject_iff _).mpr ⟨_, messageText_encoding smallMessage_sendable⟩) hb heq
  exact absurd (htrail 120 (ht ▸ List.mem_cons_self ..)) (by decide)

end Message

end Hub
