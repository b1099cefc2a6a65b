import Warehouse.Message.Decoder
import Warehouse.Network.Model

/-!
# Which messages can be read back

The constructors take any content.  The encoder leaves out a null content and one too deep to be
copied, and prints any other; the decoder takes objects only, and only so many levels.

* `Readable`             the content is an object of at most 999 levels;
* `accepted_encoding_iff`   the encoding is decoded exactly then, otherwise there is an exception;
* `accepted_iff`         the same for the text of `toJSONString` and for all that is transmitted.
-/

namespace Hub
open Text Numeric CJSON Posix

namespace Message

/-- the content is an object that the parser can take, in the object of the message -/
def Readable (m : Message) : Prop :=
  ∃ ms, m.content = some (.object ms) ∧ (Node.object ms).nesting ≤ 999

def Accepted (text : Bytes) : Prop := ∃ m, fromJSONString text = .ok m

/-! ## the two directions -/

theorem accepted_of_readable {m : Message} (hw : m.Wide) (h : m.Readable) :
    Accepted m.encoding := by
  obtain ⟨ms, hms, hlevels⟩ := h
  have hcont : m.content.bind Node.duplicate = some (.object ms) := by
    rw [hms, Option.bind_some]
    exact duplicate_of_nesting hlevels
  have hnest : m.root.nesting ≤ CJSON_NESTING_LIMIT := by
    rw [root_eq, rootMembers, hcont]
    show max 0 (max 0 (max 0 (max (Node.object ms).nesting 0))) + 1 ≤ 1000
    omega
  have hmembers : ofMembers (Node.rereadMembers m.rootMembers)
      = some ⟨m.clientID, m.type, m.subType, (Node.object (Node.rereadMembers ms)).duplicate⟩ := by
    rw [rereadMembers_rootMembers hw, ofMembers_four hw.clientID hw.type hw.subType, hcont]
    rfl
  refine ⟨_, fromJSONString_ok_iff.mpr ⟨[], m.encoding, [], ?_, lead_nil,
    _, derives_encoding m hnest, hmembers⟩⟩
  rw [List.nil_append, List.append_nil]
  exact ofBuffer_of_nulFree (Node.nulFree_render m.root)

theorem readable_of_accepted {m : Message} (hw : m.Wide) (h : Accepted m.encoding) :
    m.Readable := by
  obtain ⟨m', hm'⟩ := h
  obtain ⟨c, hc, rfl⟩ := ofMembers_reread hw (decoded_of_isPrefix List.prefix_rfl hm').2
  obtain ⟨-, cs, hcs, hnest, -⟩ := decoded hm'
  -- the decoded content is the printed one, read back
  have hre : c.reread = .object cs := (Node.duplicate_some hcs).symm
  obtain ⟨ms, rfl⟩ := Node.object_of_reread hre
  refine ⟨ms, hc, ?_⟩
  rw [← Node.nesting_reread, hre]
  exact hnest

theorem accepted_encoding_iff {m : Message} (hw : m.Wide) :
    Accepted m.encoding ↔ m.Readable := ⟨readable_of_accepted hw, accepted_of_readable hw⟩

/-! ## what is transmitted -/

def Transmits : Event → Bytes → Prop
  | .sent _ bytes _, text => bytes = text
  | .sentTo _ _ bytes _, text => bytes = text
  | .received _ _, _ => False

/-- `sendMessage` transmits the text of the message or nothing -/
theorem trace_sendMessage (s : Server) (m : Message) :
    ∃ sent, (s.sendMessage m).1.kernel.trace = s.kernel.trace ++ sent ∧
      ∀ e ∈ sent, ∃ text, Transmits e text ∧ m.toJSONString = .ok text := by
  have hnothing : ∃ sent, s.kernel.trace = s.kernel.trace ++ sent ∧
      ∀ e ∈ sent, ∃ text, Transmits e text ∧ m.toJSONString = .ok text :=
    ⟨[], (List.append_nil _).symm, fun e he => absurd he List.not_mem_nil⟩
  unfold Server.sendMessage
  split
  · exact hnothing
  split
  · exact hnothing
  next client _ _ text htext =>
  split
  · refine ⟨[.sent client.socket text _], rfl, fun e he => ⟨text, ?_, htext⟩⟩
    rw [List.mem_singleton.mp he]
    rfl
  · refine ⟨[.sentTo client.socket client.address text _], rfl, fun e he => ⟨text, ?_, htext⟩⟩
    rw [List.mem_singleton.mp he]
    rfl

/-- the text of a message is decoded, or there is an exception -/
theorem accepted_text {m : Message} (hw : m.Wide) {text : Bytes} (h : m.toJSONString = .ok text) :
    (Accepted text ↔ m.Readable) ∧
      (¬ m.Readable → ∃ what, fromJSONString text = .error (.runtimeError what)) := by
  obtain rfl := toJSONString_ok h
  refine ⟨accepted_encoding_iff hw, fun hno => ?_⟩
  rcases fromJSONString_cases m.encoding with hm | hwhat
  · exact absurd ((accepted_encoding_iff hw).mp hm) hno
  · exact hwhat

/-- a short content is printed -/
theorem toJSONString_of_short {m : Message} (hw : m.Wide)
    (hc : ∀ c, m.content = some c → c.render.length ≤ 10000) :
    m.toJSONString = .ok m.encoding := by
  have hlen := length_encoding_le hw hc
  rw [toJSONString_eq, if_pos (by unfold INT_MAX; omega)]

/-- no content: what `smallMessage` is without its object -/
def emptyMessage : Message := ⟨1, 0, 2, none⟩

theorem emptyMessage_wide : emptyMessage.Wide := ⟨by decide, by decide, by decide⟩

/-- **What the decoder makes of an encoding.**  Whatever the content: the text of a message, and so
every text that is transmitted for it, is accepted exactly if the content is an object of at most
999 levels, and otherwise the decoder throws. -/
theorem accepted_iff (m : Message) (hw : m.Wide) :
    (∀ text, m.toJSONString = .ok text → (Accepted text ↔ m.Readable) ∧
      (¬ m.Readable → ∃ what, fromJSONString text = .error (.runtimeError what))) ∧
    ∀ s : Server, ∃ sent, (s.sendMessage m).1.kernel.trace = s.kernel.trace ++ sent ∧
      ∀ e ∈ sent, ∃ text, Transmits e text ∧ m.toJSONString = .ok text ∧
        (Accepted text ↔ m.Readable) := by
  refine ⟨fun text h => accepted_text hw h, fun s => ?_⟩
  obtain ⟨sent, htrace, hsent⟩ := trace_sendMessage s m
  refine ⟨sent, htrace, fun e he => ?_⟩
  obtain ⟨text, htransmits, htext⟩ := hsent e he
  exact ⟨text, htransmits, htext, (accepted_text hw htext).1⟩

/-- an object as content, and none -/
theorem accepted_iff_small :
    (Accepted smallMessage.encoding ↔ smallMessage.Readable) ∧
      ∃ what, fromJSONString emptyMessage.encoding = .error (.runtimeError what) := by
  have hsmall := toJSONString_of_short smallMessage_sendable.wide
    fun c hc => by rw [← Option.some.inj hc]; decide
  have hempty := toJSONString_of_short emptyMessage_wide fun c hc => nomatch hc
  have hno : ¬ emptyMessage.Readable := fun h => nomatch h.choose_spec.1
  exact ⟨((accepted_iff smallMessage smallMessage_sendable.wide).1 _ hsmall).1,
    ((accepted_iff emptyMessage emptyMessage_wide).1 _ hempty).2 hno⟩

/-! ## contents that are printed and not read back -/

/-- objects inside each other -/
def nested : ℕ → Node
  | 0 => .object []
  | n + 1 => .object [(.lit ['k'], nested n)]

theorem nesting_nested (n : ℕ) : (nested n).nesting = n + 1 := by
  induction n with
  | zero => rfl
  | succ n ih =>
    show max (nested n).nesting 0 + 1 = n + 2
    omega

theorem length_render_nested (n : ℕ) : (nested n).render.length = 6 * n + 2 := by
  induction n with
  | zero => rfl
  | succ n ih =>
    have hkey : (stringText (.lit ['k'])).length = 3 := by decide
    simp only [nested, Node.render, Node.renderMembers, List.length_append, List.length_cons,
      List.length_nil, ih, hkey, List.isEmpty_nil, if_true]
    omega

/-- a short content that is not such an object is printed, and then the decoder throws -/
theorem rejected_of_not_readable {content : Option Node}
    (hshort : ∀ c, content = some c → c.render.length ≤ 10000)
    (hno : ∀ ms, content = some (.object ms) → 999 < (Node.object ms).nesting) :
    ∃ text, toJSONString ⟨1, 1, 2, content⟩ = .ok text ∧
      ∃ what, fromJSONString text = .error (.runtimeError what) := by
  have hone : INT_MIN ≤ 1 ∧ (1 : ℤ) ≤ INT_MAX := by decide
  have htwo : INT_MIN ≤ 2 ∧ (2 : ℤ) ≤ INT_MAX := by decide
  have hw : Wide ⟨1, 1, 2, content⟩ := ⟨hone, hone, htwo⟩
  have htext := toJSONString_of_short hw hshort
  refine ⟨_, htext, (accepted_text hw htext).2 ?_⟩
  rintro ⟨ms, hms, hlevels⟩
  exact absurd hlevels (not_le.mpr (hno ms hms))

/-- A string as content, no content, and an object of 1000 levels: all three are printed, and the
decoder throws. -/
theorem printed_not_accepted :
    (∃ text, toJSONString ⟨1, 1, 2, some (.string (.lit "Server test message".toList))⟩ = .ok text ∧
      ∃ what, fromJSONString text = .error (.runtimeError what)) ∧
    (∃ text, toJSONString ⟨1, 1, 2, none⟩ = .ok text ∧
      ∃ what, fromJSONString text = .error (.runtimeError what)) ∧
    ∃ text, toJSONString ⟨1, 1, 2, some (nested 999)⟩ = .ok text ∧
      ∃ what, fromJSONString text = .error (.runtimeError what) := by
  refine ⟨?_, ?_, ?_⟩ <;> apply rejected_of_not_readable
  · rintro c ⟨⟩
    decide
  · exact fun ms h => nomatch h
  · exact fun c h => nomatch h
  · exact fun ms h => nomatch h
  · rintro c ⟨⟩
    rw [length_render_nested]
    omega
  · intro ms h
    rw [← Option.some.inj h, nesting_nested]
    omega

end Message

end Hub
