import Warehouse.Network.Descriptors

/-!
# Who sent a message

`receiveTCPMessage` keeps the identifier that the text carries, and takes for a UDP client whatever
datagram waits on the socket of the server.

* `Carries`          the identifier in the text of a message;
* `attributed_step`  one directed receive: the message is the client's own exactly when its text
                     and its sender are;
* `attributed_iff`   the same for every run; as long as no UDP client is closed, the sender can only
                     be wrong for a UDP client.
-/

namespace Hub
open Machine Text CJSON Posix

namespace Message

/-- the bytes start with the text of a message whose first member `clientID` is the number `id` -/
def Carries (b : Bytes) (id : ℤ) : Prop :=
  ∃ lead text t ms d, (CString.ofBuffer b).bytes = lead ++ (text ++ t) ∧ Lead lead ∧
    Derives CJSON_NESTING_LIMIT (.value (.object ms)) text ∧ (ofMembers ms).isSome = true ∧
    getObjectItemCaseSensitive (.object ms) clientIDKey = some (.number d) ∧ valueint d = id

theorem ofMembers_clientID {ms : List (CString × Node)} {m : Message} (h : ofMembers ms = some m) :
    ∃ d, getObjectItemCaseSensitive (.object ms) clientIDKey = some (.number d) ∧
      valueint d = m.clientID := by
  unfold ofMembers at h
  split at h
  · next id type subType cs hid htype hsub hcont =>
    obtain rfl := Option.some.inj h
    exact ⟨id, hid, rfl⟩
  · cases h

/-- the decoder takes the identifier from the text -/
theorem carries_iff {b : Bytes} {id : ℤ} :
    Carries b id ↔ ∃ m, fromJSONString b = .ok m ∧ m.clientID = id := by
  constructor
  · rintro ⟨lead, text, t, ms, d, hb, hl, hd, hsome, hget, rfl⟩
    obtain ⟨m, hm⟩ := Option.isSome_iff_exists.mp hsome
    obtain ⟨d', hget', hid⟩ := ofMembers_clientID hm
    rw [hget] at hget'
    cases hget'
    exact ⟨m, fromJSONString_ok_iff.mpr ⟨lead, text, t, hb, hl, ms, hd, hm⟩, hid.symm⟩
  · intro hdecoded
    obtain ⟨m, hm, rfl⟩ := hdecoded
    obtain ⟨lead, text, t, hb, hl, ms, hd, hms⟩ := fromJSONString_ok_iff.mp hm
    obtain ⟨d, hget, hid⟩ := ofMembers_clientID hms
    exact ⟨lead, text, t, ms, d, hb, hl, hd, by rw [hms]; rfl, hget, hid⟩

end Message

namespace Server

/-- a message that a directed receive returns carries the identifier of the client, and was sent by
the peer the client is registered with -/
def Attributed (s : Server) : Op → Prop
  | .receiveTCPMessage c cut =>
    ∀ msg, (s.receiveTCPMessage c cut).2 = .ok (some msg) → msg.clientID = c ∧
      ∃ conn peer, s.manager.activeClients.find? c = some conn ∧
        s.kernel.source? conn.socket = some peer ∧ conn.address.same peer = true
  | _ => True

/-- a message that waits on the descriptor of the client has the client's identifier in its text,
and comes from the client's address -/
def OwnBytes (s : Server) : Op → Prop
  | .receiveTCPMessage c cut =>
    ∀ conn, s.manager.activeClients.find? c = some conn →
      ∀ id, Message.Carries (s.kernel.pending conn.socket BUFFER cut) id → id = c ∧
        ∀ peer, s.kernel.source? conn.socket = some peer → conn.address.same peer = true
  | _ => True

/-- the same, with the address only looked at for a UDP client -/
def OwnText (s : Server) : Op → Prop
  | .receiveTCPMessage c cut =>
    ∀ conn, s.manager.activeClients.find? c = some conn →
      ∀ id, Message.Carries (s.kernel.pending conn.socket BUFFER cut) id → id = c ∧
        (conn.protocol = .UDP →
          ∀ peer, s.kernel.source? conn.socket = some peer → conn.address.same peer = true)
  | _ => True

theorem attributed_step (s : Server) (op : Op) : Attributed s op ↔ OwnBytes s op := by
  cases op with
  | receiveTCPMessage c cut =>
    constructor
    · intro h conn hc id hid
      obtain ⟨msg, hm, rfl⟩ := Message.carries_iff.mp hid
      obtain ⟨hmid, conn', peer, hc', hpeer, hsame⟩ :=
        h msg (receiveTCPMessage_some_iff.mpr ⟨conn, hc, hm⟩)
      rw [hc] at hc'
      cases hc'
      refine ⟨hmid, ?_⟩
      intro p hp
      rw [hpeer] at hp
      cases hp
      exact hsame
    · intro h msg hmsg
      obtain ⟨conn, hc, hm⟩ := receiveTCPMessage_some_iff.mp hmsg
      obtain ⟨hmid, hsame⟩ := h conn hc msg.clientID (Message.carries_iff.mpr ⟨msg, hm, rfl⟩)
      have hne : s.kernel.pending conn.socket BUFFER cut ≠ [] := fun h0 =>
        Message.fromJSONString_nil msg (h0 ▸ hm)
      obtain ⟨peer, hpeer⟩ := Kernel.source?_of_pending hne
      exact ⟨hmid, conn, peer, hc, hpeer, hsame peer hpeer⟩
  | _ => exact Iff.rfl

/-- under the invariant the peer of a TCP client is the registered one -/
theorem ownBytes_iff_ownText (s : Server) (op : Op) (h : Inv s) :
    OwnBytes s op ↔ OwnText s op := by
  cases op with
  | receiveTCPMessage c cut =>
    refine forall_congr' fun conn => imp_congr_right fun hc => forall_congr' fun id =>
      imp_congr_right fun _ => and_congr_right fun _ => ?_
    refine ⟨fun hall _ => hall, ?_⟩
    intro hudp
    cases hp : conn.protocol with
    | UDP => exact hudp hp
    | TCP =>
      intro peer hpeer
      rw [Kernel.source?_of_stream (h.stream c conn hc hp)] at hpeer
      cases hpeer
      exact conn.address.same_self
  | _ => exact Iff.rfl

/-- **When messages are attributed to their sender.**  In every run from a started server, what
`receiveTCPMessage` returns is the client's own exactly when each message that waits on the
descriptor of the client names the client in its text and comes from its address.  While no UDP
client is closed, the address matters for UDP clients only. -/
theorem attributed_iff {s : Server} (hs : Started s) (ops : List Op) (hl : Along step Legal s ops) :
    (Along step Attributed s ops ↔ Along step OwnBytes s ops) ∧
    (Along step NotBorrowed s ops → (Along step Attributed s ops ↔ Along step OwnText s ops)) := by
  have hbytes : Along step Attributed s ops ↔ Along step OwnBytes s ops :=
    along_iff_along (I := fun _ => True) (fun s op _ _ => attributed_step s op)
      (fun _ _ _ _ _ => trivial) trivial hl
  refine ⟨hbytes, fun hc => hbytes.trans ?_⟩
  exact along_iff_along (L := fun s op => Legal s op ∧ NotBorrowed s op)
    (fun s op hi _ => ownBytes_iff_ownText s op hi)
    (fun s op hi hl _ => inv_step s op hi hl.1 hl.2) (inv_started hs) (along_and.mpr ⟨hl, hc⟩)

/-- two connections, and the second peer writes the identifier of the first one -/
def twoPeers : List Op :=
  [.listenForConnections (some (7, ⟨[1], 1⟩)), .listenForConnections (some (8, ⟨[2], 1⟩)),
    .deliver 8 Message.smallMessage.encoding, .receiveTCPMessage 2 BUFFER]

theorem legal_twoPeers : Along step Legal fresh twoPeers :=
  ⟨⟨by decide, by decide⟩, ⟨by decide, by decide⟩, trivial, trivial, trivial⟩

/-- the hypotheses can be met -/
theorem attributed_iff_example :
    (Along step Attributed fresh twoPeers ↔ Along step OwnBytes fresh twoPeers) ∧
    (Along step Attributed fresh twoPeers ↔ Along step OwnText fresh twoPeers) := by
  obtain ⟨hbytes, htext⟩ := attributed_iff started_fresh twoPeers legal_twoPeers
  exact ⟨hbytes, htext ⟨trivial, trivial, trivial, trivial, trivial⟩⟩

/-- Client 2 writes the identifier 1, and its message is returned as one of client 1. -/
theorem text_names_sender :
    ¬ ∀ (s : Server) (ops : List Op), Started s → Along step Legal s ops →
      Along step Attributed s ops := by
  intro h
  have hlast := (h fresh twoPeers started_fresh legal_twoPeers).2.2.2.1
  obtain ⟨htake, -, hm⟩ := greeting_payload
  have hpending : (((fresh.step (.listenForConnections (some (7, ⟨[1], 1⟩)))).step
      (.listenForConnections (some (8, ⟨[2], 1⟩)))).step
      (.deliver 8 Message.smallMessage.encoding)).kernel.pending 8 BUFFER BUFFER
        = greeting.payload.take BUFFER := rfl
  have hid := hlast Message.smallMessage
    (receiveTCPMessage_some_iff.mpr ⟨⟨2, 8, ⟨[2], 1⟩, .TCP⟩, rfl, by rw [hpending, htake, hm]⟩)
  exact absurd hid.1 (by decide)

end Server

end Hub
