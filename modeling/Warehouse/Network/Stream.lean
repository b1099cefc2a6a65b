import Warehouse.Message.Decoder
import Warehouse.Network.Model

/-!
# Messages on one TCP connection

The peer writes messages back to back, and `receiveTCPMessage` decodes what one read yields.  A
session records the messages that were sent and those that were returned.

* `connected_receive`   one read: what it takes off the stream, and what it returns;
* `InOrder`          every message that was sent is returned, or still waits whole in the stream;
* `inOrder_iff`      over a run, no message is lost, doubled or changed exactly when each read yields
                     exactly the next message, and its numbers are read back.
-/

namespace Hub
open Machine Text CJSON Posix

/-- a connection in use, with what was sent and what was returned so far -/
structure Session where
  server : Server
  sent : List Message
  received : List Message

inductive Action
  -- the peer writes the text of a message
  | send (msg : Message)
  -- the server reads, and gets at most `cut` bytes
  | receive (cut : ℕ)

namespace Server

/-- what waits in the stream behind a descriptor -/
def incoming (s : Server) (fd : ℤ) : Bytes :=
  match s.kernel.files.find? fd with
  | some (.stream _ incoming) => incoming
  | _ => []

/-- client `c` is connected by the stream `fd`, in which `bytes` wait -/
def Connected (c fd : ℤ) (bytes : Bytes) (s : Server) : Prop :=
  ∃ conn peer, s.manager.activeClients.find? c = some conn ∧ conn.socket = fd ∧
    conn.protocol = .TCP ∧ s.kernel.files.find? fd = some (.stream peer bytes)

theorem Connected.incoming_eq {c fd : ℤ} {bytes : Bytes} {s : Server} (h : Connected c fd bytes s) :
    s.incoming fd = bytes := by
  obtain ⟨conn, peer, -, -, -, hf⟩ := h
  unfold incoming
  rw [hf]

theorem connected_deliver {c fd : ℤ} {bytes : Bytes} {s : Server} (h : Connected c fd bytes s)
    (raw : Bytes) : Connected c fd (bytes ++ raw) (s.step (.deliver fd raw)) := by
  obtain ⟨conn, peer, hc, hfd, hp, hf⟩ := h
  refine ⟨conn, peer, hc, hfd, hp, ?_⟩
  show (s.kernel.deliver fd raw).files.find? fd = _
  unfold Kernel.deliver
  rw [hf]
  exact SortedMap.find?_insert_self ..

/-- one read: the bytes leave the stream, and a message is returned if they are one -/
theorem connected_receive {c fd : ℤ} {bytes : Bytes} {s : Server} (h : Connected c fd bytes s)
    (cut : ℕ) :
    Connected c fd (bytes.drop (min BUFFER cut)) (s.step (.receiveTCPMessage c cut)) ∧
    s.returned (.receiveTCPMessage c cut) =
      match Message.fromJSONString (bytes.take (min BUFFER cut)) with
      | .ok msg => [msg]
      | .error _ => [] := by
  obtain ⟨conn, peer, hc, rfl, hp, hf⟩ := h
  have hr : s.kernel.recvfrom conn.socket BUFFER cut = some (⟨[], 0⟩, bytes.take (min BUFFER cut),
      s.kernel.openFile conn.socket (.stream peer (bytes.drop (min BUFFER cut)))) := by
    unfold Kernel.recvfrom
    rw [hf]
  have hnext : Connected c conn.socket (bytes.drop (min BUFFER cut)) ⟨s.manager,
      s.kernel.openFile conn.socket (.stream peer (bytes.drop (min BUFFER cut)))⟩ :=
    ⟨conn, peer, hc, rfl, hp, SortedMap.find?_insert_self ..⟩
  unfold step returned
  dsimp only
  rcases receiveTCPMessage_cases s c cut with ⟨hc', -⟩ | ⟨client, hc', h⟩
  · rw [hc] at hc'
    cases hc'
  · rw [hc] at hc'
    cases hc'
    rcases h with ⟨hr', -⟩ | ⟨sender, data, k, hr', h⟩
    · rw [hr] at hr'
      cases hr'
    · rw [hr] at hr'
      cases hr'
      rcases h with ⟨h0, e⟩ | ⟨-, x, hx, e⟩ | ⟨-, msg, hm, e⟩
      · rw [e, h0]
        exact ⟨hnext, rfl⟩
      · rw [e, hx]
        exact ⟨hnext, rfl⟩
      · rw [e, hm]
        exact ⟨hnext, rfl⟩

end Server

namespace Session
open Server

def step (c fd : ℤ) (s : Session) : Action → Session
  | .send msg =>
    match msg.toJSONString with
    | .ok raw => { s with server := s.server.step (.deliver fd raw), sent := s.sent ++ [msg] }
    | .error _ => s
  | .receive cut =>
    { s with
      server := s.server.step (.receiveTCPMessage c cut)
      received := s.received ++ s.server.returned (.receiveTCPMessage c cut) }

/-- a message of the program whose encoding the decoder accepts -/
def Acceptable (m : Message) : Prop :=
  m.Wide ∧ ∃ raw m', m.toJSONString = .ok raw ∧ Message.fromJSONString raw = .ok m'

/-- acceptable messages, and reads that yield something -/
def Proper (fd : ℤ) (s : Session) : Action → Prop
  | .send msg => Acceptable msg
  | .receive cut => 0 < cut ∧ s.server.incoming fd ≠ []

/-- every message that was sent was returned, or its text still waits in the stream, in order -/
def InOrder (fd : ℤ) (s : Session) : Prop :=
  ∃ rest, s.sent = s.received ++ rest ∧
    s.server.incoming fd = (rest.map Message.encoding).flatten

/-- a read yields the text of the next message, whose content is read back as it is -/
def OneMessage (fd : ℤ) (s : Session) : Action → Prop
  | .send _ => True
  | .receive cut =>
    ∀ msg, s.sent[s.received.length]? = some msg →
      (s.server.incoming fd).take (min BUFFER cut) = msg.encoding ∧
      ∀ content, msg.content = some content → content.reread = content

/-- what a session needs beside the order: the connection, and acceptable messages -/
structure Inv (c fd : ℤ) (s : Session) : Prop where
  connected : ∃ bytes, Connected c fd bytes s.server
  acceptable : ∀ msg ∈ s.sent, Acceptable msg

/-! ## one action -/

theorem Acceptable.decoded {m : Message} (h : Acceptable m) :
    m.toJSONString = .ok m.encoding ∧ ∃ m', Message.fromJSONString m.encoding = .ok m' := by
  obtain ⟨-, raw, m', hraw, hm'⟩ := h
  obtain rfl := Message.toJSONString_ok hraw
  exact ⟨hraw, m', hm'⟩

theorem inv_step (c fd : ℤ) (s : Session) (a : Action) (h : Inv c fd s) (hl : Proper fd s a) :
    Inv c fd (s.step c fd a) := by
  obtain ⟨⟨bytes, hconn⟩, hsent⟩ := h
  cases a with
  | send msg =>
    have hok : Acceptable msg := hl
    unfold step
    dsimp only
    rw [hok.decoded.1]
    refine ⟨⟨_, connected_deliver hconn _⟩, ?_⟩
    intro m hm
    rcases List.mem_append.mp hm with hm | hm
    · exact hsent m hm
    · exact List.mem_singleton.mp hm ▸ hok
  | receive cut => exact ⟨⟨_, (connected_receive hconn cut).1⟩, hsent⟩

/-- where something waits, a message is next -/
theorem InOrder.next {fd : ℤ} {s : Session} (h : InOrder fd s) (hne : s.server.incoming fd ≠ []) :
    ∃ msg rest, s.sent = s.received ++ msg :: rest ∧
      s.server.incoming fd = msg.encoding ++ (rest.map Message.encoding).flatten := by
  obtain ⟨rest, hrest, hbytes⟩ := h
  cases rest with
  | nil => exact absurd hbytes hne
  | cons msg rest =>
    rw [List.map_cons, List.flatten_cons] at hbytes
    exact ⟨msg, rest, hrest, hbytes⟩

theorem oneMessage_receive {fd : ℤ} {s : Session} {msg : Message} {rest : List Message} (cut : ℕ)
    (h : s.sent = s.received ++ msg :: rest) :
    OneMessage fd s (.receive cut) ↔
      (s.server.incoming fd).take (min BUFFER cut) = msg.encoding ∧
      ∀ content, msg.content = some content → content.reread = content := by
  have hget : s.sent[s.received.length]? = some msg := by
    rw [h, List.getElem?_append_right le_rfl, Nat.sub_self]
    rfl
  constructor
  · intro hone
    exact hone msg hget
  · intro hone m hm
    obtain rfl : msg = m := Option.some.inj (hget.symm.trans hm)
    exact hone

/-- a read that returns nothing loses what it took off the stream -/
theorem not_inOrder_of_error {c fd : ℤ} {s : Session} {bytes : Bytes} {cut : ℕ} {e : Exn}
    (hconn : Connected c fd bytes s.server) (hord : InOrder fd s) (hcut : 0 < cut)
    (hne : bytes ≠ []) (hx : Message.fromJSONString (bytes.take (min BUFFER cut)) = .error e) :
    ¬InOrder fd (s.step c fd (.receive cut)) := by
  obtain ⟨rest, hrest, hbytes⟩ := hord
  obtain ⟨hnext, hreturned⟩ := connected_receive hconn cut
  rw [hx] at hreturned
  intro hstays
  obtain ⟨rest', hr, hb⟩ := hstays
  replace hr : s.sent = s.received ++ s.server.returned (.receiveTCPMessage c cut) ++ rest' := hr
  rw [hreturned, List.append_nil, hrest] at hr
  have hlost : bytes.drop (min BUFFER cut) = bytes := by
    rw [← hnext.incoming_eq, ← hconn.incoming_eq, hbytes, List.append_cancel_left hr]
    exact hb
  have hlen := congrArg List.length hlost
  rw [List.length_drop] at hlen
  have hpos : 0 < bytes.length := List.length_pos_iff.mpr hne
  have hmin : 0 < min BUFFER cut := lt_min (by decide) hcut
  omega

/-- a read keeps the order exactly when it yields one whole message -/
theorem inOrder_receive {c fd : ℤ} {s : Session} {cut : ℕ} (h : Inv c fd s) (hord : InOrder fd s)
    (hl : Proper fd s (.receive cut)) :
    InOrder fd (s.step c fd (.receive cut)) ↔ OneMessage fd s (.receive cut) := by
  obtain ⟨⟨bytes, hconn⟩, hsent⟩ := h
  obtain ⟨hcut, hne⟩ := hl
  obtain ⟨msg, rest, hrest, hbytes⟩ := hord.next hne
  have hok : Acceptable msg := hsent msg (by rw [hrest]; simp)
  rw [oneMessage_receive cut hrest]
  rw [hconn.incoming_eq] at hne hbytes ⊢
  cases hx : Message.fromJSONString (bytes.take (min BUFFER cut)) with
  | error e =>
    refine iff_of_false (not_inOrder_of_error hconn hord hcut hne hx) ?_
    intro hwhole
    obtain ⟨he, -⟩ := hwhole
    obtain ⟨-, m', hm'⟩ := hok.decoded
    rw [he, hm'] at hx
    cases hx
  | ok x =>
    obtain ⟨hnext, hreturned⟩ := connected_receive hconn cut
    have hsplit := List.take_append_drop (min BUFFER cut) bytes
    rw [hx] at hreturned
    unfold InOrder
    show (∃ rest', s.sent = s.received ++ s.server.returned (.receiveTCPMessage c cut) ++ rest' ∧
      (s.server.step (.receiveTCPMessage c cut)).incoming fd = _) ↔ _
    rw [hnext.incoming_eq, hreturned, hrest]
    constructor
    · intro hstays
      obtain ⟨rest', hr, hb⟩ := hstays
      rw [List.append_assoc] at hr
      obtain ⟨rfl, rfl⟩ := List.cons.inj (List.append_cancel_left hr)
      have he : bytes.take (min BUFFER cut) = msg.encoding := by
        rw [hb] at hsplit
        exact List.append_cancel_right (hsplit.trans hbytes)
      rw [he] at hx
      exact ⟨he, (Message.decoded_encoding_iff hok.1 hx).mp rfl⟩
    · intro hwhole
      obtain ⟨he, hcontent⟩ := hwhole
      rw [he] at hx hsplit
      obtain rfl : x = msg := (Message.decoded_encoding_iff hok.1 hx).mpr hcontent
      refine ⟨rest, ?_, List.append_cancel_left (hsplit.trans hbytes)⟩
      rw [List.append_assoc]
      rfl

theorem inOrder_send {c fd : ℤ} {s : Session} {msg : Message} (h : Inv c fd s)
    (hord : InOrder fd s) (hl : Acceptable msg) : InOrder fd (s.step c fd (.send msg)) := by
  obtain ⟨⟨bytes, hconn⟩, -⟩ := h
  obtain ⟨rest, hrest, hbytes⟩ := hord
  refine ⟨rest ++ [msg], ?_⟩
  unfold step
  dsimp only
  rw [hl.decoded.1]
  refine ⟨?_, ?_⟩
  · show s.sent ++ [msg] = s.received ++ (rest ++ [msg])
    rw [hrest, List.append_assoc]
  · show (s.server.step (.deliver fd msg.encoding)).incoming fd = _
    rw [(connected_deliver hconn _).incoming_eq, ← hconn.incoming_eq, hbytes]
    simp

theorem inOrder_step {c fd : ℤ} (s : Session) (a : Action) (h : Inv c fd s) (hord : InOrder fd s)
    (hl : Proper fd s a) : InOrder fd (s.step c fd a) ↔ OneMessage fd s a := by
  cases a with
  | send msg => exact iff_of_true (inOrder_send h hord hl) trivial
  | receive cut => exact inOrder_receive h hord hl

/-! ## every run -/

theorem encoding_ne_nil (m : Message) : m.encoding ≠ [] := by
  obtain ⟨t, ht⟩ := (Message.derives_encoding m le_rfl).object_eq
  rw [ht]
  exact List.cons_ne_nil _ _

/-- once the stream is drained, everything that was sent was returned -/
theorem InOrder.drained {fd : ℤ} {s : Session} (h : InOrder fd s)
    (hempty : s.server.incoming fd = []) : s.received = s.sent := by
  obtain ⟨rest, hrest, hbytes⟩ := h
  cases rest with
  | nil => rw [hrest, List.append_nil]
  | cons msg rest =>
    rw [hempty, List.map_cons, List.flatten_cons] at hbytes
    exact absurd (List.append_eq_nil_iff.mp hbytes.symm).1 (encoding_ne_nil msg)

/-- **When a stream of messages is read in order.**  For every run of writes and reads on one
connection, every message is returned or still waits whole, in every state, exactly when each read
yields exactly the next message and its content is read back; and then a drained stream has been
returned as it was sent. -/
theorem inOrder_iff {c fd : ℤ} {s : Server} (h : Connected c fd [] s) (actions : List Action)
    (hl : Along (step c fd) (Proper fd) ⟨s, [], []⟩ actions) :
    (Always (step c fd) (InOrder fd) ⟨s, [], []⟩ actions
      ↔ Along (step c fd) (OneMessage fd) ⟨s, [], []⟩ actions) ∧
    (Along (step c fd) (OneMessage fd) ⟨s, [], []⟩ actions →
      (run (step c fd) ⟨s, [], []⟩ actions).server.incoming fd = [] →
      (run (step c fd) ⟨s, [], []⟩ actions).received
        = (run (step c fd) ⟨s, [], []⟩ actions).sent) := by
  have hstart : InOrder fd ⟨s, [], []⟩ := ⟨[], rfl, h.incoming_eq⟩
  have hinv : Inv c fd ⟨s, [], []⟩ := ⟨⟨[], h⟩, fun _ hm => by cases hm⟩
  have hiff : Always (step c fd) (InOrder fd) ⟨s, [], []⟩ actions
      ↔ Along (step c fd) (OneMessage fd) ⟨s, [], []⟩ actions :=
    always_iff_along_of_invariant (fun s a hi _ hl => inv_step c fd s a hi hl) inOrder_step hinv
      hstart hl
  exact ⟨hiff, fun hone hempty => (hiff.mpr hone).last.drained hempty⟩

/-- a server with one connection -/
def oneClient : Server :=
  (initializeSockets ⟨NetworkManager.init, ⟨SortedMap.empty, [], []⟩⟩ 3 4 5 6).step
    (.listenForConnections (some (7, ⟨[1], 1⟩)))

theorem connected_oneClient : Connected 1 7 [] oneClient :=
  ⟨⟨1, 7, ⟨[1], 1⟩, .TCP⟩, ⟨[1], 1⟩, rfl, rfl, rfl, rfl⟩

theorem fromJSONString_sendable {msg : Message} (h : msg.Sendable) :
    Message.fromJSONString msg.encoding = .ok msg := by
  have hm := Message.fromJSONString_encoding_append h Node.nulFree_nil
  rwa [List.append_nil] at hm

theorem acceptable_of_sendable {msg : Message} (h : msg.Sendable)
    (hlen : msg.encoding.length ≤ BUFFER) : Acceptable msg := by
  have hm := fromJSONString_sendable h
  exact ⟨h.wide, _, _, Message.toJSONString_decoded hm (hlen.trans (by decide)), hm⟩

theorem length_smallMessage : Message.smallMessage.encoding.length ≤ BUFFER := by
  rw [Message.smallMessage_encoding]
  decide

theorem acceptable_smallMessage : Acceptable Message.smallMessage :=
  acceptable_of_sendable Message.smallMessage_sendable length_smallMessage

theorem step_send {c fd : ℤ} {s : Session} {msg : Message} (h : Acceptable msg) :
    s.step c fd (.send msg) =
      ⟨s.server.step (.deliver fd msg.encoding), s.sent ++ [msg], s.received⟩ := by
  unfold step
  dsimp only
  rw [h.decoded.1]

/-- a read of the length of the next message -/
theorem receive_next {c fd : ℤ} {s : Server} {msg : Message} {rest : Bytes}
    (h : Connected c fd (msg.encoding ++ rest) s) (received later : List Message)
    (hm : msg.Sendable) (hlen : msg.encoding.length ≤ BUFFER) :
    (Proper fd ⟨s, received ++ msg :: later, received⟩ (.receive msg.encoding.length) ∧
      OneMessage fd ⟨s, received ++ msg :: later, received⟩ (.receive msg.encoding.length)) ∧
    ∃ s', step c fd ⟨s, received ++ msg :: later, received⟩ (.receive msg.encoding.length)
        = ⟨s', received ++ msg :: later, received ++ [msg]⟩ ∧ Connected c fd rest s' := by
  have hne := encoding_ne_nil msg
  obtain ⟨hconn, hreturned⟩ := connected_receive h msg.encoding.length
  rw [min_eq_right hlen, List.drop_left] at hconn
  rw [min_eq_right hlen, List.take_left, fromJSONString_sendable hm] at hreturned
  refine ⟨⟨⟨List.length_pos_iff.mpr hne, ?_⟩, ?_⟩, _, congrArg (Session.mk _ _) ?_, hconn⟩
  · show s.incoming fd ≠ []
    rw [h.incoming_eq]
    exact fun h0 => hne (List.append_eq_nil_iff.mp h0).1
  · rw [oneMessage_receive _ rfl]
    show (s.incoming fd).take _ = _ ∧ _
    rw [h.incoming_eq, min_eq_right hlen]
    exact ⟨List.take_left, fun content hc => Node.reread_eq_self content (hm.numbers content hc)⟩
  · rw [hreturned]

/-- Two messages are in the stream before the first read, and a third one comes before the next. -/
def dialogue : List Action :=
  [.send Message.smallMessage, .send Message.orderMessage,
    .receive Message.smallMessage.encoding.length, .send Message.smallMessage,
    .receive Message.orderMessage.encoding.length, .receive Message.smallMessage.encoding.length]

theorem connected_oneSend : Connected 1 7 Message.smallMessage.encoding
    (oneClient.step (.deliver 7 Message.smallMessage.encoding)) :=
  connected_deliver connected_oneClient Message.smallMessage.encoding

theorem walk_dialogue :
    Along (step 1 7) (fun s a => Proper 7 s a ∧ OneMessage 7 s a) ⟨oneClient, [], []⟩ dialogue ∧
      (run (step 1 7) ⟨oneClient, [], []⟩ dialogue).server.incoming 7 = [] := by
  have hsmall := Message.smallMessage_sendable
  have horder := Message.orderMessage_sendable
  have hlen : Message.orderMessage.encoding.length ≤ BUFFER :=
    Message.length_orderMessage.trans (by decide)
  have hok := acceptable_smallMessage
  have hok' := acceptable_of_sendable horder hlen
  have h2 := connected_deliver connected_oneSend Message.orderMessage.encoding
  obtain ⟨hone3, s3, e3, h3⟩ := receive_next h2 [] [Message.orderMessage] hsmall
    length_smallMessage
  have h4 := connected_deliver h3 Message.smallMessage.encoding
  obtain ⟨hone5, s5, e5, h5⟩ := receive_next h4 [Message.smallMessage] [Message.smallMessage]
    horder hlen
  rw [← List.append_nil Message.smallMessage.encoding] at h5
  obtain ⟨hone6, s6, e6, h6⟩ := receive_next h5
    [Message.smallMessage, Message.orderMessage] [] hsmall length_smallMessage
  simp only [List.nil_append, List.cons_append] at hone3 e3 hone5 e5 hone6 e6
  unfold dialogue
  simp only [along_cons, along_nil, run_cons, run_nil, step_send hok, step_send hok',
    List.nil_append, List.cons_append]
  rw [e3]
  simp only [List.nil_append, List.cons_append]
  rw [e5, e6]
  exact ⟨⟨⟨hok, trivial⟩, ⟨hok', trivial⟩, hone3, ⟨hok, trivial⟩, hone5, hone6, trivial⟩,
    h6.incoming_eq⟩

/-- the hypotheses can be met, and what was sent is returned -/
theorem inOrder_iff_example :
    (Always (step 1 7) (InOrder 7) ⟨oneClient, [], []⟩ dialogue
      ↔ Along (step 1 7) (OneMessage 7) ⟨oneClient, [], []⟩ dialogue) ∧
    (run (step 1 7) ⟨oneClient, [], []⟩ dialogue).received
      = (run (step 1 7) ⟨oneClient, [], []⟩ dialogue).sent := by
  obtain ⟨hwalk, hempty⟩ := walk_dialogue
  obtain ⟨hproper, hone⟩ := along_and.mp hwalk
  obtain ⟨hiff, hdrained⟩ := inOrder_iff connected_oneClient dialogue hproper
  exact ⟨hiff, hdrained hone hempty⟩

/-- two messages are written before the first read -/
def twoSends : List Action :=
  [.send Message.smallMessage, .send Message.smallMessage, .receive BUFFER]

theorem connected_twoSends : Connected 1 7
    (Message.smallMessage.encoding ++ Message.smallMessage.encoding)
    ((oneClient.step (.deliver 7 Message.smallMessage.encoding)).step
      (.deliver 7 Message.smallMessage.encoding)) :=
  connected_deliver connected_oneSend Message.smallMessage.encoding

theorem proper_twoSends : Along (step 1 7) (Proper 7) ⟨oneClient, [], []⟩ twoSends := by
  have hok := acceptable_smallMessage
  unfold twoSends
  rw [along_cons, along_cons, along_cons, step_send hok, step_send hok]
  refine ⟨hok, hok, ⟨by decide, ?_⟩, trivial⟩
  show Server.incoming _ 7 ≠ []
  rw [connected_twoSends.incoming_eq]
  intro h0
  exact encoding_ne_nil _ (List.append_eq_nil_iff.mp h0).1

/-- the read takes both texts, and returns one message -/
theorem run_twoSends : ∃ s, run (step 1 7) ⟨oneClient, [], []⟩ twoSends
    = ⟨s, [Message.smallMessage, Message.smallMessage], [Message.smallMessage]⟩ ∧
    s.incoming 7 = [] := by
  have hok := acceptable_smallMessage
  have hlen : (Message.smallMessage.encoding ++ Message.smallMessage.encoding).length
      ≤ min BUFFER BUFFER := by
    rw [Message.smallMessage_encoding]
    decide
  have hdecode : Message.fromJSONString (Message.smallMessage.encoding
      ++ Message.smallMessage.encoding) = .ok Message.smallMessage :=
    Message.fromJSONString_encoding_append Message.smallMessage_sendable
      (Node.nulFree_render Message.smallMessage.root)
  obtain ⟨hnext, hreturned⟩ := connected_receive connected_twoSends BUFFER
  rw [List.drop_eq_nil_of_le hlen] at hnext
  rw [List.take_of_length_le hlen, hdecode] at hreturned
  refine ⟨_, ?_, hnext.incoming_eq⟩
  unfold twoSends
  rw [run_cons, run_cons, run_cons, run_nil, step_send hok, step_send hok]
  exact congrArg (Session.mk _ _) hreturned

/-- Two messages in one read: the second one is gone. -/
theorem two_in_one_read :
    ¬ ∀ (c fd : ℤ) (s : Server) (actions : List Action), Connected c fd [] s →
      Along (step c fd) (Proper fd) ⟨s, [], []⟩ actions →
      (run (step c fd) ⟨s, [], []⟩ actions).server.incoming fd = [] →
      (run (step c fd) ⟨s, [], []⟩ actions).received
        = (run (step c fd) ⟨s, [], []⟩ actions).sent := by
  intro h
  obtain ⟨s, hrun, hempty⟩ := run_twoSends
  have hend := h 1 7 oneClient twoSends connected_oneClient proper_twoSends
  rw [hrun] at hend
  have htwo : 1 = 2 := congrArg List.length (hend hempty)
  omega

end Session

end Hub
