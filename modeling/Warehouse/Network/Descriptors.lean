import Warehouse.Network.Model

/-!
# Descriptors of clients and of the server

A TCP client owns its descriptor.  A UDP client borrows the datagram socket of the server.

* `Inv`                     what each descriptor in use stands for;
* `inv_step`                every operation keeps it, but for the closing of a UDP client;
* `closesOnlyItsOwn_iff`    what `closeConnection` closes is in use elsewhere exactly for a UDP client;
* `healthy_iff`             the descriptors in use stay open throughout a run exactly when no UDP
                            client is closed in it.
-/

namespace Hub
open Machine Text CJSON Posix

namespace Server

def serverSockets (s : Server) : List ℤ :=
  [s.manager.serverSocketTCPv4, s.manager.serverSocketUDPv4, s.manager.serverSocketTCPv6,
    s.manager.serverSocketUDPv6]

/-- the sockets of the server and of all active clients are open -/
def Healthy (s : Server) : Prop :=
  (∀ fd ∈ s.serverSockets, s.kernel.isOpen fd = true) ∧
  ∀ c conn, s.manager.activeClients.find? c = some conn → s.kernel.isOpen conn.socket = true

/-- no descriptor that the operation closes is still used by the server or a client -/
def ClosesOnlyItsOwn (s : Server) (op : Op) : Prop :=
  ∀ fd, s.kernel.isOpen fd = true → (s.step op).kernel.isOpen fd = false →
    fd ∉ (s.step op).serverSockets ∧
    ∀ c conn, (s.step op).manager.activeClients.find? c = some conn → conn.socket ≠ fd

/-- a client that is closed has a descriptor of its own -/
def NotBorrowed (s : Server) : Op → Prop
  | .closeConnection c =>
    ∀ conn, s.manager.activeClients.find? c = some conn → conn.protocol = .TCP
  | _ => True

/-! ## the invariant -/

structure Inv (s : Server) : Prop where
  tcp4 : s.kernel.kind? s.manager.serverSocketTCPv4 = some .listening
  udp4 : s.kernel.kind? s.manager.serverSocketUDPv4 = some .datagram
  tcp6 : s.kernel.kind? s.manager.serverSocketTCPv6 = some .listening
  udp6 : s.kernel.kind? s.manager.serverSocketUDPv6 = some .datagram
  distinct : s.manager.serverSocketUDPv4 ≠ s.manager.serverSocketUDPv6
  -- the connection behind a TCP client is the one with its address
  stream : ∀ c conn, s.manager.activeClients.find? c = some conn → conn.protocol = .TCP →
    s.kernel.kind? conn.socket = some (.stream conn.address)
  borrowed : ∀ c conn, s.manager.activeClients.find? c = some conn → conn.protocol = .UDP →
    conn.socket = s.manager.serverSocketUDPv4 ∨ conn.socket = s.manager.serverSocketUDPv6
  owned : ∀ c c' conn conn', s.manager.activeClients.find? c = some conn →
    s.manager.activeClients.find? c' = some conn' → conn.protocol = .TCP → conn'.protocol = .TCP →
    conn.socket = conn'.socket → c = c'

theorem isOpen_of_kind {k : Kernel} {fd : ℤ} {kind : Kind} (h : k.kind? fd = some kind) :
    k.isOpen fd = true := by
  rw [Kernel.isOpen_eq, h]
  rfl

theorem kind_of_closed {k : Kernel} {fd : ℤ} (h : k.isOpen fd = false) : k.kind? fd = none := by
  rwa [Kernel.isOpen_eq, Option.isSome_eq_false_iff, Option.isNone_iff_eq_none] at h

theorem Inv.datagram {s : Server} (h : Inv s) {c : ℤ} {conn : ClientConnection}
    (hc : s.manager.activeClients.find? c = some conn) (hudp : conn.protocol = .UDP) :
    s.kernel.kind? conn.socket = some .datagram := by
  rcases h.borrowed c conn hc hudp with e | e
  · rw [e, h.udp4]
  · rw [e, h.udp6]

theorem Inv.kind_client {s : Server} (h : Inv s) {c : ℤ} {conn : ClientConnection}
    (hc : s.manager.activeClients.find? c = some conn) :
    ∃ kind, s.kernel.kind? conn.socket = some kind := by
  cases hp : conn.protocol with
  | TCP => exact ⟨_, h.stream c conn hc hp⟩
  | UDP => exact ⟨_, h.datagram hc hp⟩

theorem Inv.healthy {s : Server} (h : Inv s) : Healthy s := by
  constructor
  · intro fd hfd
    simp only [serverSockets, List.mem_cons, List.not_mem_nil, or_false] at hfd
    rcases hfd with rfl | rfl | rfl | rfl
    · exact isOpen_of_kind h.tcp4
    · exact isOpen_of_kind h.udp4
    · exact isOpen_of_kind h.tcp6
    · exact isOpen_of_kind h.udp6
  · intro c conn hc
    obtain ⟨kind, hkind⟩ := h.kind_client hc
    exact isOpen_of_kind hkind

/-- only the kinds of the descriptors matter -/
theorem Inv.congr {s : Server} (h : Inv s) {k : Kernel} (hk : k.kind? = s.kernel.kind?) :
    Inv ⟨s.manager, k⟩ where
  tcp4 := by rw [hk]; exact h.tcp4
  udp4 := by rw [hk]; exact h.udp4
  tcp6 := by rw [hk]; exact h.tcp6
  udp6 := by rw [hk]; exact h.udp6
  distinct := h.distinct
  stream := fun c conn hc hp => by rw [hk]; exact h.stream c conn hc hp
  borrowed := h.borrowed
  owned := h.owned

/-! ## one operation -/

/-- a connection on a new descriptor -/
theorem Inv.register_tcp {s : Server} (h : Inv s) {fd : ℤ} (hfd : s.kernel.isOpen fd = false)
    (address : SockAddr) :
    Inv ⟨s.manager.register fd address .TCP, s.kernel.openFile fd (.stream address [])⟩ := by
  have hnone := kind_of_closed hfd
  have hold : ∀ {x : ℤ} {kind : Kind}, s.kernel.kind? x = some kind →
      (s.kernel.openFile fd (.stream address [])).kind? x = some kind := by
    intro x kind hx
    rw [Kernel.kind?_openFile, if_neg, hx]
    rintro rfl
    rw [hnone] at hx
    cases hx
  have hne : ∀ {c : ℤ} {conn : ClientConnection}, s.manager.activeClients.find? c = some conn →
      conn.socket ≠ fd := by
    intro c conn hc he
    obtain ⟨kind, hkind⟩ := h.kind_client hc
    rw [he, hnone] at hkind
    cases hkind
  refine ⟨hold h.tcp4, hold h.udp4, hold h.tcp6, hold h.udp6, h.distinct, ?_, ?_, ?_⟩
  · intro c conn hc hp
    rcases SortedMap.find?_emplace_cases hc with hc | ⟨-, -, rfl⟩
    · exact hold (h.stream c conn hc hp)
    · rw [Kernel.kind?_openFile, if_pos rfl]
      rfl
  · intro c conn hc hp
    rcases SortedMap.find?_emplace_cases hc with hc | ⟨-, -, rfl⟩
    · exact h.borrowed c conn hc hp
    · cases hp
  · intro c c' conn conn' hc hc' hp hp' he
    rcases SortedMap.find?_emplace_cases hc with hc | ⟨-, rfl, rfl⟩ <;>
      rcases SortedMap.find?_emplace_cases hc' with hc' | ⟨-, rfl, rfl⟩
    · exact h.owned c c' conn conn' hc hc' hp hp' he
    · exact absurd he (hne hc)
    · exact absurd he.symm (hne hc')
    · rfl

/-- a sender on a datagram socket of the server -/
theorem Inv.register_udp {s : Server} (h : Inv s) {fd : ℤ}
    (hfd : fd = s.manager.serverSocketUDPv4 ∨ fd = s.manager.serverSocketUDPv6)
    (address : SockAddr) : Inv ⟨s.manager.register fd address .UDP, s.kernel⟩ := by
  refine ⟨h.tcp4, h.udp4, h.tcp6, h.udp6, h.distinct, ?_, ?_, ?_⟩
  · intro c conn hc hp
    rcases SortedMap.find?_emplace_cases hc with hc | ⟨-, -, rfl⟩
    · exact h.stream c conn hc hp
    · cases hp
  · intro c conn hc hp
    rcases SortedMap.find?_emplace_cases hc with hc | ⟨-, -, rfl⟩
    · exact h.borrowed c conn hc hp
    · exact hfd
  · intro c c' conn conn' hc hc' hp hp' he
    rcases SortedMap.find?_emplace_cases hc with hc | ⟨-, -, rfl⟩
    · rcases SortedMap.find?_emplace_cases hc' with hc' | ⟨-, -, rfl⟩
      · exact h.owned c c' conn conn' hc hc' hp hp' he
      · cases hp'
    · cases hp

/-- the end of a client that owns its descriptor -/
theorem Inv.close {s : Server} (h : Inv s) {c : ℤ} {conn : ClientConnection}
    (hc : s.manager.activeClients.find? c = some conn) (htcp : conn.protocol = .TCP) :
    Inv ⟨{ s.manager with activeClients := s.manager.activeClients.erase c },
      s.kernel.close conn.socket⟩ := by
  have hstream := h.stream c conn hc htcp
  have hold : ∀ {x : ℤ} {kind : Kind}, x ≠ conn.socket → s.kernel.kind? x = some kind →
      (s.kernel.close conn.socket).kind? x = some kind := by
    intro x kind hx hkind
    rw [Kernel.kind?_close, if_neg hx, hkind]
  -- a descriptor of another kind is another descriptor
  have hne : ∀ {x : ℤ} {kind : Kind}, s.kernel.kind? x = some kind →
      kind ≠ .stream conn.address → x ≠ conn.socket := by
    rintro x kind hx hkind rfl
    exact hkind (Option.some.inj (hx.symm.trans hstream))
  refine ⟨hold (hne h.tcp4 nofun) h.tcp4, hold (hne h.udp4 nofun) h.udp4,
    hold (hne h.tcp6 nofun) h.tcp6, hold (hne h.udp6 nofun) h.udp6, h.distinct, ?_, ?_, ?_⟩
  · intro x v hx hp
    obtain ⟨hxc, hx⟩ := SortedMap.find?_erase_some hx
    apply hold _ (h.stream x v hx hp)
    intro he
    exact hxc (h.owned x c v conn hx hc hp htcp he)
  · intro x v hx hp
    exact h.borrowed x v (SortedMap.find?_erase_some hx).2 hp
  · intro x x' v v' hx hx' hp hp' he
    exact h.owned x x' v v' (SortedMap.find?_erase_some hx).2 (SortedMap.find?_erase_some hx').2
      hp hp' he

/-- the handling of a datagram socket keeps the invariant, and the sockets of the server -/
theorem inv_handleSocket {s : Server} (h : Inv s) {fd : ℤ}
    (hfd : fd = s.manager.serverSocketUDPv4 ∨ fd = s.manager.serverSocketUDPv6) :
    Inv (s.handleSocket fd .UDP).1 ∧ (s.handleSocket fd .UDP).1.serverSockets = s.serverSockets := by
  rcases handleSocket_cases s fd .UDP with ⟨-, e⟩ | ⟨sender, data, k, hr, ⟨-, e⟩ | ⟨-, x, -, e⟩ |
    ⟨-, msg, -, e⟩⟩
  · rw [e]
    exact ⟨h, rfl⟩
  · rw [e]
    exact ⟨h.congr (Kernel.kind?_recvfrom hr), rfl⟩
  · rw [e]
    exact ⟨h.congr (Kernel.kind?_recvfrom hr), rfl⟩
  · have hk : (k.sendto fd sender acknowledgment).kind? = s.kernel.kind? := by
      rw [Kernel.kind?_sendto, Kernel.kind?_recvfrom hr]
    rw [e]
    unfold NetworkManager.identify
    split_ifs
    · exact ⟨(h.register_udp hfd sender).congr hk, rfl⟩
    · exact ⟨h.congr hk, rfl⟩

theorem inv_receiveUDPMessage {s : Server} (h : Inv s) : Inv s.receiveUDPMessage.1 := by
  obtain ⟨h4, hs4⟩ := inv_handleSocket h (Or.inl rfl)
  unfold receiveUDPMessage
  generalize s.handleSocket s.manager.serverSocketUDPv4 .UDP = first at h4 hs4
  obtain ⟨s', r⟩ := first
  cases r with
  | error e => exact h4
  | ok msgs =>
    obtain ⟨h6, -⟩ := inv_handleSocket h4 (Or.inr rfl)
    dsimp only
    generalize s'.handleSocket s'.manager.serverSocketUDPv6 .UDP = second at h6
    obtain ⟨s'', r'⟩ := second
    cases r' <;> exact h6

theorem inv_sendMessage {s : Server} (h : Inv s) (msg : Message) : Inv (s.sendMessage msg).1 := by
  unfold sendMessage
  split
  · exact h
  · split
    · exact h
    · split
      · exact h.congr (Kernel.kind?_send ..)
      · exact h.congr (Kernel.kind?_sendto ..)

theorem inv_receiveTCPMessage {s : Server} (h : Inv s) (c : ℤ) (cut : ℕ) :
    Inv (s.receiveTCPMessage c cut).1 := by
  rcases receiveTCPMessage_cases s c cut with ⟨-, e⟩ | ⟨client, -, ⟨-, e⟩ | ⟨sender, data, k, hr,
    ⟨-, e⟩ | ⟨-, x, -, e⟩ | ⟨-, msg, -, e⟩⟩⟩
  · rw [e]
    exact h
  · rw [e]
    exact h
  all_goals
    rw [e]
    exact h.congr (Kernel.kind?_recvfrom hr)

/-- every operation keeps the invariant, but for the closing of a UDP client -/
theorem inv_step (s : Server) (op : Op) (h : Inv s) (hl : Legal s op) (hc : NotBorrowed s op) :
    Inv (s.step op) := by
  cases op with
  | listenForConnections connection =>
    show Inv (s.listenForConnections connection)
    unfold listenForConnections
    split
    · exact h
    · next new peer k ha =>
      obtain ⟨rfl, rfl⟩ := Kernel.accept_eq_some ha
      obtain ⟨h0, hfree⟩ := hl
      rw [if_pos h0]
      exact h.register_tcp hfree peer
  | receiveUDPMessage => exact inv_receiveUDPMessage h
  | sendMessage msg => exact inv_sendMessage h msg
  | receiveTCPMessage c cut => exact inv_receiveTCPMessage h c cut
  | closeConnection c =>
    show Inv (s.closeConnection c)
    unfold closeConnection
    split
    · exact h
    · next conn hconn => exact h.close hconn (hc conn hconn)
  | arrive fd d => exact h.congr (Kernel.kind?_arrive ..)
  | deliver fd bytes => exact h.congr (Kernel.kind?_deliver ..)

theorem inv_started {s : Server} (h : Started s) : Inv s := by
  obtain ⟨files, answers, tcp4, udp4, tcp6, udp6, hne, -, rfl⟩ := h
  simp only [List.nodup_cons, List.mem_cons, List.not_mem_nil, or_false, not_or,
    not_false_eq_true, List.nodup_nil, and_true] at hne
  obtain ⟨⟨h12, h13, h14⟩, ⟨h23, h24⟩, h34⟩ := hne
  have hnone : ∀ {c : ℤ} {conn : ClientConnection},
      NetworkManager.init.activeClients.find? c ≠ some conn := fun h => by cases h
  refine ⟨?_, ?_, ?_, ?_, h24, fun c conn hc _ => absurd hc hnone, fun c conn hc _ => absurd hc hnone,
    fun c c' conn conn' hc _ _ _ _ => absurd hc hnone⟩
  · show Kernel.kind? _ tcp4 = _
    simp only [initializeSockets, Kernel.kind?_openFile, if_neg h12, if_neg h13, if_neg h14]
    rfl
  · show Kernel.kind? _ udp4 = _
    simp only [initializeSockets, Kernel.kind?_openFile, if_neg h23, if_neg h24]
    rfl
  · show Kernel.kind? _ tcp6 = _
    simp only [initializeSockets, Kernel.kind?_openFile, if_neg h34]
    rfl
  · show Kernel.kind? _ udp6 = _
    simp only [initializeSockets, Kernel.kind?_openFile]
    rfl

/-! ## every run -/

/-- what is closed is used elsewhere exactly for a UDP client -/
theorem closesOnlyItsOwn_iff (s : Server) (op : Op) (h : Inv s) (hl : Legal s op) :
    ClosesOnlyItsOwn s op ↔ NotBorrowed s op := by
  constructor
  · intro hown
    cases op with
    | closeConnection c =>
      intro conn hc
      cases hp : conn.protocol with
      | TCP => rfl
      | UDP =>
        have hstep : s.step (.closeConnection c) = ⟨{ s.manager with
            activeClients := s.manager.activeClients.erase c }, s.kernel.close conn.socket⟩ := by
          show s.closeConnection c = _
          unfold closeConnection
          rw [hc]
        have hclosed : (s.step (.closeConnection c)).kernel.isOpen conn.socket = false := by
          rw [hstep, Kernel.isOpen_eq, Kernel.kind?_close, if_pos rfl]
          rfl
        obtain ⟨hserver, -⟩ := hown conn.socket (isOpen_of_kind (h.datagram hc hp)) hclosed
        rw [hstep] at hserver
        refine absurd ?_ hserver
        simp only [serverSockets, List.mem_cons, List.not_mem_nil, or_false]
        rcases h.borrowed c conn hc hp with e | e
        · exact Or.inr (Or.inl e)
        · exact Or.inr (Or.inr (Or.inr e))
    | _ => trivial
  · intro hc fd _ hclosed
    obtain ⟨hserver, hclients⟩ := (inv_step s op h hl hc).healthy
    constructor
    · intro hfd
      rw [hserver fd hfd] at hclosed
      cases hclosed
    · intro c conn hconn he
      rw [← he, hclients c conn hconn] at hclosed
      cases hclosed

/-- **When closing a client leaves the others alone.**  In every run from a started server, the
sockets in use are open in every state, and no close hits a descriptor in use, exactly when no UDP
client is closed. -/
theorem healthy_iff {s : Server} (hs : Started s) (ops : List Op) (hl : Along step Legal s ops) :
    (Always step Healthy s ops ∧ Along step ClosesOnlyItsOwn s ops)
      ↔ Along step NotBorrowed s ops := by
  have hinv := inv_started hs
  rw [along_iff_along closesOnlyItsOwn_iff inv_step hinv hl]
  constructor
  · exact And.right
  intro h
  refine ⟨?_, h⟩
  have hrun : Always step Inv s ops :=
    always_of_along (C := fun s op => Legal s op ∧ NotBorrowed s op)
      (fun s op hi hc => inv_step s op hi hc.1 hc.2) hinv (along_and.mpr ⟨hl, h⟩)
  exact always_mono (fun _ hi => hi.healthy) hrun

/-- a process with nothing but the sockets of the server, and nothing refuses what it sends -/
def fresh : Server := initializeSockets ⟨NetworkManager.init, ⟨SortedMap.empty, [], []⟩⟩ 3 4 5 6

theorem started_fresh : Started fresh :=
  ⟨SortedMap.empty, [], 3, 4, 5, 6, by decide, fun _ _ => rfl, rfl⟩

/-- a small message from somewhere -/
def greeting : Datagram := ⟨⟨[1], 1⟩, Message.smallMessage.encoding⟩

theorem greeting_payload : greeting.payload.take BUFFER = Message.smallMessage.encoding ∧
    Message.smallMessage.encoding ≠ [] ∧
    Message.fromJSONString Message.smallMessage.encoding = .ok Message.smallMessage := by
  have hlen : Message.smallMessage.encoding.length ≤ BUFFER := by
    rw [Message.smallMessage_encoding]
    decide
  refine ⟨List.take_of_length_le hlen, ?_, ?_⟩
  · rw [Message.smallMessage_encoding]
    decide
  · obtain ⟨text, ht, hm⟩ :=
      Message.fromJSONString_encoding Message.smallMessage_sendable (hlen.trans (by decide))
    rwa [Message.toJSONString_ok ht] at hm

/-- where the greeting waits on the first socket and nothing on the second one, its sender gets an
identifier -/
theorem manager_greeting {s : Server}
    (h : ∃ k, s.kernel.recvfrom s.manager.serverSocketUDPv4 BUFFER BUFFER
        = some (greeting.sender, greeting.payload.take BUFFER, k) ∧
      (k.sendto s.manager.serverSocketUDPv4 greeting.sender acknowledgment).recvfrom
        (s.manager.identify s.manager.serverSocketUDPv4 .UDP greeting.sender).2.serverSocketUDPv6
        BUFFER BUFFER = none) :
    s.receiveUDPMessage.1.manager
      = (s.manager.identify s.manager.serverSocketUDPv4 .UDP greeting.sender).2 := by
  obtain ⟨htake, hne, hm⟩ := greeting_payload
  obtain ⟨k, hr, hidle⟩ := h
  rw [htake] at hr
  have h4 := handleSocket_accepted .UDP hr hne hm
  rw [receiveUDPMessage_ok h4 (handleSocket_idle hidle)]

/-- the sender of the first datagram becomes client 1, on the socket of the server -/
theorem client_greeting :
    ((fresh.step (.arrive 4 greeting)).step .receiveUDPMessage).manager.activeClients.find? 1
      = some ⟨1, 4, greeting.sender, .UDP⟩ :=
  congrArg (fun m => m.activeClients.find? 1)
    (manager_greeting (s := fresh.step (.arrive 4 greeting)) ⟨_, rfl, rfl⟩)

/-- two clients over TCP and one over UDP, and the second one is closed -/
def threeClients : List Op :=
  [.listenForConnections (some (7, ⟨[2], 1⟩)), .listenForConnections (some (8, ⟨[3], 1⟩)),
    .arrive 4 greeting, .receiveUDPMessage, .closeConnection 2]

theorem manager_threeClients :
    (run step fresh (threeClients.take 4)).manager.activeClients.find? 2
        = some ⟨2, 8, ⟨[3], 1⟩, .TCP⟩ ∧
      (run step fresh (threeClients.take 4)).manager.activeClients.find? 3
        = some ⟨3, 4, greeting.sender, .UDP⟩ := by
  have hmanager := manager_greeting (s := run step fresh (threeClients.take 3)) ⟨_, rfl, rfl⟩
  exact ⟨congrArg (fun m => m.activeClients.find? 2) hmanager,
    congrArg (fun m => m.activeClients.find? 3) hmanager⟩

/-- the hypotheses can be met: the client that is closed is one over TCP -/
theorem healthy_iff_example : Always step Healthy fresh threeClients ∧
    Along step ClosesOnlyItsOwn fresh threeClients := by
  have hlegal : Along step Legal fresh threeClients :=
    ⟨⟨by decide, by decide⟩, ⟨by decide, by decide⟩, trivial, trivial, trivial, trivial⟩
  refine (healthy_iff started_fresh threeClients hlegal).mpr
    ⟨trivial, trivial, trivial, trivial, fun conn hconn => ?_, trivial⟩
  obtain rfl := Option.some.inj (manager_threeClients.1.symm.trans hconn)
  rfl

/-- One datagram, and its sender is closed: the socket of the server goes with it. -/
theorem close_takes_server_socket :
    ¬ ∀ (s : Server) (ops : List Op), Started s → Along step Legal s ops →
      Always step Healthy s ops ∧ Along step ClosesOnlyItsOwn s ops := by
  intro h
  have hown := (h fresh [.arrive 4 greeting, .receiveUDPMessage, .closeConnection 1] started_fresh
    ⟨trivial, trivial, trivial, trivial⟩).2.2.2.1
  have h1 := inv_step _ (.arrive 4 greeting) (inv_started started_fresh) trivial trivial
  have h2 := inv_step _ .receiveUDPMessage h1 trivial trivial
  have hborrowed := (closesOnlyItsOwn_iff _ (.closeConnection 1) h2 trivial).mp hown
  cases hborrowed _ client_greeting

end Server

end Hub
