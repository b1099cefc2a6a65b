import Warehouse.Floor.Model

/-!
# From the devices to the hub

Nothing is made up between a device and what the hub hands out.

* `queue_handleSocket`   one datagram socket: its first datagram is taken, and no other;
* `waiting_step`         what an operation of the hub takes and hands out;
* `Floor.inv_step`       every act keeps the invariant;
* `Floor.end_to_end`     every run: what is handed out was sent, and not more often; identifiers tell
                         the devices apart.
-/

namespace Device
open Text CJSON

namespace Process

/-! ## a device -/

theorem issued_step (inet_addr : CString → UInt32) (p : Process) (op : Op) :
    ∃ calls, (p.step inet_addr op).issued = p.issued ++ calls := by
  cases op with
  | initializeClient ip port protocol socket connect =>
    refine ⟨[], ?_⟩
    show (p.initializeClient inet_addr ip port protocol socket connect).2.issued = _
    unfold initializeClient
    dsimp only
    split_ifs <;> exact (List.append_nil _).symm
  | sendMessage message sent =>
    show ∃ calls, (p.sendMessage message sent).2.issued = _
    unfold sendMessage
    split_ifs
    · exact ⟨[], (List.append_nil _).symm⟩
    · exact ⟨_, rfl⟩
    · exact ⟨_, rfl⟩
    · exact ⟨[], (List.append_nil _).symm⟩
  | receiveMessage buffer_size received =>
    show ∃ calls, (p.receiveMessage buffer_size received).2.issued = _
    unfold receiveMessage
    split_ifs
    · exact ⟨[], (List.append_nil _).symm⟩
    · exact ⟨_, rfl⟩
  | closeClient =>
    show ∃ calls, p.closeClient.issued = _
    unfold closeClient
    split_ifs
    · exact ⟨_, rfl⟩
    · exact ⟨[], (List.append_nil _).symm⟩

theorem transmitted_step (inet_addr : CString → UInt32) (hub : SockAddrIn) (p : Process) (op : Op) :
    (p.step inet_addr op).transmitted hub = p.transmitted hub + ↑(p.transmits inet_addr hub op) := by
  obtain ⟨calls, h⟩ := issued_step inet_addr p op
  unfold transmitted transmits
  rw [h, List.drop_left, List.filterMap_append, Multiset.coe_add]

end Process

end Device

namespace Hub
open Machine Text CJSON Posix

namespace Server

/-! ## the hub -/

theorem queue_of_kind {s : Server} {fd : ℤ} (h : s.kernel.kind? fd = some .datagram) :
    s.kernel.files.find? fd = some (.datagram (s.queue fd)) := by
  obtain ⟨f, hf, hkind⟩ := Option.map_eq_some_iff.mp h
  unfold queue
  cases f with
  | datagram q => rw [hf]
  | _ => cases hkind

/-- another file in the place of one that is no datagram socket -/
theorem queue_openFile {s : Server} {fd : ℤ} (f : File) {x : ℤ} (hx : x ≠ fd) (m : NetworkManager) :
    queue ⟨m, s.kernel.openFile fd f⟩ x = s.queue x := by
  unfold queue Kernel.openFile
  rw [SortedMap.find?_insert_of_ne _ _ hx]

theorem queue_sendto (m : NetworkManager) (k : Kernel) (fd : ℤ) (dest : SockAddr) (bytes : Bytes)
    (x : ℤ) : queue ⟨m, k.sendto fd dest bytes⟩ x = queue ⟨m, k⟩ x := rfl

theorem queue_send (m : NetworkManager) (k : Kernel) (fd : ℤ) (bytes : Bytes) (x : ℤ) :
    queue ⟨m, k.send fd bytes⟩ x = queue ⟨m, k⟩ x := rfl

/-- a receiving call takes the first datagram of its socket, or nothing from any -/
theorem queue_recvfrom {s : Server} {fd : ℤ} {size cut : ℕ} {a : SockAddr} {b : Bytes} {k : Kernel}
    (h : s.kernel.recvfrom fd size cut = some (a, b, k)) (m : NetworkManager) :
    (∀ x, x ≠ fd → queue ⟨m, k⟩ x = s.queue x) ∧
      ((s.queue fd = [] ∧ queue ⟨m, k⟩ fd = []) ∨
        ∃ d, s.queue fd = d :: queue ⟨m, k⟩ fd ∧ a = d.sender ∧ b = d.payload.take size) := by
  unfold Kernel.recvfrom at h
  split at h
  · next d q hf =>
    cases h
    refine ⟨fun x hx => queue_openFile _ hx m, Or.inr ⟨d, ?_, rfl, rfl⟩⟩
    unfold queue
    rw [hf, SortedMap.find?_insert_self]
  · next peer incoming hf =>
    cases h
    refine ⟨fun x hx => queue_openFile _ hx m, Or.inl ⟨?_, ?_⟩⟩
    · unfold queue
      rw [hf]
    · unfold queue Kernel.openFile
      rw [SortedMap.find?_insert_self]
  · cases h

theorem recvfrom_of_queue {s : Server} {fd : ℤ} {d : Datagram} {q : List Datagram}
    (h : s.queue fd = d :: q) (size cut : ℕ) : ∃ r, s.kernel.recvfrom fd size cut = some r := by
  unfold queue at h
  split at h
  · next q' hf =>
    unfold Kernel.recvfrom
    rw [hf, h]
    exact ⟨_, rfl⟩
  · cases h

/-- **One datagram socket.**  Nothing waits and nothing happens, or the first datagram is taken; what
is returned is its message. -/
theorem queue_handleSocket {s : Server} {fd : ℤ} (hk : s.kernel.kind? fd = some .datagram) :
    (s.queue fd = [] ∧ s.handleSocket fd .UDP = (s, .ok [])) ∨
      ∃ d, s.queue fd = d :: (s.handleSocket fd .UDP).1.queue fd ∧
        (∀ x, x ≠ fd → (s.handleSocket fd .UDP).1.queue x = s.queue x) ∧
        ∀ msgs, (s.handleSocket fd .UDP).2 = .ok msgs → msgs = [] ∨ ∃ msg id,
          Message.fromJSONString (d.payload.take BUFFER) = .ok msg ∧ msgs = [msg.setClientID id] := by
  have hf := queue_of_kind hk
  rcases handleSocket_cases s fd .UDP with ⟨hr, e⟩ | ⟨sender, data, k, hr, h⟩
  · refine Or.inl ⟨?_, e⟩
    cases hq : s.queue fd with
    | nil => rfl
    | cons d q =>
      obtain ⟨r, hr'⟩ := recvfrom_of_queue hq BUFFER BUFFER
      rw [hr] at hr'
      cases hr'
  · obtain ⟨d, hq, -, hdata⟩ : ∃ d, s.queue fd = d :: queue ⟨s.manager, k⟩ fd ∧
        sender = d.sender ∧ data = d.payload.take BUFFER := by
      refine (queue_recvfrom hr s.manager).2.resolve_left fun hno => ?_
      rw [hno.1] at hf
      unfold Kernel.recvfrom at hr
      rw [hf] at hr
      cases hr
    have hother : ∀ x, x ≠ fd → queue ⟨s.manager, k⟩ x = s.queue x :=
      (queue_recvfrom hr s.manager).1
    refine Or.inr ⟨d, ?_⟩
    rcases h with ⟨-, e⟩ | ⟨-, x, -, e⟩ | ⟨-, msg, hm, e⟩
    · rw [e]
      exact ⟨hq, hother, fun msgs hmsgs => Or.inl (Except.ok.inj hmsgs).symm⟩
    · rw [e]
      exact ⟨hq, hother, fun msgs hmsgs => by cases hmsgs⟩
    · rw [e]
      have hsend : ∀ x, queue ⟨(s.manager.identify fd .UDP sender).2,
          k.sendto fd sender acknowledgment⟩ x = queue ⟨s.manager, k⟩ x := fun x =>
        (queue_sendto ..).trans rfl
      refine ⟨by rw [hsend]; exact hq, fun x hx => (hsend x).trans (hother x hx), fun msgs hmsgs =>
        Or.inr ⟨msg, _, by rw [← hdata]; exact hm, (Except.ok.inj hmsgs).symm⟩⟩

/-! ### both sockets -/

/-- the datagram sockets of a server -/
def SameSockets (m m' : NetworkManager) : Prop :=
  m'.serverSocketUDPv4 = m.serverSocketUDPv4 ∧ m'.serverSocketUDPv6 = m.serverSocketUDPv6

theorem sameSockets_identify (m : NetworkManager) (fd : ℤ) (p : Protocol) (a : SockAddr) :
    SameSockets m (m.identify fd p a).2 := by
  unfold NetworkManager.identify
  split_ifs <;> exact ⟨rfl, rfl⟩

theorem sameSockets_handleSocket (s : Server) (fd : ℤ) (p : Protocol) :
    SameSockets s.manager (s.handleSocket fd p).1.manager := by
  rcases handleSocket_manager s fd p with ⟨e, -⟩ | ⟨e, -⟩
  · rw [e]
    exact ⟨rfl, rfl⟩
  · rw [e]
    exact sameSockets_identify ..

theorem origin_eq {s : Server} {fd : ℤ} (hk : s.kernel.kind? fd = some .datagram) :
    s.origin fd = ((s.queue fd).head?.map Datagram.sender).getD ⟨[], 0⟩ := by
  have hf := queue_of_kind hk
  unfold origin Kernel.recvfrom
  rw [hf]
  cases s.queue fd <;> rfl

/-- a message with the datagram it was decoded from -/
def Genuine (r : Datagram × Message) : Prop :=
  ∃ msg, Message.fromJSONString (r.1.payload.take BUFFER) = .ok msg ∧
    r.2 = msg.setClientID r.2.clientID

theorem queue_handleSocket_le {s : Server} {fd : ℤ} (hk : s.kernel.kind? fd = some .datagram) :
    ((s.handleSocket fd .UDP).1.queue fd : Multiset Datagram) ≤ s.queue fd := by
  rcases queue_handleSocket hk with ⟨-, e⟩ | ⟨d, hq, -⟩
  · rw [e]
  · rw [hq, ← Multiset.cons_coe]
    exact Multiset.le_cons_self _ d

theorem queue_handleSocket_of_ne {s : Server} {fd : ℤ} (hk : s.kernel.kind? fd = some .datagram)
    {x : ℤ} (hx : x ≠ fd) : (s.handleSocket fd .UDP).1.queue x = s.queue x := by
  rcases queue_handleSocket hk with ⟨-, e⟩ | ⟨d, -, hother, -⟩
  · rw [e]
  · exact hother x hx

/-- the messages of one socket with their datagrams -/
theorem labelled_spec {s : Server} {fd : ℤ} (hk : s.kernel.kind? fd = some .datagram)
    {msgs : List Message} (h : (s.handleSocket fd .UDP).2 = .ok msgs) :
    (s.labelled fd msgs).map (fun r => (r.1.sender, r.2)) = msgs.map (fun msg => (s.origin fd, msg)) ∧
      (((s.labelled fd msgs).map Prod.fst : List Datagram) : Multiset Datagram) +
        ↑((s.handleSocket fd .UDP).1.queue fd) ≤ ↑(s.queue fd) ∧
      ∀ r ∈ s.labelled fd msgs, Genuine r := by
  unfold labelled
  rcases queue_handleSocket hk with ⟨hq, e⟩ | ⟨d, hq, -, hmsgs⟩
  · rw [e] at h ⊢
    cases h
    rw [hq]
    exact ⟨rfl, le_rfl, List.forall_mem_nil _⟩
  · generalize (s.handleSocket fd .UDP).1.queue fd = q at hq
    rw [hq, origin_eq hk, hq]
    dsimp only
    rcases hmsgs msgs h with rfl | ⟨msg, id, hm, rfl⟩
    · refine ⟨rfl, ?_, List.forall_mem_nil _⟩
      rw [← Multiset.cons_coe]
      show 0 + (q : Multiset Datagram) ≤ d ::ₘ ↑q
      rw [zero_add]
      exact Multiset.le_cons_self _ d
    · refine ⟨rfl, ?_, fun r hr => ?_⟩
      · rw [← Multiset.cons_coe]
        show {d} + (q : Multiset Datagram) ≤ d ::ₘ ↑q
        rw [Multiset.singleton_add]
      · rw [List.mem_singleton.mp hr]
        exact ⟨msg, hm, rfl⟩

/-- **One call.**  What is returned waited on the sockets, and does not any more. -/
theorem collected_spec {s : Server} (hi : Inv s) :
    s.collected.map (fun r => (r.1.sender, r.2)) = s.deliveries ∧
      ((s.collected.map Prod.fst : List Datagram) : Multiset Datagram) +
        s.receiveUDPMessage.1.waiting ≤ s.waiting ∧
      ∀ r ∈ s.collected, Genuine r := by
  obtain ⟨hi', -⟩ := inv_handleSocket hi (Or.inl rfl)
  have hsockets := sameSockets_handleSocket s s.manager.serverSocketUDPv4 .UDP
  have hle := queue_handleSocket_le hi.udp4
  have hother := queue_handleSocket_of_ne hi.udp4 (x := s.manager.serverSocketUDPv6) hi.distinct.symm
  have hfirst := @labelled_spec s s.manager.serverSocketUDPv4 hi.udp4
  unfold collected deliveries receiveUDPMessage
  generalize s.handleSocket s.manager.serverSocketUDPv4 .UDP = call
    at hi' hsockets hle hother hfirst
  obtain ⟨s', r⟩ := call
  dsimp only at hi' hsockets hle hother
  unfold waiting
  cases r with
  | error e =>
    refine ⟨rfl, ?_, List.forall_mem_nil _⟩
    show 0 + _ ≤ _
    rw [zero_add, hsockets.1, hsockets.2, hother]
    exact add_le_add_left hle _
  | ok first =>
    obtain ⟨hmap, hcount, hgenuine⟩ := hfirst rfl
    have hsockets' := sameSockets_handleSocket s' s'.manager.serverSocketUDPv6 .UDP
    have hle' := queue_handleSocket_le hi'.udp6
    have hother' := queue_handleSocket_of_ne hi'.udp6 (x := s'.manager.serverSocketUDPv4) hi'.distinct
    have hsecond := @labelled_spec s' s'.manager.serverSocketUDPv6 hi'.udp6
    have hlabel : s.labelled s.manager.serverSocketUDPv6 =
        s'.labelled s'.manager.serverSocketUDPv6 := by
      unfold labelled
      rw [hsockets.2, hother]
    dsimp only
    rw [hlabel]
    rw [← hsockets.2] at hother
    generalize s'.handleSocket s'.manager.serverSocketUDPv6 .UDP = call
      at hsockets' hle' hother' hsecond
    obtain ⟨s'', r⟩ := call
    dsimp only at hsockets' hle' hother'
    rw [hsockets.1] at hother'
    rw [hother, hsockets.2] at hle'
    cases r with
    | error e =>
      refine ⟨rfl, ?_, List.forall_mem_nil _⟩
      show 0 + (_ + _) ≤ _
      rw [zero_add, hsockets'.1, hsockets'.2, hsockets.1, hsockets.2, hother']
      exact add_le_add hle hle'
    | ok second =>
      obtain ⟨hmap', hcount', hgenuine'⟩ := hsecond rfl
      refine ⟨?_, ?_, fun r hr => (List.mem_append.mp hr).elim (hgenuine r) (hgenuine' r)⟩
      · show List.map _ (_ ++ _) = _
        rw [List.map_append, hmap, hmap']
      · show ((List.map _ (_ ++ _) : List Datagram) : Multiset Datagram) + (_ + _) ≤ _
        rw [List.map_append, ← Multiset.coe_add, hsockets'.1, hsockets'.2, hsockets.1, hother',
          add_add_add_comm]
        rw [hother, hsockets.2] at hcount'
        rw [hsockets.2]
        exact add_le_add hcount hcount'

/-! ### every operation -/

theorem waiting_le {s s' : Server} (hsockets : SameSockets s.manager s'.manager)
    (h4 : (s'.queue s.manager.serverSocketUDPv4 : Multiset Datagram)
      ≤ s.queue s.manager.serverSocketUDPv4)
    (h6 : (s'.queue s.manager.serverSocketUDPv6 : Multiset Datagram)
      ≤ s.queue s.manager.serverSocketUDPv6) : s'.waiting ≤ s.waiting := by
  unfold waiting
  rw [hsockets.1, hsockets.2]
  exact add_le_add h4 h6

theorem waiting_congr {s s' : Server} (hsockets : SameSockets s.manager s'.manager)
    (h : ∀ x, s.kernel.kind? x = some .datagram → s'.queue x = s.queue x) (hi : Inv s) :
    s'.waiting ≤ s.waiting :=
  waiting_le hsockets (by rw [h _ hi.udp4]) (by rw [h _ hi.udp6])

theorem queue_recvfrom_le {s : Server} {fd : ℤ} {size cut : ℕ} {a : SockAddr} {b : Bytes}
    {k : Kernel} (h : s.kernel.recvfrom fd size cut = some (a, b, k)) (x : ℤ) :
    (queue ⟨s.manager, k⟩ x : Multiset Datagram) ≤ s.queue x := by
  obtain ⟨hother, hfd⟩ := queue_recvfrom h s.manager
  by_cases hx : x = fd
  · rw [hx]
    rcases hfd with ⟨hq, hq'⟩ | ⟨d, hq, -⟩
    · rw [hq, hq']
    · rw [hq, ← Multiset.cons_coe]
      exact Multiset.le_cons_self _ d
  · rw [hother x hx]

theorem waiting_listenForConnections {s : Server} (hi : Inv s) {connection : Option (ℤ × SockAddr)}
    (hl : Legal s (.listenForConnections connection)) :
    (s.listenForConnections connection).waiting ≤ s.waiting := by
  unfold listenForConnections
  split
  · exact le_rfl
  · next new peer k ha =>
    obtain ⟨rfl, rfl⟩ := Kernel.accept_eq_some ha
    obtain ⟨h0, hfree⟩ := hl
    rw [if_pos h0]
    refine waiting_congr ⟨rfl, rfl⟩ (fun x hx => ?_) hi
    refine queue_openFile _ (fun he => ?_) _
    rw [he, kind_of_closed hfree] at hx
    cases hx

theorem waiting_sendMessage {s : Server} (hi : Inv s) (msg : Message) :
    (s.sendMessage msg).1.waiting ≤ s.waiting := by
  unfold sendMessage
  split
  · exact le_rfl
  · split
    · exact le_rfl
    · split
      · exact waiting_congr ⟨rfl, rfl⟩ (fun x _ => queue_send ..) hi
      · exact waiting_congr ⟨rfl, rfl⟩ (fun x _ => queue_sendto ..) hi

theorem waiting_receiveTCPMessage (s : Server) (c : ℤ) (cut : ℕ) :
    (s.receiveTCPMessage c cut).1.waiting ≤ s.waiting := by
  rcases receiveTCPMessage_cases s c cut with ⟨-, e⟩ | ⟨client, -, ⟨-, e⟩ | ⟨sender, data, k, hr,
    ⟨-, e⟩ | ⟨-, x, -, e⟩ | ⟨-, msg, -, e⟩⟩⟩
  · rw [e]
  · rw [e]
  all_goals
    rw [e]
    exact waiting_le ⟨rfl, rfl⟩ (queue_recvfrom_le hr _) (queue_recvfrom_le hr _)

/-- a TCP client has no datagram socket -/
theorem waiting_closeConnection {s : Server} (hi : Inv s) {c : ℤ}
    (hb : NotBorrowed s (.closeConnection c)) : (s.closeConnection c).waiting ≤ s.waiting := by
  unfold closeConnection
  split
  · exact le_rfl
  · next conn hc =>
    refine waiting_congr ⟨rfl, rfl⟩ (fun x hx => ?_) hi
    have hne : x ≠ conn.socket := fun he => by
      rw [he, hi.stream c conn hc (hb conn hc)] at hx
      cases hx
    unfold queue Kernel.close
    rw [SortedMap.find?_erase_of_ne _ hne]

theorem waiting_deliver {s : Server} (hi : Inv s) (fd : ℤ) (bytes : Bytes) :
    (s.step (.deliver fd bytes)).waiting ≤ s.waiting := by
  refine waiting_congr ⟨rfl, rfl⟩ (fun x hx => ?_) hi
  show queue ⟨s.manager, s.kernel.deliver fd bytes⟩ x = _
  unfold Kernel.deliver
  split
  · next peer incoming hf =>
    refine queue_openFile _ (fun he => ?_) _
    rw [Kernel.kind?, he, hf] at hx
    cases hx
  · rfl

/-- **One operation.**  What is handed out waited on a socket, and is the message of its datagram. -/
theorem waiting_step {s : Server} {op : Op} (hi : Inv s) (hl : Legal s op) (hb : NotBorrowed s op)
    (hop : ∀ fd x, op ≠ .arrive fd x) :
    (s.collecting op).map (fun r => (r.1.sender, r.2)) = Registry.delivering s op ∧
      (((s.collecting op).map Prod.fst : List Datagram) : Multiset Datagram) + (s.step op).waiting
        ≤ s.waiting ∧
      ∀ r ∈ s.collecting op, Genuine r := by
  have hnone : ∀ {t : Multiset Datagram}, t ≤ s.waiting → (0 : Multiset Datagram) + t ≤ s.waiting := by
    intro t ht
    rwa [zero_add]
  cases op with
  | receiveUDPMessage => exact collected_spec hi
  | listenForConnections connection =>
    exact ⟨rfl, hnone (waiting_listenForConnections hi hl), List.forall_mem_nil _⟩
  | sendMessage msg => exact ⟨rfl, hnone (waiting_sendMessage hi msg), List.forall_mem_nil _⟩
  | receiveTCPMessage c cut =>
    exact ⟨rfl, hnone (waiting_receiveTCPMessage s c cut), List.forall_mem_nil _⟩
  | closeConnection c => exact ⟨rfl, hnone (waiting_closeConnection hi hb), List.forall_mem_nil _⟩
  | deliver fd bytes => exact ⟨rfl, hnone (waiting_deliver hi fd bytes), List.forall_mem_nil _⟩
  | arrive fd x => exact absurd rfl (hop fd x)

theorem queue_arrive {s : Server} {fd : ℤ} (hk : s.kernel.kind? fd = some .datagram) (d : Datagram)
    (x : ℤ) :
    (s.step (.arrive fd d)).queue x = if x = fd then s.queue x ++ [d] else s.queue x := by
  show queue ⟨s.manager, s.kernel.arrive fd d⟩ x = _
  unfold Kernel.arrive
  rw [queue_of_kind hk]
  dsimp only
  split_ifs with hx
  · rw [hx]
    show queue ⟨_, s.kernel.openFile fd _⟩ fd = _
    unfold queue Kernel.openFile
    dsimp only
    rw [SortedMap.find?_insert_self]
  · exact queue_openFile _ hx _

theorem waiting_arrive {s : Server} (hi : Inv s) {fd : ℤ}
    (hfd : fd = s.manager.serverSocketUDPv4 ∨ fd = s.manager.serverSocketUDPv6) (d : Datagram) :
    (s.step (.arrive fd d)).waiting = d ::ₘ s.waiting := by
  show ↑(queue (s.step (.arrive fd d)) s.manager.serverSocketUDPv4) +
    ↑(queue (s.step (.arrive fd d)) s.manager.serverSocketUDPv6) = d ::ₘ (_ + _)
  rcases hfd with rfl | rfl
  · rw [queue_arrive hi.udp4, queue_arrive hi.udp4, if_pos rfl, if_neg hi.distinct.symm,
      ← Multiset.coe_add, Multiset.coe_singleton, add_right_comm,
      add_comm _ ({d} : Multiset Datagram), Multiset.singleton_add]
  · rw [queue_arrive hi.udp6, queue_arrive hi.udp6, if_pos rfl, if_neg hi.distinct,
      ← Multiset.coe_add, Multiset.coe_singleton, ← add_assoc,
      add_comm _ ({d} : Multiset Datagram), Multiset.singleton_add]

end Server

namespace Registry
open NetworkManager Server

/-! ## the past of the hub -/

/-- every message handed out still has the entry of its sender -/
structure Past (r : Registry) (rs : List (Datagram × Message)) : Prop where
  delivered : rs.map (fun x => (x.1.sender, x.2)) = r.delivered
  active : ∀ x ∈ rs, ∃ conn, r.server.manager.activeClients.find? x.2.clientID = some conn

variable {r : Registry} {rs : List (Datagram × Message)}

theorem Past.mem (h : Past r rs) {x : Datagram × Message} (hx : x ∈ rs) :
    (x.1.sender, x.2) ∈ r.delivered := by
  rw [← h.delivered]
  exact List.mem_map_of_mem hx

/-- an entry stays until its client is closed -/
theorem find?_step {op : Server.Op} (h : Inv r) (hfew : (step r op).registered < 2 ^ 31 - 1) {c : ℤ}
    (hc : c < r.server.manager.nextClientID) (hop : op ≠ .closeConnection c) :
    (r.server.step op).manager.activeClients.find? c = r.server.manager.activeClients.find? c := by
  have hle : r.server.manager.nextClientID ≤ (r.server.step op).manager.nextClientID := by
    rw [nextClientID_of_few h op hfew, h.count]
    show (1 : ℤ) + r.registered ≤ 1 + ((r.registered + registrations r.server op : ℕ) : ℤ)
    omega
  exact (step_spec h.names op hle).2 c hc hop

theorem Past.answered (h : Past r rs) (hi : Inv r) {x : Datagram × Message} (hx : x ∈ rs) :
    ∃ conn, r.server.manager.activeClients.find? x.2.clientID = some conn ∧ conn.protocol = .UDP ∧
      conn.address.same x.1.sender = true := by
  obtain ⟨conn, hconn⟩ := h.active x hx
  exact ⟨conn, hconn, (hi.delivered _ (h.mem hx)).2 conn hconn⟩

theorem Past.named (h : Past r rs) (hi : Inv r) {x y : Datagram × Message} (hx : x ∈ rs)
    (hy : y ∈ rs) : x.2.clientID = y.2.clientID ↔ x.1.sender.same y.1.sender = true :=
  (hi.consistent.sources _ (h.mem hx) _ (h.mem hy) (SortedMap.contains_eq_true.mpr (h.active x hx))
    (SortedMap.contains_eq_true.mpr (h.active y hy))).symm

theorem past_step {op : Server.Op} {new : List (Datagram × Message)} (h : Past r rs) (hi : Inv r)
    (hfew : (step r op).registered < 2 ^ 31 - 1) (hb : NotBorrowed r.server op)
    (hnew : new.map (fun x => (x.1.sender, x.2)) = delivering r.server op) :
    Past (step r op) (new ++ rs) := by
  obtain ⟨hi', hcarries⟩ := inv_step r op hi hfew
  refine ⟨?_, fun x hx => ?_⟩
  · rw [List.map_append, hnew, h.delivered]
    rfl
  show ∃ conn, (r.server.step op).manager.activeClients.find? x.2.clientID = some conn
  rcases List.mem_append.mp hx with hx | hx
  · -- the call has registered the sender, if it was not
    have hd : (x.1.sender, x.2) ∈ delivering r.server op := by
      rw [← hnew]
      exact List.mem_map_of_mem hx
    cases op with
    | receiveUDPMessage =>
      obtain ⟨conn, hconn, -⟩ := ((hcarries rfl).2 _ hd).1
      exact ⟨conn, hconn⟩
    | _ => cases hd
  · -- a TCP client that is closed is another one
    obtain ⟨conn, hconn, hudp, -⟩ := h.answered hi hx
    have hop : op ≠ .closeConnection x.2.clientID := fun he => by
      rw [he] at hb
      rw [hb conn hconn] at hudp
      cases hudp
    refine ⟨conn, ?_⟩
    rw [find?_step hi hfew (hi.delivered _ (h.mem hx)).1 hop]
    exact hconn

end Registry

namespace Floor

variable {δ : Type} [DecidableEq δ] {L : Layout δ}

/-! ## the floor -/

theorem ofDevice_add (d : δ) (xs ys : Multiset Datagram) :
    ofDevice L d (xs + ys) = ofDevice L d xs + ofDevice L d ys := by
  unfold ofDevice
  rw [Multiset.filter_add, Multiset.map_add]

theorem ofDevice_mono (d : δ) {xs ys : Multiset Datagram} (h : xs ≤ ys) :
    ofDevice L d xs ≤ ofDevice L d ys :=
  Multiset.map_le_map (Multiset.filter_le_filter _ h)

theorem ofDevice_of_ne {d : δ} {xs : Multiset Datagram}
    (h : ∀ x ∈ xs, L.host x.sender ≠ some d) : ofDevice L d xs = 0 := by
  unfold ofDevice
  rw [Multiset.filter_eq_nil.mpr h, Multiset.map_zero]

/-- the datagrams of one call -/
theorem ofDevice_self {source : SockAddr} {d : δ} (h : L.host source = some d) (bs : List Bytes) :
    ofDevice L d ↑(bs.map fun b => (⟨source, b⟩ : Datagram)) = ↑bs := by
  unfold ofDevice
  rw [Multiset.filter_eq_self.mpr, Multiset.map_coe, List.map_map]
  · exact congrArg _ (List.map_id bs)
  · intro x hx
    obtain ⟨b, -, rfl⟩ := List.mem_map.mp (Multiset.mem_coe.mp hx)
    exact h

/-- the invariant -/
structure Inv (L : Layout δ) (f : Floor δ) : Prop where
  server : Server.Inv f.server
  registry : Registry.Inv f.registry
  past : Registry.Past f.registry f.returned
  sent : ∀ d, ofDevice L d f.network.sent ≤ (f.devices d).transmitted L.hub
  foreign : ∀ x ∈ f.foreign, L.host x.sender = none
  waiting : ↑(f.returned.map Prod.fst) + f.server.waiting ≤ f.network.brought + f.foreign
  genuine : ∀ r ∈ f.returned, Server.Genuine r

theorem Inv.endToEnd {f : Floor δ} (h : Inv L f) : EndToEnd L f where
  genuine := h.genuine
  once := fun d => by
    have hle := (Multiset.le_add_right _ _).trans h.waiting
    have hforeign : ofDevice L d f.foreign = 0 := ofDevice_of_ne fun x hx he => by
      rw [h.foreign x hx] at he
      cases he
    calc ofDevice L d ↑(f.returned.map Prod.fst)
        ≤ ofDevice L d (f.network.brought + f.foreign) := ofDevice_mono d hle
      _ = ofDevice L d f.network.brought := by rw [ofDevice_add, hforeign, add_zero]
      _ ≤ ofDevice L d f.network.sent + ofDevice L d f.network.repeated := by
          rw [← ofDevice_add]
          exact ofDevice_mono d f.network.brought_le
      _ ≤ (f.devices d).transmitted L.hub + ofDevice L d f.network.repeated :=
          add_le_add_left (h.sent d) _
  named := fun r hr r' hr' => h.past.named h.registry hr hr'
  apart := fun r hr r' hr' he => L.same _ _ ((h.past.named h.registry hr hr').mp he)
  answered := fun r hr => h.past.answered h.registry hr

/-- a datagram comes in on a socket of the hub -/
theorem arrive_step {f : Floor δ} (h : Inv L f) {fd : ℤ}
    (hfd : fd = f.server.manager.serverSocketUDPv4 ∨ fd = f.server.manager.serverSocketUDPv6)
    (x : Datagram) (hfew : (f.registry.step (.arrive fd x)).registered < 2 ^ 31 - 1) :
    Server.Inv (f.server.step (.arrive fd x)) ∧ Registry.Inv (f.registry.step (.arrive fd x)) ∧
      Registry.Past (f.registry.step (.arrive fd x)) f.returned ∧
      ↑(f.returned.map Prod.fst) + (f.server.step (.arrive fd x)).waiting ≤
        x ::ₘ (f.network.brought + f.foreign) := by
  have hpast : Registry.Past (f.registry.step (.arrive fd x)) ([] ++ f.returned) :=
    Registry.past_step h.past h.registry hfew trivial rfl
  refine ⟨Server.inv_step _ _ h.server trivial trivial, (Registry.inv_step _ _ h.registry hfew).1,
    hpast, ?_⟩
  rw [Server.waiting_arrive h.server hfd, Multiset.add_cons]
  exact Multiset.cons_le_cons x h.waiting

theorem inv_step (f : Floor δ) (a : Act δ) (h : Inv L f) (hl : Legal L f a)
    (hfew : (f.step L a).registry.registered < 2 ^ 31 - 1) : Inv L (f.step L a) := by
  cases a with
  | device d op source =>
    refine ⟨h.server, h.registry, h.past, fun d' => ?_, h.foreign, h.waiting, h.genuine⟩
    show ofDevice L d' (f.network.sent + _) ≤
      Device.Process.transmitted L.hub (Function.update f.devices d _ d')
    rw [ofDevice_add]
    by_cases hd : d' = d
    · rw [hd, Function.update_self, Device.Process.transmitted_step, ofDevice_self hl]
      exact add_le_add_left (h.sent d) _
    · have hnone : ofDevice L d' ↑(((f.devices d).transmits L.inet_addr L.hub op).map fun b =>
          (⟨source, b⟩ : Datagram)) = 0 := by
        apply ofDevice_of_ne
        intro x hx he
        obtain ⟨b, -, rfl⟩ := List.mem_map.mp (Multiset.mem_coe.mp hx)
        rw [hl] at he
        exact hd (Option.some.inj he).symm
      rw [Function.update_of_ne hd, hnone, add_zero]
      exact h.sent d'
  | bring x =>
    obtain ⟨hserver, hregistry, hpast, hwaiting⟩ := arrive_step h (Or.inl rfl) x hfew
    refine ⟨hserver, hregistry, hpast, fun d => ?_, h.foreign, ?_, h.genuine⟩
    · show ofDevice L d (f.network.bring x).sent ≤ _
      rw [Transit.sent_bring]
      exact h.sent d
    · show _ ≤ (f.network.bring x).brought + f.foreign
      rw [Transit.brought_bring hl, Multiset.cons_add]
      exact hwaiting
  | again x =>
    refine ⟨h.server, h.registry, h.past, fun d => ?_, h.foreign, ?_, h.genuine⟩
    · show ofDevice L d (f.network.again x).sent ≤ _
      rw [Transit.sent_again]
      exact h.sent d
    · show _ ≤ (f.network.again x).brought + f.foreign
      rw [Transit.brought_again]
      exact h.waiting
  | lose x =>
    refine ⟨h.server, h.registry, h.past, fun d => ?_, h.foreign, ?_, h.genuine⟩
    · show ofDevice L d (f.network.lose x).sent ≤ _
      rw [Transit.sent_lose]
      exact h.sent d
    · show _ ≤ (f.network.lose x).brought + f.foreign
      rw [Transit.brought_lose]
      exact h.waiting
  | foreign fd x =>
    obtain ⟨hnone, hfd⟩ := hl
    obtain ⟨hserver, hregistry, hpast, hwaiting⟩ := arrive_step h hfd x hfew
    refine ⟨hserver, hregistry, hpast, h.sent, fun y hy => ?_, ?_, h.genuine⟩
    · rcases Multiset.mem_cons.mp hy with rfl | hy
      · exact hnone
      · exact h.foreign y hy
    · show _ ≤ f.network.brought + x ::ₘ f.foreign
      rw [Multiset.add_cons]
      exact hwaiting
  | hub op =>
    obtain ⟨hop, hlegal, hborrowed⟩ := hl
    obtain ⟨hmap, hwaiting, hgenuine⟩ := Server.waiting_step h.server hlegal hborrowed hop
    refine ⟨Server.inv_step _ op h.server hlegal hborrowed,
      (Registry.inv_step _ op h.registry hfew).1, Registry.past_step h.past h.registry hfew hborrowed hmap,
      h.sent, h.foreign, ?_, fun r hr => (List.mem_append.mp hr).elim (hgenuine r) (h.genuine r)⟩
    show ((List.map _ (_ ++ _) : List Datagram) : Multiset Datagram) + (f.server.step op).waiting ≤ _
    rw [List.map_append, ← Multiset.coe_add, add_right_comm]
    refine (add_le_add hwaiting le_rfl).trans ?_
    rw [add_comm]
    exact h.waiting

/-- nothing waits on new sockets -/
theorem waiting_initializeSockets {s : Server} {tcp4 udp4 tcp6 udp6 : ℤ}
    (h : [tcp4, udp4, tcp6, udp6].Nodup) :
    (s.initializeSockets tcp4 udp4 tcp6 udp6).waiting = 0 := by
  simp only [List.nodup_cons, List.mem_cons, List.not_mem_nil, or_false, not_or,
    not_false_eq_true, List.nodup_nil, and_true] at h
  obtain ⟨-, ⟨h23, h24⟩, -⟩ := h
  show (↑(Server.queue _ udp4) + ↑(Server.queue _ udp6) : Multiset Datagram) = 0
  unfold Server.initializeSockets Server.queue Kernel.openFile
  dsimp only
  rw [SortedMap.find?_insert_of_ne _ _ h24, SortedMap.find?_insert_of_ne _ _ h23,
    SortedMap.find?_insert_self, SortedMap.find?_insert_self]
  rfl

theorem inv_fresh {f : Floor δ} (h : Fresh f) : Inv L f := by
  obtain ⟨s, hs, hr, hn, hf, hret⟩ := h
  obtain ⟨devices, network, foreign, registry, returned⟩ := f
  dsimp only at hr hn hf hret
  subst hr hn hf hret
  have hserver := Server.inv_started hs
  obtain ⟨files, answers, tcp4, udp4, tcp6, udp6, hnodup, hfree, rfl⟩ := hs
  refine ⟨hserver, Registry.inv_start rfl rfl, ⟨rfl, ?_⟩, fun d => zero_le, ?_, ?_, ?_⟩
  · exact List.forall_mem_nil _
  · exact fun x hx => absurd hx (Multiset.notMem_zero x)
  · show 0 + Server.waiting (Server.initializeSockets _ tcp4 udp4 tcp6 udp6) ≤ _
    rw [waiting_initializeSockets hnodup]
    exact zero_le
  · exact List.forall_mem_nil _

theorem registered_le_step (f : Floor δ) (a : Act δ) :
    f.registry.registered ≤ (f.step L a).registry.registered := by
  cases a with
  | bring x => exact Nat.le_add_right _ _
  | foreign fd x => exact Nat.le_add_right _ _
  | hub op => exact Nat.le_add_right _ _
  | _ => exact le_rfl

theorem registered_le_run (f : Floor δ) (as : List (Act δ)) :
    f.registry.registered ≤ (run (step L) f as).registry.registered := by
  induction as generalizing f with
  | nil => exact le_rfl
  | cons a as ih => exact (registered_le_step f a).trans (ih (f.step L a))

/-- **From the devices to the hub.**  In every run of the devices, the network and the hub, with
fewer than `2^31 - 1` registrations: in every state, what the hub has handed out is what the devices
have sent. -/
theorem end_to_end {f : Floor δ} (hf : Fresh f) (as : List (Act δ))
    (hl : Along (step L) (Legal L) f as)
    (hfew : (run (step L) f as).registry.registered < 2 ^ 31 - 1) :
    Always (step L) (EndToEnd L) f as := by
  have hbounded : Always (step L) (fun f => f.registry.registered < 2 ^ 31 - 1) f as := by
    rw [always_iff_initial_runs]
    intro pre hpre
    obtain ⟨rest, rfl⟩ := hpre
    rw [run_append] at hfew
    exact (registered_le_run _ rest).trans_lt hfew
  have hafter := along_of_always (Q := fun _ => True) (fun _ _ => trivial) hbounded
  have hallowed := along_and.mpr ⟨hl, hafter⟩
  exact always_mono (fun f h => h.endToEnd)
    (always_of_along (fun f a h ha => inv_step f a h ha.1 ha.2.2) (inv_fresh hf) hallowed)

theorem registered_run_le (f : Floor δ) (as : List (Act δ)) :
    (run (step L) f as).registry.registered ≤ f.registry.registered + 2 * as.length := by
  induction as generalizing f with
  | nil => exact le_rfl
  | cons a as ih =>
    have hstep : (f.step L a).registry.registered ≤ f.registry.registered + 2 := by
      cases a with
      | bring x => exact Nat.add_le_add_left (Registry.registrations_le ..) _
      | foreign fd x => exact Nat.add_le_add_left (Registry.registrations_le ..) _
      | hub op => exact Nat.add_le_add_left (Registry.registrations_le ..) _
      | _ => exact Nat.le_add_right _ _
    have hrest := ih (f.step L a)
    rw [run_cons, List.length_cons]
    omega

/-- one device, with one address -/
def oneDevice : Layout Unit where
  inet_addr := fun _ => 0
  hub := ⟨Device.AF_INET, Device.Process.htons 8080, 0⟩
  host := fun a => if a.same ⟨[1], 1⟩ then some () else none
  same := fun a b h => by
    have hiff : a.same ⟨[1], 1⟩ = true ↔ b.same ⟨[1], 1⟩ = true :=
      ⟨SockAddr.same_trans (SockAddr.same_symm h), SockAddr.same_trans h⟩
    simp only [hiff]

def oneFloor : Floor Unit :=
  ⟨fun _ => ⟨⟨0, false, 0, ⟨0, 0, 0⟩⟩, ∅, [], none⟩, Transit.empty, 0, Registry.start Server.fresh, []⟩

/-- the text of a message, as the device sends it -/
def oneText : CString := CString.ofBuffer Message.smallMessage.encoding

/-- The device sends a message, and the network repeats it; a second one is refused on the spot. -/
def oneRun : List (Act Unit) :=
  [.device () (.initializeClient oneText 8080 1 3 0) ⟨[1], 1⟩,
    .device () (.sendMessage oneText 48) ⟨[1], 1⟩,
    .device () (.sendMessage oneText (-1)) ⟨[1], 1⟩, .again ⟨⟨[1], 1⟩, oneText.bytes⟩,
    .bring ⟨⟨[1], 1⟩, oneText.bytes⟩, .bring ⟨⟨[1], 1⟩, oneText.bytes⟩, .hub .receiveUDPMessage]

theorem flight_oneRun (k : ℕ) (hk : k = 4 ∨ k = 5) :
    (⟨⟨[1], 1⟩, oneText.bytes⟩ : Datagram) ∈
      (run (step oneDevice) oneFloor (oneRun.take k)).network.flight := by
  generalize hx : (⟨⟨[1], 1⟩, oneText.bytes⟩ : Datagram) = x
  have hsent : (run (step oneDevice) oneFloor (oneRun.take 3)).network.flight = {x} := by
    rw [← hx]
    rfl
  have hagain : (run (step oneDevice) oneFloor (oneRun.take 4)).network.flight = x ::ₘ {x} := by
    have h := Transit.flight_again (hsent ▸ Multiset.mem_singleton_self x)
    rw [hsent, ← hx] at h
    rw [← hx]
    exact h
  rcases hk with rfl | rfl
  · rw [hagain]
    exact Multiset.mem_cons_self ..
  · have h := Transit.flight_bring (hagain ▸ Multiset.mem_cons_self x {x})
    rw [hagain, Multiset.erase_cons_head, ← hx] at h
    rw [← hx]
    exact h ▸ Multiset.mem_singleton_self _

theorem end_to_end_oneRun : Always (step oneDevice) (EndToEnd oneDevice) oneFloor oneRun := by
  have hfresh : Fresh oneFloor := ⟨Server.fresh, Server.started_fresh, rfl, rfl, rfl, rfl⟩
  have hlegal : Along (step oneDevice) (Legal oneDevice) oneFloor oneRun :=
    ⟨rfl, rfl, rfl, trivial, flight_oneRun 4 (Or.inl rfl), flight_oneRun 5 (Or.inr rfl),
      ⟨fun fd x h => (by cases h), trivial, trivial⟩, trivial⟩
  refine end_to_end hfresh oneRun hlegal ((registered_run_le ..).trans_lt ?_)
  show 0 + 2 * 7 < 2 ^ 31 - 1
  norm_num

end Floor

end Hub
