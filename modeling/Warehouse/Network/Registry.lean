import Warehouse.Network.Model

/-!
# The registry of clients

TCP connections and UDP senders share one map and one counter.  A `Registry` is a server together
with what happened so far: the identifiers that were closed, the messages that
`receiveUDPMessage` returned, each with the address its datagram came from, and the number of
registrations.

* `Names`                identifiers below the counter, and one UDP entry for an address;
* `identify_spec`        what the search for a sender and its registration do;
* `handleSocket_spec`, `receiveUDPMessage_spec`   the same for the calls that use them;
* `Consistent`, `CarriesSource`   what holds in every state, and of every message that is returned;
* `registry_consistent`  both hold throughout every run with fewer than `2^31 - 1` registrations.
-/

namespace Posix

/-- addresses are compared by their bytes in use -/
theorem SockAddr.same_iff {a b : SockAddr} :
    a.same b = true ↔ a.length = b.length ∧ a.storage.take a.length = b.storage.take b.length := by
  unfold same
  rw [Bool.and_eq_true, beq_iff_eq, beq_iff_eq]
  constructor
  · intro h
    exact ⟨h.1, by rw [h.1]; exact h.2⟩
  · intro h
    exact ⟨h.1, by rw [← h.1]; exact h.2.trans (by rw [h.1])⟩

theorem SockAddr.same_symm {a b : SockAddr} (h : a.same b = true) : b.same a = true := by
  rw [same_iff] at h ⊢
  exact ⟨h.1.symm, h.2.symm⟩

theorem SockAddr.same_trans {a b c : SockAddr} (hab : a.same b = true) (hbc : b.same c = true) :
    a.same c = true := by
  rw [same_iff] at hab hbc ⊢
  exact ⟨hab.1.trans hbc.1, hab.2.trans hbc.2⟩

end Posix

namespace Hub
open Machine Text CJSON Posix

/-! ## identifiers and addresses -/

namespace NetworkManager

/-- the identifiers are below the counter, and the UDP entries have different addresses -/
structure Names (m : NetworkManager) : Prop where
  next : 1 ≤ m.nextClientID ∧ m.nextClientID ≤ INT_MAX
  keys : ∀ c conn, m.activeClients.find? c = some conn →
    conn.clientID = c ∧ 1 ≤ c ∧ c < m.nextClientID
  addresses : ∀ c c' conn conn', m.activeClients.find? c = some conn →
    m.activeClients.find? c' = some conn' → conn.protocol = .UDP → conn'.protocol = .UDP →
    conn.address.same conn'.address = true → c = c'

/-- the identifier is that of a UDP entry with the address -/
def Identifies (m : NetworkManager) (a : SockAddr) (id : ℤ) : Prop :=
  ∃ conn, m.activeClients.find? id = some conn ∧ conn.protocol = .UDP ∧ conn.address.same a = true

variable {m : NetworkManager} {fd : ℤ} {a : SockAddr} {p : Protocol} {c : ℤ}

/-- an address identifies at most one entry -/
theorem Names.identifies_unique (h : Names m) {id id' : ℤ} (hid : m.Identifies a id)
    (hid' : m.Identifies a id') : id = id' := by
  obtain ⟨conn, hc, hp, hs⟩ := hid
  obtain ⟨conn', hc', hp', hs'⟩ := hid'
  exact h.addresses id id' conn conn' hc hc' hp hp' (SockAddr.same_trans hs (SockAddr.same_symm hs'))

theorem Names.lt_of_identifies (h : Names m) {id : ℤ} (hid : m.Identifies a id) :
    id < m.nextClientID := by
  obtain ⟨conn, hc, -⟩ := hid
  exact (h.keys id conn hc).2.2

theorem Names.next_absent (h : Names m) : m.activeClients.find? m.nextClientID = none := by
  cases hc : m.activeClients.find? m.nextClientID with
  | none => rfl
  | some conn => exact absurd (h.keys _ conn hc).2.2 (lt_irrefl _)

/-- the counter is not an identifier yet, so that the new connection gets its place -/
theorem find?_register (h : Names m) (fd : ℤ) (a : SockAddr) (p : Protocol) (c : ℤ) :
    (m.register fd a p).activeClients.find? c
      = if c = m.nextClientID then some ⟨m.nextClientID, fd, a, p⟩
        else m.activeClients.find? c := by
  have hnew : m.activeClients.contains m.nextClientID = false :=
    SortedMap.contains_eq_false.mpr h.next_absent
  show (m.activeClients.emplace m.nextClientID ⟨m.nextClientID, fd, a, p⟩).find? c = _
  unfold SortedMap.emplace
  rw [hnew, if_neg Bool.false_ne_true, SortedMap.find?_insert]

theorem find?_register_of_lt (h : Names m) (fd : ℤ) (a : SockAddr) (p : Protocol)
    (hc : c < m.nextClientID) :
    (m.register fd a p).activeClients.find? c = m.activeClients.find? c := by
  rw [find?_register h, if_neg hc.ne]

theorem increment_of_lt {n : ℤ} (h : n < INT_MAX) : increment n = n + 1 := if_neg h.ne

/-- where the counter does not run over -/
theorem lt_max_of_increment {n : ℤ} (h : 1 ≤ n ∧ n ≤ INT_MAX) (hle : n ≤ increment n) :
    n < INT_MAX := by
  refine lt_of_le_of_ne h.2 fun hmax => ?_
  rw [increment, if_pos hmax, hmax] at hle
  exact absurd hle (by decide)

/-- a new connection; over UDP its address has no entry yet -/
theorem Names.register (h : Names m) (hnext : m.nextClientID < INT_MAX) (fd : ℤ)
    (hnew : p = .UDP → ∀ id, ¬ m.Identifies a id) : Names (m.register fd a p) := by
  have hcount : (m.register fd a p).nextClientID = m.nextClientID + 1 := increment_of_lt hnext
  have h1 := h.next.1
  refine ⟨by rw [hcount]; omega, ?_, ?_⟩
  · intro c conn hc
    rw [hcount]
    rw [find?_register h] at hc
    split_ifs at hc with hcc
    · rw [← Option.some.inj hc, hcc]
      exact ⟨rfl, h1, by omega⟩
    · obtain ⟨hid, hlo, hhi⟩ := h.keys c conn hc
      exact ⟨hid, hlo, by omega⟩
  · intro c c' conn conn' hc hc' hp hp' hs
    rw [find?_register h] at hc hc'
    split_ifs at hc hc' with hcc hcc' hcc'
    · rw [hcc, hcc']
    · rw [← Option.some.inj hc] at hp hs
      exact absurd ⟨conn', hc', hp', SockAddr.same_symm hs⟩ (hnew hp c')
    · rw [← Option.some.inj hc'] at hp' hs
      exact absurd ⟨conn, hc, hp, hs⟩ (hnew hp' c)
    · exact h.addresses c c' conn conn' hc hc' hp hp' hs

theorem Names.erase (h : Names m) (c : ℤ) :
    Names { m with activeClients := m.activeClients.erase c } where
  next := h.next
  keys := fun x conn hx => h.keys x conn (SortedMap.find?_erase_some hx).2
  addresses := fun x x' conn conn' hx hx' => h.addresses x x' conn conn'
    (SortedMap.find?_erase_some hx).2 (SortedMap.find?_erase_some hx').2

/-! ## the search for a sender -/

/-- the search finds the entry of the address, or there is none -/
theorem findSender_cases (h : Names m) (a : SockAddr) :
    (m.findSender .UDP a = -1 ∧ ∀ id, ¬ m.Identifies a id) ∨
      (m.findSender .UDP a ≠ -1 ∧ m.Identifies a (m.findSender .UDP a)) := by
  unfold findSender
  cases hf : m.activeClients.entries.find? fun e =>
      decide (e.2.protocol = .UDP) && e.2.address.same a with
  | none =>
    refine Or.inl ⟨rfl, fun id hid => ?_⟩
    obtain ⟨conn, hc, hp, hs⟩ := hid
    have hno := List.find?_eq_none.mp hf (id, conn) ((SortedMap.mem_entries _ _ _).mpr hc)
    dsimp only at hno
    rw [hs, decide_eq_true hp] at hno
    exact hno rfl
  | some e =>
    obtain ⟨id, conn⟩ := e
    have hmem := (SortedMap.mem_entries _ _ _).mp (List.mem_of_find?_eq_some hf)
    have hmatch := List.find?_some hf
    dsimp only at hmatch ⊢
    rw [Bool.and_eq_true, decide_eq_true_iff] at hmatch
    have hlo := (h.keys id conn hmem).2.1
    exact Or.inr ⟨by omega, conn, hmem, hmatch⟩

/-- The sender has its entry after the search, and the older identifiers are left alone, as long as
the counter does not run over. -/
theorem identify_spec (h : Names m) (fd : ℤ) (a : SockAddr)
    (hnext : m.nextClientID ≤ (m.identify fd .UDP a).2.nextClientID) :
    Names (m.identify fd .UDP a).2 ∧
    (m.identify fd .UDP a).2.Identifies a (m.identify fd .UDP a).1 ∧
    ∀ c, c < m.nextClientID →
      (m.identify fd .UDP a).2.activeClients.find? c = m.activeClients.find? c := by
  unfold identify at hnext ⊢
  rcases findSender_cases h a with ⟨hnone, hnew⟩ | ⟨hfound, hid⟩
  · rw [if_pos hnone] at hnext ⊢
    have hlt : m.nextClientID < INT_MAX := lt_max_of_increment h.next hnext
    refine ⟨h.register hlt fd fun _ => hnew, ?_, fun c hc => find?_register_of_lt h fd a .UDP hc⟩
    refine ⟨⟨m.nextClientID, fd, a, .UDP⟩, ?_, rfl, SockAddr.same_self a⟩
    rw [find?_register h, if_pos rfl]
  · rw [if_neg hfound]
    exact ⟨h, hid, fun c _ => rfl⟩

/-- the counter moves by at most one registration -/
theorem nextClientID_identify (m : NetworkManager) (fd : ℤ) (p : Protocol) (a : SockAddr) :
    (m.identify fd p a).2.nextClientID = m.nextClientID ∨
      (m.identify fd p a).2.nextClientID = increment m.nextClientID := by
  unfold identify
  split_ifs
  · exact Or.inr rfl
  · exact Or.inl rfl

end NetworkManager

/-! ## the calls -/

namespace Server
open NetworkManager

/-- the address the kernel reports for the bytes that wait on a socket -/
def origin (s : Server) (fd : ℤ) : SockAddr :=
  ((s.kernel.recvfrom fd BUFFER BUFFER).map Prod.fst).getD ⟨[], 0⟩

/-- the messages `receiveUDPMessage` returns, each with the address its datagram came from -/
def deliveries (s : Server) : List (SockAddr × Message) :=
  match s.handleSocket s.manager.serverSocketUDPv4 .UDP with
  | (_, .error _) => []
  | (s', .ok first) =>
    match s'.handleSocket s'.manager.serverSocketUDPv6 .UDP with
    | (_, .error _) => []
    | (_, .ok second) =>
      first.map (fun msg => (s.origin s.manager.serverSocketUDPv4, msg)) ++
        second.map (fun msg => (s'.origin s'.manager.serverSocketUDPv6, msg))

/-- these are the messages that are returned -/
theorem deliveries_eq (s : Server) :
    s.deliveries.map Prod.snd = handed s.receiveUDPMessage.2 := by
  have hpair : ∀ (a : SockAddr) (msgs : List Message),
      (msgs.map fun msg => (a, msg)).map Prod.snd = msgs := fun a msgs => by
    rw [List.map_map]
    exact List.map_id msgs
  unfold deliveries receiveUDPMessage
  rcases s.handleSocket s.manager.serverSocketUDPv4 .UDP with ⟨s', e | first⟩
  · rfl
  · dsimp only
    rcases s'.handleSocket s'.manager.serverSocketUDPv6 .UDP with ⟨s'', e | second⟩
    · rfl
    · dsimp only
      rw [List.map_append, hpair, hpair]
      rfl

/-- the manager after one datagram socket is the one before, or the one after the search for the
sender -/
theorem handleSocket_manager (s : Server) (fd : ℤ) (p : Protocol) :
    ((s.handleSocket fd p).1.manager = s.manager ∧
      ∀ msgs, (s.handleSocket fd p).2 = .ok msgs → msgs = []) ∨
    ((s.handleSocket fd p).1.manager = (s.manager.identify fd p (s.origin fd)).2 ∧
      ∀ msgs, (s.handleSocket fd p).2 = .ok msgs →
        ∀ msg ∈ msgs, msg.clientID = (s.manager.identify fd p (s.origin fd)).1) := by
  have horigin : ∀ {sender data kernel},
      s.kernel.recvfrom fd BUFFER BUFFER = some (sender, data, kernel) → s.origin fd = sender := by
    intro sender data kernel hr
    unfold origin
    rw [hr]
    rfl
  rcases handleSocket_cases s fd p with ⟨-, e⟩ | ⟨sender, data, kernel, hr, ⟨-, e⟩ | ⟨-, x, -, e⟩ |
    ⟨-, msg, -, e⟩⟩
  · rw [e]
    exact Or.inl ⟨rfl, fun msgs h => (by cases h; rfl)⟩
  · rw [e]
    exact Or.inl ⟨rfl, fun msgs h => (by cases h; rfl)⟩
  · rw [e]
    exact Or.inl ⟨rfl, fun msgs h => (by cases h)⟩
  · rw [e, horigin hr]
    refine Or.inr ⟨rfl, fun msgs h => ?_⟩
    cases h
    intro m hm
    rw [List.mem_singleton.mp hm]
    rfl

theorem nextClientID_handleSocket (s : Server) (fd : ℤ) (p : Protocol) :
    (s.handleSocket fd p).1.manager.nextClientID = s.manager.nextClientID ∨
      (s.handleSocket fd p).1.manager.nextClientID = increment s.manager.nextClientID := by
  rcases handleSocket_manager s fd p with ⟨e, -⟩ | ⟨e, -⟩
  · rw [e]
    exact Or.inl rfl
  · rw [e]
    exact nextClientID_identify ..

/-- one datagram socket -/
theorem handleSocket_spec {s : Server} (h : Names s.manager) (fd : ℤ)
    (hnext : s.manager.nextClientID ≤ (s.handleSocket fd .UDP).1.manager.nextClientID) :
    Names (s.handleSocket fd .UDP).1.manager ∧
    (∀ msgs, (s.handleSocket fd .UDP).2 = .ok msgs → ∀ msg ∈ msgs,
      (s.handleSocket fd .UDP).1.manager.Identifies (s.origin fd) msg.clientID) ∧
    ∀ c, c < s.manager.nextClientID →
      (s.handleSocket fd .UDP).1.manager.activeClients.find? c
        = s.manager.activeClients.find? c := by
  rcases handleSocket_manager s fd .UDP with ⟨e, hmsgs⟩ | ⟨e, hmsgs⟩
  · rw [e]
    refine ⟨h, fun msgs hok msg hmem => ?_, fun c _ => rfl⟩
    rw [hmsgs msgs hok] at hmem
    cases hmem
  · rw [e] at hnext ⊢
    obtain ⟨hnames, hid, hold⟩ := identify_spec h fd (s.origin fd) hnext
    refine ⟨hnames, fun msgs hok msg hmem => ?_, hold⟩
    rw [hmsgs msgs hok msg hmem]
    exact hid

/-- what identifies an entry goes on doing so while the entry is left alone -/
theorem Identifies.mono {m m' : NetworkManager} {a : SockAddr} {id : ℤ} (h : m.Identifies a id)
    (hsame : m'.activeClients.find? id = m.activeClients.find? id) : m'.Identifies a id := by
  obtain ⟨conn, hc, hrest⟩ := h
  exact ⟨conn, hsame.trans hc, hrest⟩

/-- where the counter does not run over in two steps, it does in neither -/
theorem counter_le {n n' n'' : ℤ} (h1 : 1 ≤ n ∧ n ≤ INT_MAX) (hn' : n' = n ∨ n' = increment n)
    (hn'' : n'' = n' ∨ n'' = increment n') (hle : n ≤ n'') : n ≤ n' ∧ n' ≤ n'' := by
  unfold increment INT_MAX INT_MIN at *
  omega

/-- both datagram sockets -/
theorem receiveUDPMessage_spec {s : Server} (h : Names s.manager)
    (hnext : s.manager.nextClientID ≤ s.receiveUDPMessage.1.manager.nextClientID) :
    Names s.receiveUDPMessage.1.manager ∧
    (∀ d ∈ s.deliveries, s.receiveUDPMessage.1.manager.Identifies d.1 d.2.clientID) ∧
    ∀ c, c < s.manager.nextClientID →
      s.receiveUDPMessage.1.manager.activeClients.find? c = s.manager.activeClients.find? c := by
  have hcount4 := nextClientID_handleSocket s s.manager.serverSocketUDPv4 .UDP
  have hspec4 := handleSocket_spec h s.manager.serverSocketUDPv4
  rcases hr4 : s.handleSocket s.manager.serverSocketUDPv4 .UDP with ⟨s', e | first⟩
  · have hdeliveries : s.deliveries = [] := by
      unfold deliveries
      rw [hr4]
    rw [hr4] at hspec4
    rw [receiveUDPMessage_error hr4] at hnext ⊢
    obtain ⟨hnames, -, hold⟩ := hspec4 hnext
    rw [hdeliveries]
    exact ⟨hnames, List.forall_mem_nil _, hold⟩
  · have hcount6 := nextClientID_handleSocket s' s'.manager.serverSocketUDPv6 .UDP
    rcases hr6 : s'.handleSocket s'.manager.serverSocketUDPv6 .UDP with ⟨s'', r⟩
    rw [hr4] at hcount4 hspec4
    rw [hr6] at hcount6
    rw [receiveUDPMessage_ok hr4 hr6] at hnext ⊢
    obtain ⟨hle4, hle6⟩ := counter_le h.next hcount4 hcount6 hnext
    obtain ⟨hnames4, hid4, hold4⟩ := hspec4 hle4
    have hspec6 := handleSocket_spec hnames4 s'.manager.serverSocketUDPv6
    rw [hr6] at hspec6
    obtain ⟨hnames6, hid6, hold6⟩ := hspec6 hle6
    refine ⟨hnames6, fun d hd => ?_, fun c hc => ?_⟩
    · unfold deliveries at hd
      rw [hr4] at hd
      dsimp only at hd
      rw [hr6] at hd
      cases r with
      | error e => cases hd
      | ok second =>
        rcases List.mem_append.mp hd with hd | hd
        · obtain ⟨msg, hmsg, rfl⟩ := List.mem_map.mp hd
          have hid := hid4 first rfl msg hmsg
          exact Identifies.mono hid (hold6 _ (hnames4.lt_of_identifies hid))
        · obtain ⟨msg, hmsg, rfl⟩ := List.mem_map.mp hd
          exact hid6 second rfl msg hmsg
    · exact (hold6 c (hc.trans_le hle4)).trans (hold4 c hc)

theorem manager_sendMessage (s : Server) (msg : Message) :
    (s.sendMessage msg).1.manager = s.manager := by
  unfold sendMessage
  split
  · rfl
  · split
    · rfl
    · split <;> rfl

theorem manager_receiveTCPMessage (s : Server) (c : ℤ) (cut : ℕ) :
    (s.receiveTCPMessage c cut).1.manager = s.manager := by
  rcases receiveTCPMessage_cases s c cut with ⟨-, e⟩ | ⟨client, -, ⟨-, e⟩ |
    ⟨sender, data, kernel, -, ⟨-, e⟩ | ⟨-, x, -, e⟩ | ⟨-, msg, -, e⟩⟩⟩ <;> rw [e]

theorem manager_listenForConnections (s : Server) (connection : Option (ℤ × SockAddr)) :
    (s.listenForConnections connection).manager = s.manager ∨
      ∃ fd a, (s.listenForConnections connection).manager = s.manager.register fd a .TCP := by
  unfold listenForConnections
  split
  · exact Or.inl rfl
  · next fd a kernel _ =>
    split_ifs
    · exact Or.inr ⟨fd, a, rfl⟩
    · exact Or.inl rfl

theorem manager_closeConnection (s : Server) (c : ℤ) :
    (s.closeConnection c).manager
      = { s.manager with activeClients := s.manager.activeClients.erase c } := by
  unfold closeConnection
  split
  · next hc => rw [SortedMap.erase_of_absent hc]
  · rfl

/-- every operation: the names stay in order, and an older identifier keeps its entry unless it is
closed -/
theorem step_spec {s : Server} (h : Names s.manager) (op : Op)
    (hnext : s.manager.nextClientID ≤ (s.step op).manager.nextClientID) :
    Names (s.step op).manager ∧
    ∀ c, c < s.manager.nextClientID → op ≠ .closeConnection c →
      (s.step op).manager.activeClients.find? c = s.manager.activeClients.find? c := by
  cases op with
  | listenForConnections connection =>
    show Names (s.listenForConnections connection).manager ∧ _
    rcases manager_listenForConnections s connection with e | ⟨fd, a, e⟩
    · refine ⟨by rw [e]; exact h, fun c _ _ => ?_⟩
      show (s.listenForConnections connection).manager.activeClients.find? c = _
      rw [e]
    · have hlt : s.manager.nextClientID < INT_MAX := by
        have hcount : s.manager.nextClientID
            ≤ (s.listenForConnections connection).manager.nextClientID := hnext
        rw [e] at hcount
        exact lt_max_of_increment h.next hcount
      refine ⟨by rw [e]; exact h.register hlt fd fun hp => (by cases hp), fun c hc _ => ?_⟩
      show (s.listenForConnections connection).manager.activeClients.find? c = _
      rw [e]
      exact find?_register_of_lt h fd a .TCP hc
  | receiveUDPMessage =>
    obtain ⟨hnames, -, hold⟩ := receiveUDPMessage_spec h hnext
    exact ⟨hnames, fun c hc _ => hold c hc⟩
  | sendMessage msg =>
    show Names (s.sendMessage msg).1.manager ∧ ∀ c, _ → _ →
      (s.sendMessage msg).1.manager.activeClients.find? c = _
    rw [manager_sendMessage]
    exact ⟨h, fun c _ _ => rfl⟩
  | receiveTCPMessage c cut =>
    show Names (s.receiveTCPMessage c cut).1.manager ∧ ∀ c', _ → _ →
      (s.receiveTCPMessage c cut).1.manager.activeClients.find? c' = _
    rw [manager_receiveTCPMessage]
    exact ⟨h, fun c _ _ => rfl⟩
  | closeConnection c =>
    show Names (s.closeConnection c).manager ∧ ∀ c', _ → _ →
      (s.closeConnection c).manager.activeClients.find? c' = _
    rw [manager_closeConnection]
    refine ⟨h.erase c, fun c' _ hne => ?_⟩
    exact SortedMap.find?_erase_of_ne _ fun e => hne (by rw [e])
  | arrive fd d => exact ⟨h, fun c _ _ => rfl⟩
  | deliver fd bytes => exact ⟨h, fun c _ _ => rfl⟩

theorem find?_closeConnection (s : Server) (c : ℤ) :
    (s.step (.closeConnection c)).manager.activeClients.find? c = none := by
  show (s.closeConnection c).manager.activeClients.find? c = none
  rw [manager_closeConnection]
  exact SortedMap.find?_erase_self ..

/-- an operation registers at most two clients -/
theorem nextClientID_step (s : Server) (op : Op) :
    ∃ n, (n = s.manager.nextClientID ∨ n = increment s.manager.nextClientID) ∧
      ((s.step op).manager.nextClientID = n ∨ (s.step op).manager.nextClientID = increment n) := by
  cases op with
  | listenForConnections connection =>
    show ∃ n, _ ∧ ((s.listenForConnections connection).manager.nextClientID = n ∨
      (s.listenForConnections connection).manager.nextClientID = increment n)
    rcases manager_listenForConnections s connection with e | ⟨fd, a, e⟩
    · exact ⟨_, Or.inl rfl, Or.inl (by rw [e])⟩
    · exact ⟨_, Or.inr rfl, Or.inl (by rw [e]; rfl)⟩
  | receiveUDPMessage =>
    show ∃ n, _ ∧ (s.receiveUDPMessage.1.manager.nextClientID = n ∨
      s.receiveUDPMessage.1.manager.nextClientID = increment n)
    have hcount4 := nextClientID_handleSocket s s.manager.serverSocketUDPv4 .UDP
    rcases hr4 : s.handleSocket s.manager.serverSocketUDPv4 .UDP with ⟨s', e | first⟩
    · rw [hr4] at hcount4
      rw [receiveUDPMessage_error hr4]
      exact ⟨_, hcount4, Or.inl rfl⟩
    · have hcount6 := nextClientID_handleSocket s' s'.manager.serverSocketUDPv6 .UDP
      rcases hr6 : s'.handleSocket s'.manager.serverSocketUDPv6 .UDP with ⟨s'', r⟩
      rw [hr4] at hcount4
      rw [hr6] at hcount6
      rw [receiveUDPMessage_ok hr4 hr6]
      exact ⟨_, hcount4, hcount6⟩
  | sendMessage msg =>
    refine ⟨_, Or.inl rfl, Or.inl ?_⟩
    show (s.sendMessage msg).1.manager.nextClientID = _
    rw [manager_sendMessage]
  | receiveTCPMessage c cut =>
    refine ⟨_, Or.inl rfl, Or.inl ?_⟩
    show (s.receiveTCPMessage c cut).1.manager.nextClientID = _
    rw [manager_receiveTCPMessage]
  | closeConnection c =>
    refine ⟨_, Or.inl rfl, Or.inl ?_⟩
    show (s.closeConnection c).manager.nextClientID = _
    rw [manager_closeConnection]
  | arrive fd d => exact ⟨_, Or.inl rfl, Or.inl rfl⟩
  | deliver fd bytes => exact ⟨_, Or.inl rfl, Or.inl rfl⟩

end Server

/-! ## a server with its past -/

structure Registry where
  server : Server
  closed : List ℤ
  delivered : List (SockAddr × Message)
  registered : ℕ

namespace Registry
open NetworkManager Server

def start (s : Server) : Registry := ⟨s, [], [], 0⟩

/-- the active client that an operation closes -/
def closing (s : Server) : Server.Op → List ℤ
  | .closeConnection c => if s.manager.activeClients.contains c then [c] else []
  | _ => []

/-- the messages of UDP clients that an operation returns -/
def delivering (s : Server) : Server.Op → List (SockAddr × Message)
  | .receiveUDPMessage => s.deliveries
  | _ => []

/-- how many clients an operation registers: the counter of 32 bits moves by so much -/
def registrations (s : Server) (op : Server.Op) : ℕ :=
  (((s.step op).manager.nextClientID - s.manager.nextClientID) % 2 ^ 32).toNat

def step (r : Registry) (op : Server.Op) : Registry where
  server := r.server.step op
  closed := closing r.server op ++ r.closed
  delivered := delivering r.server op ++ r.delivered
  registered := r.registered + registrations r.server op

/-- what holds in every state -/
structure Consistent (r : Registry) : Prop where
  keys : ∀ c conn, r.server.manager.activeClients.find? c = some conn →
    conn.clientID = c ∧ 1 ≤ c ∧ c < r.server.manager.nextClientID
  addresses : ∀ c c' conn conn', r.server.manager.activeClients.find? c = some conn →
    r.server.manager.activeClients.find? c' = some conn' → conn.protocol = .UDP →
    conn'.protocol = .UDP → conn.address.same conn'.address = true → c = c'
  closed : ∀ c ∈ r.closed, r.server.manager.activeClients.find? c = none ∧
    ∀ msg, msg.clientID = c → r.server.sendMessage msg = (r.server, .ok ())
  sources : ∀ d ∈ r.delivered, ∀ d' ∈ r.delivered,
    r.server.manager.activeClients.contains d.2.clientID = true →
    r.server.manager.activeClients.contains d'.2.clientID = true →
    (d.1.same d'.1 = true ↔ d.2.clientID = d'.2.clientID)

/-- a message that `receiveUDPMessage` returns carries the identifier of the one UDP entry with the
address its datagram came from -/
def CarriesSource (r : Registry) (op : Server.Op) : Prop :=
  op = .receiveUDPMessage → r.server.deliveries.map Prod.snd = handed r.server.receiveUDPMessage.2 ∧
    ∀ d ∈ r.server.deliveries, (r.server.step op).manager.Identifies d.1 d.2.clientID ∧
      ∀ id, (r.server.step op).manager.Identifies d.1 id → id = d.2.clientID

/-! ### one operation -/

/-- the invariant: every identifier of the past is below the counter, and the entry of one that was
handed out is still the one of its sender -/
structure Inv (r : Registry) : Prop where
  names : Names r.server.manager
  count : r.server.manager.nextClientID = 1 + r.registered
  closed : ∀ c ∈ r.closed, c < r.server.manager.nextClientID ∧
    r.server.manager.activeClients.find? c = none
  delivered : ∀ d ∈ r.delivered, d.2.clientID < r.server.manager.nextClientID ∧
    ∀ conn, r.server.manager.activeClients.find? d.2.clientID = some conn →
      conn.protocol = .UDP ∧ conn.address.same d.1 = true

variable {r : Registry}

theorem inv_start {s : Server} (hclients : s.manager.activeClients = SortedMap.empty)
    (hnext : s.manager.nextClientID = 1) : Inv (start s) where
  names := by
    have hnone : ∀ {c conn}, s.manager.activeClients.find? c = some conn → False := by
      intro c conn hc
      rw [hclients] at hc
      cases hc
    exact ⟨by rw [start, hnext]; decide, fun c conn hc => (hnone hc).elim,
      fun c c' conn conn' hc => (hnone hc).elim⟩
  count := hnext
  closed := List.forall_mem_nil _
  delivered := List.forall_mem_nil _

theorem Inv.consistent (h : Inv r) : Consistent r where
  keys := h.names.keys
  addresses := h.names.addresses
  closed := fun c hc => by
    refine ⟨(h.closed c hc).2, fun msg hmsg => ?_⟩
    unfold sendMessage
    rw [hmsg, (h.closed c hc).2]
  sources := fun d hd d' hd' hc hc' => by
    obtain ⟨conn, hconn⟩ := SortedMap.contains_eq_true.mp hc
    obtain ⟨conn', hconn'⟩ := SortedMap.contains_eq_true.mp hc'
    obtain ⟨hp, hs⟩ := (h.delivered d hd).2 conn hconn
    obtain ⟨hp', hs'⟩ := (h.delivered d' hd').2 conn' hconn'
    constructor
    · intro hsame
      exact h.names.identifies_unique ⟨conn, hconn, hp, hs⟩
        ⟨conn', hconn', hp', SockAddr.same_trans hs' (SockAddr.same_symm hsame)⟩
    · intro hid
      rw [hid, hconn'] at hconn
      cases hconn
      exact SockAddr.same_trans (SockAddr.same_symm hs) hs'

theorem mem_closing {s : Server} {op : Server.Op} {c : ℤ} (h : c ∈ closing s op) :
    op = .closeConnection c ∧ ∃ conn, s.manager.activeClients.find? c = some conn := by
  cases op with
  | closeConnection c' =>
    change c ∈ (if s.manager.activeClients.contains c' then [c'] else []) at h
    split_ifs at h with hactive
    · rw [List.mem_singleton.mp h]
      exact ⟨rfl, SortedMap.contains_eq_true.mp hactive⟩
    · cases h
  | _ => cases h

/-- with fewer than `2^31 - 1` registrations the counter counts them -/
theorem nextClientID_of_few (h : Inv r) (op : Server.Op)
    (hfew : (step r op).registered < 2 ^ 31 - 1) :
    (r.server.step op).manager.nextClientID = 1 + (step r op).registered := by
  obtain ⟨n, hn, hn'⟩ := nextClientID_step r.server op
  have hnext := h.names.next
  have hcount := h.count
  have hreg : (step r op).registered = r.registered + registrations r.server op := rfl
  rw [hreg] at hfew ⊢
  unfold registrations at hfew ⊢
  unfold increment INT_MAX INT_MIN at *
  omega

theorem inv_step (r : Registry) (op : Server.Op) (h : Inv r)
    (hfew : (step r op).registered < 2 ^ 31 - 1) : Inv (step r op) ∧ CarriesSource r op := by
  have hcount := nextClientID_of_few h op hfew
  have hle : r.server.manager.nextClientID ≤ (r.server.step op).manager.nextClientID := by
    rw [hcount, h.count]
    show (1 : ℤ) + r.registered ≤ 1 + ((r.registered + registrations r.server op : ℕ) : ℤ)
    omega
  obtain ⟨hnames, hold⟩ := step_spec h.names op hle
  -- an identifier that is absent stays so, and one that is there keeps its entry or loses it
  have hkeep : ∀ {c conn}, c < r.server.manager.nextClientID →
      (r.server.step op).manager.activeClients.find? c = some conn →
      r.server.manager.activeClients.find? c = some conn := by
    intro c conn hlt hc
    by_cases hop : op = .closeConnection c
    · rw [hop, find?_closeConnection] at hc
      cases hc
    · rwa [hold c hlt hop] at hc
  have hdelivered : ∀ d ∈ delivering r.server op,
      (r.server.step op).manager.Identifies d.1 d.2.clientID := by
    intro d hd
    cases op with
    | receiveUDPMessage => exact (receiveUDPMessage_spec h.names hle).2.1 d hd
    | _ => cases hd
  refine ⟨⟨hnames, hcount, fun c hc => ?_, fun d hd => ?_⟩, fun hop => ?_⟩
  · show c < (r.server.step op).manager.nextClientID ∧
      (r.server.step op).manager.activeClients.find? c = none
    rcases List.mem_append.mp hc with hc | hc
    · obtain ⟨rfl, conn, hconn⟩ := mem_closing hc
      exact ⟨(h.names.keys c conn hconn).2.2.trans_le hle, find?_closeConnection ..⟩
    · obtain ⟨hlt, hnone⟩ := h.closed c hc
      refine ⟨hlt.trans_le hle, Option.eq_none_iff_forall_ne_some.mpr fun conn hconn => ?_⟩
      have hbefore := hkeep hlt hconn
      rw [hnone] at hbefore
      cases hbefore
  · show d.2.clientID < (r.server.step op).manager.nextClientID ∧
      ∀ conn, (r.server.step op).manager.activeClients.find? d.2.clientID = some conn →
        conn.protocol = .UDP ∧ conn.address.same d.1 = true
    rcases List.mem_append.mp hd with hd | hd
    · have hid := hdelivered d hd
      refine ⟨hnames.lt_of_identifies hid, fun conn hconn => ?_⟩
      obtain ⟨conn', hconn', hentry⟩ := hid
      rw [hconn] at hconn'
      cases hconn'
      exact hentry
    · obtain ⟨hlt, hentry⟩ := h.delivered d hd
      exact ⟨hlt.trans_le hle, fun conn hconn => hentry conn (hkeep hlt hconn)⟩
  · subst hop
    refine ⟨deliveries_eq r.server, fun d hd => ⟨hdelivered d hd, fun id hid => ?_⟩⟩
    exact hnames.identifies_unique hid (hdelivered d hd)

/-! ### every run -/

theorem registered_le_run (r : Registry) (ops : List Server.Op) :
    r.registered ≤ (run step r ops).registered := by
  induction ops generalizing r with
  | nil => exact le_rfl
  | cons op ops ih => exact (Nat.le_add_right _ _).trans (ih (step r op))

/-- an operation registers at most two clients -/
theorem registrations_le (s : Server) (op : Server.Op) : registrations s op ≤ 2 := by
  obtain ⟨n, hn, hn'⟩ := nextClientID_step s op
  unfold registrations
  unfold increment INT_MAX INT_MIN at *
  omega

theorem registered_run_le (r : Registry) (ops : List Server.Op) :
    (run step r ops).registered ≤ r.registered + 2 * ops.length := by
  induction ops generalizing r with
  | nil => exact le_rfl
  | cons op ops ih =>
    have hstep : (step r op).registered ≤ r.registered + 2 :=
      Nat.add_le_add_left (registrations_le ..) _
    have hrest := ih (step r op)
    rw [run_cons, List.length_cons]
    omega

/-- **The registry.**  In every run with fewer than `2^31 - 1` registrations, from a server without
clients: in every state the identifiers are those in the connections and below the counter, the UDP
entries have different addresses, a closed identifier is not active and nothing is sent to it, and
of two messages whose clients are still active the sources are equal exactly when the identifiers
are; and each message that `receiveUDPMessage` returns carries the identifier of the one entry with
its source. -/
theorem registry_consistent {s : Server} (hclients : s.manager.activeClients = SortedMap.empty)
    (hnext : s.manager.nextClientID = 1) (ops : List Server.Op)
    (hfew : (run step (start s) ops).registered < 2 ^ 31 - 1) :
    Always step Consistent (start s) ops ∧ Along step CarriesSource (start s) ops := by
  have hbounded : Always step (fun r => r.registered < 2 ^ 31 - 1) (start s) ops := by
    rw [always_iff_initial_runs]
    intro pre hpre
    obtain ⟨rest, rfl⟩ := hpre
    rw [run_append] at hfew
    exact (registered_le_run _ rest).trans_lt hfew
  have hallowed := along_of_always (Q := fun _ => True) (fun _ _ => trivial) hbounded
  have hinv : Always step Inv (start s) ops :=
    always_of_along (fun r op h hl => (inv_step r op h hl.2).1) (inv_start hclients hnext) hallowed
  exact ⟨always_mono (fun r h => h.consistent) hinv,
    along_mono (fun r op h hl => (inv_step r op h hl.2).2) hinv hallowed⟩

/-- a server that has opened its sockets -/
def initialized : Server :=
  Server.initializeSockets ⟨NetworkManager.init, ⟨SortedMap.empty, [], []⟩⟩ 3 4 5 6

/-- A client over TCP, and two senders over UDP, one for each socket; the second sender is closed
and sends again, the TCP client goes. -/
def comings : List Server.Op :=
  let text := Message.smallMessage.encoding
  [.listenForConnections (some (7, ⟨[1], 1⟩)), .arrive 4 ⟨⟨[2], 1⟩, text⟩,
    .arrive 6 ⟨⟨[3], 1⟩, text⟩, .receiveUDPMessage, .closeConnection 3, .arrive 6 ⟨⟨[3], 1⟩, text⟩, .receiveUDPMessage,
    .closeConnection 1]

/-- the hypotheses can be met -/
theorem registry_consistent_example :
    Always step Consistent (start initialized) comings ∧
      Along step CarriesSource (start initialized) comings := by
  refine registry_consistent rfl rfl comings ((registered_run_le ..).trans_lt ?_)
  show 0 + 2 * 8 < 2 ^ 31 - 1
  norm_num

end Registry

end Hub
