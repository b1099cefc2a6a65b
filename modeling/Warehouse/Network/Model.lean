import Warehouse.Message.RoundTrip
import Warehouse.Network.Kernel
import Warehouse.Machine.Run

/-!
# `NetworkManager`

The connections of `server/NetworkManager.cpp`, over the sockets of the process.

* `receiveUDPMessage`, `receiveTCPMessage`, `sendMessage`, `listenForConnections`,
  `closeConnection`, `initializeSockets`   the code;
* `Op`, `step`           these operations and what comes in from outside; the server after one;
* `Started`, `Legal`     a server after `initialize`; a new socket gets a descriptor that is free;
* `handleSocket_cases`   everything that the handling of one datagram socket can do;
* `receiveTCPMessage_cases`   everything that a directed receive can do; what it returns is in
                         `receiveTCPMessage_some_iff`.
-/

namespace Hub
open Machine Text CJSON Posix

inductive Protocol
  | TCP
  | UDP
deriving DecidableEq

structure ClientConnection where
  clientID : ℤ
  socket : ℤ
  address : SockAddr
  protocol : Protocol

structure NetworkManager where
  serverSocketTCPv4 : ℤ
  serverSocketUDPv4 : ℤ
  serverSocketTCPv6 : ℤ
  serverSocketUDPv6 : ℤ
  activeClients : SortedMap ℤ ClientConnection
  nextClientID : ℤ

namespace NetworkManager

def init : NetworkManager := ⟨-1, -1, -1, -1, SortedMap.empty, 1⟩

/-- the increment of an `int`; at its end it is undefined, and the value is the one of x86 -/
def increment (n : ℤ) : ℤ := if n = INT_MAX then INT_MIN else n + 1

/-- a new connection under the next identifier -/
def register (m : NetworkManager) (socket : ℤ) (address : SockAddr) (protocol : Protocol) :
    NetworkManager :=
  { m with
    nextClientID := increment m.nextClientID
    activeClients := m.activeClients.emplace m.nextClientID
      ⟨m.nextClientID, socket, address, protocol⟩ }

/-- the identifier of the first connection of the protocol and the address, or `-1` -/
def findSender (m : NetworkManager) (protocol : Protocol) (sender : SockAddr) : ℤ :=
  match m.activeClients.entries.find? fun e =>
    decide (e.2.protocol = protocol) && e.2.address.same sender with
  | some e => e.1
  | none => -1

/-- the identifier of a sender, which is registered if it has none -/
def identify (m : NetworkManager) (socketFd : ℤ) (protocol : Protocol) (sender : SockAddr) :
    ℤ × NetworkManager :=
  if m.findSender protocol sender = -1 then
    (m.nextClientID, m.register socketFd sender protocol)
  else (m.findSender protocol sender, m)

end NetworkManager

/-- the manager in its process -/
structure Server where
  manager : NetworkManager
  kernel : Kernel

namespace Server

/-- the size of the receive buffers -/
def BUFFER : ℕ := 1024

def acknowledgment : Bytes := ascii ['A', 'c', 'k', 'n', 'o', 'w', 'l', 'e', 'd', 'g', 'e', 'd']

/-! ## the code -/

/-- the four sockets, with the descriptors they get; a failure ends the process -/
def initializeSockets (s : Server) (tcp4 udp4 tcp6 udp6 : ℤ) : Server where
  manager := { s.manager with
    serverSocketTCPv4 := tcp4, serverSocketUDPv4 := udp4
    serverSocketTCPv6 := tcp6, serverSocketUDPv6 := udp6 }
  kernel := (((s.kernel.openFile tcp4 .listening).openFile udp4 (.datagram [])).openFile tcp6
    .listening).openFile udp6 (.datagram [])

/-- the result of `accept` is the descriptor, or none of them -/
def listenForConnections (s : Server) (connection : Option (ℤ × SockAddr)) : Server :=
  match s.kernel.accept s.manager.serverSocketTCPv4 connection with
  | none => s
  | some (clientSock, clientAddr, kernel) =>
    if 0 ≤ clientSock then ⟨s.manager.register clientSock clientAddr .TCP, kernel⟩
    else { s with kernel }

/-- the lambda of `receiveUDPMessage`, with the messages it appends -/
def handleSocket (s : Server) (socketFd : ℤ) (protocol : Protocol) :
    Server × Except Exn (List Message) :=
  match s.kernel.recvfrom socketFd BUFFER BUFFER with
  | none => (s, .ok [])
  | some (senderAddr, data, kernel) =>
    if data = [] then ({ s with kernel }, .ok [])
    else
      match Message.fromJSONString data with
      | .error e => ({ s with kernel }, .error e)
      | .ok msg =>
        -- the text is only written to the console
        match msg.toJSONString with
        | .error e => ({ s with kernel }, .error e)
        | .ok _ =>
          let (clientId, manager) := s.manager.identify socketFd protocol senderAddr
          (⟨manager, kernel.sendto socketFd senderAddr acknowledgment⟩,
            .ok [(msg.setClientID clientId).copy])

def receiveUDPMessage (s : Server) : Server × Except Exn (List Message) :=
  match s.handleSocket s.manager.serverSocketUDPv4 .UDP with
  | (s, .error e) => (s, .error e)
  | (s, .ok first) =>
    match s.handleSocket s.manager.serverSocketUDPv6 .UDP with
    | (s, .error e) => (s, .error e)
    | (s, .ok second) => (s, .ok (first ++ second))

def sendMessage (s : Server) (msg : Message) : Server × Except Exn Unit :=
  match s.manager.activeClients.find? msg.clientID with
  | none => (s, .ok ())
  | some client =>
    match msg.toJSONString with
    | .error e => (s, .error e)
    | .ok raw =>
      match client.protocol with
      | .TCP => ({ s with kernel := s.kernel.send client.socket raw }, .ok ())
      | .UDP => ({ s with kernel := s.kernel.sendto client.socket client.address raw }, .ok ())

/-- both receiving calls take from the descriptor of the client; the address is not looked at -/
def receiveTCPMessage (s : Server) (clientID : ℤ) (cut : ℕ) :
    Server × Except Exn (Option Message) :=
  match s.manager.activeClients.find? clientID with
  | none => (s, .ok none)
  | some client =>
    match (match client.protocol with
      | .TCP => s.kernel.recv client.socket BUFFER cut
      | .UDP => (s.kernel.recvfrom client.socket BUFFER cut).map Prod.snd) with
    | none => (s, .ok none)
    | some (bytes, kernel) =>
      if bytes = [] then ({ s with kernel }, .ok none)
      else
        match Message.fromJSONString bytes with
        | .error e => ({ s with kernel }, .error e)
        | .ok msg => ({ s with kernel }, .ok (some msg.copy))

def closeConnection (s : Server) (clientID : ℤ) : Server :=
  match s.manager.activeClients.find? clientID with
  | none => s
  | some client =>
    { manager := { s.manager with activeClients := s.manager.activeClients.erase clientID }
      kernel := s.kernel.close client.socket }

/-! ## runs -/

inductive Op
  | listenForConnections (connection : Option (ℤ × SockAddr))
  | receiveUDPMessage
  | sendMessage (msg : Message)
  | receiveTCPMessage (clientID : ℤ) (cut : ℕ)
  | closeConnection (clientID : ℤ)
  -- a datagram from outside waits on a socket
  | arrive (fd : ℤ) (d : Datagram)
  -- bytes of the peer wait on a connection
  | deliver (fd : ℤ) (bytes : Bytes)

/-- the server after an operation, whether it returned or threw -/
def step (s : Server) : Op → Server
  | .listenForConnections connection => s.listenForConnections connection
  | .receiveUDPMessage => s.receiveUDPMessage.1
  | .sendMessage msg => (s.sendMessage msg).1
  | .receiveTCPMessage c cut => (s.receiveTCPMessage c cut).1
  | .closeConnection c => s.closeConnection c
  | .arrive fd d => { s with kernel := s.kernel.arrive fd d }
  | .deliver fd bytes => { s with kernel := s.kernel.deliver fd bytes }

/-- the messages of a result; an exception hands over none -/
def handed : Except Exn (List Message) → List Message
  | .ok msgs => msgs
  | .error _ => []

/-- the messages an operation hands to its caller -/
def returned (s : Server) : Op → List Message
  | .receiveUDPMessage => handed s.receiveUDPMessage.2
  | .receiveTCPMessage c cut => handed ((s.receiveTCPMessage c cut).2.map Option.toList)
  | _ => []

/-- a new socket gets a descriptor that is not open -/
def Legal (s : Server) : Op → Prop
  | .listenForConnections (some (fd, _)) => 0 ≤ fd ∧ s.kernel.isOpen fd = false
  | _ => True

/-- a server after `initialize`, in a process with any other files, whatever the environment answers
to the sending calls to come -/
def Started (s : Server) : Prop :=
  ∃ (files : SortedMap ℤ File) (answers : List ℤ) (tcp4 udp4 tcp6 udp6 : ℤ),
    [tcp4, udp4, tcp6, udp6].Nodup ∧
    (∀ fd ∈ [tcp4, udp4, tcp6, udp6], files.find? fd = none) ∧
    s = initializeSockets ⟨NetworkManager.init, ⟨files, [], answers⟩⟩ tcp4 udp4 tcp6 udp6

/-! ## what an operation can do -/

theorem handleSocket_cases (s : Server) (fd : ℤ) (protocol : Protocol) :
    (s.kernel.recvfrom fd BUFFER BUFFER = none ∧ s.handleSocket fd protocol = (s, .ok [])) ∨
    ∃ sender data kernel, s.kernel.recvfrom fd BUFFER BUFFER = some (sender, data, kernel) ∧
      ((data = [] ∧ s.handleSocket fd protocol = ({ s with kernel }, .ok [])) ∨
      (data ≠ [] ∧ ∃ e, Message.fromJSONString data = .error e ∧
        s.handleSocket fd protocol = ({ s with kernel }, .error e)) ∨
      (data ≠ [] ∧ ∃ msg, Message.fromJSONString data = .ok msg ∧
        s.handleSocket fd protocol =
          (⟨(s.manager.identify fd protocol sender).2, kernel.sendto fd sender acknowledgment⟩,
            .ok [msg.setClientID (s.manager.identify fd protocol sender).1]))) := by
  unfold handleSocket
  cases hr : s.kernel.recvfrom fd BUFFER BUFFER with
  | none => exact Or.inl ⟨rfl, rfl⟩
  | some r =>
    obtain ⟨sender, data, kernel⟩ := r
    refine Or.inr ⟨sender, data, kernel, rfl, ?_⟩
    dsimp only
    by_cases hempty : data = []
    · rw [if_pos hempty]
      exact Or.inl ⟨hempty, rfl⟩
    · rw [if_neg hempty]
      cases hm : Message.fromJSONString data with
      | error e => exact Or.inr (Or.inl ⟨hempty, e, rfl, rfl⟩)
      | ok msg =>
        have hlen : data.length ≤ 2 ^ 26 := (Kernel.recvfrom_length hr).trans (by decide)
        have hcopy : ∀ id, (msg.setClientID id).copy = msg.setClientID id := fun id =>
          congrArg (Message.setClientID · id) (Message.copy_decoded hm)
        refine Or.inr (Or.inr ⟨hempty, msg, rfl, ?_⟩)
        dsimp only
        rw [Message.toJSONString_decoded hm hlen]
        dsimp only
        rw [hcopy]

/-- an accepted datagram -/
theorem handleSocket_accepted {s : Server} {fd : ℤ} (protocol : Protocol) {sender : SockAddr}
    {data : Bytes} {kernel : Kernel} {msg : Message}
    (hr : s.kernel.recvfrom fd BUFFER BUFFER = some (sender, data, kernel)) (hne : data ≠ [])
    (hm : Message.fromJSONString data = .ok msg) :
    s.handleSocket fd protocol =
      (⟨(s.manager.identify fd protocol sender).2, kernel.sendto fd sender acknowledgment⟩,
        .ok [msg.setClientID (s.manager.identify fd protocol sender).1]) := by
  rcases handleSocket_cases s fd protocol with ⟨h, -⟩ | ⟨sender', data', k, h, h'⟩
  · rw [hr] at h
    cases h
  · rw [hr] at h
    cases h
    rcases h' with ⟨h0, -⟩ | ⟨-, e, he, -⟩ | ⟨-, msg', hm', e⟩
    · exact absurd h0 hne
    · rw [hm] at he
      cases he
    · rw [hm] at hm'
      cases hm'
      exact e

theorem handleSocket_idle {s : Server} {fd : ℤ} {protocol : Protocol}
    (hr : s.kernel.recvfrom fd BUFFER BUFFER = none) : s.handleSocket fd protocol = (s, .ok []) := by
  unfold handleSocket
  rw [hr]

/-- an exception on the first socket ends the call -/
theorem receiveUDPMessage_error {s s' : Server} {e : Exn}
    (h : s.handleSocket s.manager.serverSocketUDPv4 .UDP = (s', .error e)) :
    s.receiveUDPMessage = (s', .error e) := by
  unfold receiveUDPMessage
  rw [h]

/-- an exception on the second socket takes the messages of the first one with it -/
theorem receiveUDPMessage_ok {s s' s'' : Server} {first : List Message}
    {r : Except Exn (List Message)}
    (h4 : s.handleSocket s.manager.serverSocketUDPv4 .UDP = (s', .ok first))
    (h6 : s'.handleSocket s'.manager.serverSocketUDPv6 .UDP = (s'', r)) :
    s.receiveUDPMessage = (s'', r.map (first ++ ·)) := by
  unfold receiveUDPMessage
  rw [h4]
  dsimp only
  rw [h6]
  cases r <;> rfl

theorem receiveTCPMessage_cases (s : Server) (c : ℤ) (cut : ℕ) :
    (s.manager.activeClients.find? c = none ∧ s.receiveTCPMessage c cut = (s, .ok none)) ∨
    ∃ client, s.manager.activeClients.find? c = some client ∧
      ((s.kernel.recvfrom client.socket BUFFER cut = none ∧
        s.receiveTCPMessage c cut = (s, .ok none)) ∨
      ∃ sender data kernel,
        s.kernel.recvfrom client.socket BUFFER cut = some (sender, data, kernel) ∧
        ((data = [] ∧ s.receiveTCPMessage c cut = ({ s with kernel }, .ok none)) ∨
        (data ≠ [] ∧ ∃ e, Message.fromJSONString data = .error e ∧
          s.receiveTCPMessage c cut = ({ s with kernel }, .error e)) ∨
        (data ≠ [] ∧ ∃ msg, Message.fromJSONString data = .ok msg ∧
          s.receiveTCPMessage c cut = ({ s with kernel }, .ok (some msg))))) := by
  unfold receiveTCPMessage
  cases hc : s.manager.activeClients.find? c with
  | none => exact Or.inl ⟨rfl, rfl⟩
  | some client =>
    refine Or.inr ⟨client, rfl, ?_⟩
    have hread : (match client.protocol with
        | .TCP => s.kernel.recv client.socket BUFFER cut
        | .UDP => (s.kernel.recvfrom client.socket BUFFER cut).map Prod.snd)
        = (s.kernel.recvfrom client.socket BUFFER cut).map Prod.snd := by
      cases client.protocol <;> rfl
    simp only [hread]
    cases hr : s.kernel.recvfrom client.socket BUFFER cut with
    | none => exact Or.inl ⟨rfl, rfl⟩
    | some r =>
      obtain ⟨sender, data, kernel⟩ := r
      refine Or.inr ⟨sender, data, kernel, rfl, ?_⟩
      dsimp only [Option.map_some]
      by_cases hempty : data = []
      · rw [if_pos hempty]
        exact Or.inl ⟨hempty, rfl⟩
      · rw [if_neg hempty]
        cases hm : Message.fromJSONString data with
        | error e => exact Or.inr (Or.inl ⟨hempty, e, rfl, rfl⟩)
        | ok msg =>
          refine Or.inr (Or.inr ⟨hempty, msg, rfl, ?_⟩)
          dsimp only
          rw [Message.copy_decoded hm]

/-- a directed receive returns the message of the bytes that wait on the client's descriptor -/
theorem receiveTCPMessage_some_iff {s : Server} {c : ℤ} {cut : ℕ} {msg : Message} :
    (s.receiveTCPMessage c cut).2 = .ok (some msg) ↔
      ∃ client, s.manager.activeClients.find? c = some client ∧
        Message.fromJSONString (s.kernel.pending client.socket BUFFER cut) = .ok msg := by
  rcases receiveTCPMessage_cases s c cut with ⟨hc, e⟩ | ⟨client, hc, h⟩
  · rw [e, hc]
    exact ⟨fun h => (by cases h), fun ⟨_, h, _⟩ => (by cases h)⟩
  · have hclient : (∃ client, s.manager.activeClients.find? c = some client ∧
        Message.fromJSONString (s.kernel.pending client.socket BUFFER cut) = .ok msg) ↔
          Message.fromJSONString (s.kernel.pending client.socket BUFFER cut) = .ok msg := by
      rw [hc]
      exact ⟨fun ⟨_, h, hm⟩ => by cases h; exact hm, fun hm => ⟨client, rfl, hm⟩⟩
    rw [hclient]
    rcases h with ⟨hr, e⟩ | ⟨sender, data, k, hr, ⟨h0, e⟩ | ⟨-, x, hx, e⟩ | ⟨-, msg', hm, e⟩⟩
    · rw [e, Kernel.pending_of_none hr]
      exact ⟨fun h => (by cases h), fun h => absurd h (Message.fromJSONString_nil msg)⟩
    · rw [e, ← Kernel.recvfrom_bytes hr, h0]
      exact ⟨fun h => (by cases h), fun h => absurd h (Message.fromJSONString_nil msg)⟩
    · rw [e, ← Kernel.recvfrom_bytes hr, hx]
      exact ⟨fun h => (by cases h), fun h => (by cases h)⟩
    · rw [e, ← Kernel.recvfrom_bytes hr, hm]
      exact ⟨fun h => (by cases h; rfl), fun h => (by cases h; rfl)⟩

end Server

end Hub
