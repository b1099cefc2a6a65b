import Warehouse.Client.Model
import Warehouse.Network.Descriptors
import Warehouse.Network.Registry
import Warehouse.Machine.Transit

/-!
# The floor

The hub, and the devices that talk to it by `client/client.c` over UDP.  Between them datagrams are
delayed, reordered, repeated and lost; others send datagrams to the hub, too.

* `transmitted`, `transmits`   what a device has sent to the hub, and what one call adds;
* `Layout`               the address of the hub, and whose addresses there are;
* `collected`            what `receiveUDPMessage` returns, each message with its datagram;
* `Floor`, `Act`, `step`, `Legal`   the hub, the devices and the network, and all that can happen.
-/

namespace Device
open Text CJSON

/-- what a call hands to the network for an address: one that fails, or has no open descriptor, hands
over nothing -/
def payload? (hub : SockAddrIn) : Call × Bool → Option Bytes
  | (.sendto _ bytes dest result, true) => if dest = hub ∧ 0 ≤ result then some bytes else none
  | _ => none

namespace Process

def transmitted (hub : SockAddrIn) (p : Process) : Multiset Bytes := p.issued.filterMap (payload? hub)

def transmits (inet_addr : CString → UInt32) (hub : SockAddrIn) (p : Process) (op : Op) :
    List Bytes :=
  ((p.step inet_addr op).issued.drop p.issued.length).filterMap (payload? hub)

end Process

end Device

namespace Hub
open Machine Text CJSON Posix

/-- Each device has addresses of its own; other addresses are not ours. -/
structure Layout (δ : Type) where
  inet_addr : CString → UInt32
  hub : Device.SockAddrIn
  host : SockAddr → Option δ
  same : ∀ a b, a.same b = true → host a = host b

namespace Server

/-- what waits on a datagram socket -/
def queue (s : Server) (fd : ℤ) : List Datagram :=
  match s.kernel.files.find? fd with
  | some (.datagram queue) => queue
  | _ => []

/-- what waits on the two datagram sockets of the server -/
def waiting (s : Server) : Multiset Datagram :=
  ↑(s.queue s.manager.serverSocketUDPv4) + ↑(s.queue s.manager.serverSocketUDPv6)

/-- the messages with the datagram in front of the socket -/
def labelled (s : Server) (fd : ℤ) (msgs : List Message) : List (Datagram × Message) :=
  match s.queue fd with
  | [] => []
  | d :: _ => msgs.map fun msg => (d, msg)

/-- the messages `receiveUDPMessage` returns, each with its datagram -/
def collected (s : Server) : List (Datagram × Message) :=
  match s.handleSocket s.manager.serverSocketUDPv4 .UDP with
  | (_, .error _) => []
  | (s', .ok first) =>
    match s'.handleSocket s'.manager.serverSocketUDPv6 .UDP with
    | (_, .error _) => []
    | (_, .ok second) =>
      s.labelled s.manager.serverSocketUDPv4 first ++ s.labelled s.manager.serverSocketUDPv6 second

def collecting (s : Server) : Op → List (Datagram × Message)
  | .receiveUDPMessage => s.collected
  | _ => []

end Server

/-- The hub is a server with its past.  `foreign` is what others sent to it. -/
structure Floor (δ : Type) where
  devices : δ → Device.Process
  network : Transit Datagram
  foreign : Multiset Datagram
  registry : Registry
  returned : List (Datagram × Message)

namespace Floor

inductive Act (δ : Type)
  -- a call of a device, which sends from some address of the device
  | device (d : δ) (op : Device.Process.Op) (source : SockAddr)
  | bring (x : Datagram)
  | again (x : Datagram)
  | lose (x : Datagram)
  | foreign (fd : ℤ) (x : Datagram)
  | hub (op : Server.Op)

variable {δ : Type} [DecidableEq δ] (L : Layout δ)

def server (f : Floor δ) : Server := f.registry.server

/-- the devices send to the IPv4 socket -/
def step (f : Floor δ) : Act δ → Floor δ
  | .device d op source =>
    { f with
      devices := Function.update f.devices d ((f.devices d).step L.inet_addr op)
      network := f.network.put
        (((f.devices d).transmits L.inet_addr L.hub op).map fun b => (⟨source, b⟩ : Datagram)) }
  | .bring x =>
    { f with
      network := f.network.bring x
      registry := f.registry.step (.arrive f.server.manager.serverSocketUDPv4 x) }
  | .again x => { f with network := f.network.again x }
  | .lose x => { f with network := f.network.lose x }
  | .foreign fd x =>
    { f with foreign := x ::ₘ f.foreign, registry := f.registry.step (.arrive fd x) }
  | .hub op =>
    { f with
      registry := f.registry.step op
      returned := f.server.collecting op ++ f.returned }

/-- The network brings what is on the way.  The hub does what a server does; it closes no UDP
client, and what arrives is what comes in. -/
def Legal (f : Floor δ) : Act δ → Prop
  | .device d _ source => L.host source = some d
  | .bring x => x ∈ f.network.flight
  | .foreign fd x => L.host x.sender = none ∧
      (fd = f.server.manager.serverSocketUDPv4 ∨ fd = f.server.manager.serverSocketUDPv6)
  | .hub op => (∀ fd x, op ≠ .arrive fd x) ∧ Server.Legal f.server op ∧
      Server.NotBorrowed f.server op
  | _ => True

/-- a hub that has opened its sockets, and nothing on the way -/
def Fresh (f : Floor δ) : Prop :=
  ∃ s, Server.Started s ∧ f.registry = Registry.start s ∧ f.network = Transit.empty ∧
    f.foreign = 0 ∧ f.returned = []

/-- the datagrams of a device, by their bytes -/
def ofDevice (d : δ) (xs : Multiset Datagram) : Multiset Bytes :=
  (xs.filter fun x => L.host x.sender = some d).map Datagram.payload

/-- What the hub hands out is what the devices sent.  A message is the one of its datagram, with an
identifier of the hub in place of the one in the text; a device's message is handed out at most as
often as the device sent it and the network repeated it; an identifier stands for one address, and
so for one device, for good; and an answer for the identifier goes to this address. -/
structure EndToEnd (f : Floor δ) : Prop where
  genuine : ∀ r ∈ f.returned, ∃ msg,
    Message.fromJSONString (r.1.payload.take Server.BUFFER) = .ok msg ∧
      r.2 = msg.setClientID r.2.clientID
  once : ∀ d, ofDevice L d ↑(f.returned.map Prod.fst) ≤
    (f.devices d).transmitted L.hub + ofDevice L d f.network.repeated
  named : ∀ r ∈ f.returned, ∀ r' ∈ f.returned,
    r.2.clientID = r'.2.clientID ↔ r.1.sender.same r'.1.sender = true
  apart : ∀ r ∈ f.returned, ∀ r' ∈ f.returned, r.2.clientID = r'.2.clientID →
    L.host r.1.sender = L.host r'.1.sender
  answered : ∀ r ∈ f.returned, ∃ conn,
    f.server.manager.activeClients.find? r.2.clientID = some conn ∧ conn.protocol = .UDP ∧
      conn.address.same r.1.sender = true

end Floor

end Hub
