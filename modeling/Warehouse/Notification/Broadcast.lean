import Warehouse.Machine.Cells
import Warehouse.Network.Model
import Warehouse.Notification.Model

/-!
# `broadcastAlert`

One content tree is made for an alert, and every message of the loop takes the pointer to it.  The
constructor of a message takes the ownership of its content and the destructor releases it.

* `MessageRef`, `World`  a message with a pointer to its content; the cells and the server;
* `sendMessage`, `round`, `broadcastAlert`   the code;
* `round_of_value`, `round_of_released`   one round of the loop, on a live and on a released content;
* `broadcastAlert_iff`   the alert reaches its recipients without a memory error exactly when there
                         is one recipient.
-/

namespace Hub
open Machine Text CJSON

/-- a message whose content is a pointer -/
structure MessageRef where
  clientID : ℤ
  type : ℤ
  subType : ℤ
  content : Option ℕ

/-- how a call ends -/
inductive Ending
  | returned
  | threw (e : Exn)
  | faulted (f : Fault)

namespace MessageRef

/-- the message that is seen through the pointer; a dangling one shows no content -/
def view (m : MessageRef) (heap : Cells Node) : Message :=
  ⟨m.clientID, m.type, m.subType, m.content.bind heap.value?⟩

/-- the reading of the content by `toJSONString` -/
def read (m : MessageRef) (heap : Cells Node) : Except Fault (Option Node) :=
  match m.content with
  | none => .ok none
  | some a => (heap.read a).map some

/-- the destructor -/
def destroy (m : MessageRef) (heap : Cells Node) : Except Fault (Cells Node) :=
  match m.content with
  | none => .ok heap
  | some a => heap.release a

end MessageRef

/-- the contents, the server, and the messages `sendMessage` was called with -/
structure World where
  heap : Cells Node
  server : Server
  handed : List Message

namespace World

/-! ## the code -/

/-- `NetworkManager::sendMessage`, which reads the content only for an active client -/
def sendMessage (w : World) (msg : MessageRef) : World × Ending :=
  let w := { w with handed := w.handed ++ [msg.view w.heap] }
  match w.server.manager.activeClients.find? msg.clientID with
  | none => (w, .returned)
  | some _ =>
    match msg.read w.heap with
    | .error f => (w, .faulted f)
    | .ok content =>
      match w.server.sendMessage ⟨msg.clientID, msg.type, msg.subType, content⟩ with
      | (server, .ok ()) => ({ w with server }, .returned)
      | (server, .error e) => ({ w with server }, .threw e)

/-- the body of the loop; the message is destroyed at its end, and also when `sendMessage` throws -/
def round (w : World) (msg : MessageRef) : World × Ending :=
  match w.sendMessage msg with
  | (w, .faulted f) => (w, .faulted f)
  | (w, ending) =>
    match msg.destroy w.heap with
    | .error f => (w, .faulted f)
    | .ok heap => ({ w with heap }, ending)

/-- the loop over the messages, which an exception leaves -/
def rounds (w : World) : List MessageRef → World × Ending
  | [] => (w, .returned)
  | msg :: msgs =>
    match w.round msg with
    | (w, .returned) => w.rounds msgs
    | result => result

end World

def messageKey : CString := .lit ['m', 'e', 's', 's', 'a', 'g', 'e']

namespace NotificationSystem

/-- the tree of an alert; a text ends at its first NUL -/
def alertContent (message : Bytes) : Node :=
  addItemToObject createObject messageKey (some (.string (.ofBuffer message)))

/-- `Message msg(clientID, MessageType::ALERT, subType, content)` -/
def alertMessage (subType : AlertSubType) (content : ℕ) (clientID : ℤ) : MessageRef :=
  ⟨clientID, ALERT, subType.value, some content⟩

def broadcastAlert (n : NotificationSystem) (heap : Cells Node) (server : Server)
    (subType : AlertSubType) (message : Bytes) : World × Ending :=
  World.rounds ⟨heap.alloc (alertContent message), server, []⟩
    (n.recipients.map (alertMessage subType heap.next))

end NotificationSystem

/-! ## one round -/

namespace World

variable {w : World} {msg : MessageRef} {a : ℕ} {content : Node}

theorem sendMessage_of_value (hm : msg.content = some a) (h : w.heap.value? a = some content) :
    ∃ server ending, w.sendMessage msg
        = ({ w with server, handed := w.handed ++ [msg.view w.heap] }, ending) ∧
      ∀ f, ending ≠ .faulted f := by
  have hread : msg.read w.heap = .ok (some content) := by
    unfold MessageRef.read
    rw [hm]
    dsimp only
    rw [Cells.read_of_value h]
    rfl
  unfold sendMessage
  dsimp only
  cases w.server.manager.activeClients.find? msg.clientID with
  | none => exact ⟨_, _, rfl, fun f e => (by cases e)⟩
  | some client =>
    dsimp only
    rw [hread]
    dsimp only
    obtain ⟨server, result⟩ := w.server.sendMessage ⟨msg.clientID, msg.type, msg.subType, content⟩
    cases result with
    | ok => exact ⟨_, _, rfl, fun f e => (by cases e)⟩
    | error e => exact ⟨_, _, rfl, fun f e => (by cases e)⟩

/-- a message with a live content is handed over, and its content is released -/
theorem round_of_value (hm : msg.content = some a) (h : w.heap.value? a = some content) :
    ∃ server heap ending, w.round msg = (⟨heap, server, w.handed ++ [msg.view w.heap]⟩, ending) ∧
      heap.Released a ∧ ∀ f, ending ≠ .faulted f := by
  obtain ⟨server, ending, hsend, hno⟩ := sendMessage_of_value hm h
  obtain ⟨heap, hrel, hreleased⟩ := Cells.release_of_value h
  have hdestroy : msg.destroy w.heap = .ok heap := by
    unfold MessageRef.destroy
    rw [hm]
    exact hrel
  refine ⟨server, heap, ending, ?_, hreleased, hno⟩
  unfold round
  rw [hsend]
  cases ending with
  | faulted f => exact absurd rfl (hno f)
  | returned =>
    dsimp only
    rw [hdestroy]
  | threw e =>
    dsimp only
    rw [hdestroy]

/-- a message whose content is released already is read or destroyed by mistake -/
theorem round_of_released (hm : msg.content = some a) (h : w.heap.Released a) :
    ∃ w' f, w.round msg = (w', .faulted f) := by
  have hread : msg.read w.heap = .error (.read a) := by
    unfold MessageRef.read
    rw [hm]
    dsimp only
    rw [Cells.read_of_released h]
    rfl
  have hdestroy : msg.destroy w.heap = .error (.release a) := by
    unfold MessageRef.destroy
    rw [hm]
    exact Cells.release_of_released h
  unfold round sendMessage
  dsimp only
  cases w.server.manager.activeClients.find? msg.clientID with
  | none =>
    dsimp only
    rw [hdestroy]
    exact ⟨_, _, rfl⟩
  | some client =>
    dsimp only
    rw [hread]
    exact ⟨_, _, rfl⟩

end World

/-! ## the alert -/

namespace NotificationSystem

/-- every recipient gets the alert with the whole text, no content is used after its release, and
the content is released in the end -/
def Delivered (n : NotificationSystem) (heap : Cells Node) (server : Server)
    (subType : AlertSubType) (message : Bytes) : Prop :=
  let result := n.broadcastAlert heap server subType message
  (∃ text : CString, text.bytes = message ∧ result.1.handed = n.recipients.map fun c =>
    ⟨c, ALERT, subType.value, some (.object [(messageKey, .string text)])⟩) ∧
  (∀ f, result.2 ≠ .faulted f) ∧ result.1.heap.Released heap.next

section
variable {n : NotificationSystem} {heap : Cells Node} {server : Server} {subType : AlertSubType}
  {message : Bytes}

/-- without a recipient nobody releases the content -/
theorem not_delivered_nobody (hn : n.recipients = []) :
    ¬ n.Delivered heap server subType message := by
  intro h
  obtain ⟨-, -, hreleased⟩ := h
  unfold broadcastAlert at hreleased
  rw [hn] at hreleased
  have hnone : (heap.alloc (alertContent message)).value? heap.next = none :=
    Cells.value?_of_released hreleased
  rw [Cells.value?_next_alloc] at hnone
  cases hnone

/-- the first message has the whole content, which is released after it -/
theorem round_first (heap : Cells Node) (server : Server) (subType : AlertSubType)
    (message : Bytes) (c : ℤ) : ∃ server' heap' ending,
    World.round ⟨heap.alloc (alertContent message), server, []⟩ (alertMessage subType heap.next c)
      = (⟨heap', server', [⟨c, ALERT, subType.value, some (alertContent message)⟩]⟩, ending) ∧
    heap'.Released heap.next ∧ ∀ f, ending ≠ .faulted f := by
  have hvalue := Cells.value?_next_alloc heap (alertContent message)
  have hround : ∃ server' heap' ending,
      World.round ⟨heap.alloc (alertContent message), server, []⟩
          (alertMessage subType heap.next c)
        = (⟨heap', server', [] ++ [(alertMessage subType heap.next c).view
            (heap.alloc (alertContent message))]⟩, ending) ∧
      heap'.Released heap.next ∧ ∀ f, ending ≠ .faulted f := World.round_of_value rfl hvalue
  have hview : (alertMessage subType heap.next c).view (heap.alloc (alertContent message))
      = ⟨c, ALERT, subType.value, some (alertContent message)⟩ :=
    congrArg (Message.mk c ALERT subType.value) hvalue
  rw [hview] at hround
  exact hround

/-- the first of several messages releases the content of the others -/
theorem not_delivered_several {c c' : ℤ} {cs : List ℤ} (hn : n.recipients = c :: c' :: cs) :
    ¬ n.Delivered heap server subType message := by
  intro h
  obtain ⟨⟨text, -, hhanded⟩, hno, -⟩ := h
  unfold broadcastAlert at hhanded hno
  rw [hn, List.map_cons, List.map_cons] at hhanded hno
  obtain ⟨server', heap', ending, hround, hreleased, -⟩ :=
    round_first heap server subType message c
  unfold World.rounds at hhanded hno
  rw [hround] at hhanded hno
  cases ending with
  | returned =>
    dsimp only at hno
    unfold World.rounds at hno
    have hsecond : ∃ w f, World.round
        ⟨heap', server', [⟨c, ALERT, subType.value, some (alertContent message)⟩]⟩
        (alertMessage subType heap.next c') = (w, .faulted f) :=
      World.round_of_released rfl hreleased
    obtain ⟨w, f, hfault⟩ := hsecond
    rw [hfault] at hno
    exact hno f rfl
  | threw e =>
    have hlength := congrArg List.length hhanded
    simp at hlength
  | faulted f => exact hno f rfl

/-- the text a single recipient gets ends at the first NUL -/
theorem delivered_one {c : ℤ} (hn : n.recipients = [c]) :
    n.Delivered heap server subType message ↔ ∀ b ∈ message, b ≠ 0 := by
  obtain ⟨server', heap', ending, hround, hreleased, hno⟩ :=
    round_first heap server subType message c
  have hresult : n.broadcastAlert heap server subType message
      = (⟨heap', server', [⟨c, ALERT, subType.value, some (alertContent message)⟩]⟩, ending) := by
    unfold broadcastAlert
    rw [hn, List.map_cons, List.map_nil]
    unfold World.rounds
    rw [hround]
    cases ending with
    | returned => rfl
    | threw e => rfl
    | faulted f => rfl
  unfold Delivered
  rw [hresult, hn]
  constructor
  · intro h
    obtain ⟨⟨text, rfl, -⟩, -⟩ := h
    exact text.nulFree
  · intro h
    refine ⟨⟨⟨message, h⟩, rfl, ?_⟩, hno, hreleased⟩
    have htext : CString.ofBuffer message = ⟨message, h⟩ := CString.ofBuffer_bytes ⟨message, h⟩
    show [Message.mk c ALERT subType.value
      (some (.object [(messageKey, .string (.ofBuffer message))]))] = _
    rw [htext]
    rfl

end

/-- **Who an alert reaches.**  An alert is handed over once for each recipient, with its content
intact and released once, exactly when there is one recipient and the text has no NUL. -/
theorem delivered_iff (n : NotificationSystem) (heap : Cells Node) (server : Server)
    (subType : AlertSubType) (message : Bytes) :
    n.Delivered heap server subType message ↔
      (∃ c, n.recipients = [c]) ∧ ∀ b ∈ message, b ≠ 0 := by
  cases hn : n.recipients with
  | nil =>
    refine iff_of_false (not_delivered_nobody hn) ?_
    rintro ⟨⟨c, hc⟩, -⟩
    cases hc
  | cons c cs =>
    cases cs with
    | nil =>
      rw [delivered_one hn]
      exact ⟨fun h => ⟨⟨c, rfl⟩, h⟩, fun h => h.2⟩
    | cons c' cs =>
      refine iff_of_false (not_delivered_several hn) ?_
      rintro ⟨⟨c, hc⟩, -⟩
      cases hc

/-- two clients, connected and registered -/
def twoConnected : Server where
  manager := (NetworkManager.init.register 5 ⟨[], 0⟩ .TCP).register 6 ⟨[], 0⟩ .TCP
  kernel := ⟨SortedMap.empty, [], []⟩

def twoRegistered : NotificationSystem := (init.registerClient 1).registerClient 2

theorem second_alert_content_released :
    (∀ c ∈ twoRegistered.recipients,
      twoConnected.manager.activeClients.contains c = true) ∧
    ¬ twoRegistered.Delivered ⟨[]⟩ twoConnected ⟨0⟩ (ascii ['S', 't', 'o', 'r', 'm']) := by
  have hn : twoRegistered.recipients = [1, 2] := by decide
  constructor
  · rw [hn]
    decide
  · exact not_delivered_several hn

end NotificationSystem

end Hub
