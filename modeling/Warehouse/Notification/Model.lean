import Warehouse.Machine.Run
import Warehouse.Machine.SortedMap
import Warehouse.Text.Bytes
import Mathlib.Data.Finset.Insert
import Mathlib.Data.Finset.Erase

/-!
# `NotificationSystem`

The subscriptions of `server/NotificationSystem.cpp`: a set of notification types for each client.

* `registerClient`, `removeClient`, `subscribe`, `unsubscribe`, `isSubscribed`   the code;
* `recipients`           the clients `broadcastAlert` sends to, in the order of its loop;
* `NotificationOp`, `step`   the operations, and the subscriptions after one;
* `isSubscribed_step`, `contains_step`   what one operation does to one subscription, and to the
                         presence of one client.
-/

namespace Hub
open Machine Text

/-- `NotificationSubType`: an enumeration over `int`, to which any `int` can be cast -/
structure NotificationSubType where
  value : ℤ
deriving DecidableEq

namespace NotificationSubType

def ON_ROUTE : NotificationSubType := ⟨0⟩
def RECEIVED : NotificationSubType := ⟨1⟩
def NO_STOCK : NotificationSubType := ⟨2⟩
def DISCARDED : NotificationSubType := ⟨3⟩

end NotificationSubType

/-- `AlertSubType`, with the enumerators `WEATHER`, `ENEMY_THREAT`, `INFECTION` from zero on -/
structure AlertSubType where
  value : ℤ
deriving DecidableEq

structure NotificationSystem where
  subscriptions : SortedMap ℤ (Finset NotificationSubType)

namespace NotificationSystem
open NotificationSubType

/-! ## the code -/

def DEFAULT_NOTIFICATIONS : Finset NotificationSubType := {ON_ROUTE, RECEIVED, NO_STOCK}

def init : NotificationSystem := ⟨SortedMap.empty⟩

def registerClient (n : NotificationSystem) (clientID : ℤ) : NotificationSystem :=
  ⟨n.subscriptions.insert clientID DEFAULT_NOTIFICATIONS⟩

def removeClient (n : NotificationSystem) (clientID : ℤ) : NotificationSystem :=
  ⟨n.subscriptions.erase clientID⟩

def isSubscribed (n : NotificationSystem) (clientID : ℤ) (type : NotificationSubType) : Bool :=
  match n.subscriptions.find? clientID with
  | none => false
  | some types => decide (type ∈ types)

/-- `subscriptions[clientID]` makes an empty set where there is none -/
def subscribe (n : NotificationSystem) (clientID : ℤ) (type : NotificationSubType) :
    NotificationSystem :=
  ⟨n.subscriptions.insert clientID (insert type ((n.subscriptions.find? clientID).getD ∅))⟩

def unsubscribe (n : NotificationSystem) (clientID : ℤ) (type : NotificationSubType) :
    NotificationSystem :=
  match n.subscriptions.find? clientID with
  | none => n
  | some types => ⟨n.subscriptions.insert clientID (types.erase type)⟩

/-- `subscriptions | std::views::keys` -/
def recipients (n : NotificationSystem) : List ℤ := n.subscriptions.keys

/-! ## runs -/

end NotificationSystem

inductive NotificationOp
  | registerClient (clientID : ℤ)
  | removeClient (clientID : ℤ)
  | subscribe (clientID : ℤ) (type : NotificationSubType)
  | unsubscribe (clientID : ℤ) (type : NotificationSubType)
  | broadcastAlert (subType : AlertSubType) (message : Bytes)
deriving DecidableEq

namespace NotificationSystem

def step (n : NotificationSystem) : NotificationOp → NotificationSystem
  | .registerClient c => n.registerClient c
  | .removeClient c => n.removeClient c
  | .subscribe c t => n.subscribe c t
  | .unsubscribe c t => n.unsubscribe c t
  -- the loop only reads the keys
  | .broadcastAlert _ _ => n

/-! ## one subscription -/

theorem isSubscribed_registerClient (n : NotificationSystem) (c c' : ℤ) (t : NotificationSubType) :
    (n.registerClient c').isSubscribed c t
      = if c = c' then decide (t ∈ DEFAULT_NOTIFICATIONS) else n.isSubscribed c t := by
  unfold isSubscribed registerClient
  rw [SortedMap.find?_insert]
  split_ifs <;> rfl

theorem isSubscribed_removeClient (n : NotificationSystem) (c c' : ℤ) (t : NotificationSubType) :
    (n.removeClient c').isSubscribed c t = if c = c' then false else n.isSubscribed c t := by
  unfold isSubscribed removeClient
  rw [SortedMap.find?_erase]
  split_ifs <;> rfl

theorem isSubscribed_subscribe (n : NotificationSystem) (c c' : ℤ) (t t' : NotificationSubType) :
    (n.subscribe c' t').isSubscribed c t
      = if c = c' ∧ t = t' then true else n.isSubscribed c t := by
  unfold isSubscribed subscribe
  rw [SortedMap.find?_insert]
  by_cases hc : c = c'
  · subst hc
    rw [if_pos rfl]
    cases n.subscriptions.find? c with
    | none => by_cases ht : t = t' <;> simp [ht]
    | some types => by_cases ht : t = t' <;> simp [ht]
  · rw [if_neg hc, if_neg (fun h => hc h.1)]

theorem isSubscribed_unsubscribe (n : NotificationSystem) (c c' : ℤ)
    (t t' : NotificationSubType) :
    (n.unsubscribe c' t').isSubscribed c t
      = if c = c' ∧ t = t' then false else n.isSubscribed c t := by
  unfold isSubscribed unsubscribe
  cases hf : n.subscriptions.find? c' with
  | none =>
    by_cases hc : c = c'
    · subst hc
      rw [hf]
      exact (ite_self false).symm
    · rw [if_neg (fun h => hc h.1)]
  | some types =>
    show (match (n.subscriptions.insert c' (types.erase t')).find? c with
      | none => false
      | some types => decide (t ∈ types)) = _
    rw [SortedMap.find?_insert]
    by_cases hc : c = c'
    · subst hc
      rw [if_pos rfl, hf]
      by_cases ht : t = t' <;> simp [ht]
    · rw [if_neg hc, if_neg (fun h => hc h.1)]

/-- the calls that concern the subscription of a client to a type -/
def concerns (c : ℤ) (t : NotificationSubType) (op : NotificationOp) : Bool :=
  decide (op ∈ [.registerClient c, .removeClient c, .subscribe c t, .unsubscribe c t])

/-- whether the client is subscribed after a call that concerns it -/
def subscribes (t : NotificationSubType) : NotificationOp → Bool
  | .subscribe _ _ => true
  | .registerClient _ => decide (t ∈ DEFAULT_NOTIFICATIONS)
  | _ => false

theorem isSubscribed_step (n : NotificationSystem) (c : ℤ) (t : NotificationSubType)
    (op : NotificationOp) :
    (n.step op).isSubscribed c t
      = if concerns c t op then subscribes t op else n.isSubscribed c t := by
  cases op with
  | registerClient c' =>
    have hop : concerns c t (.registerClient c') = decide (c = c') := by
      simp [concerns, eq_comm (a := c)]
    rw [hop, step, isSubscribed_registerClient, subscribes]
    simp only [decide_eq_true_iff]
  | removeClient c' =>
    have hop : concerns c t (.removeClient c') = decide (c = c') := by
      simp [concerns, eq_comm (a := c)]
    rw [hop, step, isSubscribed_removeClient]
    simp only [decide_eq_true_iff, subscribes]
  | subscribe c' t' =>
    have hop : concerns c t (.subscribe c' t') = decide (c = c' ∧ t = t') := by
      simp [concerns, eq_comm (a := c), eq_comm (a := t)]
    rw [hop, step, isSubscribed_subscribe, subscribes]
    simp only [decide_eq_true_iff]
  | unsubscribe c' t' =>
    have hop : concerns c t (.unsubscribe c' t') = decide (c = c' ∧ t = t') := by
      simp [concerns, eq_comm (a := c), eq_comm (a := t)]
    rw [hop, step, isSubscribed_unsubscribe]
    simp only [decide_eq_true_iff, subscribes]
  | broadcastAlert s m => rfl

/-! ## the presence of one client -/

theorem mem_recipients (n : NotificationSystem) (c : ℤ) :
    c ∈ n.recipients ↔ n.subscriptions.contains c = true := SortedMap.mem_keys ..

theorem mem_recipients_registerClient (n : NotificationSystem) (c c' : ℤ) :
    c ∈ (n.registerClient c').recipients ↔ c = c' ∨ c ∈ n.recipients := by
  rw [mem_recipients, mem_recipients, registerClient, SortedMap.contains_insert]
  simp

theorem mem_recipients_removeClient (n : NotificationSystem) (c c' : ℤ) :
    c ∈ (n.removeClient c').recipients ↔ c ≠ c' ∧ c ∈ n.recipients := by
  rw [mem_recipients, mem_recipients, removeClient, SortedMap.contains_erase]
  simp

/-- a subscription makes its client present -/
theorem mem_recipients_subscribe (n : NotificationSystem) (c c' : ℤ) (t : NotificationSubType) :
    c ∈ (n.subscribe c' t).recipients ↔ c = c' ∨ c ∈ n.recipients := by
  rw [mem_recipients, mem_recipients, subscribe, SortedMap.contains_insert]
  simp

theorem mem_recipients_unsubscribe (n : NotificationSystem) (c c' : ℤ)
    (t : NotificationSubType) : c ∈ (n.unsubscribe c' t).recipients ↔ c ∈ n.recipients := by
  unfold unsubscribe
  split
  · exact Iff.rfl
  · next types hf =>
    have hc' : n.subscriptions.contains c' = true := SortedMap.contains_eq_true.mpr ⟨types, hf⟩
    rw [mem_recipients, mem_recipients, SortedMap.contains_insert]
    by_cases hc : c = c'
    · simp [hc, hc']
    · simp [hc]

end NotificationSystem

end Hub
