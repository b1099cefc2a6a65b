import Warehouse.Machine.Cells
import Warehouse.Message.Model
import Warehouse.Notification.Model

/-!
# `MessageDispatcher`

`server/MessageDispatcher.cpp` over the cells of the messages.  A message is handed in by pointer
and `delete` releases its cell, with the content in it; every access through the message, or through
a pointer into its content, reads the cell.  The calls to the server are comments in the source:
what would be handed to it is built and dropped.

* `ProcessReceivedMessage`   the dispatch on type and subtype;
* `processReceivedAlert` .. `ProcessTransactionHistoryRequest`   the handlers.
-/

namespace Hub
open Machine Text CJSON

namespace AlertSubType

def WEATHER : AlertSubType := ⟨0⟩
def ENEMY_THREAT : AlertSubType := ⟨1⟩
def INFECTION : AlertSubType := ⟨2⟩

end AlertSubType

structure InventorySubType where
  value : ℤ
deriving DecidableEq

namespace InventorySubType

def REQUEST : InventorySubType := ⟨0⟩
def INFO : InventorySubType := ⟨1⟩
def HISTORY : InventorySubType := ⟨2⟩

end InventorySubType

structure CredentialSubType where
  value : ℤ
deriving DecidableEq

namespace CredentialSubType

def LOGIN : CredentialSubType := ⟨0⟩
def LOGOUT : CredentialSubType := ⟨1⟩
def SUBSCRIPTION : CredentialSubType := ⟨2⟩

end CredentialSubType

def passwordKey : CString := .lit ['p', 'a', 's', 's', 'w', 'o', 'r', 'd']
def subscribeKey : CString := .lit ['s', 'u', 'b', 's', 'c', 'r', 'i', 'b', 'e']
def unsubscribeKey : CString := .lit ['u', 'n', 's', 'u', 'b', 's', 'c', 'r', 'i', 'b', 'e']
def productsKey : CString := .lit ['p', 'r', 'o', 'd', 'u', 'c', 't', 's']
def idKey : CString := .lit ['i', 'd']
def quantityKey : CString := .lit ['q', 'u', 'a', 'n', 't', 'i', 't', 'y']

namespace MessageDispatcher

/-- `cJSON_GetObjectItem(content, name)` for the content of a message -/
def contentItem (heap : Cells Message) (msg : ℕ) (name : CString) : Except Fault (Option Node) := do
  let m ← heap.read msg
  pure (m.content.bind fun content => getObjectItem content name)

/-! ## the handlers -/

/-- an alert of a known subtype is left to a call that is a comment -/
def processReceivedAlert (heap : Cells Message) (msg : ℕ) : Except Fault (Cells Message) := do
  let subType := (← heap.read msg).subType
  if subType ≥ AlertSubType.WEATHER.value ∧ subType ≤ AlertSubType.INFECTION.value then pure heap
  else heap.release msg

def processLogin (heap : Cells Message) (msg : ℕ) : Except Fault (Cells Message) := do
  match (← heap.read msg).content with
  | none => heap.release msg
  | some _ =>
    match (← contentItem heap msg passwordKey) with
    | some (.string _) =>
      -- the password and the sender are copied before the message goes
      let _password ← contentItem heap msg passwordKey
      let _sender := (← heap.read msg).clientID
      heap.release msg
    | _ => heap.release msg

def processLogout (heap : Cells Message) (msg : ℕ) : Except Fault (Cells Message) := do
  let _sender := (← heap.read msg).clientID
  heap.release msg

/-- the loop over the names of a subscription field; whatever a name is, its branch is empty -/
def readSubscriptions (heap : Cells Message) (msg : ℕ) : List Node → Except Fault Unit
  | [] => pure ()
  | _ :: subscriptions => do
    let _subscription ← heap.read msg
    readSubscriptions heap msg subscriptions

/-- one of the two fields of a subscription message -/
def readSubscriptionField (heap : Cells Message) (msg : ℕ) (name : CString) :
    Except Fault Unit := do
  match (← contentItem heap msg name) with
  | some (.array subscriptions) => readSubscriptions heap msg subscriptions
  | _ => pure ()

def ProcessSubscriptions (heap : Cells Message) (msg : ℕ) : Except Fault (Cells Message) := do
  match (← heap.read msg).content with
  | none => heap.release msg
  | some _ =>
    let _sender := (← heap.read msg).clientID
    readSubscriptionField heap msg subscribeKey
    readSubscriptionField heap msg unsubscribeKey
    heap.release msg

/-- the body of the loop over the products, on the pairs so far -/
def addProductRequest (productRequests : List (ℤ × ℤ)) (product : Node) : List (ℤ × ℤ) :=
  match getObjectItem product idKey, getObjectItem product quantityKey with
  | some (.number id), some (.number quantity) =>
    productRequests ++ [(valueint id, valueint quantity)]
  | _, _ => productRequests

/-- the loop over the products -/
def readProducts (heap : Cells Message) (msg : ℕ) (productRequests : List (ℤ × ℤ)) :
    List Node → Except Fault (List (ℤ × ℤ))
  | [] => pure productRequests
  | product :: products => do
    let _product ← heap.read msg
    readProducts heap msg (addProductRequest productRequests product) products

/-- with the pairs it builds, if it gets that far -/
def ProcessReceivedInventoryRequest (heap : Cells Message) (msg : ℕ) :
    Except Fault (Option (List (ℤ × ℤ)) × Cells Message) := do
  match (← heap.read msg).content with
  | none => pure (none, ← heap.release msg)
  | some _ =>
    match (← contentItem heap msg productsKey) with
    | some (.array products) =>
      let _sender := (← heap.read msg).clientID
      let productRequests ← readProducts heap msg [] products
      pure (some productRequests, ← heap.release msg)
    | _ => pure (none, ← heap.release msg)

def ProcessInventoryInfoRequest (heap : Cells Message) (msg : ℕ) :
    Except Fault (Cells Message) := do
  let _sender := (← heap.read msg).clientID
  heap.release msg

def ProcessTransactionHistoryRequest (heap : Cells Message) (msg : ℕ) :
    Except Fault (Cells Message) := do
  let _clientId := (← heap.read msg).clientID
  heap.release msg

/-! ## the dispatch -/

def ProcessReceivedMessage (heap : Cells Message) (msg : Option ℕ) :
    Except Fault (Cells Message) := do
  match msg with
  | none => pure heap
  | some msg =>
    let type := (← heap.read msg).type
    if type = ALERT then processReceivedAlert heap msg
    else if type = INVENTORY then
      let subType : InventorySubType := ⟨(← heap.read msg).subType⟩
      if subType = .REQUEST then
        let (_, heap) ← ProcessReceivedInventoryRequest heap msg
        pure heap
      else if subType = .INFO then ProcessInventoryInfoRequest heap msg
      else if subType = .HISTORY then ProcessTransactionHistoryRequest heap msg
      else heap.release msg
    else if type = CREDENTIALS then
      let subType : CredentialSubType := ⟨(← heap.read msg).subType⟩
      if subType = .LOGIN then processLogin heap msg
      else if subType = .LOGOUT then processLogout heap msg
      else if subType = .SUBSCRIPTION then ProcessSubscriptions heap msg
      else heap.release msg
    else heap.release msg

end MessageDispatcher

end Hub
