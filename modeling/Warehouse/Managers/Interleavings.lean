import Warehouse.Machine.Keyed
import Warehouse.Auth.Model
import Warehouse.Notification.Model
import Warehouse.Inventory.Model

/-!
# Calls of many clients

The credentials, the subscriptions and the stock levels, with calls to them in any order.  A call is
for one client or for one item; `addClient` and `removeClient` of the inventory, which change many
items, are left out, and so is the broadcast of an alert, which goes to all clients.

* `AuthRequest`, `NotificationRequest`, `StockRequest`   the calls;
* `keyed_auth`, `keyed_notification`, `keyed_stock`   a call is about its own client or item;
* `Managers.interleaving`   two orders of the calls that agree for each client and for each item lead
                         to the same credentials, subscriptions and levels, with the same replies.
-/

namespace Hub
open Machine Text Numeric CJSON

/-! ## credentials -/

inductive AuthRequest
  | change (op : AuthOp)
  | isAuthorized (client_id : ℤ)

namespace Authentication

variable (hashPassword : Bytes → Bytes)

def serve (a : Authentication) : AuthRequest → Authentication
  | .change op => a.step hashPassword op
  | .isAuthorized _ => a

def reply (a : Authentication) : AuthRequest → Bool
  | .change op => a.returned hashPassword op
  | .isAuthorized c => a.isAuthorized c

/-- the client of a call -/
def requester : AuthRequest → ℤ
  | .change op => op.client
  | .isAuthorized c => c

variable {hashPassword} {a b : Authentication}

/-- what an operation does to the record of its client depends on that record alone -/
theorem record_step_congr (op : AuthOp) (h : a.record op.client = b.record op.client) :
    (a.step hashPassword op).record op.client = (b.step hashPassword op).record op.client ∧
      a.returned hashPassword op = b.returned hashPassword op := by
  unfold step returned
  cases op with
  | addCredentials c p =>
    refine ⟨?_, rfl⟩
    show (a.addCredentials hashPassword c p).record c = (b.addCredentials hashPassword c p).record c
    change a.record c = b.record c at h
    cases hb : b.record c with
    | none => rw [record_addCredentials_new p (h.trans hb), record_addCredentials_new p hb]
    | some d => rw [record_addCredentials_known p (h.trans hb), record_addCredentials_known p hb]
  | removeCredentials c =>
    refine ⟨?_, rfl⟩
    show (a.removeCredentials c).record c = (b.removeCredentials c).record c
    rw [record_removeCredentials, record_removeCredentials]
  | authenticate c p =>
    change a.record c = b.record c at h
    show (a.authenticate hashPassword c p).2.record c = (b.authenticate hashPassword c p).2.record c ∧
      (a.authenticate hashPassword c p).1 = (b.authenticate hashPassword c p).1
    cases hb : b.record c with
    | none => simp only [authenticate, h, hb, and_self]
    | some d =>
      simp only [authenticate, h, hb]
      split_ifs <;> simp only [h, hb, record_put_self, and_self]
  | setLoggedOut c =>
    change a.record c = b.record c at h
    refine ⟨?_, rfl⟩
    show (a.setLoggedOut c).record c = (b.setLoggedOut c).record c
    cases hb : b.record c with
    | none => simp only [setLoggedOut, h, hb]
    | some d => rw [record_setLoggedOut (h.trans hb), record_setLoggedOut hb]
  | unblockWithFingerprint c =>
    change a.record c = b.record c at h
    show (a.unblockWithFingerprint c).2.record c = (b.unblockWithFingerprint c).2.record c ∧
      (a.unblockWithFingerprint c).1 = (b.unblockWithFingerprint c).1
    cases hb : b.record c with
    | none => simp only [unblockWithFingerprint, h, hb, and_self]
    | some d =>
      simp only [unblockWithFingerprint, h, hb]
      split_ifs <;> simp only [h, hb, record_put_self, and_self]
  | blockDueToEmergency c =>
    change a.record c = b.record c at h
    refine ⟨?_, rfl⟩
    show (a.blockDueToEmergency c).record c = (b.blockDueToEmergency c).record c
    cases hb : b.record c with
    | none => simp only [blockDueToEmergency, h, hb]
    | some d => rw [record_blockDueToEmergency (h.trans hb), record_blockDueToEmergency hb]
  | unlockWithSecretPhrase c s =>
    change a.record c = b.record c at h
    show (a.unlockWithSecretPhrase c s).2.record c = (b.unlockWithSecretPhrase c s).2.record c ∧
      (a.unlockWithSecretPhrase c s).1 = (b.unlockWithSecretPhrase c s).1
    cases hb : b.record c with
    | none => simp only [unlockWithSecretPhrase, h, hb, and_self]
    | some d =>
      simp only [unlockWithSecretPhrase, h, hb]
      split_ifs <;> simp only [h, hb, record_put_self, and_self]

theorem keyed_auth : Keyed (serve hashPassword) (reply hashPassword) requester record where
  others := by
    intro a r c hc
    cases r with
    | change op => exact record_step_of_ne op hc
    | isAuthorized c' => rfl
  own := by
    intro a b r h
    cases r with
    | change op => exact (record_step_congr op h).1
    | isAuthorized c => exact h
  answers := by
    intro a b r h
    cases r with
    | change op => exact (record_step_congr op h).2
    | isAuthorized c =>
      change a.record c = b.record c at h
      show a.isAuthorized c = b.isAuthorized c
      unfold isAuthorized
      rw [h]

end Authentication

/-! ## subscriptions -/

inductive NotificationRequest
  | registerClient (clientID : ℤ)
  | removeClient (clientID : ℤ)
  | subscribe (clientID : ℤ) (type : NotificationSubType)
  | unsubscribe (clientID : ℤ) (type : NotificationSubType)
  | isSubscribed (clientID : ℤ) (type : NotificationSubType)

namespace NotificationSystem

def serve (n : NotificationSystem) : NotificationRequest → NotificationSystem
  | .registerClient c => n.registerClient c
  | .removeClient c => n.removeClient c
  | .subscribe c t => n.subscribe c t
  | .unsubscribe c t => n.unsubscribe c t
  | .isSubscribed _ _ => n

/-- what a call returns, `true` for the `void` ones -/
def reply (n : NotificationSystem) : NotificationRequest → Bool
  | .isSubscribed c t => n.isSubscribed c t
  | _ => true

def requester : NotificationRequest → ℤ
  | .registerClient c => c
  | .removeClient c => c
  | .subscribe c _ => c
  | .unsubscribe c _ => c
  | .isSubscribed c _ => c

/-- the types of a client -/
def types? (n : NotificationSystem) (clientID : ℤ) : Option (Finset NotificationSubType) :=
  n.subscriptions.find? clientID

theorem types?_unsubscribe (n : NotificationSystem) (c k : ℤ) (t : NotificationSubType) :
    (n.unsubscribe c t).types? k =
      if k = c then (n.types? c).map fun types => types.erase t else n.types? k := by
  unfold unsubscribe types?
  cases hc : n.subscriptions.find? c with
  | none =>
    by_cases hk : k = c
    · rw [if_pos hk, hk]
      exact hc
    · rw [if_neg hk]
  | some types => exact SortedMap.find?_insert ..

theorem keyed_notification : Keyed serve reply requester types? where
  others := by
    intro n r k hk
    cases r with
    | registerClient c => exact SortedMap.find?_insert_of_ne _ _ (Ne.symm hk)
    | removeClient c => exact SortedMap.find?_erase_of_ne _ (Ne.symm hk)
    | subscribe c t => exact SortedMap.find?_insert_of_ne _ _ (Ne.symm hk)
    | unsubscribe c t => exact (types?_unsubscribe n c k t).trans (if_neg (Ne.symm hk))
    | isSubscribed c t => rfl
  own := by
    intro n n' r h
    cases r with
    | registerClient c =>
      show (n.registerClient c).types? c = (n'.registerClient c).types? c
      unfold registerClient types?
      rw [SortedMap.find?_insert_self, SortedMap.find?_insert_self]
    | removeClient c =>
      show (n.removeClient c).types? c = (n'.removeClient c).types? c
      unfold removeClient types?
      rw [SortedMap.find?_erase_self, SortedMap.find?_erase_self]
    | subscribe c t =>
      change n.types? c = n'.types? c at h
      show (n.subscribe c t).types? c = (n'.subscribe c t).types? c
      unfold subscribe types?
      rw [SortedMap.find?_insert_self, SortedMap.find?_insert_self, ← types?, ← types?, h]
    | unsubscribe c t =>
      change n.types? c = n'.types? c at h
      show (n.unsubscribe c t).types? c = (n'.unsubscribe c t).types? c
      rw [types?_unsubscribe, types?_unsubscribe, if_pos rfl, if_pos rfl, h]
    | isSubscribed c t => exact h
  answers := by
    intro n n' r h
    cases r with
    | isSubscribed c t =>
      change n.types? c = n'.types? c at h
      show n.isSubscribed c t = n'.isSubscribed c t
      unfold isSubscribed
      rw [← types?, ← types?, h]
    | _ => rfl

end NotificationSystem

/-! ## stock levels -/

inductive StockRequest
  | increaseStock (itemID quantity : ℤ)
  | decreaseStock (itemID quantity : ℤ)
  | getStockLevel (itemID : ℤ)

namespace InventoryManager

def serve (m : InventoryManager) : StockRequest → InventoryManager
  | .increaseStock i q => (m.increaseStock i q).2
  | .decreaseStock i q => (m.decreaseStock i q).2
  | .getStockLevel _ => m

/-- what a call returns, as a number -/
def reply (m : InventoryManager) : StockRequest → ℤ
  | .increaseStock i q => (m.increaseStock i q).1.toInt
  | .decreaseStock i q => (m.decreaseStock i q).1.toInt
  | .getStockLevel i => m.getStockLevel i

def item : StockRequest → ℤ
  | .increaseStock i _ => i
  | .decreaseStock i _ => i
  | .getStockLevel i => i

variable {m m' : InventoryManager} {i k q : ℤ}

theorem level?_increaseStock_of_ne (h : k ≠ i) : (m.increaseStock i q).2.level? k = m.level? k := by
  unfold increaseStock
  split_ifs
  · rfl
  · split
    · rw [level?_putItem, if_neg h]
    · rw [level?_putItem, if_neg h]

theorem level?_decreaseStock_of_ne (h : k ≠ i) : (m.decreaseStock i q).2.level? k = m.level? k := by
  unfold decreaseStock
  split_ifs
  · rfl
  · split
    · rfl
    · split_ifs
      · rfl
      · rw [level?_putItem, if_neg h]

theorem increaseStock_congr (h : m.level? i = m'.level? i) :
    (m.increaseStock i q).2.level? i = (m'.increaseStock i q).2.level? i ∧
      (m.increaseStock i q).1 = (m'.increaseStock i q).1 := by
  unfold increaseStock
  rw [h]
  split_ifs
  · exact ⟨h, rfl⟩
  · cases m'.level? i with
    | none => simp only [level?_putItem, if_true, and_self]
    | some d => simp only [level?_putItem, if_true, and_self]

theorem decreaseStock_congr (h : m.level? i = m'.level? i) :
    (m.decreaseStock i q).2.level? i = (m'.decreaseStock i q).2.level? i ∧
      (m.decreaseStock i q).1 = (m'.decreaseStock i q).1 := by
  unfold decreaseStock
  rw [h]
  split_ifs
  · exact ⟨h, rfl⟩
  · cases hl : m'.level? i with
    | none => exact ⟨h.trans rfl, rfl⟩
    | some d =>
      dsimp only
      split_ifs
      · exact ⟨h, rfl⟩
      · simp only [level?_putItem, if_true, and_self]

theorem keyed_stock : Keyed serve reply item level? where
  others := by
    intro m r k hk
    cases r with
    | increaseStock i q => exact level?_increaseStock_of_ne (Ne.symm hk)
    | decreaseStock i q => exact level?_decreaseStock_of_ne (Ne.symm hk)
    | getStockLevel i => rfl
  own := by
    intro m m' r h
    cases r with
    | increaseStock i q => exact (increaseStock_congr h).1
    | decreaseStock i q => exact (decreaseStock_congr h).1
    | getStockLevel i => exact h
  answers := by
    intro m m' r h
    cases r with
    | increaseStock i q => exact congrArg Bool.toInt (increaseStock_congr h).2
    | decreaseStock i q => exact congrArg Bool.toInt (decreaseStock_congr h).2
    | getStockLevel i =>
      change m.level? i = m'.level? i at h
      show m.getStockLevel i = m'.getStockLevel i
      unfold getStockLevel
      rw [h]

end InventoryManager

/-! ## the managers beside one another -/

abbrev Managers := Authentication × NotificationSystem × InventoryManager

abbrev Request := AuthRequest ⊕ NotificationRequest ⊕ StockRequest

namespace Managers

section
variable (hashPassword : Bytes → Bytes)

def serve : Managers → Request → Managers :=
  stepBeside (Authentication.serve hashPassword)
    (stepBeside NotificationSystem.serve InventoryManager.serve)

def reply : Managers → Request → Bool ⊕ Bool ⊕ ℤ :=
  answerBeside (Authentication.reply hashPassword)
    (answerBeside NotificationSystem.reply InventoryManager.reply)

/-- the client or the item of a call -/
def subject : Request → ℤ ⊕ ℤ ⊕ ℤ :=
  Sum.map Authentication.requester (Sum.map NotificationSystem.requester InventoryManager.item)

end

/-- **Interleavings.**  The order of calls for different clients and items does not matter: neither
for what the managers hold in the end, nor for the replies that each of them gets. -/
theorem interleaving (hashPassword : Bytes → Bytes) (m : Managers) (as bs : List Request)
    (h : SameOrders subject as bs) :
    (run (serve hashPassword) m as).1 = (run (serve hashPassword) m bs).1 ∧
      (run (serve hashPassword) m as).2.1 = (run (serve hashPassword) m bs).2.1 ∧
      (∀ i, (run (serve hashPassword) m as).2.2.getStockLevel i =
        (run (serve hashPassword) m bs).2.2.getStockLevel i) ∧
      ∀ k, repliesFor subject k (replies (serve hashPassword) (reply hashPassword) m as) =
        repliesFor subject k (replies (serve hashPassword) (reply hashPassword) m bs) := by
  have hauth : Keyed (Authentication.serve hashPassword) (Authentication.reply hashPassword)
      Authentication.requester Authentication.record := Authentication.keyed_auth
  have hkeyed := hauth.beside (NotificationSystem.keyed_notification.beside InventoryManager.keyed_stock)
  have hsame := hkeyed.run_congr m h
  refine ⟨?_, ?_, fun i => ?_, fun k => (hsame k).2⟩
  · have hrecords : ∀ c, (run (serve hashPassword) m as).1.record c =
        (run (serve hashPassword) m bs).1.record c := fun c => Sum.inl.inj (hsame (.inl c)).1
    exact congrArg Authentication.mk (SortedMap.ext_find? hrecords)
  · have htypes : ∀ c, (run (serve hashPassword) m as).2.1.types? c =
        (run (serve hashPassword) m bs).2.1.types? c := fun c =>
      Sum.inl.inj (Sum.inr.inj (hsame (.inr (.inl c))).1)
    exact congrArg NotificationSystem.mk (SortedMap.ext_find? htypes)
  · have hlevel : (run (serve hashPassword) m as).2.2.level? i =
        (run (serve hashPassword) m bs).2.2.level? i :=
      Sum.inr.inj (Sum.inr.inj (hsame (.inr (.inr i))).1)
    unfold InventoryManager.getStockLevel
    rw [hlevel]

/-- the managers of a server that starts -/
def init : Managers := (Authentication.init, NotificationSystem.init, InventoryManager.init)

/-- two clients are added and log in, the second one with a wrong password first; one after the
other -/
def inTurn : List Request :=
  [.inl (.change (.addCredentials 1 [65])), .inl (.change (.authenticate 1 [65])),
    .inl (.isAuthorized 1), .inl (.change (.addCredentials 2 [66])),
    .inl (.change (.authenticate 2 [65])), .inl (.change (.authenticate 2 [66])),
    .inr (.inr (.increaseStock 7 2)), .inr (.inr (.getStockLevel 7))]

/-- the same calls, at the same time -/
def atOnce : List Request :=
  [.inl (.change (.addCredentials 2 [66])), .inl (.change (.addCredentials 1 [65])),
    .inr (.inr (.increaseStock 7 2)), .inl (.change (.authenticate 2 [65])),
    .inl (.change (.authenticate 1 [65])), .inl (.change (.authenticate 2 [66])),
    .inr (.inr (.getStockLevel 7)), .inl (.isAuthorized 1)]

theorem sameOrders_inTurn : SameOrders subject inTurn atOnce :=
  sameOrders_of_keys [.inl 1, .inl 2, .inr (.inr 7)]
    (by simp [inTurn, atOnce, subject, Authentication.requester, AuthOp.client, InventoryManager.item])
    (List.forall_mem_cons.mpr ⟨rfl, List.forall_mem_cons.mpr ⟨rfl, List.forall_mem_singleton.mpr rfl⟩⟩)

/-- the hypothesis can be met -/
theorem interleaving_two :
    (run (serve id) init inTurn).1 = (run (serve id) init atOnce).1 ∧
      (run (serve id) init inTurn).2.1 = (run (serve id) init atOnce).2.1 ∧
      (∀ i, (run (serve id) init inTurn).2.2.getStockLevel i =
        (run (serve id) init atOnce).2.2.getStockLevel i) ∧
      ∀ k, repliesFor subject k (replies (serve id) (reply id) init inTurn) =
        repliesFor subject k (replies (serve id) (reply id) init atOnce) :=
  interleaving id init inTurn atOnce sameOrders_inTurn

end Managers

end Hub
