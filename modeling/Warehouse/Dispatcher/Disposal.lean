import Warehouse.Dispatcher.Model

/-!
# Who deletes a message

Every handler ends by releasing the cell of its message, on each of its paths and after its last
access, but for the alerts of a known subtype.

* `processLogin_eq` ..      a handler on a live message is its `delete`;
* `ProcessReceivedMessage_eq`   the dispatch;
* `disposed_iff`            a message is deleted exactly once, and not read any more, exactly when
                            it is no alert of a known subtype;
* `alert_leaks`             such an alert.
-/

namespace Hub
open Machine Text CJSON

namespace MessageDispatcher

/-! ## reading a live message -/

section
variable {heap : Cells Message} {a : ℕ} {m : Message}

theorem contentItem_of_value (h : heap.value? a = some m) (name : CString) :
    contentItem heap a name = .ok (m.content.bind fun content => getObjectItem content name) := by
  unfold contentItem
  rw [Cells.read_of_value h]
  rfl

theorem readSubscriptions_of_value (h : heap.value? a = some m) (js : List Node) :
    readSubscriptions heap a js = .ok () := by
  induction js with
  | nil => rfl
  | cons j js ih =>
    rw [readSubscriptions, Cells.read_of_value h]
    exact ih

theorem readSubscriptionField_of_value (h : heap.value? a = some m) (name : CString) :
    readSubscriptionField heap a name = .ok () := by
  unfold readSubscriptionField
  rw [contentItem_of_value h name]
  apply (ok_bind _ _).trans
  split
  · exact readSubscriptions_of_value h _
  · rfl

/-- the products are read one after the other -/
theorem readProducts_of_value (h : heap.value? a = some m) (rs : List (ℤ × ℤ)) (js : List Node) :
    readProducts heap a rs js = .ok (js.foldl addProductRequest rs) := by
  induction js generalizing rs with
  | nil => rfl
  | cons j js ih =>
    rw [readProducts, Cells.read_of_value h, List.foldl_cons]
    exact ih (addProductRequest rs j)

/-! ## the handlers on a live message -/

theorem processReceivedAlert_eq (h : heap.value? a = some m) : processReceivedAlert heap a =
    if 0 ≤ m.subType ∧ m.subType ≤ 2 then .ok heap else heap.release a := by
  unfold processReceivedAlert
  rw [Cells.read_of_value h]
  rfl

theorem processLogin_eq (h : heap.value? a = some m) : processLogin heap a = heap.release a := by
  unfold processLogin
  rw [Cells.read_of_value h]
  apply (ok_bind _ _).trans
  cases m.content with
  | none => rfl
  | some content =>
    rw [contentItem_of_value h passwordKey]
    apply (ok_bind _ _).trans
    split
    · rfl
    · rfl

theorem processLogout_eq (h : heap.value? a = some m) : processLogout heap a = heap.release a := by
  unfold processLogout
  rw [Cells.read_of_value h]
  rfl

theorem ProcessSubscriptions_eq (h : heap.value? a = some m) :
    ProcessSubscriptions heap a = heap.release a := by
  unfold ProcessSubscriptions
  rw [readSubscriptionField_of_value h, readSubscriptionField_of_value h, Cells.read_of_value h]
  apply (ok_bind _ _).trans
  cases m.content with
  | none => rfl
  | some content => rfl

/-- the elements of the `products` field of a message -/
def products (m : Message) : Option (List Node) :=
  match m.content.bind fun content => getObjectItem content productsKey with
  | some (.array js) => some js
  | _ => none

/-- the pairs that are built, and the `delete` -/
theorem ProcessReceivedInventoryRequest_eq (h : heap.value? a = some m) :
    ProcessReceivedInventoryRequest heap a = (heap.release a).map fun heap' =>
      ((products m).map fun js => js.foldl addProductRequest [], heap') := by
  have hmap : ∀ requests : Option (List (ℤ × ℤ)),
      (do pure (requests, ← heap.release a)) = (heap.release a).map fun heap' => (requests, heap') :=
    fun requests => by cases heap.release a <;> rfl
  unfold ProcessReceivedInventoryRequest products
  rw [Cells.read_of_value h]
  apply (ok_bind _ _).trans
  cases hc : m.content with
  | none => exact hmap none
  | some content =>
    rw [contentItem_of_value h productsKey, hc, Option.bind_some]
    apply (ok_bind _ _).trans
    cases getObjectItem content productsKey with
    | none => exact hmap none
    | some products =>
      cases products with
      | array js =>
        dsimp only
        rw [readProducts_of_value h]
        exact hmap (some (js.foldl addProductRequest []))
      | _ => exact hmap none

theorem ProcessInventoryInfoRequest_eq (h : heap.value? a = some m) :
    ProcessInventoryInfoRequest heap a = heap.release a := by
  unfold ProcessInventoryInfoRequest
  rw [Cells.read_of_value h]
  rfl

theorem ProcessTransactionHistoryRequest_eq (h : heap.value? a = some m) :
    ProcessTransactionHistoryRequest heap a = heap.release a := by
  unfold ProcessTransactionHistoryRequest
  rw [Cells.read_of_value h]
  rfl

/-! ## the dispatch -/

/-- an alert whose subtype is one of the enumerators -/
def KnownAlert (m : Message) : Prop := m.type = ALERT ∧ 0 ≤ m.subType ∧ m.subType ≤ 2

instance (m : Message) : Decidable (KnownAlert m) := inferInstanceAs (Decidable (_ ∧ _ ∧ _))

/-- the whole call on a live message -/
theorem ProcessReceivedMessage_eq (h : heap.value? a = some m) :
    ProcessReceivedMessage heap (some a) = if KnownAlert m then .ok heap else heap.release a := by
  have hrequest : (do
      let request ← ProcessReceivedInventoryRequest heap a
      pure request.2) = heap.release a := by
    rw [ProcessReceivedInventoryRequest_eq h]
    cases heap.release a <;> rfl
  unfold ProcessReceivedMessage
  dsimp only
  rw [processLogin_eq h, processLogout_eq h, ProcessSubscriptions_eq h,
    ProcessInventoryInfoRequest_eq h, ProcessTransactionHistoryRequest_eq h,
    processReceivedAlert_eq h, hrequest, Cells.read_of_value h]
  show (if m.type = ALERT then if 0 ≤ m.subType ∧ m.subType ≤ 2 then Except.ok heap
      else heap.release a
    else if m.type = INVENTORY then
      if (⟨m.subType⟩ : InventorySubType) = .REQUEST then heap.release a
      else if (⟨m.subType⟩ : InventorySubType) = .INFO then heap.release a
      else if (⟨m.subType⟩ : InventorySubType) = .HISTORY then heap.release a
      else heap.release a
    else if m.type = CREDENTIALS then
      if (⟨m.subType⟩ : CredentialSubType) = .LOGIN then heap.release a
      else if (⟨m.subType⟩ : CredentialSubType) = .LOGOUT then heap.release a
      else if (⟨m.subType⟩ : CredentialSubType) = .SUBSCRIPTION then heap.release a
      else heap.release a
    else heap.release a) = _
  simp only [ite_self]
  by_cases ht : m.type = ALERT
  · rw [if_pos ht]
    by_cases hs : 0 ≤ m.subType ∧ m.subType ≤ 2
    · rw [if_pos hs, if_pos (show KnownAlert m from ⟨ht, hs⟩)]
    · rw [if_neg hs, if_neg fun hk : KnownAlert m => hs hk.2]
  · rw [if_neg ht, if_neg fun hk : KnownAlert m => ht hk.1]

/-- The message is deleted once and not accessed afterwards: the call ends without a fault, and the
cell of the message is released. -/
def Disposed (heap : Cells Message) (a : ℕ) : Prop :=
  ∃ heap', ProcessReceivedMessage heap (some a) = .ok heap' ∧ heap'.Released a

/-- **Which messages are disposed of.**  All but the alerts of a known subtype, whatever the type,
the subtype and the content are. -/
theorem disposed_iff (heap : Cells Message) (a : ℕ) (m : Message) (h : heap.value? a = some m) :
    Disposed heap a ↔ ¬ (m.type = ALERT ∧ 0 ≤ m.subType ∧ m.subType ≤ 2) := by
  unfold Disposed
  rw [ProcessReceivedMessage_eq h]
  show _ ↔ ¬ KnownAlert m
  by_cases hk : KnownAlert m
  · rw [if_pos hk]
    refine iff_of_false ?_ (not_not.mpr hk)
    rintro ⟨heap', hheap, hreleased⟩
    obtain rfl := Except.ok.inj hheap
    rw [Cells.value?_of_released hreleased] at h
    cases h
  · rw [if_neg hk]
    exact iff_of_true (Cells.release_of_value h) hk

end

/-- the hypothesis can be met: a login without a password -/
theorem disposed_iff_login :
    Disposed ⟨[.live ⟨7, CREDENTIALS, 0, some createObject⟩]⟩ 0 ↔
      ¬ (CREDENTIALS = ALERT ∧ (0 : ℤ) ≤ 0 ∧ (0 : ℤ) ≤ 2) :=
  disposed_iff ⟨[.live ⟨7, CREDENTIALS, 0, some createObject⟩]⟩ 0 _ rfl

/-- A weather alert is neither deleted nor handed on. -/
theorem alert_leaks :
    ¬ ∀ (heap : Cells Message) (a : ℕ), (∃ m, heap.value? a = some m) → Disposed heap a := by
  intro h
  obtain ⟨heap', hheap, hreleased⟩ := h ⟨[.live ⟨7, ALERT, 0, none⟩]⟩ 0 ⟨_, rfl⟩
  obtain rfl : (⟨[.live ⟨7, ALERT, 0, none⟩]⟩ : Cells Message) = heap' := Except.ok.inj hheap
  cases hreleased

end MessageDispatcher

end Hub
