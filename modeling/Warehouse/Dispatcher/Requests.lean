import Warehouse.Dispatcher.Disposal

/-!
# The products of an inventory request

* `Requests`             the pairs of a list of elements: those of the elements with an `id` and a
                         `quantity` that are numbers, in their order;
* `request`, `products_loop`   one element, and the loop over all of them;
* `requests_iff`         the loop yields the pairs;
* `productRequests_iff`  what the handler of an inventory request builds.
-/

namespace Hub
open Machine Text Numeric CJSON

namespace MessageDispatcher

/-! ## what is asked for -/

/-- an element with a number for its `id` and one for its `quantity`, and the integers of the two -/
def IsRequest (product : Node) (r : ℤ × ℤ) : Prop :=
  ∃ id quantity, FirstMember idKey product (.number id) ∧
    FirstMember quantityKey product (.number quantity) ∧ r = (valueint id, valueint quantity)

/-- the pairs of the elements, in their order; an element that is no request is skipped -/
inductive Requests : List Node → List (ℤ × ℤ) → Prop
  | nil : Requests [] []
  | take {product : Node} {products : List Node} {r : ℤ × ℤ} {rs : List (ℤ × ℤ)}
      (h : IsRequest product r) (hrest : Requests products rs) :
      Requests (product :: products) (r :: rs)
  | skip {product : Node} {products : List Node} {rs : List (ℤ × ℤ)}
      (h : ∀ r, ¬ IsRequest product r) (hrest : Requests products rs) :
      Requests (product :: products) rs

/-! ## the loop -/

/-- the pair of an element -/
def request (product : Node) : Option (ℤ × ℤ) :=
  match getObjectItem product idKey, getObjectItem product quantityKey with
  | some (.number id), some (.number quantity) => some (valueint id, valueint quantity)
  | _, _ => none

theorem addProductRequest_eq (rs : List (ℤ × ℤ)) (product : Node) :
    addProductRequest rs product = rs ++ (request product).toList := by
  unfold addProductRequest request
  cases getObjectItem product idKey with
  | none => exact (List.append_nil rs).symm
  | some id =>
    cases id with
    | number id =>
      cases getObjectItem product quantityKey with
      | none => exact (List.append_nil rs).symm
      | some quantity =>
        cases quantity with
        | number quantity => rfl
        | _ => exact (List.append_nil rs).symm
    | _ => exact (List.append_nil rs).symm

/-- the loop keeps the order, and one element does not touch the pairs of another -/
theorem products_loop (rs : List (ℤ × ℤ)) (js : List Node) :
    js.foldl addProductRequest rs = rs ++ js.filterMap request := by
  induction js generalizing rs with
  | nil => exact (List.append_nil rs).symm
  | cons j js ih =>
    rw [List.foldl_cons, ih, addProductRequest_eq, List.append_assoc]
    cases hj : request j with
    | none => rw [List.filterMap_cons_none hj, Option.toList_none, List.nil_append]
    | some r => rw [List.filterMap_cons_some hj, Option.toList_some, List.singleton_append]

theorem request_eq_some_iff {product : Node} {r : ℤ × ℤ} :
    request product = some r ↔ IsRequest product r := by
  unfold request IsRequest
  simp only [← getObjectItem_eq_some_iff]
  constructor
  · intro h
    split at h
    · next id quantity hid hquantity => exact ⟨id, quantity, hid, hquantity, (Option.some.inj h).symm⟩
    · cases h
  · rintro ⟨id, quantity, hid, hquantity, rfl⟩
    rw [hid, hquantity]

/-- the pairs of the elements are those the loop finds -/
theorem requests_iff {js : List Node} {rs : List (ℤ × ℤ)} :
    Requests js rs ↔ rs = js.filterMap request := by
  constructor
  · intro h
    induction h with
    | nil => rfl
    | take h _ ih => rw [List.filterMap_cons_some (request_eq_some_iff.mpr h), ih]
    | skip h _ ih =>
      have hnone : request _ = none :=
        Option.eq_none_iff_forall_ne_some.mpr fun r hr => h r (request_eq_some_iff.mp hr)
      rw [List.filterMap_cons_none hnone, ih]
  · rintro rfl
    induction js with
    | nil => exact .nil
    | cons j js ih =>
      cases hj : request j with
      | none =>
        rw [List.filterMap_cons_none hj]
        refine .skip (fun r hr => ?_) ih
        rw [request_eq_some_iff.mpr hr] at hj
        cases hj
      | some r =>
        rw [List.filterMap_cons_some hj]
        exact .take (request_eq_some_iff.mp hj) ih

/-- **What an inventory request asks for.**  For every message whose content has an array for its
first `products` member, up to case, the handler builds one list, and it is the pairs of the
elements of the array. -/
theorem productRequests_iff (heap : Cells Message) (a : ℕ) (m : Message) (content : Node)
    (elements : List Node) (h : heap.value? a = some m) (hc : m.content = some content)
    (hp : FirstMember productsKey content (.array elements)) :
    ∃ productRequests heap', ProcessReceivedInventoryRequest heap a
        = .ok (some productRequests, heap') ∧
      ∀ rs, Requests elements rs ↔ rs = productRequests := by
  obtain ⟨heap', hrelease, -⟩ := Cells.release_of_value h
  have hproducts : products m = some elements := by
    unfold products
    rw [hc, Option.bind_some, getObjectItem_eq_some_iff.mpr hp]
  have hloop : elements.foldl addProductRequest [] = elements.filterMap request :=
    products_loop [] elements
  refine ⟨elements.filterMap request, heap', ?_, fun rs => requests_iff⟩
  rw [ProcessReceivedInventoryRequest_eq h, hproducts, hrelease, Option.map_some, hloop]
  rfl

/-- a number, a request with a doubled `id` in capitals, an element without quantity -/
def sampleElements : List Node :=
  [.number (Binary64.ofInt 4),
    .object [(.lit ['I', 'D'], .number (Binary64.ofInt 7)), (idKey, .null),
      (quantityKey, .number (Binary64.ofInt 2))],
    .object [(idKey, .number (Binary64.ofInt 9))]]

/-- the hypotheses can be met: among the elements there is one request -/
theorem productRequests_iff_sample :
    ∃ productRequests heap', ProcessReceivedInventoryRequest
        ⟨[.live ⟨1, INVENTORY, 0, some (.object [(productsKey, .array sampleElements)])⟩]⟩ 0
        = .ok (some productRequests, heap') ∧
      ∀ rs, Requests sampleElements rs ↔ rs = productRequests :=
  productRequests_iff
    ⟨[.live ⟨1, INVENTORY, 0, some (.object [(productsKey, .array sampleElements)])⟩]⟩ 0 _ _
    sampleElements rfl rfl ⟨[], productsKey, [], rfl, by decide, fun _ h => nomatch h⟩

end MessageDispatcher

end Hub
