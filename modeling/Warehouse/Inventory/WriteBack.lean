import Warehouse.Inventory.Pointers

/-!
# Writing an inventory back

* `view_step`            seen through the pointers, every call that returns is the call on values;
* `WritesBack`           what reading, editing and writing back should do;
* `update_own_pointer`   the update of a client with its own pointer reads a deleted tree;
* `never_writes_back`    in every reachable store.
-/

namespace Hub
open Machine Text Numeric CJSON

namespace InventoryStore

section
variable {s s' : InventoryStore} {c : ℤ}

/-! ## the store seen through the pointers -/

/-- the trees of the clients -/
def trees (heap : Cells Node) (clients : SortedMap ℤ (Option ℕ)) : SortedMap ℤ (Option Node) :=
  clients.mapValues fun p => p.bind heap.value?

/-- stored trees that have the same value in two heaps -/
theorem trees_congr {heap heap' : Cells Node} {clients : SortedMap ℤ (Option ℕ)}
    (h : ∀ x p, clients.find? x = some (some p) → heap'.value? p = heap.value? p) :
    trees heap' clients = trees heap clients :=
  SortedMap.mapValues_congr fun x p hx => by
    cases p with
    | none => rfl
    | some p => exact h x p hx

theorem trees_place {heap : Cells Node} {clients : SortedMap ℤ (Option ℕ)}
    (h : Owned heap (clients.erase c)) (tree : Option Node) :
    trees (place heap tree).2 (clients.insert c (place heap tree).1)
      = (trees heap clients).insert c tree := by
  have hnew : (place heap tree).1.bind (place heap tree).2.value? = tree := by
    cases tree with
    | none => rfl
    | some tree => exact Cells.value?_next_alloc heap tree
  have hold : trees (place heap tree).2 (clients.erase c) = trees heap (clients.erase c) := by
    refine trees_congr fun x p hx => ?_
    obtain ⟨t, ht⟩ := h.live x p hx
    rw [value?_place ht, ht]
  unfold trees at hold ⊢
  rw [← SortedMap.insert_erase, SortedMap.mapValues_insert, hold, hnew, SortedMap.mapValues_erase,
    SortedMap.insert_erase]

/-- the release of a tree that is not stored -/
theorem trees_release {heap heap' : Cells Node} {clients : SortedMap ℤ (Option ℕ)} {p : ℕ}
    (hp : ∀ x, clients.find? x ≠ some (some p)) (hr : heap.release p = .ok heap') :
    trees heap' clients = trees heap clients := by
  refine trees_congr fun x p' hx => ?_
  rw [Cells.value?_release hr, if_neg]
  rintro rfl
  exact hp x hx

theorem trees_delete {heap heap' : Cells Node} {clients : SortedMap ℤ (Option ℕ)}
    (h : Owned heap clients) (hr : delete heap (clients.find? c).join = .ok heap') :
    trees heap' (clients.erase c) = (trees heap clients).erase c := by
  have herase : trees heap (clients.erase c) = (trees heap clients).erase c :=
    SortedMap.mapValues_erase _ clients c
  rw [← herase]
  cases hc : (clients.find? c).join with
  | none =>
    rw [hc] at hr
    cases hr
    rfl
  | some p =>
    rw [hc] at hr
    refine trees_release (fun x hx => ?_) hr
    obtain ⟨hxc, hx⟩ := SortedMap.find?_erase_some hx
    exact hxc (h.apart x c p hx (Option.join_eq_some_iff.mp hc))

/-- the loops over the numbers are those on values -/
theorem view_changeStock (s : InventoryStore)
    {change : InventoryManager → ℤ → ℤ → Bool × InventoryManager}
    (hchange : ∀ m i q, (change m i q).2.clientInventories = m.clientInventories)
    (tree : Option Node) : (changeStock s change tree).1.view
      = (InventoryManager.forNumbers change s.view (children tree)).1 := by
  have hclients := InventoryManager.clientInventories_forNumbers hchange s.view (children tree)
  show InventoryManager.mk _ s.view.clientInventories = _
  rw [← hclients]
  rfl

/-- what a call does to the trees and the stock -/
def viewStep (s : InventoryStore) : PointerOp → InventoryManager
  | .addClient c p => s.view.step (.addClient c (p.bind s.heap.value?))
  | .removeClient c => s.view.step (.removeClient c)
  | .updateClientInventory c p =>
    s.view.step (.updateClientInventory c (p.bind s.heap.value?))
  | .increaseStock i q => s.view.step (.increaseStock i q)
  | .decreaseStock i q => s.view.step (.decreaseStock i q)
  | .make _ => s.view
  | .edit p tree =>
    ⟨s.globalInventory, s.clientInventories.mapValues fun q =>
      if q = some p then some tree else q.bind s.heap.value?⟩
  | .delete _ => s.view

theorem find?_view (s : InventoryStore) (c : ℤ) : s.view.clientInventories.find? c
    = (s.clientInventories.find? c).map fun p => p.bind s.heap.value? :=
  SortedMap.find?_mapValues ..

theorem view_addClient {p : Option ℕ} {thrown : Option StoiError} (h : s.Owns)
    (hcall : s.addClient c p = .ok (s', thrown)) :
    s'.view = (s.view.addClient c (p.bind s.heap.value?)).1 := by
  have hfind := find?_view s c
  rcases addClient_ok hcall with ⟨hc, rfl⟩ | ⟨hc, rfl⟩
  · obtain ⟨q, hq⟩ := SortedMap.contains_eq_true.mp hc
    rw [hq, Option.map_some] at hfind
    rw [InventoryManager.addClient_of_present hfind]
  · rw [SortedMap.contains_eq_false.mp hc, Option.map_none] at hfind
    have hplace := trees_place (owned_erase h c)
      ((p.bind s.heap.value?).elim (some (.object [])) Node.duplicate)
    rw [view_changeStock _ InventoryManager.clientInventories_increaseStock,
      InventoryManager.addClient_of_absent hfind]
    unfold view InventoryManager.putClient
    exact congrArg (fun clients => (InventoryManager.forNumbers InventoryManager.increaseStock
      ⟨s.globalInventory, clients⟩ (children (p.bind s.heap.value?))).1) hplace

theorem view_removeClient {thrown : Option StoiError} (h : s.Owns)
    (hcall : s.removeClient c = .ok (s', thrown)) : s'.view = (s.view.removeClient c).1 := by
  have hfind := find?_view s c
  have hstock : ∀ tree, (changeStock s InventoryManager.decreaseStock tree).1.view
      = (InventoryManager.forNumbers InventoryManager.decreaseStock s.view (children tree)).1 :=
    view_changeStock s InventoryManager.clientInventories_decreaseStock
  rcases removeClient_ok hcall with ⟨hc, rfl⟩ | ⟨p, hc, ⟨hthrown, rfl⟩ | ⟨hnone, heap, hdelete, rfl⟩⟩
  · rw [hc, Option.map_none] at hfind
    rw [InventoryManager.removeClient_of_absent hfind]
  · rw [hc, Option.map_some] at hfind
    rw [InventoryManager.removeClient_of_present hfind, hstock]
    exact (if_neg hthrown).symm
  · rw [hc, Option.map_some] at hfind
    have hjoin : (s.clientInventories.find? c).join = p := by rw [hc, Option.join_some]
    rw [InventoryManager.removeClient_of_present hfind]
    refine Eq.trans ?_ (if_pos hnone).symm
    exact congrArg (InventoryManager.mk _) (trees_delete h (hjoin ▸ hdelete))

/-- what is there after a deletion was there before -/
theorem value?_of_delete {heap heap' : Cells Node} {p : Option ℕ} {q : ℕ} {tree : Node}
    (hr : delete heap p = .ok heap') (h : heap'.value? q = some tree) :
    heap.value? q = some tree := by
  cases p with
  | none =>
    cases hr
    exact h
  | some old =>
    rw [Cells.value?_release hr] at h
    split_ifs at h
    exact h

theorem view_updateClientInventory {p : Option ℕ} (h : s.Owns)
    (hcall : s.updateClientInventory c p = .ok s') :
    s'.view = s.view.updateClientInventory c (p.bind s.heap.value?) := by
  rcases updateClientInventory_ok hcall with ⟨rfl, rfl⟩ | ⟨q, heap, tree, rfl, hdelete, htree, rfl⟩
  · rfl
  · have hplace := trees_place (owned_delete h hdelete) tree.duplicate
    have hrest : (trees heap s.clientInventories).erase c = s.view.clientInventories.erase c :=
      (SortedMap.mapValues_erase _ s.clientInventories c).symm.trans (trees_delete h hdelete)
    rw [Option.bind_some, value?_of_delete hdelete htree]
    show InventoryManager.mk s.globalInventory (trees _ _) = InventoryManager.mk s.globalInventory _
    rw [hplace, ← SortedMap.insert_erase, hrest, SortedMap.insert_erase]

/-- **Refinement.**  A call that ends without a fault does to the trees what the call on values
does. -/
theorem view_step {op : PointerOp} (h : s.Owns) (hop : s.Legal op) (hs : s.step op = .ok s') :
    s'.view = s.viewStep op := by
  cases op with
  | addClient c p =>
    obtain ⟨⟨s1, thrown⟩, hcall, rfl⟩ := map_eq_ok hs
    exact view_addClient h hcall
  | removeClient c =>
    obtain ⟨⟨s1, thrown⟩, hcall, rfl⟩ := map_eq_ok hs
    exact view_removeClient h hcall
  | updateClientInventory c p => exact view_updateClientInventory h hs
  | increaseStock i q =>
    cases hs
    show InventoryManager.mk _ s.view.clientInventories = _
    rw [← InventoryManager.clientInventories_increaseStock s.view i q]
    rfl
  | decreaseStock i q =>
    cases hs
    show InventoryManager.mk _ s.view.clientInventories = _
    rw [← InventoryManager.clientInventories_decreaseStock s.view i q]
    rfl
  | make tree =>
    cases hs
    refine congrArg (InventoryManager.mk _) (trees_congr fun x p hx => ?_)
    obtain ⟨t, ht⟩ := h.live x p hx
    exact (value?_place ht (some tree)).trans ht.symm
  | edit p tree =>
    obtain ⟨heap, hw, rfl⟩ := map_eq_ok hs
    refine congrArg (InventoryManager.mk _) (SortedMap.mapValues_congr fun x q _ => ?_)
    cases q with
    | none => rfl
    | some q =>
      show heap.value? q = _
      rw [Cells.value?_write hw]
      simp only [Option.some.injEq, Option.bind_some]
  | delete p =>
    obtain ⟨heap, hr, rfl⟩ := map_eq_ok hs
    exact congrArg (InventoryManager.mk _) (trees_release hop hr)

/-! ## read, edit, write back -/

/-- The update of a client with the pointer `p`: it returns, the client has the tree that `p` stood
for, and the other clients and the stock are what they were. -/
def WritesBack (s : InventoryStore) (c : ℤ) (p : ℕ) : Prop :=
  ∃ s', s.updateClientInventory c (some p) = .ok s' ∧
    s'.view.getClientInventory c = s.heap.value? p ∧
    (∀ c', c' ≠ c → s'.view.clientInventories.find? c' = s.view.clientInventories.find? c') ∧
    s'.globalInventory = s.globalInventory

/-- the tree is deleted before it is duplicated -/
theorem update_own_pointer {p : ℕ} {tree : Node} (hp : s.getClientInventory c = some p)
    (ht : s.heap.value? p = some tree) :
    s.updateClientInventory c (some p) = .error (.read p) := by
  obtain ⟨heap, hrelease, hreleased⟩ := Cells.release_of_value ht
  have hdelete : delete s.heap (s.getClientInventory c) = .ok heap := by
    rw [hp]
    exact hrelease
  have hdup : duplicate heap p = .error (.read p) := by
    unfold duplicate
    rw [Cells.read_of_released hreleased]
    rfl
  show (delete s.heap (s.getClientInventory c)).bind _ = _
  rw [hdelete]
  show (duplicate heap p).bind _ = _
  rw [hdup]
  rfl

/-- **Writing back never works.**  In every reachable store, and for every client with an inventory:
the update with the pointer that `getClientInventory` returned reads the tree after its deletion,
whatever was edited through the pointer before. -/
theorem never_writes_back (s : InventoryStore) (c : ℤ) (p : ℕ) (h : s.Reachable)
    (hp : s.getClientInventory c = some p) :
    s.updateClientInventory c (some p) = .error (.read p) ∧ ¬ s.WritesBack c p := by
  obtain ⟨tree, htree⟩ := h.owns.live c p (Option.join_eq_some_iff.mp hp)
  have hfault := update_own_pointer hp htree
  refine ⟨hfault, ?_⟩
  rintro ⟨s', hs', -⟩
  rw [hfault] at hs'
  cases hs'

end

/-- a client that was added without an inventory -/
def oneClient : InventoryStore :=
  ⟨⟨[.live (.object [])]⟩, [], SortedMap.empty.insert 1 (some 0)⟩

theorem reachable_oneClient : oneClient.Reachable :=
  @Reachable.step init oneClient (.addClient 1 none) .init trivial rfl

theorem never_writes_back_oneClient :
    oneClient.updateClientInventory 1 (some 0) = .error (.read 0) ∧ ¬ oneClient.WritesBack 1 0 :=
  never_writes_back oneClient 1 0 reachable_oneClient rfl

/-- The inventory of a new client is written back as it is: the call reads a deleted tree. -/
theorem write_back_faults :
    ¬ ∀ (s : InventoryStore) (c : ℤ) (p : ℕ), s.Reachable → s.getClientInventory c = some p →
      s.WritesBack c p := by
  intro h
  obtain ⟨tree, htree⟩ := reachable_oneClient.owns.live 1 0 rfl
  obtain ⟨s', hs', -⟩ := h oneClient 1 0 reachable_oneClient rfl
  rw [update_own_pointer rfl htree] at hs'
  cases hs'

end InventoryStore

end Hub
