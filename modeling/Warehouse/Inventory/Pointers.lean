import Warehouse.Inventory.Model
import Warehouse.Machine.Cells

/-!
# The inventories as pointers

`InventoryManager` once more, with the trees of the clients in cells: what a caller hands in and
what `getClientInventory` hands out are addresses.  Callers make trees of their own, edit any tree
in place, and delete their own.

* `InventoryStore`, `PointerOp`, `step`   the code on cells, and the calls on it;
* `Owned`                the stored trees are live, and each belongs to one client;
* `addClient_ok` ..      what a call that returns has done;
* `Reachable.owns`       every store that calls lead to owns its trees.
-/

namespace Hub
open Machine Text Numeric CJSON

structure InventoryStore where
  heap : Cells Node
  globalInventory : List (CString × Binary64)
  clientInventories : SortedMap ℤ (Option ℕ)

namespace InventoryStore

/-- the trees behind the pointers -/
def view (s : InventoryStore) : InventoryManager :=
  ⟨s.globalInventory, s.clientInventories.mapValues fun p => p.bind s.heap.value?⟩

/-! ## the code -/

def init : InventoryStore := ⟨⟨[]⟩, [], SortedMap.empty⟩

/-- a tree gets a new cell; the pointer is null where there is no tree -/
def place (heap : Cells Node) : Option Node → Option ℕ × Cells Node
  | none => (none, heap)
  | some tree => (some heap.next, heap.alloc tree)

/-- `cJSON_Duplicate` -/
def duplicate (heap : Cells Node) (p : ℕ) : Except Fault (Option ℕ × Cells Node) := do
  let tree ← heap.read p
  pure (place heap tree.duplicate)

/-- `if (p) cJSON_Delete(p)` -/
def delete (heap : Cells Node) : Option ℕ → Except Fault (Cells Node)
  | none => pure heap
  | some p => heap.release p

/-- the tree behind a pointer that may be null -/
def readTree (heap : Cells Node) : Option ℕ → Except Fault (Option Node)
  | none => pure none
  | some p => (heap.read p).map some

/-- the loops over the numbers of a tree write to the global object only -/
def changeStock (s : InventoryStore)
    (change : InventoryManager → ℤ → ℤ → Bool × InventoryManager) (tree : Option Node) :
    InventoryStore × Option StoiError :=
  let (stock, thrown) := InventoryManager.forNumbers change s.view (children tree)
  ({ s with globalInventory := stock.globalInventory }, thrown)

def addClient (s : InventoryStore) (clientID : ℤ) (initialInventory : Option ℕ) :
    Except Fault (InventoryStore × Option StoiError) := do
  if s.clientInventories.contains clientID then pure (s, none)
  else
    match initialInventory with
    | none =>
      let (stored, heap) := place s.heap (some (.object []))
      pure ({ s with
        heap, clientInventories := s.clientInventories.insert clientID stored }, none)
    | some p =>
      let (stored, heap) ← duplicate s.heap p
      let tree ← readTree heap (some p)
      pure (changeStock { s with
        heap, clientInventories := s.clientInventories.insert clientID stored }
          InventoryManager.increaseStock tree)

def removeClient (s : InventoryStore) (clientID : ℤ) :
    Except Fault (InventoryStore × Option StoiError) := do
  match s.clientInventories.find? clientID with
  | none => pure (s, none)
  | some clientInventory =>
    let tree ← readTree s.heap clientInventory
    match changeStock s InventoryManager.decreaseStock tree with
    | (s, some e) => pure (s, some e)
    | (s, none) =>
      let heap ← delete s.heap clientInventory
      pure ({ s with heap, clientInventories := s.clientInventories.erase clientID }, none)

def getClientInventory (s : InventoryStore) (clientID : ℤ) : Option ℕ :=
  (s.clientInventories.find? clientID).join

def updateClientInventory (s : InventoryStore) (clientID : ℤ) (clientInventory : Option ℕ) :
    Except Fault InventoryStore := do
  match clientInventory with
  | none => pure s
  | some p =>
    let heap ← delete s.heap (s.getClientInventory clientID)
    let (stored, heap) ← duplicate heap p
    pure { s with heap, clientInventories := s.clientInventories.insert clientID stored }

end InventoryStore

/-! ## runs -/

inductive PointerOp
  | addClient (clientID : ℤ) (initialInventory : Option ℕ)
  | removeClient (clientID : ℤ)
  | updateClientInventory (clientID : ℤ) (clientInventory : Option ℕ)
  | increaseStock (itemID quantity : ℤ)
  | decreaseStock (itemID quantity : ℤ)
  -- a caller makes a tree, edits one through a pointer, and deletes one of its own
  | make (tree : Node)
  | edit (p : ℕ) (tree : Node)
  | delete (p : ℕ)

namespace InventoryStore

/-- the store after a call, whether it returned or threw -/
def step (s : InventoryStore) : PointerOp → Except Fault InventoryStore
  | .addClient c p => (s.addClient c p).map Prod.fst
  | .removeClient c => (s.removeClient c).map Prod.fst
  | .updateClientInventory c p => s.updateClientInventory c p
  | .increaseStock i q =>
    .ok { s with globalInventory := (s.view.increaseStock i q).2.globalInventory }
  | .decreaseStock i q =>
    .ok { s with globalInventory := (s.view.decreaseStock i q).2.globalInventory }
  | .make tree => .ok { s with heap := s.heap.alloc tree }
  | .edit p tree => (s.heap.write p tree).map fun heap => { s with heap }
  | .delete p => (s.heap.release p).map fun heap => { s with heap }

/-- what a caller deletes is not a stored tree -/
def Legal (s : InventoryStore) : PointerOp → Prop
  | .delete p => ∀ c, s.clientInventories.find? c ≠ some (some p)
  | _ => True

/-- reached from the empty store by calls that all ended without a fault -/
inductive Reachable : InventoryStore → Prop
  | init : Reachable init
  | step {s s' : InventoryStore} {op : PointerOp} (h : Reachable s) (hop : s.Legal op)
      (hstep : s.step op = .ok s') : Reachable s'

/-! ## ownership -/

/-- the stored trees are live, and each belongs to one client -/
structure Owned (heap : Cells Node) (clients : SortedMap ℤ (Option ℕ)) : Prop where
  live : ∀ c p, clients.find? c = some (some p) → ∃ tree, heap.value? p = some tree
  apart : ∀ c c' p, clients.find? c = some (some p) → clients.find? c' = some (some p) → c = c'

section
variable {heap heap' : Cells Node} {clients : SortedMap ℤ (Option ℕ)} {c : ℤ} {p : ℕ}

theorem owned_erase (h : Owned heap clients) (c : ℤ) : Owned heap (clients.erase c) where
  live := fun x p hx => h.live x p (SortedMap.find?_erase_some hx).2
  apart := fun x x' p hx hx' =>
    h.apart x x' p (SortedMap.find?_erase_some hx).2 (SortedMap.find?_erase_some hx').2

/-- trees that stay -/
theorem owned_of_value (h : Owned heap clients)
    (hvalue : ∀ x p, clients.find? x = some (some p) → ∀ tree, heap.value? p = some tree →
      ∃ tree', heap'.value? p = some tree') : Owned heap' clients where
  live := fun x p hx => by
    obtain ⟨tree, htree⟩ := h.live x p hx
    exact hvalue x p hx tree htree
  apart := h.apart

theorem owned_alloc (h : Owned heap clients) (tree : Node) : Owned (heap.alloc tree) clients := by
  refine owned_of_value h fun x p _ t ht => ?_
  rw [Cells.value?_alloc]
  split_ifs
  · exact ⟨tree, rfl⟩
  · exact ⟨t, ht⟩

theorem owned_write {tree : Node} (h : Owned heap clients) (hw : heap.write p tree = .ok heap') :
    Owned heap' clients := by
  refine owned_of_value h fun x p' _ t ht => ?_
  rw [Cells.value?_write hw]
  split_ifs
  · exact ⟨tree, rfl⟩
  · exact ⟨t, ht⟩

/-- the release of a tree that is not stored -/
theorem owned_release (h : Owned heap clients) (hp : ∀ x, clients.find? x ≠ some (some p))
    (hr : heap.release p = .ok heap') : Owned heap' clients := by
  refine owned_of_value h fun x p' hx t ht => ?_
  rw [Cells.value?_release hr, if_neg]
  · exact ⟨t, ht⟩
  · rintro rfl
    exact hp x hx

/-- the tree of a client is deleted, and the other clients have theirs -/
theorem owned_delete (h : Owned heap clients)
    (hr : delete heap (clients.find? c).join = .ok heap') : Owned heap' (clients.erase c) := by
  cases hc : (clients.find? c).join with
  | none =>
    rw [hc] at hr
    cases hr
    exact owned_erase h c
  | some p =>
    rw [hc] at hr
    refine owned_release (owned_erase h c) (fun x hx => ?_) hr
    obtain ⟨hxc, hx⟩ := SortedMap.find?_erase_some hx
    exact hxc (h.apart x c p hx (Option.join_eq_some_iff.mp hc))

/-- a new tree for a client, or none -/
theorem owned_place (h : Owned heap (clients.erase c)) (tree : Option Node) :
    Owned (place heap tree).2 (clients.insert c (place heap tree).1) := by
  have hfind : ∀ {v : Option ℕ} {x : ℤ} {p : ℕ}, x ≠ c →
      (clients.insert c v).find? x = some (some p) → (clients.erase c).find? x = some (some p) := by
    intro v x p hx hfind
    rw [SortedMap.find?_insert_of_ne _ _ hx] at hfind
    rw [SortedMap.find?_erase_of_ne _ hx, hfind]
  cases tree with
  | none =>
    have hother : ∀ {x : ℤ} {p : ℕ}, (clients.insert c none).find? x = some (some p) → x ≠ c := by
      rintro x p hx rfl
      rw [SortedMap.find?_insert_self] at hx
      cases hx
    constructor
    · exact fun x p hx => h.live x p (hfind (hother hx) hx)
    · exact fun x x' p hx hx' =>
        h.apart x x' p (hfind (hother hx) hx) (hfind (hother hx') hx')
  | some tree =>
    -- the new cell is none of the old ones
    have hnew : ∀ {x : ℤ}, x ≠ c →
        (clients.insert c (some heap.next)).find? x ≠ some (some heap.next) := by
      intro x hx hnext
      obtain ⟨t, ht⟩ := h.live x heap.next (hfind hx hnext)
      rw [Cells.value?_next] at ht
      cases ht
    show Owned (heap.alloc tree) (clients.insert c (some heap.next))
    constructor
    · intro x p hx
      by_cases hxc : x = c
      · rw [hxc, SortedMap.find?_insert_self] at hx
        cases hx
        exact ⟨tree, Cells.value?_next_alloc ..⟩
      · exact (owned_alloc h tree).live x p (hfind hxc hx)
    · intro x x' p hx hx'
      by_cases hxc : x = c <;> by_cases hxc' : x' = c
      · rw [hxc, hxc']
      · rw [hxc, SortedMap.find?_insert_self] at hx
        cases hx
        exact absurd hx' (hnew hxc')
      · rw [hxc', SortedMap.find?_insert_self] at hx'
        cases hx'
        exact absurd hx (hnew hxc)
      · exact h.apart x x' p (hfind hxc hx) (hfind hxc' hx')

end

/-! ## the calls that return -/

section
variable {s s' : InventoryStore} {c : ℤ} {thrown : Option StoiError}

theorem duplicate_ok {heap : Cells Node} {p : ℕ} {r : Option ℕ × Cells Node}
    (h : duplicate heap p = .ok r) :
    ∃ tree, heap.value? p = some tree ∧ r = place heap tree.duplicate := by
  obtain ⟨tree, htree, hr⟩ := bind_eq_ok h
  exact ⟨tree, Cells.live_of_read htree, (Except.ok.inj hr).symm⟩

theorem readTree_ok {heap : Cells Node} {p : Option ℕ} {tree : Option Node}
    (h : readTree heap p = .ok tree) : tree = p.bind heap.value? := by
  cases p with
  | none => exact (Except.ok.inj h).symm
  | some p =>
    obtain ⟨t, ht, rfl⟩ := map_eq_ok h
    exact (Cells.live_of_read ht).symm

/-- `updateClientInventory` that returns: what it stores is read after the deletion -/
theorem updateClientInventory_ok {p : Option ℕ} (h : s.updateClientInventory c p = .ok s') :
    (p = none ∧ s' = s) ∨
    ∃ q heap tree, p = some q ∧ delete s.heap (s.getClientInventory c) = .ok heap ∧
      heap.value? q = some tree ∧
      s' = { s with
        heap := (place heap tree.duplicate).2
        clientInventories := s.clientInventories.insert c (place heap tree.duplicate).1 } := by
  cases p with
  | none => exact Or.inl ⟨rfl, (Except.ok.inj h).symm⟩
  | some q =>
    obtain ⟨heap, hdelete, h⟩ := bind_eq_ok h
    obtain ⟨r, hdup, h⟩ := bind_eq_ok h
    obtain ⟨tree, htree, rfl⟩ := duplicate_ok hdup
    exact Or.inr ⟨q, heap, tree, rfl, hdelete, htree, (Except.ok.inj h).symm⟩

/-- the old trees stay -/
theorem value?_place {heap : Cells Node} {p : ℕ} {t : Node} (h : heap.value? p = some t)
    (tree : Option Node) : (place heap tree).2.value? p = some t := by
  cases tree with
  | none => exact h
  | some tree =>
    show (heap.alloc tree).value? p = some t
    rw [Cells.value?_alloc, if_neg, h]
    rintro rfl
    rw [Cells.value?_next] at h
    cases h

/-- `addClient` that returns or throws -/
theorem addClient_ok {p : Option ℕ} (h : s.addClient c p = .ok (s', thrown)) :
    (s.clientInventories.contains c = true ∧ s' = s) ∨
    s.clientInventories.contains c = false ∧
      (changeStock { s with
        heap := (place s.heap ((p.bind s.heap.value?).elim (some (.object [])) Node.duplicate)).2
        clientInventories := s.clientInventories.insert c
          (place s.heap ((p.bind s.heap.value?).elim (some (.object [])) Node.duplicate)).1 }
        InventoryManager.increaseStock (p.bind s.heap.value?)).1 = s' := by
  unfold addClient at h
  cases hc : s.clientInventories.contains c with
  | true =>
    rw [hc, if_pos rfl] at h
    cases h
    exact Or.inl ⟨rfl, rfl⟩
  | false =>
    rw [hc, if_neg Bool.false_ne_true] at h
    refine Or.inr ⟨rfl, ?_⟩
    cases p with
    | none =>
      cases h
      rfl
    | some p =>
      obtain ⟨r, hdup, h⟩ := bind_eq_ok h
      obtain ⟨t, ht, rfl⟩ := duplicate_ok hdup
      obtain ⟨tree, htree, h⟩ := bind_eq_ok h
      have hagain : tree = some t := (readTree_ok htree).trans (value?_place ht _)
      rw [Option.bind_some, ht, ← hagain]
      have hresult := Except.ok.inj h
      rw [hagain] at hresult ⊢
      exact congrArg Prod.fst hresult

/-- `removeClient` that returns or throws -/
theorem removeClient_ok (h : s.removeClient c = .ok (s', thrown)) :
    (s.clientInventories.find? c = none ∧ s' = s) ∨
    ∃ p, s.clientInventories.find? c = some p ∧
      let taken := changeStock s InventoryManager.decreaseStock (p.bind s.heap.value?)
      ((taken.2 ≠ none ∧ s' = taken.1) ∨ taken.2 = none ∧ ∃ heap, delete s.heap p = .ok heap ∧
        s' = { taken.1 with heap, clientInventories := s.clientInventories.erase c }) := by
  unfold removeClient at h
  cases hc : s.clientInventories.find? c with
  | none =>
    rw [hc] at h
    cases h
    exact Or.inl ⟨rfl, rfl⟩
  | some p =>
    rw [hc] at h
    refine Or.inr ⟨p, rfl, ?_⟩
    obtain ⟨tree, htree, h⟩ := bind_eq_ok h
    rw [readTree_ok htree] at h
    dsimp only
    have hkeep : (changeStock s InventoryManager.decreaseStock (p.bind s.heap.value?)).1.heap
          = s.heap ∧
        (changeStock s InventoryManager.decreaseStock (p.bind s.heap.value?)).1.clientInventories
          = s.clientInventories := ⟨rfl, rfl⟩
    generalize changeStock s InventoryManager.decreaseStock (p.bind s.heap.value?) = r at h hkeep ⊢
    obtain ⟨s1, e⟩ := r
    cases e with
    | some e =>
      cases h
      exact Or.inl ⟨Option.some_ne_none e, rfl⟩
    | none =>
      obtain ⟨heap, hdelete, h⟩ := bind_eq_ok h
      dsimp only at hkeep
      rw [hkeep.1] at hdelete
      refine Or.inr ⟨rfl, heap, hdelete, ?_⟩
      rw [← hkeep.2]
      exact (congrArg Prod.fst (Except.ok.inj h)).symm

/-! ## every run -/

/-- the invariant of the store -/
def Owns (s : InventoryStore) : Prop := Owned s.heap s.clientInventories

/-- a call that returns keeps the ownership -/
theorem owns_step {op : PointerOp} (h : s.Owns) (hop : s.Legal op) (hs : s.step op = .ok s') :
    s'.Owns := by
  cases op with
  | addClient c p =>
    obtain ⟨⟨s1, thrown⟩, hcall, rfl⟩ := map_eq_ok hs
    rcases addClient_ok hcall with ⟨-, rfl⟩ | ⟨-, rfl⟩
    · exact h
    · exact owned_place (owned_erase h c) _
  | removeClient c =>
    obtain ⟨⟨s1, thrown⟩, hcall, rfl⟩ := map_eq_ok hs
    rcases removeClient_ok hcall with ⟨-, rfl⟩ | ⟨p, hc, ⟨-, rfl⟩ | ⟨-, heap, hdelete, rfl⟩⟩
    · exact h
    · exact h
    · have hjoin : (s.clientInventories.find? c).join = p := by rw [hc, Option.join_some]
      exact owned_delete h (hjoin ▸ hdelete)
  | updateClientInventory c p =>
    rcases updateClientInventory_ok hs with ⟨-, rfl⟩ | ⟨q, heap, tree, -, hdelete, -, rfl⟩
    · exact h
    · exact owned_place (owned_delete h hdelete) _
  | increaseStock i q =>
    cases hs
    exact h
  | decreaseStock i q =>
    cases hs
    exact h
  | make tree =>
    cases hs
    exact owned_alloc h tree
  | edit p tree =>
    obtain ⟨heap, hw, rfl⟩ := map_eq_ok hs
    exact owned_write h hw
  | delete p =>
    obtain ⟨heap, hr, rfl⟩ := map_eq_ok hs
    exact owned_release h hop hr

theorem Reachable.owns (h : s.Reachable) : s.Owns := by
  induction h with
  | init => exact Owned.mk (fun c p hc => nomatch hc) (fun c c' p hc _ => nomatch hc)
  | step _ hop hs ih => exact owns_step ih hop hs

end

end InventoryStore

end Hub
