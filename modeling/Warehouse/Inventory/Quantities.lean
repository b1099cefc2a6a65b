import Warehouse.Inventory.Model

/-!
# What an inventory adds to the stock

The number-valued children of an inventory name items by any spelling that `std::stoi` accepts, and
an item may be named several times.  Quantities that are not positive do not count.

* `Readable`             every number has a key that is accepted;
* `heldIn`, `held`       the quantity an inventory holds of an item;
* `forNumbers_readable`  the loop over a readable inventory moves every level by what it holds.
-/

namespace Hub
open Machine Text Numeric CJSON

namespace InventoryManager

/-- every number among the children has a key that `std::stoi` accepts -/
def Readable (items : List (Option CString × Node)) : Prop :=
  ∀ name d, (name, Node.number d) ∈ items → ∃ key itemID, name = some key ∧ stoi key.bytes = .ok itemID

/-- what a child adds to the stock of an item -/
def heldOf (i : ℤ) : Option CString × Node → ℤ
  | (some key, .number d) =>
    match stoi key.bytes with
    | .ok itemID => if i = itemID then max (castInt d) 0 else 0
    | .error _ => 0
  | _ => 0

def heldIn (i : ℤ) (items : List (Option CString × Node)) : ℤ := (items.map (heldOf i)).sum

/-- what an inventory holds of an item -/
def held (i : ℤ) (inventory : Option Node) : ℤ := heldIn i (children inventory)

variable {items : List (Option CString × Node)} {e : Option CString × Node}

theorem Readable.tail (h : Readable (e :: items)) : Readable items := fun name d hmem =>
  h name d (List.mem_cons_of_mem _ hmem)

theorem heldIn_cons (i : ℤ) (e : Option CString × Node) (items : List (Option CString × Node)) :
    heldIn i (e :: items) = heldOf i e + heldIn i items := by
  rw [heldIn, List.map_cons, List.sum_cons, heldIn]

theorem heldOf_nonneg (i : ℤ) (e : Option CString × Node) : 0 ≤ heldOf i e := by
  unfold heldOf
  split
  · split
    · split_ifs
      · exact le_max_right ..
      · exact le_rfl
    · exact le_rfl
  · exact le_rfl

theorem heldIn_nonneg (i : ℤ) (items : List (Option CString × Node)) : 0 ≤ heldIn i items :=
  List.sum_nonneg fun x hx => by
    obtain ⟨e, -, rfl⟩ := List.mem_map.mp hx
    exact heldOf_nonneg i e

theorem held_nonneg (i : ℤ) (inventory : Option Node) : 0 ≤ held i inventory :=
  heldIn_nonneg i (children inventory)

theorem heldOf_number {key : CString} {itemID : ℤ} (h : stoi key.bytes = .ok itemID) (i : ℤ)
    (d : Binary64) :
    heldOf i (some key, .number d) = if i = itemID then max (castInt d) 0 else 0 := by
  unfold heldOf
  dsimp only
  rw [h]

/-- the loop passes over a child that is no number -/
theorem forNumbers_other {change : InventoryManager → ℤ → ℤ → Bool × InventoryManager}
    (m : InventoryManager) {name : Option CString} {j : Node} (h : ∀ d, j ≠ .number d) :
    forNumbers change m ((name, j) :: items) = forNumbers change m items := by
  cases j with
  | number d => exact absurd rfl (h d)
  | _ => rfl

theorem heldOf_other (i : ℤ) {name : Option CString} {j : Node} (h : ∀ d, j ≠ .number d) :
    heldOf i (name, j) = 0 := by
  unfold heldOf
  split
  · next key d he =>
    cases he
    exact absurd rfl (h d)
  · rfl

theorem forNumbers_number {change : InventoryManager → ℤ → ℤ → Bool × InventoryManager}
    (m : InventoryManager) {key : CString} {itemID : ℤ} (h : stoi key.bytes = .ok itemID)
    (d : Binary64) : forNumbers change m ((some key, .number d) :: items)
      = forNumbers change (change m itemID (castInt d)).2 items := by
  rw [forNumbers]
  simp only [h]

/-- one child, as long as the level it leads to is a level -/
theorem change_spec {change : InventoryManager → ℤ → ℤ → Bool × InventoryManager} {sign : ℤ}
    (hchange : Changes change sign) (hrefuse : Refuses change) {m : InventoryManager}
    (hok : m.LevelsOk) {i q : ℤ} (h0 : 0 ≤ m.getStockLevel i + sign * max q 0)
    (hmax : m.getStockLevel i + sign * max q 0 ≤ INT_MAX) :
    (change m i q).2.LevelsOk ∧ ∀ k, (change m i q).2.getStockLevel k
      = m.getStockLevel k + sign * if k = i then max q 0 else 0 := by
  by_cases hq : q ≤ 0
  · rw [hrefuse m i q hq, max_eq_right hq]
    refine ⟨hok, fun k => ?_⟩
    rw [ite_self, mul_zero, add_zero]
  · rw [max_eq_left (not_le.mp hq).le] at h0 hmax ⊢
    obtain ⟨hok', hlev⟩ := hchange m i q hok (not_le.mp hq) h0 hmax
    refine ⟨hok', fun k => ?_⟩
    rw [hlev k]
    split_ifs with hk
    · rw [hk]
    · rw [mul_zero, add_zero]

/-- The loop over a readable inventory moves every level by what the inventory holds, as long as the
result is a level. -/
theorem forNumbers_readable {change : InventoryManager → ℤ → ℤ → Bool × InventoryManager} {sign : ℤ}
    (hchange : Changes change sign) (hrefuse : Refuses change) (hsign : sign = 1 ∨ sign = -1)
    (hread : Readable items) {m : InventoryManager} (hok : m.LevelsOk)
    (hbound : ∀ i, 0 ≤ m.getStockLevel i + sign * heldIn i items ∧
      m.getStockLevel i + sign * heldIn i items ≤ INT_MAX) :
    (forNumbers change m items).2 = none ∧ (forNumbers change m items).1.LevelsOk ∧
    ∀ i, (forNumbers change m items).1.getStockLevel i
      = m.getStockLevel i + sign * heldIn i items := by
  induction items generalizing m with
  | nil =>
    refine ⟨rfl, hok, fun i => ?_⟩
    show m.getStockLevel i = m.getStockLevel i + sign * 0
    rw [mul_zero, add_zero]
  | cons e items ih =>
    obtain ⟨name, j⟩ := e
    by_cases hj : ∃ d, j = .number d
    · obtain ⟨d, rfl⟩ := hj
      obtain ⟨key, k, rfl, hkey⟩ := hread name d (List.mem_cons_self ..)
      -- the level in between lies between the first and the last one
      have hk := hbound k
      rw [heldIn_cons, heldOf_number hkey, if_pos rfl] at hk
      have hrest := heldIn_nonneg k items
      have hq : 0 ≤ max (castInt d) 0 := le_max_right ..
      have hlevel : 0 ≤ m.getStockLevel k := hok.nonneg k
      have hlevel' : m.getStockLevel k ≤ INT_MAX := hok.le_max k
      have hmid : 0 ≤ m.getStockLevel k + sign * max (castInt d) 0 ∧
          m.getStockLevel k + sign * max (castInt d) 0 ≤ INT_MAX := by
        rcases hsign with rfl | rfl <;> omega
      obtain ⟨hok', hlev⟩ := change_spec hchange hrefuse hok hmid.1 hmid.2
      have hsum : ∀ i, (change m k (castInt d)).2.getStockLevel i + sign * heldIn i items
          = m.getStockLevel i + sign * heldIn i ((some key, .number d) :: items) := by
        intro i
        rw [hlev i, heldIn_cons, heldOf_number hkey]
        ring
      rw [forNumbers_number m hkey]
      obtain ⟨hnone, hok'', hlev'⟩ := ih hread.tail hok' fun i => by rw [hsum i]; exact hbound i
      exact ⟨hnone, hok'', fun i => (hlev' i).trans (hsum i)⟩
    · have hother : ∀ d, j ≠ .number d := fun d e => hj ⟨d, e⟩
      have hsame : ∀ i, heldIn i ((name, j) :: items) = heldIn i items := fun i => by
        rw [heldIn_cons, heldOf_other i hother, zero_add]
      rw [forNumbers_other m hother]
      simp only [hsame] at hbound ⊢
      exact ih hread.tail hok hbound

end InventoryManager

end Hub
