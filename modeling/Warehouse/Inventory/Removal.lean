import Warehouse.Inventory.Conservation
import Warehouse.Inventory.Failures

/-!
# What a removal subtracts

`removeClient` takes off the numbers of an inventory one by one, and drops the answer of
`decreaseStock`, which refuses a quantity that the level does not cover.

* `Subtracts`            a removed client takes what its inventory lists, and nothing else;
* `Covers`               the levels cover the inventory of a client that is removed;
* `Stocked`              what every run of calls that fit keeps;
* `subtracts_remove_iff`, `subtracts_iff`   one removal, and every removal of a run.
-/

namespace Hub
open Machine Text Numeric CJSON

namespace InventoryManager

/-- a call with `int` quantities or a canonical inventory, which leads to no level above `int` -/
def Fits (m : InventoryManager) : Op → Prop
  | .addClient c inventory => (inventory = none ∨ Canonical inventory) ∧
    (m.clientInventories.contains c = false →
      ∀ i, m.getStockLevel i + listed i inventory ≤ INT_MAX)
  | .removeClient _ => True
  | .increaseStock i q => m.getStockLevel i + max q 0 ≤ INT_MAX
  | .decreaseStock i q => IsInt (.withdraw i q)
  | .updateClientInventory _ _ => False

/-- a present client is erased, every level is lowered by what its inventory lists, and the
inventories of the others stay -/
def Subtracts (m : InventoryManager) : Op → Prop
  | .removeClient c => ∀ inventory, m.clientInventories.find? c = some inventory →
    (m.removeClient c).1.clientInventories.find? c = none ∧
    (∀ i, (m.removeClient c).1.getStockLevel i = m.getStockLevel i - listed i inventory) ∧
    ∀ c', c' ≠ c → (m.removeClient c).1.clientInventories.find? c' = m.clientInventories.find? c'
  | _ => True

/-- no level is below what the inventory of a removed client lists -/
def Covers (m : InventoryManager) : Op → Prop
  | .removeClient c => ∀ inventory, m.clientInventories.find? c = some inventory →
    ∀ i, listed i inventory ≤ m.getStockLevel i
  | _ => True

/-- levels within `int`, and canonical inventories that list quantities within `int` -/
structure Stocked (m : InventoryManager) : Prop where
  levels : m.LevelsOk
  stored : ∀ c inventory, m.clientInventories.find? c = some inventory →
    Canonical inventory ∧ ∀ i, listed i inventory ≤ INT_MAX

/-! ## the invariant -/

theorem stocked_init : Stocked init where
  levels := fun _ _ h => by cases h
  stored := fun _ _ h => by cases h

section
variable {m : InventoryManager} {c : ℤ}

/-- other levels and the same inventories -/
theorem Stocked.of_levels (h : Stocked m) {m' : InventoryManager} (hok : m'.LevelsOk)
    (hclients : m'.clientInventories = m.clientInventories) : Stocked m' :=
  ⟨hok, fun c inventory hc => h.stored c inventory (hclients ▸ hc)⟩

theorem stocked_addClient (h : Stocked m) {inventory : Option Node}
    (hfits : Fits m (.addClient c inventory)) : Stocked (m.addClient c inventory).1 := by
  obtain ⟨hcanon, hmax⟩ := hfits
  cases hc : m.clientInventories.find? c with
  | some known =>
    rw [addClient_of_present hc]
    exact h
  | none =>
    have hsum := hmax (SortedMap.contains_eq_false.mpr hc)
    obtain ⟨ms, hms, hlisted, hok, -, hclients⟩ := addClient_fits h.levels hc hcanon hsum
    refine ⟨hok, fun c' inventory' hc' => ?_⟩
    rw [hclients] at hc'
    rcases SortedMap.find?_insert_cases hc' with ⟨-, rfl⟩ | ⟨-, hold⟩
    · refine ⟨⟨ms, rfl, hms⟩, fun i => ?_⟩
      show listedIn i ms ≤ INT_MAX
      have hi := hsum i
      have hlevel := h.levels.nonneg i
      rw [hlisted] at hi
      omega
    · exact h.stored c' inventory' hold

theorem stocked_removeClient (h : Stocked m) (c : ℤ) : Stocked (m.removeClient c).1 := by
  cases hc : m.clientInventories.find? c with
  | none =>
    rw [removeClient_of_absent hc]
    exact h
  | some inventory =>
    have htaken : Stocked (forNumbers decreaseStock m (children inventory)).1 :=
      h.of_levels (levelsOk_taken h.levels _)
        (clientInventories_forNumbers clientInventories_decreaseStock m _)
    rw [removeClient_of_present hc]
    dsimp only
    split_ifs
    · refine ⟨htaken.levels, fun c' inventory' hc' => ?_⟩
      exact h.stored c' inventory' (SortedMap.find?_erase_some hc').2
    · exact htaken

theorem stocked_step (m : InventoryManager) (op : Op) (h : Stocked m) (hfits : Fits m op) :
    Stocked (m.step op) := by
  cases op with
  | addClient c inventory => exact stocked_addClient h hfits
  | removeClient c => exact stocked_removeClient h c
  | updateClientInventory c inventory => exact hfits.elim
  | increaseStock i q =>
    have hlevel := h.levels.nonneg i
    have hfits : m.getStockLevel i + max q 0 ≤ INT_MAX := hfits
    have hspec := change_spec changes_increaseStock refuses_increaseStock h.levels (i := i) (q := q)
      (by omega) (by omega)
    exact h.of_levels hspec.1 (clientInventories_increaseStock m i q)
  | decreaseStock i q =>
    exact h.of_levels (decreaseStock_spec h.levels hfits).1 (clientInventories_decreaseStock m i q)

/-! ## one removal -/

/-- **One removal.**  It subtracts the inventory exactly when the levels cover it. -/
theorem subtracts_remove_iff (h : Stocked m) (c : ℤ) :
    Subtracts m (.removeClient c) ↔ Covers m (.removeClient c) := by
  refine forall_congr' fun inventory => forall_congr' fun hc => ?_
  constructor
  · rintro ⟨-, hlev, -⟩ i
    -- the level that is left is not negative
    have hleft := (stocked_removeClient h c).levels.nonneg i
    rw [hlev i] at hleft
    omega
  · intro hcover
    obtain ⟨⟨ms, rfl, hms⟩, -⟩ := h.stored c inventory hc
    obtain ⟨-, hlev, hclients⟩ := removeClient_covered h.levels hc hms hcover
    rw [hclients]
    exact ⟨SortedMap.find?_erase_self .., hlev, fun c' hne => SortedMap.find?_erase_of_ne _ hne⟩

end

/-! ## every run -/

/-- **When removals subtract what they should.**  In every run of calls that fit, each removal of a
present client lowers every level by what the inventory lists, and leaves the other inventories
alone, exactly when at each of them no level is below what the inventory lists. -/
theorem subtracts_iff (ops : List Op) (hfits : Along step Fits init ops) :
    Along step Subtracts init ops ↔ Along step Covers init ops := by
  apply along_iff_along _ (fun m op h hl _ => stocked_step m op h hl) stocked_init hfits
  intro m op h _
  cases op with
  | removeClient c => exact subtracts_remove_iff h c
  | _ => exact Iff.rfl

theorem fits_add : Fits init (.addClient 1 (some fiveOfSeven)) := by
  refine ⟨Or.inr canonical_fiveOfSeven, fun _ i => ?_⟩
  show (0 : ℤ) + listed i (some fiveOfSeven) ≤ INT_MAX
  rw [listed_fiveOfSeven]
  split_ifs <;> decide

/-- the hypothesis can be met: a client comes and goes -/
theorem subtracts_iff_example :
    Along step Subtracts init [.addClient 1 (some fiveOfSeven), .removeClient 1]
      ↔ Along step Covers init [.addClient 1 (some fiveOfSeven), .removeClient 1] :=
  subtracts_iff [.addClient 1 (some fiveOfSeven), .removeClient 1] ⟨fits_add, trivial, trivial⟩

/-- the level and the inventory after the client with five pieces was added -/
theorem added_fiveOfSeven :
    (init.addClient 1 (some fiveOfSeven)).1.getStockLevel 7 = 5 ∧
      (init.addClient 1 (some fiveOfSeven)).1.clientInventories.find? 1
        = some (some fiveOfSeven) := by
  constructor
  · have hcons := (addClient_spec inv_init conserved_init legal_add).2 7
    rw [hcons, holdings_addClient rfl (Or.inr canonical_fiveOfSeven), listed_fiveOfSeven,
      holdings_init]
    rfl
  · obtain ⟨ms, hms, hcanon⟩ := canonical_fiveOfSeven
    have hdup : (some fiveOfSeven).elim (some (.object [])) Node.duplicate = some fiveOfSeven := by
      rw [hms]
      exact Canonical.duplicate hcanon
    rw [addClient_of_absent rfl, clientInventories_forNumbers clientInventories_increaseStock, hdup]
    exact SortedMap.find?_insert_self ..

/-- Three of five pieces are taken from the stock before the client goes: the removal of the five
is refused, and two stay behind. -/
theorem removal_refused :
    ¬ ∀ ops, Along step Fits init ops → Along step Subtracts init ops := by
  intro h
  have hdecrease : IsInt (.withdraw 7 3) := ⟨by decide, by decide⟩
  have hrun : Along step Fits init
      [.addClient 1 (some fiveOfSeven), .decreaseStock 7 3, .removeClient 1] :=
    ⟨fits_add, hdecrease, trivial, trivial⟩
  have hadded : Stocked (init.addClient 1 (some fiveOfSeven)).1 :=
    stocked_addClient stocked_init fits_add
  have hlast := stocked_step _ (.decreaseStock 7 3) hadded hdecrease
  have hcovers := (subtracts_remove_iff hlast 1).mp (h _ hrun).2.2.1
  obtain ⟨hlevel, hstored⟩ := added_fiveOfSeven
  have hfind : ((init.addClient 1 (some fiveOfSeven)).1.decreaseStock 7 3).2.clientInventories.find? 1
      = some (some fiveOfSeven) := by
    rw [clientInventories_decreaseStock, hstored]
  have hlow : ((init.addClient 1 (some fiveOfSeven)).1.decreaseStock 7 3).2.getStockLevel 7 = 2 := by
    rw [(decreaseStock_spec hadded.levels hdecrease).2 7, hlevel]
    rfl
  have hle : listed 7 (some fiveOfSeven)
      ≤ ((init.addClient 1 (some fiveOfSeven)).1.decreaseStock 7 3).2.getStockLevel 7 :=
    hcovers _ hfind 7
  rw [hlow, listed_fiveOfSeven] at hle
  exact absurd hle (by decide)

end InventoryManager

end Hub
