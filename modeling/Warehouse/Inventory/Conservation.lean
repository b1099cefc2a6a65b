import Warehouse.Inventory.Quantities

/-!
# Conservation of stock

The global object and the inventories of the clients hold the same stock twice.  What they should
agree on is `Conserved`: the level of an item is the sum of what the clients list for it.

* `heldIn_canonical`    what a canonical inventory lists is what it holds;
* `forNumbers_spec`     the loop over one moves every level by what it lists;
* `addClient_spec`, `removeClient_spec`   both copies move together;
* `conserved_iff`       stock is conserved throughout a run exactly when every inventory that
                        replaces another lists the same quantities.
-/

namespace Hub
open Machine Text Numeric CJSON

namespace InventoryManager

/-! ## inventories -/

/-- the whole part of a number -/
def quantity : Node → ℤ
  | .number (.finite q _) => truncate q
  | _ => 0

/-- the quantity an object lists for an item -/
def listedIn (i : ℤ) (ms : List (CString × Node)) : ℤ :=
  (ms.map fun e => if e.1 = key i then quantity e.2 else 0).sum

def listed (i : ℤ) : Option Node → ℤ
  | some (.object ms) => listedIn i ms
  | _ => 0

/-- a canonical decimal `int` key with a positive whole quantity -/
def CanonicalItem (e : CString × Node) : Prop :=
  ∃ (k q : ℤ) (h : Representable q), INT_MIN ≤ k ∧ k ≤ INT_MAX ∧ 0 < q ∧
    e = (key k, .number (.finite q h))

/-- an object of canonical items -/
def Canonical (inventory : Option Node) : Prop :=
  ∃ ms, inventory = some (.object ms) ∧ ∀ e ∈ ms, CanonicalItem e

/-- what all stored inventories list for an item -/
def holdings (m : InventoryManager) (i : ℤ) : ℤ :=
  SortedMap.sumBy (fun _ inventory => listed i inventory) m.clientInventories

/-- the level of every item is what the clients hold of it -/
def Conserved (m : InventoryManager) : Prop := ∀ i, m.getStockLevel i = m.holdings i

/-- the operations on clients, with canonical inventories or none -/
def Op.CanonicalCall : Op → Prop
  | .addClient _ inventory => inventory = none ∨ Canonical inventory
  | .updateClientInventory _ inventory => inventory = none ∨ Canonical inventory
  | .removeClient _ => True
  | _ => False

/-- a canonical call after which no total exceeds an `int` -/
def Legal (m : InventoryManager) (op : Op) : Prop :=
  op.CanonicalCall ∧ ∀ i, (m.step op).holdings i ≤ INT_MAX

/-- an inventory that replaces the one of a client lists the same quantities -/
def SameQuantities (m : InventoryManager) : Op → Prop
  | .updateClientInventory c (some inventory) =>
    ∀ i, listed i (some inventory) = listed i (m.getClientInventory c)
  | _ => True

theorem key_injective {i k : ℤ} (h : key i = key k) : i = k :=
  numeral_injective (congrArg CString.bytes h)

theorem listedIn_cons (i : ℤ) (e : CString × Node) (ms : List (CString × Node)) :
    listedIn i (e :: ms) = (if e.1 = key i then quantity e.2 else 0) + listedIn i ms := by
  rw [listedIn, List.map_cons, List.sum_cons, listedIn]

theorem listedIn_canonical (i k : ℤ) {q : ℤ} (h : Representable q) (ms : List (CString × Node)) :
    listedIn i ((key k, .number (.finite q h)) :: ms)
      = (if i = k then q else 0) + listedIn i ms := by
  rw [listedIn_cons]
  have hq : quantity (.number (.finite q h)) = q := truncate_intCast q
  by_cases hik : i = k
  · rw [if_pos hik, if_pos (congrArg key hik.symm), hq]
  · rw [if_neg hik, if_neg fun hk => hik (key_injective hk).symm]

theorem listedIn_nonneg (i : ℤ) {ms : List (CString × Node)} (h : ∀ e ∈ ms, CanonicalItem e) :
    0 ≤ listedIn i ms := by
  induction ms with
  | nil => exact le_rfl
  | cons e ms ih =>
    obtain ⟨k, q, hr, -, -, hq, rfl⟩ := h e (List.mem_cons_self ..)
    have hrest := ih fun e he => h e (List.mem_cons_of_mem _ he)
    rw [listedIn_canonical]
    split_ifs <;> omega

theorem Canonical.listed_nonneg {inventory : Option Node} (h : Canonical inventory) (i : ℤ) :
    0 ≤ listed i inventory := by
  obtain ⟨ms, rfl, hms⟩ := h
  exact listedIn_nonneg i hms

/-- an object of numbers is copied as it is -/
theorem Canonical.duplicate {ms : List (CString × Node)} (h : ∀ e ∈ ms, CanonicalItem e) :
    (Node.object ms).duplicate = some (.object ms) := by
  have hflat : Node.heightMembers ms ≤ 1 := by
    induction ms with
    | nil => exact Nat.zero_le 1
    | cons e ms ih =>
      obtain ⟨k, q, hr, -, -, -, rfl⟩ := h e (List.mem_cons_self ..)
      have hrest := ih fun e he => h e (List.mem_cons_of_mem _ he)
      exact max_le (le_refl (0 + 1)) hrest
  exact Node.duplicate_eq (hflat.trans (by decide))

/-! ## the loop over an inventory -/

theorem isSpace_numeral (i : ℤ) : (numeral i).dropWhile isSpace = numeral i := by
  obtain ⟨c, t, hc, hfirst⟩ := head_numeral i
  rw [hc, List.dropWhile_cons_of_neg]
  rcases hfirst with rfl | hd
  · decide
  · have h48 := (isDigit_iff c).mp hd
    unfold isSpace
    simp only [Bool.or_eq_true, beq_iff_eq, Bool.and_eq_true, decide_eq_true_eq, not_or, not_and,
      UInt8.le_iff_toNat_le, ← UInt8.toNat_inj, UInt8.reduceToNat]
    omega

/-- a canonical key is read back -/
theorem stoi_key {k : ℤ} (hlo : INT_MIN ≤ k) (hhi : k ≤ INT_MAX) : stoi (key k).bytes = .ok k := by
  have hsigned : signed (numeral k) = (decide (k < 0), decimal k.natAbs) := by
    simpa using signed_numeral k []
  have hdigits : digits (decimal k.natAbs) = (decimal k.natAbs, []) := by
    simpa using digits_decimal k.natAbs (r := []) (fun _ h => nomatch h)
  have hvalue : (if decide (k < 0) = true then -(k.natAbs : ℤ) else k.natAbs) = k := by
    simp only [decide_eq_true_eq]
    split_ifs <;> omega
  unfold stoi
  simp only [key, isSpace_numeral, hsigned, hdigits, decVal_decimal, hvalue]
  rw [if_neg (decimal_ne_nil _), if_neg (by omega)]

/-- the keys of canonical items are accepted -/
theorem readable_canonical {ms : List (CString × Node)} (hms : ∀ e ∈ ms, CanonicalItem e) :
    Readable (children (some (.object ms))) := by
  intro name d hmem
  obtain ⟨e, he, heq⟩ := List.mem_map.mp hmem
  obtain ⟨k, q, hr, hlo, hhi, -, rfl⟩ := hms e he
  cases heq
  exact ⟨key k, k, rfl, stoi_key hlo hhi⟩

/-- what a canonical inventory lists is what it holds, as long as it is an `int` -/
theorem heldIn_canonical {ms : List (CString × Node)} (hms : ∀ e ∈ ms, CanonicalItem e)
    (hmax : ∀ i, listedIn i ms ≤ INT_MAX) (i : ℤ) :
    heldIn i (children (some (.object ms))) = listedIn i ms := by
  induction ms with
  | nil => rfl
  | cons e ms ih =>
    obtain ⟨k, q, hr, hlo, hhi, hq, rfl⟩ := hms e (List.mem_cons_self ..)
    have hrest : ∀ e ∈ ms, CanonicalItem e := fun e he => hms e (List.mem_cons_of_mem _ he)
    simp only [listedIn_canonical] at hmax
    have hcast : castInt (.finite q hr) = q := by
      have hk := hmax k
      have hnonneg := listedIn_nonneg k hrest
      rw [if_pos rfl] at hk
      rw [← Binary64.ofRat_representable hr]
      exact castInt_ofInt (by unfold INT_MIN; omega) (by omega)
    have hmax' : ∀ i, listedIn i ms ≤ INT_MAX := by
      intro i
      have hi := hmax i
      split_ifs at hi <;> omega
    show heldIn i ((some (key k), .number (.finite q hr)) :: children (some (.object ms))) = _
    rw [heldIn_cons, heldOf_number (stoi_key hlo hhi), hcast, max_eq_left hq.le, ih hrest hmax',
      listedIn_canonical]

/-- The loop over a canonical inventory moves every level by what the inventory lists, as long as
the result is a level. -/
theorem forNumbers_spec {change : InventoryManager → ℤ → ℤ → Bool × InventoryManager} {sign : ℤ}
    (hchange : Changes change sign) (hrefuse : Refuses change) (hsign : sign = 1 ∨ sign = -1)
    {ms : List (CString × Node)} (hms : ∀ e ∈ ms, CanonicalItem e) {m : InventoryManager}
    (hok : m.LevelsOk)
    (hbound : ∀ i, 0 ≤ m.getStockLevel i + sign * listedIn i ms ∧
      m.getStockLevel i + sign * listedIn i ms ≤ INT_MAX) :
    (forNumbers change m (children (some (.object ms)))).2 = none ∧
    (forNumbers change m (children (some (.object ms)))).1.LevelsOk ∧
    ∀ i, (forNumbers change m (children (some (.object ms)))).1.getStockLevel i
      = m.getStockLevel i + sign * listedIn i ms := by
  have hmax : ∀ i, listedIn i ms ≤ INT_MAX := by
    intro i
    have hi := hbound i
    have h0 := hok.nonneg i
    have hle := hok.le_max i
    rcases hsign with rfl | rfl <;> omega
  have hheld := heldIn_canonical hms hmax
  simp only [← hheld] at hbound ⊢
  exact forNumbers_readable hchange hrefuse hsign (readable_canonical hms) hok hbound

/-! ## one operation -/

/-- what holds beside the conservation: the levels are numbers, the stored inventories canonical -/
structure Inv (m : InventoryManager) : Prop where
  levels : m.LevelsOk
  stored : ∀ c inventory, m.clientInventories.find? c = some inventory → Canonical inventory

theorem inv_init : Inv init where
  levels := fun _ _ h => by cases h
  stored := fun _ _ h => by cases h

theorem conserved_init : Conserved init := fun _ => rfl

theorem Inv.getClientInventory {m : InventoryManager} (h : Inv m) (c : ℤ) :
    m.getClientInventory c = none ∨ Canonical (m.getClientInventory c) := by
  unfold InventoryManager.getClientInventory
  cases hc : m.clientInventories.find? c with
  | none => exact Or.inl rfl
  | some inventory => exact Or.inr (h.stored c inventory hc)

theorem Inv.putClient {m : InventoryManager} (h : Inv m) (c : ℤ) {inventory : Option Node}
    (hi : Canonical inventory) : Inv (m.putClient c inventory) := by
  refine ⟨h.levels, ?_⟩
  intro c' inventory' hc'
  rcases SortedMap.find?_insert_cases hc' with ⟨-, rfl⟩ | ⟨-, hold⟩
  · exact hi
  · exact h.stored c' inventory' hold

theorem at?_clientInventories (m : InventoryManager) (c i : ℤ) :
    SortedMap.at? (fun _ inventory => listed i inventory) m.clientInventories c
      = listed i (m.getClientInventory c) := by
  unfold SortedMap.at? getClientInventory
  cases m.clientInventories.find? c <;> rfl

theorem holdings_putClient (m : InventoryManager) (c i : ℤ) (inventory : Option Node) :
    (m.putClient c inventory).holdings i
      = m.holdings i + listed i inventory - listed i (m.getClientInventory c) := by
  rw [holdings, putClient, SortedMap.sumBy_insert, at?_clientInventories, holdings]

theorem holdings_forNumbers {change : InventoryManager → ℤ → ℤ → Bool × InventoryManager}
    (hchange : ∀ m i q, (change m i q).2.clientInventories = m.clientInventories)
    (m : InventoryManager) (items : List (Option CString × Node)) (i : ℤ) :
    (forNumbers change m items).1.holdings i = m.holdings i := by
  rw [holdings, clientInventories_forNumbers hchange, holdings]

theorem getClientInventory_eq_none {m : InventoryManager} {c : ℤ}
    (h : m.clientInventories.find? c = none) : m.getClientInventory c = none := by
  rw [getClientInventory, h]
  rfl

/-- what a new client with a canonical inventory does -/
theorem addClient_new {m : InventoryManager} {c : ℤ} {inventory : Option Node}
    (hc : m.clientInventories.find? c = none) (h : inventory = none ∨ Canonical inventory) :
    ∃ ms, (∀ e ∈ ms, CanonicalItem e) ∧ (∀ i, listed i inventory = listedIn i ms) ∧
      m.addClient c inventory = forNumbers increaseStock (m.putClient c (some (.object ms)))
        (children (some (.object ms))) := by
  have hadd := addClient_of_absent hc inventory
  rcases h with rfl | ⟨ms, rfl, hms⟩
  · exact ⟨[], List.forall_mem_nil _, fun _ => rfl, hadd⟩
  · rw [Option.elim_some, Canonical.duplicate hms] at hadd
    exact ⟨ms, hms, fun _ => rfl, hadd⟩

theorem holdings_addClient {m : InventoryManager} {c : ℤ} {inventory : Option Node}
    (hc : m.clientInventories.find? c = none) (h : inventory = none ∨ Canonical inventory) (i : ℤ) :
    (m.addClient c inventory).1.holdings i = m.holdings i + listed i inventory := by
  obtain ⟨ms, -, hlisted, hadd⟩ := addClient_new hc h
  rw [hadd, holdings_forNumbers clientInventories_increaseStock, holdings_putClient,
    getClientInventory_eq_none hc, hlisted]
  exact sub_zero _

/-- a new client whose inventory fits -/
theorem addClient_fits {m : InventoryManager} {c : ℤ} {inventory : Option Node} (hok : m.LevelsOk)
    (hc : m.clientInventories.find? c = none) (hcanon : inventory = none ∨ Canonical inventory)
    (hmax : ∀ i, m.getStockLevel i + listed i inventory ≤ INT_MAX) :
    ∃ ms, (∀ e ∈ ms, CanonicalItem e) ∧ (∀ i, listed i inventory = listedIn i ms) ∧
      (m.addClient c inventory).1.LevelsOk ∧
      (∀ i, (m.addClient c inventory).1.getStockLevel i
        = m.getStockLevel i + listed i inventory) ∧
      (m.addClient c inventory).1.clientInventories
        = m.clientInventories.insert c (some (.object ms)) := by
  obtain ⟨ms, hms, hlisted, hadd⟩ := addClient_new hc hcanon
  have hput : (m.putClient c (some (.object ms))).LevelsOk := hok
  have hbound : ∀ i, 0 ≤ (m.putClient c (some (.object ms))).getStockLevel i + 1 * listedIn i ms ∧
      (m.putClient c (some (.object ms))).getStockLevel i + 1 * listedIn i ms ≤ INT_MAX := by
    intro i
    show 0 ≤ m.getStockLevel i + 1 * listedIn i ms ∧ m.getStockLevel i + 1 * listedIn i ms ≤ INT_MAX
    have hi := hmax i
    have hnonneg := listedIn_nonneg i hms
    have hlevel := hok.nonneg i
    rw [hlisted] at hi
    omega
  obtain ⟨-, hok', hlev⟩ :=
    forNumbers_spec changes_increaseStock refuses_increaseStock (Or.inl rfl) hms hput hbound
  refine ⟨ms, hms, hlisted, ?_⟩
  rw [hadd]
  refine ⟨hok', fun i => ?_, clientInventories_forNumbers clientInventories_increaseStock _ _⟩
  rw [hlev i, one_mul, hlisted]
  rfl

/-- the removal of a client whose inventory the levels cover -/
theorem removeClient_covered {m : InventoryManager} {c : ℤ} {ms : List (CString × Node)}
    (hok : m.LevelsOk) (hc : m.clientInventories.find? c = some (some (.object ms)))
    (hms : ∀ e ∈ ms, CanonicalItem e) (hcover : ∀ i, listedIn i ms ≤ m.getStockLevel i) :
    (m.removeClient c).1.LevelsOk ∧
      (∀ i, (m.removeClient c).1.getStockLevel i = m.getStockLevel i - listedIn i ms) ∧
      (m.removeClient c).1.clientInventories = m.clientInventories.erase c := by
  have hbound : ∀ i, 0 ≤ m.getStockLevel i + -1 * listedIn i ms ∧
      m.getStockLevel i + -1 * listedIn i ms ≤ INT_MAX := by
    intro i
    have hi := hcover i
    have hnonneg := listedIn_nonneg i hms
    have hlevel := hok.le_max i
    omega
  obtain ⟨hnone, hok', hlev⟩ :=
    forNumbers_spec changes_decreaseStock refuses_decreaseStock (Or.inr rfl) hms hok hbound
  rw [removeClient_of_present hc]
  dsimp only
  rw [hnone, if_pos rfl]
  refine ⟨hok', fun i => ?_, rfl⟩
  have hi := hlev i
  rw [neg_one_mul, ← sub_eq_add_neg] at hi
  exact hi

/-- the two copies after a client is added -/
theorem addClient_spec {m : InventoryManager} (h : Inv m) (hcons : Conserved m) {c : ℤ}
    {inventory : Option Node} (hl : Legal m (.addClient c inventory)) :
    Inv (m.addClient c inventory).1 ∧ Conserved (m.addClient c inventory).1 := by
  obtain ⟨hcanon, hmax⟩ := hl
  cases hc : m.clientInventories.find? c with
  | some known =>
    rw [addClient_of_present hc]
    exact ⟨h, hcons⟩
  | none =>
    have hheld : ∀ i, (m.addClient c inventory).1.holdings i
        = m.getStockLevel i + listed i inventory :=
      fun i => by rw [holdings_addClient hc hcanon, hcons i]
    obtain ⟨ms, hms, -, hok, hlev, hclients⟩ := addClient_fits h.levels hc hcanon fun i => by
      rw [← hheld i]
      exact hmax i
    refine ⟨⟨hok, ?_⟩, fun i => (hlev i).trans (hheld i).symm⟩
    rw [hclients]
    exact (h.putClient c ⟨ms, rfl, hms⟩).stored

/-- the two copies after a client is removed -/
theorem removeClient_spec {m : InventoryManager} (h : Inv m) (hcons : Conserved m) (c : ℤ) :
    Inv (m.removeClient c).1 ∧ Conserved (m.removeClient c).1 := by
  cases hc : m.clientInventories.find? c with
  | none =>
    rw [removeClient_of_absent hc]
    exact ⟨h, hcons⟩
  | some inventory =>
    obtain ⟨ms, rfl, hms⟩ := h.stored c inventory hc
    have hat : ∀ i, listedIn i ms = SortedMap.at? (fun _ inventory => listed i inventory)
        m.clientInventories c := fun i => by rw [SortedMap.at?, hc]; rfl
    obtain ⟨hok, hlev, hclients⟩ := removeClient_covered h.levels hc hms fun i => by
      -- what one client holds is at most what all of them hold
      rw [hat i, hcons i]
      exact SortedMap.at?_le_sumBy (fun k v hv => (h.stored k v hv).listed_nonneg i) c
    refine ⟨⟨hok, fun c' inventory' hc' => ?_⟩, fun i => ?_⟩
    · rw [hclients] at hc'
      exact h.stored c' inventory' (SortedMap.find?_erase_some hc').2
    · rw [hlev i, holdings, hclients, SortedMap.sumBy_erase, ← hat i, hcons i, holdings]

/-- one call: the invariant stays, and stock is conserved exactly when no quantity is replaced by
another -/
theorem legal_step (m : InventoryManager) (op : Op) (h : Inv m) (hcons : Conserved m)
    (hl : Legal m op) : Inv (m.step op) ∧ (Conserved (m.step op) ↔ SameQuantities m op) := by
  cases op with
  | addClient c inventory =>
    obtain ⟨hinv, hcons'⟩ := addClient_spec h hcons hl
    exact ⟨hinv, fun _ => trivial, fun _ => hcons'⟩
  | removeClient c =>
    obtain ⟨hinv, hcons'⟩ := removeClient_spec h hcons c
    exact ⟨hinv, fun _ => trivial, fun _ => hcons'⟩
  | updateClientInventory c inventory =>
    rcases hl.1 with rfl | ⟨ms, rfl, hms⟩
    · exact ⟨h, fun _ => trivial, fun _ => hcons⟩
    · have hstep : m.step (.updateClientInventory c (some (.object ms)))
          = m.putClient c (some (.object ms)) := by
        show m.putClient c (Node.object ms).duplicate = _
        rw [Canonical.duplicate hms]
      rw [hstep]
      refine ⟨h.putClient c ⟨ms, rfl, hms⟩, forall_congr' fun i => ?_⟩
      rw [holdings_putClient, ← hcons i]
      show m.getStockLevel i = _ ↔ _
      omega
  | increaseStock i q => exact hl.1.elim
  | decreaseStock i q => exact hl.1.elim

/-! ## every run -/

/-- **When stock is conserved.**  In every run of calls with canonical inventories and totals within
`int`, the levels are the sums of the client inventories in every state exactly when each inventory
that replaces one lists the quantities of the one it replaces. -/
theorem conserved_iff (ops : List Op) (hl : Along step Legal init ops) :
    Always step Conserved init ops ↔ Along step SameQuantities init ops :=
  always_iff_along_of_invariant (fun m op h hc hl => (legal_step m op h hc hl).1)
    (fun m op h hc hl => (legal_step m op h hc hl).2) inv_init conserved_init hl

/-- five pieces of item 7 -/
def fiveOfSeven : Node :=
  .object [(key 7, .number (.finite (5 : ℤ) (representable_int (by norm_num))))]

theorem canonical_fiveOfSeven : Canonical (some fiveOfSeven) := by
  refine ⟨_, rfl, ?_⟩
  intro e he
  rw [List.mem_singleton.mp he]
  exact ⟨7, 5, _, by decide, by decide, by decide, rfl⟩

theorem listed_fiveOfSeven (i : ℤ) : listed i (some fiveOfSeven) = if i = 7 then 5 else 0 :=
  (listedIn_canonical i 7 _ []).trans (add_zero _)

theorem holdings_init (i : ℤ) : init.holdings i = 0 := rfl

theorem legal_add : Legal init (.addClient 1 (some fiveOfSeven)) := by
  refine ⟨Or.inr canonical_fiveOfSeven, ?_⟩
  intro i
  show (init.addClient 1 (some fiveOfSeven)).1.holdings i ≤ INT_MAX
  rw [holdings_addClient rfl (Or.inr canonical_fiveOfSeven), listed_fiveOfSeven, holdings_init]
  split_ifs <;> decide

theorem legal_update {m : InventoryManager} (h : Inv m) {c : ℤ} (hm : ∀ i, m.holdings i ≤ 5) :
    Legal m (.updateClientInventory c (some fiveOfSeven)) := by
  refine ⟨Or.inr canonical_fiveOfSeven, ?_⟩
  intro i
  have hstored : 0 ≤ listed i (m.getClientInventory c) := by
    rcases h.getClientInventory c with h | h
    · rw [h]
      exact le_rfl
    · exact h.listed_nonneg i
  have hstep : m.step (.updateClientInventory c (some fiveOfSeven))
      = m.putClient c (some fiveOfSeven) := by
    obtain ⟨ms, hms, hcanon⟩ := canonical_fiveOfSeven
    cases hms
    exact congrArg (m.putClient c) (Canonical.duplicate hcanon)
  rw [hstep, holdings_putClient, listed_fiveOfSeven]
  have := hm i
  unfold INT_MAX
  split_ifs <;> omega

/-- the hypothesis can be met: the inventory of a client is written again -/
theorem conserved_iff_example :
    Always step Conserved init
        [.addClient 1 (some fiveOfSeven), .updateClientInventory 1 (some fiveOfSeven)]
      ↔ Along step SameQuantities init
        [.addClient 1 (some fiveOfSeven), .updateClientInventory 1 (some fiveOfSeven)] :=
  conserved_iff [.addClient 1 (some fiveOfSeven), .updateClientInventory 1 (some fiveOfSeven)]
    ⟨legal_add, legal_update (addClient_spec inv_init conserved_init legal_add).1 (fun i => by
      show (init.addClient 1 (some fiveOfSeven)).1.holdings i ≤ 5
      rw [holdings_addClient rfl (Or.inr canonical_fiveOfSeven), listed_fiveOfSeven, holdings_init]
      split_ifs <;> decide), trivial⟩

/-- An update of a client that was never added: five pieces are held, and the level is zero. -/
theorem update_loses_stock :
    ¬ ∀ ops, Along step Legal init ops → Always step Conserved init ops := by
  intro h
  have hlegal : Along step Legal init [.updateClientInventory 1 (some fiveOfSeven)] :=
    ⟨legal_update inv_init (fun i => by rw [holdings_init]; decide), trivial⟩
  have hend := (h _ hlegal).2 7
  have hheld : (init.updateClientInventory 1 (some fiveOfSeven)).holdings 7
      = init.holdings 7 + listed 7 (some fiveOfSeven) - listed 7 (init.getClientInventory 1) :=
    holdings_putClient init 1 7 (some fiveOfSeven)
  rw [listed_fiveOfSeven] at hheld
  exact absurd (hend.trans hheld) (by decide)

end InventoryManager

end Hub
