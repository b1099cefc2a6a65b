import Warehouse.CJson.Node
import Warehouse.Machine.Run
import Warehouse.Machine.SortedMap
import Mathlib.Algebra.BigOperators.Group.List.Lemmas

/-!
# `InventoryManager`

The stock keeper of `server/InventoryManager.cpp`: one inventory tree per client, and a global
object with one number per item.  Nothing but numbers is ever added to the global object, so it is
modelled by its names and doubles.

* `stoi`, `castInt`       the conversions of keys and quantities;
* `Op`, `step`            the operations that change the store, and the store after one;
* `level?`, `level?_putItem`   the global entry of an item, and a write to it;
* `changes_increaseStock`, `changes_decreaseStock`   what a change of stock does while all levels
                          are numbers of the `int` range;
* `clientInventories_forNumbers`   a change of stock leaves the inventories of the clients;
* `addClient_of_absent`, `removeClient_of_present`   what the calls for a client do, beside doing
                          nothing.
-/

namespace Hub
open Machine Text Numeric CJSON

/-! ## conversions -/

/-- why `std::stoi` throws -/
inductive StoiError
  | invalidArgument
  | outOfRange
  -- a child without a name: `std::string` from a null pointer
  | nullString
deriving DecidableEq

/-- `isspace` in the C locale -/
def isSpace (b : UInt8) : Bool := b == 32 || (9 ≤ b && b ≤ 13)

/-- `std::stoi`: blanks, a sign and digits; what follows them is ignored -/
def stoi (s : Bytes) : Except StoiError ℤ :=
  let s := s.dropWhile isSpace
  let negative := (signed s).1
  let ds := (digits (signed s).2).1
  let value : ℤ := if negative then -decVal ds else decVal ds
  if ds = [] then .error .invalidArgument
  else if value < INT_MIN ∨ INT_MAX < value then .error .outOfRange
  else .ok value

/-- `static_cast<int>`; out of range it is undefined, and the value is the one of x86 -/
def castInt (d : Binary64) : ℤ :=
  match d with
  | .finite q _ => if INT_MIN ≤ truncate q ∧ truncate q ≤ INT_MAX then truncate q else INT_MIN
  | _ => INT_MIN

/-- `std::to_string` as a C string -/
def key (itemID : ℤ) : CString :=
  ⟨numeral itemID, fun b hb h0 => by
    have hb' := isNumberByte_numeral b hb
    rw [h0] at hb'
    revert hb'
    decide⟩

/-! ## the code -/

structure InventoryManager where
  globalInventory : List (CString × Binary64)
  clientInventories : SortedMap ℤ (Option Node)

/-- the children `cJSON_ArrayForEach` visits, with their names -/
def children : Option Node → List (Option CString × Node)
  | some (.object ms) => ms.map fun m => (some m.1, m.2)
  | some (.array js) => js.map fun j => (none, j)
  | _ => []

namespace InventoryManager

def init : InventoryManager := ⟨[], SortedMap.empty⟩

/-- `cJSON_GetObjectItem(globalInventory, key)`, the double of the item -/
def level? (m : InventoryManager) (itemID : ℤ) : Option Binary64 :=
  (m.globalInventory.find? fun e => caseInsensitiveEq (key itemID) e.1).map Prod.snd

/-- a write to the double of the first entry of the name -/
def putFirst (itemID : ℤ) (d : Binary64) : List (CString × Binary64) → List (CString × Binary64)
  | [] => []
  | e :: es =>
    if caseInsensitiveEq (key itemID) e.1 then (e.1, d) :: es else e :: putFirst itemID d es

/-- the double of an item is written, or a new number is added at the end -/
def putItem (m : InventoryManager) (itemID : ℤ) (d : Binary64) : InventoryManager :=
  match m.level? itemID with
  | none => { m with globalInventory := m.globalInventory ++ [(key itemID, d)] }
  | some _ => { m with globalInventory := putFirst itemID d m.globalInventory }

def increaseStock (m : InventoryManager) (itemID quantity : ℤ) : Bool × InventoryManager :=
  if quantity ≤ 0 then (false, m)
  else match m.level? itemID with
    | none => (true, m.putItem itemID (Binary64.ofInt quantity))
    | some d => (true, m.putItem itemID (d.add (Binary64.ofInt quantity)))

def decreaseStock (m : InventoryManager) (itemID quantity : ℤ) : Bool × InventoryManager :=
  if quantity ≤ 0 then (false, m)
  else match m.level? itemID with
    | none => (false, m)
    | some d =>
      if d.lt (Binary64.ofInt quantity) then (false, m)
      else (true, m.putItem itemID (d.sub (Binary64.ofInt quantity)))

def getStockLevel (m : InventoryManager) (itemID : ℤ) : ℤ :=
  match m.level? itemID with
  | none => 0
  | some d => castInt d

/-- the loop over the numbers of an inventory; an exception leaves it with the changes so far -/
def forNumbers (change : InventoryManager → ℤ → ℤ → Bool × InventoryManager) :
    InventoryManager → List (Option CString × Node) → InventoryManager × Option StoiError
  | m, [] => (m, none)
  | m, (name, .number d) :: rest =>
    match name with
    | none => (m, some .nullString)
    | some name =>
      match stoi name.bytes with
      | .error e => (m, some e)
      | .ok itemID => forNumbers change (change m itemID (castInt d)).2 rest
  | m, _ :: rest => forNumbers change m rest

def putClient (m : InventoryManager) (clientID : ℤ) (inventory : Option Node) : InventoryManager :=
  { m with clientInventories := m.clientInventories.insert clientID inventory }

def addClient (m : InventoryManager) (clientID : ℤ) (initialInventory : Option Node) :
    InventoryManager × Option StoiError :=
  if m.clientInventories.contains clientID then (m, none)
  else
    let stored := match initialInventory with
      | some inventory => inventory.duplicate
      | none => some (.object [])
    forNumbers increaseStock (m.putClient clientID stored) (children initialInventory)

def removeClient (m : InventoryManager) (clientID : ℤ) : InventoryManager × Option StoiError :=
  match m.clientInventories.find? clientID with
  | none => (m, none)
  | some clientInventory =>
    match forNumbers decreaseStock m (children clientInventory) with
    | (m, some e) => (m, some e)
    | (m, none) => ({ m with clientInventories := m.clientInventories.erase clientID }, none)

def getClientInventory (m : InventoryManager) (clientID : ℤ) : Option Node :=
  (m.clientInventories.find? clientID).join

def updateClientInventory (m : InventoryManager) (clientID : ℤ) (clientInventory : Option Node) :
    InventoryManager :=
  match clientInventory with
  | none => m
  | some inventory => m.putClient clientID inventory.duplicate

inductive Op
  | addClient (clientID : ℤ) (initialInventory : Option Node)
  | removeClient (clientID : ℤ)
  | updateClientInventory (clientID : ℤ) (clientInventory : Option Node)
  | increaseStock (itemID quantity : ℤ)
  | decreaseStock (itemID quantity : ℤ)

/-- the manager after an operation, whether it returned or threw -/
def step (m : InventoryManager) : Op → InventoryManager
  | .addClient c inventory => (m.addClient c inventory).1
  | .removeClient c => (m.removeClient c).1
  | .updateClientInventory c inventory => m.updateClientInventory c inventory
  | .increaseStock i q => (m.increaseStock i q).2
  | .decreaseStock i q => (m.decreaseStock i q).2

/-! ## writes to the global object -/

theorem tolower_numeral (i : ℤ) : (numeral i).map tolower = numeral i := by
  have hsmall : ∀ b ∈ numeral i, b.toNat < 65 := by
    intro b hb
    have hdec : ∀ n, b ∈ decimal n → b.toNat < 65 := fun n h => by
      have := (isDigit_iff b).mp (isDigit_of_mem_decimal h)
      omega
    unfold numeral at hb
    split_ifs at hb
    · rcases List.mem_cons.mp hb with rfl | hb
      · decide
      · exact hdec _ hb
    · exact hdec _ hb
  refine (List.map_congr_left fun b hb => ?_).trans (List.map_id _)
  unfold tolower
  rw [if_neg]
  · rfl
  · rintro ⟨h65, -⟩
    have h1 := UInt8.le_iff_toNat_le.mp h65
    have h2 := hsmall b hb
    have h3 : (65 : UInt8).toNat = 65 := rfl
    omega

/-- a name is the key of at most one item, whatever its letters -/
theorem key_unique {i k : ℤ} {name : CString} (hi : caseInsensitiveEq (key i) name = true)
    (hk : caseInsensitiveEq (key k) name = true) : i = k := by
  unfold caseInsensitiveEq at hi hk
  rw [beq_iff_eq] at hi hk
  refine numeral_injective ?_
  rw [← tolower_numeral i, ← tolower_numeral k]
  exact hi.trans hk.symm

theorem caseInsensitiveEq_key (i k : ℤ) :
    caseInsensitiveEq (key i) (key k) = decide (i = k) := by
  by_cases h : i = k
  · rw [h, decide_eq_true rfl, caseInsensitiveEq, beq_self_eq_true]
  · rw [decide_eq_false h, Bool.eq_false_iff]
    exact fun he => h (key_unique he (beq_self_eq_true _))

/-- the double of the first entry of an item in a list of entries -/
def entry? (es : List (CString × Binary64)) (i : ℤ) : Option Binary64 :=
  (es.find? fun e => caseInsensitiveEq (key i) e.1).map Prod.snd

theorem entry?_append {es : List (CString × Binary64)} {i : ℤ} (h : entry? es i = none)
    (d : Binary64) (k : ℤ) :
    entry? (es ++ [(key i, d)]) k = if k = i then some d else entry? es k := by
  unfold entry? at h ⊢
  rw [Option.map_eq_none_iff] at h
  rw [List.find?_append, List.find?_singleton]
  simp only [caseInsensitiveEq_key, decide_eq_true_eq]
  by_cases hk : k = i
  · rw [hk, h, if_pos rfl, if_pos rfl]
    rfl
  · rw [if_neg hk, if_neg hk, Option.or_none]

theorem entry?_cons (e : CString × Binary64) (es : List (CString × Binary64)) (k : ℤ) :
    entry? (e :: es) k = if caseInsensitiveEq (key k) e.1 then some e.2 else entry? es k := by
  unfold entry?
  rw [List.find?_cons]
  cases caseInsensitiveEq (key k) e.1 <;> rfl

theorem entry?_putFirst {es : List (CString × Binary64)} {i : ℤ} (h : entry? es i ≠ none)
    (d : Binary64) (k : ℤ) : entry? (putFirst i d es) k = if k = i then some d else entry? es k := by
  induction es with
  | nil => exact absurd rfl h
  | cons e es ih =>
    rw [entry?_cons] at h ⊢
    rw [putFirst]
    by_cases hi : caseInsensitiveEq (key i) e.1 = true
    · rw [if_pos hi, entry?_cons]
      by_cases hk : k = i
      · rw [if_pos hk, hk, if_pos hi]
      · have hke : ¬caseInsensitiveEq (key k) e.1 = true := fun he => hk (key_unique he hi)
        rw [if_neg hk, if_neg hke, if_neg hke]
    · rw [if_neg hi] at h
      rw [if_neg hi, entry?_cons, ih h]
      by_cases hk : k = i
      · rw [if_pos hk, hk, if_neg hi, if_pos rfl]
      · rw [if_neg hk, if_neg hk]

theorem level?_putItem (m : InventoryManager) (i : ℤ) (d : Binary64) (k : ℤ) :
    (m.putItem i d).level? k = if k = i then some d else m.level? k := by
  unfold putItem
  split
  · next h => exact entry?_append h d k
  · next d' h =>
    have hsome : entry? m.globalInventory i = some d' := h
    exact entry?_putFirst (by rw [hsome]; simp) d k

@[simp] theorem clientInventories_putItem (m : InventoryManager) (i : ℤ) (d : Binary64) :
    (m.putItem i d).clientInventories = m.clientInventories := by
  unfold putItem
  split <;> rfl

/-! ## changes of stock -/

/-- the global numbers are levels: whole numbers from zero to `INT_MAX` -/
def LevelsOk (m : InventoryManager) : Prop :=
  ∀ i d, m.level? i = some d → ∃ n : ℤ, 0 ≤ n ∧ n ≤ INT_MAX ∧ d = Binary64.ofInt n

theorem castInt_ofInt {n : ℤ} (hlo : INT_MIN ≤ n) (hhi : n ≤ INT_MAX) :
    castInt (Binary64.ofInt n) = n := by
  have hn : |n| < 2 ^ 53 := by
    unfold INT_MIN at hlo
    unfold INT_MAX at hhi
    rw [abs_lt]
    omega
  rw [Binary64.ofInt_eq hn]
  show (if INT_MIN ≤ truncate (n : ℚ) ∧ truncate (n : ℚ) ≤ INT_MAX then truncate (n : ℚ)
    else INT_MIN) = n
  rw [truncate_intCast, if_pos ⟨hlo, hhi⟩]

/-- the result is an `int` -/
theorem castInt_isInt (d : Binary64) : INT_MIN ≤ castInt d ∧ castInt d ≤ INT_MAX := by
  unfold castInt
  split
  · split_ifs with h
    · exact h
    · decide
  · decide

/-- a level that is there, as a number -/
theorem LevelsOk.getStockLevel {m : InventoryManager} (h : m.LevelsOk) (i : ℤ) :
    (m.level? i = none ∧ m.getStockLevel i = 0) ∨
    (m.level? i = some (Binary64.ofInt (m.getStockLevel i)) ∧ 0 ≤ m.getStockLevel i ∧
      m.getStockLevel i ≤ INT_MAX) := by
  unfold InventoryManager.getStockLevel
  cases hl : m.level? i with
  | none => exact Or.inl ⟨rfl, rfl⟩
  | some d =>
    obtain ⟨n, h0, hmax, rfl⟩ := h i d hl
    have hcast : castInt (Binary64.ofInt n) = n :=
      castInt_ofInt (by unfold INT_MIN; omega) hmax
    right
    dsimp only
    rw [hcast]
    exact ⟨rfl, h0, hmax⟩

theorem LevelsOk.nonneg {m : InventoryManager} (h : m.LevelsOk) (i : ℤ) : 0 ≤ m.getStockLevel i := by
  rcases h.getStockLevel i with ⟨-, h0⟩ | ⟨-, h0, -⟩
  · exact h0.ge
  · exact h0

theorem LevelsOk.le_max {m : InventoryManager} (h : m.LevelsOk) (i : ℤ) : m.getStockLevel i ≤ INT_MAX := by
  rcases h.getStockLevel i with ⟨-, h0⟩ | ⟨-, -, hmax⟩
  · rw [h0]
    decide
  · exact hmax

/-- writing a level -/
theorem putItem_spec {m : InventoryManager} (h : m.LevelsOk) (i : ℤ) {n : ℤ} (h0 : 0 ≤ n)
    (hmax : n ≤ INT_MAX) : (m.putItem i (Binary64.ofInt n)).LevelsOk ∧
    ∀ k, (m.putItem i (Binary64.ofInt n)).getStockLevel k
      = if k = i then n else m.getStockLevel k := by
  constructor
  · intro k d hd
    rw [level?_putItem] at hd
    split_ifs at hd with hk
    · exact ⟨n, h0, hmax, (Option.some.inj hd).symm⟩
    · exact h k d hd
  · intro k
    unfold getStockLevel
    rw [level?_putItem]
    split_ifs with hk
    · exact castInt_ofInt (by unfold INT_MIN; omega) hmax
    · rfl

/-- a change of stock that adds `sign * quantity` to one level, where the sum is a level -/
def Changes (change : InventoryManager → ℤ → ℤ → Bool × InventoryManager) (sign : ℤ) : Prop :=
  ∀ m i q, LevelsOk m → 0 < q → 0 ≤ m.getStockLevel i + sign * q →
    m.getStockLevel i + sign * q ≤ INT_MAX →
    (change m i q).2.LevelsOk ∧
    ∀ k, (change m i q).2.getStockLevel k
      = if k = i then m.getStockLevel i + sign * q else m.getStockLevel k

theorem changes_increaseStock : Changes increaseStock 1 := by
  intro m i q h hq h0 hmax
  unfold increaseStock
  rw [if_neg (by omega)]
  rcases h.getStockLevel i with ⟨hl, hz⟩ | ⟨hl, hlo, hhi⟩
  · rw [hl]
    have hsum : m.getStockLevel i + 1 * q = q := by omega
    rw [hsum] at hmax ⊢
    exact putItem_spec h i hq.le hmax
  · rw [hl]
    dsimp only
    rw [one_mul] at h0 hmax ⊢
    have hsum := putItem_spec h i h0 hmax
    unfold INT_MAX at hmax hhi
    rwa [← Binary64.add_ofInt (by rw [abs_lt]; omega) (by rw [abs_lt]; omega)] at hsum

theorem changes_decreaseStock : Changes decreaseStock (-1) := by
  intro m i q h hq h0 hmax
  unfold decreaseStock
  rw [if_neg (by omega)]
  rcases h.getStockLevel i with ⟨hl, hz⟩ | ⟨hl, hlo, hhi⟩
  · omega
  · rw [hl]
    dsimp only
    rw [neg_one_mul, ← sub_eq_add_neg] at h0 hmax ⊢
    have hdiff := putItem_spec h i h0 hmax
    unfold INT_MAX at hhi
    rw [Binary64.lt_ofInt (by rw [abs_lt]; omega) (by rw [abs_lt]; omega),
      if_neg (by rw [decide_eq_true_iff]; omega)]
    rwa [← Binary64.sub_ofInt (by rw [abs_lt]; omega) (by rw [abs_lt]; omega)] at hdiff

/-- a change of stock by a quantity that is not positive -/
def Refuses (change : InventoryManager → ℤ → ℤ → Bool × InventoryManager) : Prop :=
  ∀ m i q, q ≤ 0 → change m i q = (false, m)

theorem refuses_increaseStock : Refuses increaseStock := fun m i q hq => by
  unfold increaseStock
  rw [if_pos hq]

theorem refuses_decreaseStock : Refuses decreaseStock := fun m i q hq => by
  unfold decreaseStock
  rw [if_pos hq]

/-! ## the inventories of the clients -/

@[simp] theorem clientInventories_increaseStock (m : InventoryManager) (i q : ℤ) :
    (m.increaseStock i q).2.clientInventories = m.clientInventories := by
  unfold increaseStock
  split_ifs
  · rfl
  · split
    · exact clientInventories_putItem ..
    · exact clientInventories_putItem ..

@[simp] theorem clientInventories_decreaseStock (m : InventoryManager) (i q : ℤ) :
    (m.decreaseStock i q).2.clientInventories = m.clientInventories := by
  unfold decreaseStock
  split_ifs
  · rfl
  · split
    · rfl
    · split_ifs
      · rfl
      · exact clientInventories_putItem ..

theorem clientInventories_forNumbers {change : InventoryManager → ℤ → ℤ → Bool × InventoryManager}
    (hchange : ∀ m i q, (change m i q).2.clientInventories = m.clientInventories)
    (m : InventoryManager) (items : List (Option CString × Node)) :
    (forNumbers change m items).1.clientInventories = m.clientInventories := by
  fun_induction forNumbers change m items with
  | case1 m => rfl
  | case2 m d rest => rfl
  | case3 m d rest name e he => rfl
  | case4 m d rest name itemID hi ih => rw [ih, hchange]
  | case5 m x rest hx ih => exact ih

/-- a client that is there already is not added -/
theorem addClient_of_present {m : InventoryManager} {c : ℤ} {known : Option Node}
    (hc : m.clientInventories.find? c = some known) (inventory : Option Node) :
    m.addClient c inventory = (m, none) := by
  unfold addClient
  rw [SortedMap.contains_eq_true.mpr ⟨known, hc⟩, if_pos rfl]

/-- a new client is stored with a copy of its inventory, or with an empty one, and then its numbers
are added to the stock -/
theorem addClient_of_absent {m : InventoryManager} {c : ℤ}
    (hc : m.clientInventories.find? c = none) (inventory : Option Node) :
    m.addClient c inventory = forNumbers increaseStock
      (m.putClient c (inventory.elim (some (.object [])) Node.duplicate)) (children inventory) := by
  unfold addClient
  rw [SortedMap.contains_eq_false.mpr hc, if_neg Bool.false_ne_true]
  cases inventory <;> rfl

theorem removeClient_of_absent {m : InventoryManager} {c : ℤ}
    (hc : m.clientInventories.find? c = none) : m.removeClient c = (m, none) := by
  unfold removeClient
  rw [hc]

/-- the numbers of a client are taken from the stock, and then the client, unless there was an
exception -/
theorem removeClient_of_present {m : InventoryManager} {c : ℤ} {inventory : Option Node}
    (hc : m.clientInventories.find? c = some inventory) : m.removeClient c =
      let taken := forNumbers decreaseStock m (children inventory)
      (if taken.2 = none then
        { taken.1 with clientInventories := m.clientInventories.erase c } else taken.1, taken.2) := by
  have hclients := clientInventories_forNumbers clientInventories_decreaseStock m
    (children inventory)
  unfold removeClient
  simp only [hc]
  generalize forNumbers decreaseStock m (children inventory) = r at hclients
  obtain ⟨m', e⟩ := r
  dsimp only at hclients ⊢
  cases e with
  | none => rw [if_pos rfl, ← hclients]
  | some e => rfl

end InventoryManager

end Hub
