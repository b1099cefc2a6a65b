import Warehouse.Inventory.Failures

/-!
# The range of the stock

The levels are doubles that grow without a bound, and `getStockLevel`, `addClient` and
`removeClient` convert doubles to `int`, which is undefined outside its range.

* `InRange`              a conversion that is defined;
* `Above`                what a level is from `2^31` on; `above_add` adding keeps it there;
* `changeAll_increase`   where the additions of an inventory lead;
* `in_range_iff`         the runs in which all conversions are in range.
-/

namespace Hub
open Machine Text Numeric CJSON

namespace InventoryManager

/-! ## conversions -/

/-- a double whose whole part is an `int` -/
def InRange (d : Binary64) : Prop :=
  ∃ q h, d = .finite q h ∧ INT_MIN ≤ truncate q ∧ truncate q ≤ INT_MAX

/-- the doubles that the loop over an inventory converts, up to the first rejected key -/
def converted : List (Option CString × Node) → List Binary64
  | [] => []
  | (some key, .number d) :: items =>
    match stoi key.bytes with
    | .error _ => []
    | .ok _ => d :: converted items
  | (none, .number _) :: _ => []
  | _ :: items => converted items

/-- the conversions that an operation makes are in range -/
def ConversionsInRange (m : InventoryManager) : Op → Prop
  | .addClient c inventory => m.clientInventories.contains c = false →
    ∀ d ∈ converted (children inventory), InRange d
  | .removeClient c => ∀ inventory, m.clientInventories.find? c = some inventory →
    ∀ d ∈ converted (children inventory), InRange d
  | _ => True

/-- `getStockLevel` converts in range, and returns the amount stored -/
def LevelsInRange (m : InventoryManager) : Prop :=
  ∀ i d, m.level? i = some d → InRange d ∧ ∃ h, d = .finite (m.getStockLevel i) h

/-- a call of the run: `int` quantities, any inventories -/
def Op.IntCall : Op → Prop
  | .increaseStock i q => IsInt (.deposit i q)
  | .decreaseStock i q => IsInt (.withdraw i q)
  | .updateClientInventory _ _ => False
  | _ => True

/-- what a list of items and quantities adds to the level of an item -/
def gained (i : ℤ) (entries : List (ℤ × ℤ)) : ℤ :=
  (entries.map fun e => if i = e.1 then max e.2 0 else 0).sum

/-- what is added leads to no level above `int`, and what a new client brings is in range -/
def StaysInRange (m : InventoryManager) : Op → Prop
  | .addClient c inventory => m.clientInventories.contains c = false →
    (∀ d ∈ converted (children inventory), InRange d) ∧
      ∀ i, m.getStockLevel i + gained i (accepted (children inventory)) ≤ INT_MAX
  | .increaseStock i q => m.getStockLevel i + max q 0 ≤ INT_MAX
  | _ => True

/-- levels within `int`, and stored quantities in range -/
structure Ranged (m : InventoryManager) : Prop where
  levels : m.LevelsOk
  stored : ∀ c inventory, m.clientInventories.find? c = some inventory →
    ∀ d ∈ converted (children inventory), InRange d

theorem ranged_init : Ranged init where
  levels := fun _ _ h => by cases h
  stored := fun _ _ h => by cases h

theorem gained_cons (i : ℤ) (e : ℤ × ℤ) (entries : List (ℤ × ℤ)) :
    gained i (e :: entries) = (if i = e.1 then max e.2 0 else 0) + gained i entries := by
  rw [gained, List.map_cons, List.sum_cons, gained]

theorem gained_nonneg (i : ℤ) (entries : List (ℤ × ℤ)) : 0 ≤ gained i entries :=
  List.sum_nonneg fun x hx => by
    obtain ⟨e, -, rfl⟩ := List.mem_map.mp hx
    split_ifs
    · exact le_max_right ..
    · exact le_rfl

/-! ## levels out of range -/

/-- a level from `2^31` on -/
def Above (d : Binary64) : Prop :=
  d = .inf false ∨ ∃ q h, d = .finite q h ∧ (2 : ℚ) ^ (31 : ℤ) ≤ q

theorem not_inRange_of_above {d : Binary64} (h : Above d) : ¬ InRange d := by
  rintro ⟨q, hq, rfl, -, hmax⟩
  rcases h with h | ⟨q', hq', he, hlow⟩
  · cases h
  · cases he
    have hpos : ¬ q < 0 := not_lt.mpr (le_trans (by positivity) hlow)
    have hfloor : (2147483648 : ℤ) ≤ ⌊q⌋ := Int.le_floor.mpr (by
      have h31 : ((2147483648 : ℤ) : ℚ) = 2 ^ (31 : ℤ) := by norm_num
      rw [h31]
      exact hlow)
    rw [truncate, if_neg hpos] at hmax
    unfold INT_MAX at hmax
    omega

theorem above_ofRat {q : ℚ} (h : (2 : ℚ) ^ (31 : ℤ) ≤ q) : Above (Binary64.ofRat q) := by
  have hpos : ¬ q < 0 := not_lt.mpr (le_trans (by positivity) h)
  unfold Binary64.ofRat
  split_ifs with hfinite
  · exact Or.inr ⟨_, _, rfl, le_nearest_zpow (by norm_num) h⟩
  · left
    rw [decide_eq_false hpos]

/-- a level that is out of range stays out of range, whatever is added -/
theorem above_add {d : Binary64} (h : Above d) {q : ℤ} (hq : 0 ≤ q) (hmax : q ≤ INT_MAX) :
    Above (d.add (Binary64.ofInt q)) := by
  unfold INT_MAX at hmax
  rw [Binary64.ofInt_eq (by rw [abs_lt]; omega)]
  rcases h with rfl | ⟨a, ha, rfl, hlow⟩
  · exact Or.inl rfl
  · have hq' : (0 : ℚ) ≤ q := by exact_mod_cast hq
    exact above_ofRat (by linarith)

section
variable {m : InventoryManager} {entries : List (ℤ × ℤ)}

theorem level?_increaseStock (m : InventoryManager) (i q k : ℤ) :
    (m.increaseStock i q).2.level? k = if k = i ∧ 0 < q then
      some (match m.level? i with
        | none => Binary64.ofInt q
        | some d => d.add (Binary64.ofInt q))
    else m.level? k := by
  unfold increaseStock
  by_cases hq : q ≤ 0
  · rw [if_pos hq, if_neg fun h => absurd h.2 (not_lt.mpr hq)]
  · rw [if_neg hq]
    by_cases hk : k = i
    · rw [if_pos ⟨hk, not_le.mp hq⟩]
      cases m.level? i with
      | none => rw [level?_putItem, if_pos hk]
      | some d => rw [level?_putItem, if_pos hk]
    · rw [if_neg fun h => hk h.1]
      cases m.level? i with
      | none => rw [level?_putItem, if_neg hk]
      | some d => rw [level?_putItem, if_neg hk]

/-- the level of an item is out of range -/
def Overflown (m : InventoryManager) (i : ℤ) : Prop := ∃ d, m.level? i = some d ∧ Above d

theorem overflown_increaseStock {i : ℤ} (h : m.Overflown i) {k q : ℤ} (hq : IsInt (.withdraw k q)) :
    (m.increaseStock k q).2.Overflown i := by
  obtain ⟨d, hd, habove⟩ := h
  unfold Overflown
  rw [level?_increaseStock]
  by_cases hk : i = k ∧ 0 < q
  · rw [if_pos hk, ← hk.1, hd]
    exact ⟨_, rfl, above_add habove hk.2.le hq.2⟩
  · rw [if_neg hk]
    exact ⟨d, hd, habove⟩

theorem overflown_changeAll {i : ℤ} (h : m.Overflown i)
    (hint : ∀ e ∈ entries, IsInt (.withdraw e.1 e.2)) :
    (changeAll increaseStock m entries).Overflown i := by
  induction entries generalizing m with
  | nil => exact h
  | cons e entries ih =>
    exact ih (overflown_increaseStock h (hint e (List.mem_cons_self ..)))
      fun x hx => hint x (List.mem_cons_of_mem _ hx)

/-- the addition that leads out of range -/
theorem overflown_of_sum (hok : m.LevelsOk) {i q : ℤ} (hq : IsInt (.withdraw i q))
    (hsum : INT_MAX < m.getStockLevel i + max q 0) : (m.increaseStock i q).2.Overflown i := by
  have hlevel := hok.le_max i
  have hlo := hok.nonneg i
  have hpos : 0 < q := by omega
  obtain ⟨-, hhi⟩ : INT_MIN ≤ q ∧ q ≤ INT_MAX := hq
  rw [max_eq_left hpos.le] at hsum
  rcases hok.getStockLevel i with ⟨-, hz⟩ | ⟨hsome, -, -⟩
  · omega
  · unfold INT_MAX at hlevel hhi hsum
    refine ⟨_, (level?_increaseStock m i q i).trans (if_pos ⟨rfl, hpos⟩), ?_⟩
    rw [hsome]
    dsimp only
    rw [Binary64.add_ofInt (by rw [abs_lt]; omega) (by rw [abs_lt]; omega)]
    apply above_ofRat
    have h31 : ((2147483648 : ℤ) : ℚ) = 2 ^ (31 : ℤ) := by norm_num
    rw [← h31]
    exact_mod_cast (by omega : (2147483648 : ℤ) ≤ m.getStockLevel i + q)

/-- **The additions of an inventory.**  The levels stay within `int` where the sums do; otherwise a
level is out of range at the end. -/
theorem changeAll_increase (hok : m.LevelsOk) (hint : ∀ e ∈ entries, IsInt (.withdraw e.1 e.2)) :
    ((∀ i, m.getStockLevel i + gained i entries ≤ INT_MAX) →
      (changeAll increaseStock m entries).LevelsOk) ∧
    ((¬ ∀ i, m.getStockLevel i + gained i entries ≤ INT_MAX) →
      ∃ i, (changeAll increaseStock m entries).Overflown i) := by
  induction entries generalizing m with
  | nil =>
    refine ⟨fun _ => hok, fun hno => absurd (fun i => ?_) hno⟩
    show m.getStockLevel i + 0 ≤ INT_MAX
    rw [add_zero]
    exact hok.le_max i
  | cons e entries ih =>
    obtain ⟨k, q⟩ := e
    have hq : IsInt (.withdraw k q) := hint (k, q) (List.mem_cons_self ..)
    have hrest : ∀ e ∈ entries, IsInt (.withdraw e.1 e.2) := fun e he =>
      hint e (List.mem_cons_of_mem _ he)
    rw [changeAll_cons]
    by_cases hsum : m.getStockLevel k + max q 0 ≤ INT_MAX
    · have hlevel := hok.nonneg k
      obtain ⟨hok', hlev⟩ := change_spec changes_increaseStock refuses_increaseStock hok (i := k)
        (q := q) (by omega) (by omega)
      have htotal : ∀ i, (m.increaseStock k q).2.getStockLevel i + gained i entries
          = m.getStockLevel i + gained i ((k, q) :: entries) := by
        intro i
        rw [hlev i, gained_cons]
        ring
      have hnext := ih hok' hrest
      simp only [htotal] at hnext
      exact hnext
    · -- the first sum that is too large
      have hover := overflown_of_sum hok hq (not_le.mp hsum)
      refine ⟨fun hall => ?_, fun _ => ⟨k, overflown_changeAll hover hrest⟩⟩
      have hk := hall k
      have hnonneg := gained_nonneg k entries
      rw [gained_cons, if_pos rfl] at hk
      omega

theorem levelsInRange_of_ok (h : m.LevelsOk) : m.LevelsInRange := by
  intro i d hd
  rcases h.getStockLevel i with ⟨hnone, -⟩ | ⟨hsome, h0, hmax⟩
  · rw [hnone] at hd
    cases hd
  · rw [hsome] at hd
    obtain rfl := Option.some.inj hd
    unfold INT_MAX at hmax
    have hsmall : |m.getStockLevel i| < 2 ^ 53 := by rw [abs_lt]; omega
    have hfinite := Binary64.ofInt_eq hsmall
    refine ⟨⟨_, _, hfinite, ?_⟩, _, hfinite⟩
    rw [truncate_intCast]
    unfold INT_MIN INT_MAX
    omega

theorem not_levelsInRange {i : ℤ} (h : m.Overflown i) : ¬ m.LevelsInRange := by
  obtain ⟨d, hd, habove⟩ := h
  exact fun hin => not_inRange_of_above habove (hin i d hd).1

end

/-! ## one call -/

section
variable {m : InventoryManager} {c : ℤ} {inventory : Option Node}

/-- the inventory of a new client is stored with the same doubles, or not at all -/
theorem converted_stored {stored : Option Node}
    (h : inventory.elim (some (.object [])) Node.duplicate = stored) {d : Binary64}
    (hd : d ∈ converted (children stored)) : d ∈ converted (children inventory) := by
  cases inventory with
  | none =>
    obtain rfl : some (.object []) = stored := h
    cases hd
  | some j =>
    have hdup : j.duplicate = stored := h
    cases stored with
    | none => cases hd
    | some j' => rwa [Node.duplicate_some hdup] at hd

/-- a new client: in range exactly where its quantities and the sums are -/
theorem addClient_range (h : m.Ranged) :
    (ConversionsInRange m (.addClient c inventory) ∧ (m.addClient c inventory).1.LevelsInRange ↔
      StaysInRange m (.addClient c inventory)) ∧
    (StaysInRange m (.addClient c inventory) → (m.addClient c inventory).1.Ranged) := by
  simp only [ConversionsInRange, StaysInRange]
  cases hc : m.clientInventories.find? c with
  | some known =>
    have hcontains : m.clientInventories.contains c = true :=
      SortedMap.contains_eq_true.mpr ⟨known, hc⟩
    rw [addClient_of_present hc, hcontains]
    exact ⟨iff_of_true ⟨fun e => (by cases e), levelsInRange_of_ok h.levels⟩ fun e => (by cases e),
      fun _ => h⟩
  | none =>
    have hcontains : m.clientInventories.contains c = false := SortedMap.contains_eq_false.mpr hc
    rw [addClient_of_absent hc, hcontains]
    simp only [true_imp_iff]
    generalize hstored : inventory.elim (some (.object [])) Node.duplicate = stored
    have hclients := clientInventories_forNumbers clientInventories_increaseStock
      (m.putClient c stored) (children inventory)
    rw [(forNumbers_eq increaseStock (m.putClient c stored) (children inventory)).1] at hclients ⊢
    have hlevels : (m.putClient c stored).LevelsOk := h.levels
    obtain ⟨hgood, hbad⟩ := changeAll_increase hlevels (accepted_isInt (children inventory))
    refine ⟨and_congr_right fun _ => ⟨fun hin => ?_, fun hsum => ?_⟩, ?_⟩
    · by_contra hno
      obtain ⟨i, hover⟩ := hbad hno
      exact not_levelsInRange hover hin
    · exact levelsInRange_of_ok (hgood hsum)
    · rintro ⟨hconverted, hsum⟩
      refine ⟨hgood hsum, fun c' inventory' hc' d hd => ?_⟩
      rw [hclients] at hc'
      rcases SortedMap.find?_insert_cases hc' with ⟨-, rfl⟩ | ⟨-, hold⟩
      · exact hconverted d (converted_stored hstored hd)
      · exact h.stored c' inventory' hold d hd

/-- a removal stays in range -/
theorem removeClient_range (h : m.Ranged) (c : ℤ) : (m.removeClient c).1.Ranged := by
  cases hc : m.clientInventories.find? c with
  | none =>
    rw [removeClient_of_absent hc]
    exact h
  | some inventory =>
    have hok := levelsOk_taken h.levels (children inventory)
    have hclients := clientInventories_forNumbers clientInventories_decreaseStock m
      (children inventory)
    rw [removeClient_of_present hc]
    dsimp only
    split_ifs
    · exact ⟨hok, fun c' inventory' hc' => h.stored c' inventory' (SortedMap.find?_erase_some hc').2⟩
    · exact ⟨hok, fun c' inventory' hc' => h.stored c' inventory' (hclients ▸ hc')⟩

end

/-- one call from a store in range: its conversions and the levels after it are in range exactly
when it stays in range -/
theorem range_step (m : InventoryManager) (op : Op) (h : m.Ranged) (hint : op.IntCall) :
    (ConversionsInRange m op ∧ (m.step op).LevelsInRange ↔ StaysInRange m op) ∧
      (StaysInRange m op → (m.step op).Ranged) := by
  cases op with
  | addClient c inventory => exact addClient_range h
  | removeClient c =>
    have hnext := removeClient_range h c
    exact ⟨iff_of_true ⟨h.stored c, levelsInRange_of_ok hnext.levels⟩ trivial, fun _ => hnext⟩
  | updateClientInventory c inventory => exact hint.elim
  | increaseStock i q =>
    show (True ∧ (m.increaseStock i q).2.LevelsInRange ↔ m.getStockLevel i + max q 0 ≤ INT_MAX) ∧ _
    rw [true_and]
    by_cases hsum : m.getStockLevel i + max q 0 ≤ INT_MAX
    · have hlevel := h.levels.nonneg i
      have hnext := change_spec changes_increaseStock refuses_increaseStock h.levels (i := i)
        (q := q) (by omega) (by omega)
      refine ⟨iff_of_true (levelsInRange_of_ok hnext.1) hsum, fun _ => ⟨hnext.1, ?_⟩⟩
      intro c inventory hc
      exact h.stored c inventory ((clientInventories_increaseStock m i q) ▸ hc)
    · have hover := overflown_of_sum h.levels hint (not_le.mp hsum)
      exact ⟨iff_of_false (not_levelsInRange hover) hsum, fun hstays => absurd hstays hsum⟩
  | decreaseStock i q =>
    have hok := (decreaseStock_spec h.levels hint).1
    refine ⟨iff_of_true ⟨trivial, levelsInRange_of_ok hok⟩ trivial, fun _ => ⟨hok, ?_⟩⟩
    intro c inventory hc
    exact h.stored c inventory ((clientInventories_decreaseStock m i q) ▸ hc)

/-! ## every run -/

/-- **When all conversions are in range.**  In every run of calls with `int` quantities and any
inventories: every conversion of a quantity, and of a level in any state, is in range, and
`getStockLevel` returns the amount stored, exactly when each increase, and each new client, leads to
no level above `INT_MAX`, and a new client brings only numbers whose whole part is an `int`. -/
theorem in_range_iff (ops : List Op) (hint : Along step (fun _ => Op.IntCall) init ops) :
    Always step LevelsInRange init ops ∧ Along step ConversionsInRange init ops ↔
      Along step StaysInRange init ops := by
  have hinit : init.LevelsInRange := levelsInRange_of_ok ranged_init.levels
  rw [always_and_along, and_iff_right hinit]
  exact along_iff_along (fun m op h hl => (range_step m op h hl).1)
    (fun m op h hl hstays => (range_step m op h hl).2 hstays) ranged_init hint

/-- the hypothesis can be met: seven pieces in, two out -/
theorem in_range_iff_example :
    Always step LevelsInRange init [.increaseStock 3 7, .decreaseStock 3 2] ∧
        Along step ConversionsInRange init [.increaseStock 3 7, .decreaseStock 3 2]
      ↔ Along step StaysInRange init [.increaseStock 3 7, .decreaseStock 3 2] :=
  in_range_iff [.increaseStock 3 7, .decreaseStock 3 2]
    ⟨⟨by decide, by decide⟩, ⟨by decide, by decide⟩, trivial⟩

/-- The largest `int` is added twice: `getStockLevel` converts a double that is no `int`. -/
theorem level_out_of_range :
    ¬ ∀ ops, Along step (fun _ => Op.IntCall) init ops →
      Always step LevelsInRange init ops ∧ Along step ConversionsInRange init ops := by
  intro h
  have hmax : Op.IntCall (.increaseStock 3 INT_MAX) := ⟨by decide, by decide⟩
  have hlast := (h [.increaseStock 3 INT_MAX, .increaseStock 3 INT_MAX] ⟨hmax, hmax, trivial⟩).1.2.2
  have hfirst : StaysInRange init (.increaseStock 3 INT_MAX) := by
    show (0 : ℤ) + max INT_MAX 0 ≤ INT_MAX
    decide
  have hranged := (range_step init _ ranged_init hmax).2 hfirst
  have hstays := (range_step _ _ hranged hmax).1.mp ⟨trivial, hlast⟩
  have hlevel : (init.increaseStock 3 INT_MAX).2.getStockLevel 3 = INT_MAX := by
    have hspec := change_spec changes_increaseStock refuses_increaseStock ranged_init.levels
      (i := 3) (q := INT_MAX) (by decide) (by decide)
    rw [hspec.2 3]
    decide
  have hsum : (init.increaseStock 3 INT_MAX).2.getStockLevel 3 + max INT_MAX 0 ≤ INT_MAX := hstays
  rw [hlevel] at hsum
  exact absurd hsum (by decide)

end InventoryManager

end Hub
