import Warehouse.Inventory.Quantities
import Warehouse.Inventory.Stock

/-!
# Calls that fail in the middle

`addClient` and `removeClient` change the stock entry by entry, and a key that `std::stoi` rejects
ends the loop with an exception.

* `accepted`             the items and quantities before the first rejected key;
* `forNumbers_eq`        what the loop leaves, and when it throws;
* `Atomic`               a call that throws leaves the clients and the levels alone;
* `Lowers`               a quantity that the level covers and that is not lost in its rounding;
* `Unharmed`             nothing has been changed yet where a key is rejected;
* `atomic_iff`           in every run, calls are atomic where they are unharmed, and nowhere else.
-/

namespace Hub
open Machine Text Numeric CJSON

namespace InventoryManager

/-- the items and quantities the loop has handled where it ends -/
def accepted : List (Option CString × Node) → List (ℤ × ℤ)
  | [] => []
  | (some key, .number d) :: items =>
    match stoi key.bytes with
    | .error _ => []
    | .ok itemID => (itemID, castInt d) :: accepted items
  | (none, .number _) :: _ => []
  | _ :: items => accepted items

/-- The level of an item covers a quantity, which is positive, and is another double without it.  (A
double above `2^53` may absorb a quantity.) -/
def Lowers (m : InventoryManager) (itemID quantity : ℤ) : Prop :=
  0 < quantity ∧ ∃ d, m.level? itemID = some d ∧ d.lt (Binary64.ofInt quantity) = false ∧
    d.sub (Binary64.ofInt quantity) ≠ d

/-- what a call on a client throws -/
def thrown (m : InventoryManager) : Op → Option StoiError
  | .addClient c inventory => (m.addClient c inventory).2
  | .removeClient c => (m.removeClient c).2
  | _ => none

/-- a call that throws leaves the clients, their inventories and the stored levels as they are -/
def Atomic (m : InventoryManager) (op : Op) : Prop :=
  m.thrown op ≠ none → (m.step op).clientInventories = m.clientInventories ∧
    ∀ i, (m.step op).level? i = m.level? i

/-- a new client comes with keys that are accepted; of a client that goes, all keys are accepted, or
no item before the first rejected key lowers a level -/
def Unharmed (m : InventoryManager) : Op → Prop
  | .addClient c inventory =>
    m.clientInventories.contains c = true ∨ Readable (children inventory)
  | .removeClient c => ∀ inventory, m.clientInventories.find? c = some inventory →
    Readable (children inventory) ∨ ∀ e ∈ accepted (children inventory), ¬ m.Lowers e.1 e.2
  | _ => True

/-! ## the loop -/

/-- a change of stock for each of the entries -/
def changeAll (change : InventoryManager → ℤ → ℤ → Bool × InventoryManager) (m : InventoryManager)
    (entries : List (ℤ × ℤ)) : InventoryManager :=
  entries.foldl (fun m e => (change m e.1 e.2).2) m

theorem changeAll_cons (change : InventoryManager → ℤ → ℤ → Bool × InventoryManager)
    (m : InventoryManager) (e : ℤ × ℤ) (entries : List (ℤ × ℤ)) :
    changeAll change m (e :: entries) = changeAll change (change m e.1 e.2).2 entries := rfl

theorem Readable.head {name : Option CString} {d : Binary64} {items : List (Option CString × Node)}
    (h : Readable ((name, .number d) :: items)) :
    ∃ key itemID, name = some key ∧ stoi key.bytes = .ok itemID :=
  h name d (List.mem_cons_self ..)

theorem readable_number_iff {key : CString} {itemID : ℤ} (h : stoi key.bytes = .ok itemID)
    (d : Binary64) (items : List (Option CString × Node)) :
    Readable ((some key, .number d) :: items) ↔ Readable items := by
  refine ⟨Readable.tail, fun hread name d' hmem => ?_⟩
  rcases List.mem_cons.mp hmem with e | hmem
  · cases e
    exact ⟨key, itemID, rfl, h⟩
  · exact hread name d' hmem

theorem readable_other_iff {name : Option CString} {j : Node} (h : ∀ d, j ≠ .number d)
    (items : List (Option CString × Node)) : Readable ((name, j) :: items) ↔ Readable items := by
  refine ⟨Readable.tail, fun hread name' d hmem => ?_⟩
  rcases List.mem_cons.mp hmem with e | hmem
  · cases e
    exact absurd rfl (h d)
  · exact hread name' d hmem

/-- The loop makes the changes up to the first rejected key, and throws exactly where there is one. -/
theorem forNumbers_eq (change : InventoryManager → ℤ → ℤ → Bool × InventoryManager)
    (m : InventoryManager) (items : List (Option CString × Node)) :
    (forNumbers change m items).1 = changeAll change m (accepted items) ∧
      ((forNumbers change m items).2 = none ↔ Readable items) := by
  fun_induction forNumbers change m items with
  | case1 m => exact ⟨rfl, fun _ _ _ hmem => (by cases hmem), fun _ => rfl⟩
  | case2 m d rest =>
    refine ⟨rfl, fun e => (by cases e), fun hread => ?_⟩
    obtain ⟨key, itemID, hname, -⟩ := hread.head
    cases hname
  | case3 m d rest name e he =>
    constructor
    · unfold accepted
      rw [he]
      rfl
    · refine ⟨fun e => (by cases e), fun hread => ?_⟩
      obtain ⟨key, itemID, hname, hkey⟩ := hread.head
      cases hname
      rw [he] at hkey
      cases hkey
  | case4 m d rest name itemID hi ih =>
    obtain ⟨hstate, hthrow⟩ := ih
    constructor
    · rw [hstate, accepted]
      simp only [hi]
      rfl
    · rw [hthrow, readable_number_iff hi]
  | case5 m x rest hx ih =>
    obtain ⟨name, j⟩ := x
    have hj : ∀ d, j ≠ .number d := fun d e => hx name d (by rw [e])
    obtain ⟨hstate, hthrow⟩ := ih
    constructor
    · rw [hstate]
      cases j with
      | number d => exact absurd rfl (hj d)
      | _ => cases name <;> rfl
    · rw [hthrow, readable_other_iff hj]

/-! ## what is taken off -/

section
variable {m : InventoryManager} {i q : ℤ} {entries : List (ℤ × ℤ)}

theorem putFirst_self {es : List (CString × Binary64)} {d : Binary64} (h : entry? es i = some d) :
    putFirst i d es = es := by
  induction es with
  | nil => rfl
  | cons e es ih =>
    rw [entry?_cons] at h
    rw [putFirst]
    split_ifs at h ⊢
    · rw [← Option.some.inj h]
    · rw [ih h]

/-- a level is written as it was -/
theorem putItem_self {d : Binary64} (h : m.level? i = some d) : m.putItem i d = m := by
  unfold putItem
  rw [h]
  dsimp only
  rw [putFirst_self h]

/-- what a subtraction does: it is refused, or the level covers the quantity -/
theorem decreaseStock_cases (m : InventoryManager) (i q : ℤ) :
    (m.decreaseStock i q).2 = m ∨ 0 < q ∧ ∃ d, m.level? i = some d ∧
      d.lt (Binary64.ofInt q) = false ∧
      (m.decreaseStock i q).2 = m.putItem i (d.sub (Binary64.ofInt q)) := by
  unfold decreaseStock
  by_cases hq : q ≤ 0
  · rw [if_pos hq]
    exact Or.inl rfl
  · rw [if_neg hq]
    cases hl : m.level? i with
    | none => exact Or.inl rfl
    | some d =>
      dsimp only
      cases hlt : d.lt (Binary64.ofInt q) with
      | true => exact Or.inl rfl
      | false => exact Or.inr ⟨not_le.mp hq, d, rfl, hlt, rfl⟩

/-- a quantity that lowers no level is refused, or its subtraction changes nothing -/
theorem decreaseStock_of_not_lowers (h : ¬ m.Lowers i q) : (m.decreaseStock i q).2 = m := by
  rcases decreaseStock_cases m i q with e | ⟨h0, d, hl, hlt, e⟩
  · exact e
  · have hsame : d.sub (Binary64.ofInt q) = d := not_not.mp fun hne => h ⟨h0, d, hl, hlt, hne⟩
    rw [e, hsame, putItem_self hl]

theorem changeAll_of_not_lowers (h : ∀ e ∈ entries, ¬ m.Lowers e.1 e.2) :
    changeAll decreaseStock m entries = m := by
  induction entries with
  | nil => rfl
  | cons e entries ih =>
    rw [changeAll_cons, decreaseStock_of_not_lowers (h e (List.mem_cons_self ..))]
    exact ih fun e he => h e (List.mem_cons_of_mem _ he)

/-- an `int` as a double -/
theorem ofInt_of_isInt (hq : IsInt (.withdraw i q)) :
    ∃ h, Binary64.ofInt q = .finite q h := by
  obtain ⟨hlo, hhi⟩ : INT_MIN ≤ q ∧ q ≤ INT_MAX := hq
  have hsmall : |q| < 2 ^ 53 := by
    unfold INT_MIN at hlo
    unfold INT_MAX at hhi
    rw [abs_lt]
    omega
  exact ⟨representable_int hsmall, Binary64.ofInt_eq hsmall⟩

/-- what a double covers, as a subtraction of rationals -/
theorem sub_of_covered {x : ℚ} {hx : Representable x} (h0 : 0 < q) (hq : IsInt (.withdraw i q))
    (hlt : (Binary64.finite x hx).lt (Binary64.ofInt q) = false) :
    ∃ y hy, (Binary64.finite x hx).sub (Binary64.ofInt q) = .finite y hy ∧ y ≤ x := by
  obtain ⟨hq', he⟩ := ofInt_of_isInt hq
  rw [he, Binary64.lt_finite, decide_eq_false_iff_not, not_lt] at hlt
  rw [he]
  exact Binary64.sub_of_le hx hq' (by exact_mod_cast h0.le) hlt

/-- a level that is a number does not rise -/
theorem level?_decreaseStock_le {k : ℤ} {x : ℚ} {hx : Representable x}
    (h : m.level? k = some (.finite x hx)) (hq : IsInt (.withdraw i q)) :
    ∃ y hy, (m.decreaseStock i q).2.level? k = some (.finite y hy) ∧ y ≤ x := by
  rcases decreaseStock_cases m i q with e | ⟨h0, d, hl, hlt, e⟩
  · exact ⟨x, hx, e.symm ▸ h, le_rfl⟩
  · rw [e, level?_putItem]
    by_cases hk : k = i
    · rw [hk, hl] at h
      obtain rfl := Option.some.inj h
      obtain ⟨y, hy, hsub, hle⟩ := sub_of_covered h0 hq hlt
      rw [if_pos hk, hsub]
      exact ⟨y, hy, rfl, hle⟩
    · rw [if_neg hk]
      exact ⟨x, hx, h, le_rfl⟩

theorem level?_changeAll_le {k : ℤ} {x : ℚ} {hx : Representable x}
    (h : m.level? k = some (.finite x hx))
    (hint : ∀ e ∈ entries, IsInt (.withdraw e.1 e.2)) :
    ∃ y hy, (changeAll decreaseStock m entries).level? k = some (.finite y hy) ∧ y ≤ x := by
  induction entries generalizing m x with
  | nil => exact ⟨x, hx, h, le_rfl⟩
  | cons e entries ih =>
    obtain ⟨y, hy, hlevel, hle⟩ := level?_decreaseStock_le h (hint e (List.mem_cons_self ..))
    obtain ⟨z, hz, hlast, hle'⟩ := ih hlevel fun e he => hint e (List.mem_cons_of_mem _ he)
    exact ⟨z, hz, hlast, hle'.trans hle⟩

/-- what is lowered was a number and is a smaller one -/
theorem Lowers.level? (h : m.Lowers i q) (hq : IsInt (.withdraw i q)) :
    ∃ x hx y hy, m.level? i = some (.finite x hx) ∧
      (m.decreaseStock i q).2.level? i = some (.finite y hy) ∧ y < x := by
  obtain ⟨h0, d, hl, hlt, hne⟩ := h
  have hafter : (m.decreaseStock i q).2.level? i = some (d.sub (Binary64.ofInt q)) := by
    unfold decreaseStock
    rw [if_neg (not_le.mpr h0), hl]
    dsimp only
    rw [hlt, if_neg Bool.false_ne_true]
    show (m.putItem i (d.sub (Binary64.ofInt q))).level? i = _
    rw [level?_putItem, if_pos rfl]
  obtain ⟨hq', he⟩ := ofInt_of_isInt hq
  cases d with
  | finite x hx =>
    obtain ⟨y, hy, hsub, hle⟩ := sub_of_covered h0 hq hlt
    rw [hsub] at hafter hne
    refine ⟨x, hx, y, hy, hl, hafter, lt_of_le_of_ne hle fun hxy => hne ?_⟩
    cases hxy
    rfl
  | inf s =>
    rw [he] at hne
    exact absurd rfl hne
  | nan => exact absurd rfl hne

/-- what lowers a level changes it for good -/
theorem exists_changed_of_lowers (hint : ∀ e ∈ entries, IsInt (.withdraw e.1 e.2)) {e : ℤ × ℤ}
    (he : e ∈ entries) (h : m.Lowers e.1 e.2) :
    ∃ k, (changeAll decreaseStock m entries).level? k ≠ m.level? k := by
  induction entries with
  | nil => cases he
  | cons x entries ih =>
    have hx := hint x (List.mem_cons_self ..)
    have hrest : ∀ e ∈ entries, IsInt (.withdraw e.1 e.2) := fun e he =>
      hint e (List.mem_cons_of_mem _ he)
    by_cases hlowers : m.Lowers x.1 x.2
    · obtain ⟨a, ha, b, hb, hbefore, hafter, hlt⟩ := hlowers.level? hx
      obtain ⟨c, hc, hlast, hle⟩ := level?_changeAll_le hafter hrest
      refine ⟨x.1, fun hsame => ?_⟩
      rw [changeAll_cons, hlast, hbefore] at hsame
      cases hsame
      exact absurd hlt (not_lt.mpr hle)
    · rw [changeAll_cons, decreaseStock_of_not_lowers hlowers]
      rcases List.mem_cons.mp he with rfl | he
      · exact absurd h hlowers
      · exact ih hrest he

/-- the levels stay numbers of items -/
theorem changeAll_levelsOk (hok : m.LevelsOk) (hint : ∀ e ∈ entries, IsInt (.withdraw e.1 e.2)) :
    (changeAll decreaseStock m entries).LevelsOk := by
  induction entries generalizing m with
  | nil => exact hok
  | cons e entries ih =>
    exact ih (decreaseStock_spec hok (hint e (List.mem_cons_self ..))).1 fun e he =>
      hint e (List.mem_cons_of_mem _ he)

theorem accepted_isInt (items : List (Option CString × Node)) :
    ∀ e ∈ accepted items, IsInt (.withdraw e.1 e.2) := by
  fun_induction accepted items with
  | case1 => exact fun e he => (by cases he)
  | case2 key d rest e he => exact fun e he => (by cases he)
  | case3 key d rest itemID hi ih =>
    intro e he
    rcases List.mem_cons.mp he with rfl | he
    · exact castInt_isInt d
    · exact ih e he
  | case4 d rest => exact fun e he => (by cases he)
  | case5 x rest h1 h2 ih => exact ih

/-- what is left of the levels while an inventory is taken off -/
theorem levelsOk_taken (hok : m.LevelsOk) (items : List (Option CString × Node)) :
    (forNumbers decreaseStock m items).1.LevelsOk := by
  rw [(forNumbers_eq decreaseStock m items).1]
  exact changeAll_levelsOk hok (accepted_isInt items)

end

/-! ## one call -/

section
variable {m : InventoryManager} {c : ℤ} {inventory : Option Node}

/-- a call that throws on a new client has already stored it -/
theorem atomic_addClient_iff :
    m.Atomic (.addClient c inventory) ↔ m.Unharmed (.addClient c inventory) := by
  show (m.addClient c inventory).2 ≠ none → _ ↔ _
  cases hc : m.clientInventories.find? c with
  | some known =>
    rw [addClient_of_present hc]
    exact iff_of_true (fun e => absurd rfl e) (Or.inl (SortedMap.contains_eq_true.mpr ⟨known, hc⟩))
  | none =>
    have hcontains : m.clientInventories.contains c = false := SortedMap.contains_eq_false.mpr hc
    have hcode := addClient_of_absent hc inventory
    generalize inventory.elim (some (.object [])) Node.duplicate = stored at hcode
    have hthrow := (forNumbers_eq increaseStock (m.putClient c stored) (children inventory)).2
    have hclients := clientInventories_forNumbers clientInventories_increaseStock
      (m.putClient c stored) (children inventory)
    rw [← hcode] at hthrow hclients
    constructor
    · intro hatomic
      right
      by_contra hread
      have hkept : (m.addClient c inventory).1.clientInventories = m.clientInventories :=
        (hatomic fun e => hread (hthrow.mp e)).1
      have hnew : (m.addClient c inventory).1.clientInventories.find? c = some stored := by
        rw [hclients]
        exact SortedMap.find?_insert_self ..
      rw [hkept, hc] at hnew
      cases hnew
    · intro h hne
      rcases h with h | hread
      · rw [hcontains] at h
        cases h
      · exact absurd (hthrow.mpr hread) hne

/-- what a removal throws, and what it leaves then -/
theorem removeClient_known (hc : m.clientInventories.find? c = some inventory) :
    (m.thrown (.removeClient c) = none ↔ Readable (children inventory)) ∧
    (m.thrown (.removeClient c) ≠ none →
      m.step (.removeClient c) = changeAll decreaseStock m (accepted (children inventory))) := by
  obtain ⟨hstate, hthrow⟩ := forNumbers_eq decreaseStock m (children inventory)
  show ((m.removeClient c).2 = none ↔ _) ∧ ((m.removeClient c).2 ≠ none → (m.removeClient c).1 = _)
  rw [removeClient_of_present hc]
  refine ⟨hthrow, fun hne => ?_⟩
  dsimp only at hne ⊢
  rw [if_neg hne]
  exact hstate

theorem thrown_removeClient_unknown (hc : m.clientInventories.find? c = none) :
    m.thrown (.removeClient c) = none := by
  show (m.removeClient c).2 = none
  rw [removeClient_of_absent hc]

theorem atomic_removeClient (h : m.Unharmed (.removeClient c)) : m.Atomic (.removeClient c) := by
  intro hne
  cases hc : m.clientInventories.find? c with
  | none => exact absurd (thrown_removeClient_unknown hc) hne
  | some inventory =>
    obtain ⟨hthrow, hstate⟩ := removeClient_known hc
    rcases h inventory hc with hread | hnone
    · exact absurd (hthrow.mpr hread) hne
    · rw [hstate hne, changeAll_of_not_lowers hnone]
      exact ⟨rfl, fun i => rfl⟩

theorem unharmed_removeClient (h : m.Atomic (.removeClient c)) :
    m.Unharmed (.removeClient c) := by
  intro inventory hc
  obtain ⟨hthrow, hstate⟩ := removeClient_known hc
  by_cases hread : Readable (children inventory)
  · exact Or.inl hread
  · right
    intro e he hlowers
    have hne : m.thrown (.removeClient c) ≠ none := fun e => hread (hthrow.mp e)
    have hsame := (h hne).2
    rw [hstate hne] at hsame
    obtain ⟨k, hk⟩ := exists_changed_of_lowers (accepted_isInt _) he hlowers
    exact hk (hsame k)

theorem atomic_step_iff (m : InventoryManager) (op : Op) : m.Atomic op ↔ m.Unharmed op := by
  cases op with
  | addClient c inventory => exact atomic_addClient_iff
  | removeClient c => exact ⟨unharmed_removeClient, atomic_removeClient⟩
  | _ => exact iff_of_true (fun e => absurd rfl e) trivial

end

/-! ## every run -/

/-- **When failures are atomic.**  In every run, the calls that throw leave clients, inventories and
levels alone exactly if each call is unharmed: a new client comes with accepted keys, and a removal
that meets a rejected key has lowered no level before it. -/
theorem atomic_iff (ops : List Op) : Along step Atomic init ops ↔ Along step Unharmed init ops :=
  along_iff_along (I := fun _ => True) (fun m op _ _ => atomic_step_iff m op)
    (fun _ _ _ _ _ => trivial) trivial (along_true init ops)

/-- the rejected key comes first -/
def boltFirst : Node :=
  .object [(.lit ['b', 'o', 'l', 't'], .number (Binary64.ofInt 5)),
    (.lit ['7'], .number (Binary64.ofInt 5))]

/-- there is stock, and the client cannot be removed -/
def boltRun : List Op :=
  [.increaseStock 7 10, .addClient 1 none, .updateClientInventory 1 (some boltFirst),
    .removeClient 1, .removeClient 1]

theorem accepted_boltFirst : accepted (children boltFirst.duplicate) = [] := by
  rw [Node.duplicate_eq (by decide)]
  rfl

theorem removeClient_boltRun {m : InventoryManager}
    (hc : m.clientInventories.find? 1 = some boltFirst.duplicate) :
    m.Unharmed (.removeClient 1) ∧ m.thrown (.removeClient 1) ≠ none ∧
      m.step (.removeClient 1) = m := by
  obtain ⟨hthrow, hstate⟩ := removeClient_known hc
  have hno : ¬ Readable (children boltFirst.duplicate) := by
    rw [Node.duplicate_eq (by decide)]
    intro hread
    obtain ⟨key, itemID, hname, hkey⟩ := Readable.head hread
    cases hname
    cases hkey
  have hne : m.thrown (.removeClient 1) ≠ none := fun e => hno (hthrow.mp e)
  refine ⟨fun inventory hfind => Or.inr ?_, hne, ?_⟩
  · rw [hc] at hfind
    obtain rfl := Option.some.inj hfind
    rw [accepted_boltFirst]
    exact List.forall_mem_nil _
  · rw [hstate hne, accepted_boltFirst]
    rfl

/-- The removal throws, twice, and the stock stays. -/
theorem atomic_iff_example :
    let m := run step init (boltRun.take 3)
    m.level? 7 = some (Binary64.ofInt 10) ∧ m.thrown (.removeClient 1) ≠ none ∧
      Along step Atomic init boltRun := by
  intro m
  have hc : m.clientInventories.find? 1 = some boltFirst.duplicate := rfl
  obtain ⟨hunharmed, hthrown, hsame⟩ := removeClient_boltRun hc
  refine ⟨rfl, hthrown, (atomic_iff boltRun).mpr ⟨trivial, Or.inr ?_, trivial, hunharmed, ?_, trivial⟩⟩
  · exact fun _ _ hmem => by cases hmem
  · show (m.step (.removeClient 1)).Unharmed _
    rw [hsame]
    exact hunharmed

/-- an inventory with a name that is no number -/
def namedInventory : Node := .object [(.lit ['b', 'o', 'l', 't'], .number (Binary64.ofInt 5))]

/-- the client is there although the call has thrown -/
theorem failed_addClient_stays :
    ¬ ∀ ops op, Atomic (run step init ops) op := by
  intro h
  have hatomic := atomic_addClient_iff.mp (h [] (.addClient 1 (some namedInventory)))
  rcases hatomic with hknown | hread
  · cases hknown
  · obtain ⟨key, itemID, hname, hkey⟩ := Readable.head hread
    cases hname
    cases hkey

end InventoryManager

end Hub
