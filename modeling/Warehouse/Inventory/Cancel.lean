import Warehouse.Inventory.Quantities

/-!
# Adding and removing a client cancel out

What the stock keeper is for, as far as nothing is taken out by hand: a `Book` of the inventories of
the clients that are present, and of what was put in besides.  The level of an item is the sum.

* `Book`, `Book.level`, `Book.step`   the abstract stock;
* `keeps_step`           the code keeps its levels and its clients, whatever the inventories list;
* `Book.run_cancel`      in the book, a client that enters and leaves changes nothing;
* `add_remove_cancel`    nor does it in the code.
-/

namespace Hub
open Machine Text Numeric CJSON

/-- the inventories of the clients, and what was put in besides -/
structure Book where
  clients : SortedMap ℤ (Option Node)
  extra : ℤ → ℤ

namespace Book
open InventoryManager

def empty : Book := ⟨SortedMap.empty, fun _ => 0⟩

/-- what the clients hold of an item -/
def holding (b : Book) (i : ℤ) : ℤ :=
  SortedMap.sumBy (fun _ inventory => held i inventory) b.clients

def level (b : Book) (i : ℤ) : ℤ := b.holding i + b.extra i

/-- what is stored for a client -/
def stored : Option Node → Option Node
  | some inventory => some inventory
  | none => some (.object [])

def enter (c : ℤ) (inventory : Option Node) (b : Book) : Book :=
  { b with clients := b.clients.insert c inventory }

def leave (c : ℤ) (b : Book) : Book := { b with clients := b.clients.erase c }

def step (b : Book) : Op → Book
  | .addClient c inventory => if b.clients.contains c then b else b.enter c (stored inventory)
  | .removeClient c => b.leave c
  | .increaseStock i q => { b with extra := fun k => b.extra k + if k = i then max q 0 else 0 }
  | _ => b

end Book

namespace InventoryManager

/-- the calls that put in and take out clients, and those that put in stock; an inventory is nested
less than 10000 levels deep, and its numbers have keys that are accepted -/
def Op.Put : Op → Prop
  | .addClient _ inventory =>
    (∀ j, inventory = some j → j.nesting < CJSON_CIRCULAR_LIMIT) ∧ Readable (children inventory)
  | .removeClient _ => True
  | .increaseStock _ _ => True
  | _ => False

/-- the client a call is for -/
def Op.client : Op → Option ℤ
  | .addClient c _ => some c
  | .removeClient c => some c
  | .updateClientInventory c _ => some c
  | _ => none

end InventoryManager

/-! ## the book -/

namespace Book
open InventoryManager

theorem held_stored (i : ℤ) (inventory : Option Node) :
    held i (stored inventory) = held i inventory := by
  cases inventory <;> rfl

variable {b : Book} {c : ℤ} {inventory : Option Node}

theorem holding_enter (h : b.clients.find? c = none) (inventory : Option Node) (i : ℤ) :
    (b.enter c inventory).holding i = b.holding i + held i inventory := by
  rw [holding, enter, SortedMap.sumBy_insert, SortedMap.at?, h]
  exact sub_zero _

theorem holding_leave (h : b.clients.find? c = some inventory) (i : ℤ) :
    (b.leave c).holding i = b.holding i - held i inventory := by
  rw [holding, leave, SortedMap.sumBy_erase, SortedMap.at?, h]
  rfl

/-- one client holds at most what all of them hold -/
theorem held_le (h : b.clients.find? c = some inventory) (i : ℤ) : held i inventory ≤ b.holding i := by
  have hle := SortedMap.at?_le_sumBy (f := fun _ inventory => held i inventory) (m := b.clients)
    (fun _ inventory _ => held_nonneg i inventory) c
  rw [SortedMap.at?, h] at hle
  exact hle

theorem leave_of_absent (h : b.clients.find? c = none) : b.leave c = b := by
  unfold leave
  rw [SortedMap.erase_of_absent h]

theorem leave_enter (h : b.clients.find? c = none) (inventory : Option Node) :
    (b.enter c inventory).leave c = b := by
  unfold leave enter
  dsimp only
  rw [SortedMap.erase_insert h]

/-- a client that is there does not matter to the calls for others -/
theorem step_enter (b : Book) (inventory : Option Node) {op : Op} (h : op.client ≠ some c) :
    (b.enter c inventory).step op = (b.step op).enter c inventory := by
  cases op with
  | addClient c' j =>
    have hne : c ≠ c' := fun e => h (congrArg some e.symm)
    show (if (b.clients.insert c inventory).contains c' then _ else _)
      = Book.enter c inventory (if b.clients.contains c' then _ else _)
    rw [SortedMap.contains_insert, decide_eq_false hne.symm, Bool.false_or]
    split_ifs
    · rfl
    · unfold enter
      dsimp only
      rw [SortedMap.insert_comm _ _ _ hne]
  | removeClient c' =>
    have hne : c ≠ c' := fun e => h (congrArg some e.symm)
    show Book.leave c' (b.enter c inventory) = (b.leave c').enter c inventory
    unfold leave enter
    dsimp only
    rw [SortedMap.erase_insert_comm _ _ hne]
  | updateClientInventory c' j => rfl
  | increaseStock i q => rfl
  | decreaseStock i q => rfl

theorem absent_step (h : b.clients.find? c = none) {op : Op} (hop : op.client ≠ some c) :
    (b.step op).clients.find? c = none := by
  cases op with
  | addClient c' j =>
    have hne : c ≠ c' := fun e => hop (congrArg some e.symm)
    show (if b.clients.contains c' then b else b.enter c' (stored j)).clients.find? c = none
    split_ifs
    · exact h
    · rw [enter, SortedMap.find?_insert_of_ne _ _ hne, h]
  | removeClient c' =>
    have hne : c ≠ c' := fun e => hop (congrArg some e.symm)
    show (b.clients.erase c').find? c = none
    rw [SortedMap.find?_erase_of_ne _ hne, h]
  | updateClientInventory c' j => exact h
  | increaseStock i q => exact h
  | decreaseStock i q => exact h

theorem absent_run (h : b.clients.find? c = none) {ops : List Op}
    (hops : ∀ op ∈ ops, op.client ≠ some c) : (run step b ops).clients.find? c = none := by
  induction ops generalizing b with
  | nil => exact h
  | cons op ops ih =>
    exact ih (absent_step h (hops op (List.mem_cons_self ..)))
      fun op hop => hops op (List.mem_cons_of_mem _ hop)

/-- the book while the client is there -/
theorem run_add (h : b.clients.find? c = none) (inventory : Option Node) {mid : List Op}
    (hmid : ∀ op ∈ mid, op.client ≠ some c) :
    run step b (.addClient c inventory :: mid) = (run step b mid).enter c (stored inventory) := by
  have hadd : b.step (.addClient c inventory) = b.enter c (stored inventory) := by
    show (if b.clients.contains c then b else _) = _
    rw [SortedMap.contains_eq_false.mpr h, if_neg Bool.false_ne_true]
  rw [run_cons, hadd]
  exact run_comm (fun op hop b => step_enter b _ (hmid op hop)) b

/-- a client that enters and leaves -/
theorem run_cancel {pre mid : List Op} (h : (run step b pre).clients.find? c = none)
    (inventory : Option Node) (hmid : ∀ op ∈ mid, op.client ≠ some c) :
    run step b (pre ++ .addClient c inventory :: mid ++ [.removeClient c])
      = run step b (pre ++ mid) := by
  rw [run_snoc, run_append, run_append, run_add h inventory hmid]
  exact leave_enter (absent_run h hmid) _

/-- without the client, the levels are not higher -/
theorem level_le_run_add (h : b.clients.find? c = none) (inventory : Option Node) {mid : List Op}
    (hmid : ∀ op ∈ mid, op.client ≠ some c) (i : ℤ) :
    (run step b mid).level i ≤ (run step b (.addClient c inventory :: mid)).level i := by
  have hheld := held_nonneg i (stored inventory)
  rw [run_add h inventory hmid, level, level, holding_enter (absent_run h hmid)]
  show _ ≤ _ + (run step b mid).extra i
  omega

end Book

/-! ## the code keeps the book -/

namespace InventoryManager

/-- the levels and the clients are those of the book, and the stored inventories are readable -/
structure Keeps (m : InventoryManager) (b : Book) : Prop where
  levels : m.LevelsOk
  level : ∀ i, m.getStockLevel i = b.level i
  clients : m.clientInventories = b.clients
  readable : ∀ c inventory, b.clients.find? c = some inventory → Readable (children inventory)
  extra : ∀ i, 0 ≤ b.extra i

theorem keeps_empty : Keeps init Book.empty where
  levels := fun _ _ h => by cases h
  level := fun _ => rfl
  clients := rfl
  readable := fun _ _ h => by cases h
  extra := fun _ => le_rfl

variable {m : InventoryManager} {b : Book} {c i q : ℤ} {inventory : Option Node}

theorem readable_stored (h : Readable (children inventory)) :
    Readable (children (Book.stored inventory)) := by
  cases inventory with
  | none => exact fun name d hmem => nomatch hmem
  | some j => exact h

/-- what a new client does, where the copy of its inventory succeeds -/
theorem addClient_absent (hc : m.clientInventories.find? c = none)
    (hput : Op.Put (.addClient c inventory)) : m.addClient c inventory
      = forNumbers increaseStock (m.putClient c (Book.stored inventory)) (children inventory) := by
  rw [addClient_of_absent hc]
  cases inventory with
  | none => rfl
  | some j =>
    have hcopy : j.duplicate = some j :=
      Node.duplicate_eq ((Node.height_le_nesting j).trans (hput.1 j rfl).le)
    rw [Option.elim_some, hcopy]
    rfl

theorem keeps_addClient (h : Keeps m b) (hput : Op.Put (.addClient c inventory))
    (hmax : ∀ i, (b.step (.addClient c inventory)).level i ≤ INT_MAX) :
    Keeps (m.addClient c inventory).1 (b.step (.addClient c inventory)) := by
  cases hc : b.clients.find? c with
  | some known =>
    have hcontains : b.clients.contains c = true := SortedMap.contains_eq_true.mpr ⟨known, hc⟩
    have hbook : b.step (.addClient c inventory) = b := if_pos hcontains
    rw [hbook, addClient_of_present (h.clients ▸ hc)]
    exact h
  | none =>
    have hcontains : b.clients.contains c = false := SortedMap.contains_eq_false.mpr hc
    have hbook : b.step (.addClient c inventory) = b.enter c (Book.stored inventory) := by
      show (if b.clients.contains c then b else _) = _
      rw [hcontains, if_neg Bool.false_ne_true]
    have hlevel : ∀ i, (b.enter c (Book.stored inventory)).level i
        = m.getStockLevel i + 1 * heldIn i (children inventory) := by
      intro i
      rw [Book.level, Book.holding_enter hc, Book.held_stored, h.level i, Book.level, held]
      show _ + _ + b.extra i = _
      ring
    rw [hbook] at hmax ⊢
    have hcode := addClient_absent (h.clients ▸ hc) hput
    obtain ⟨-, hok, hlev⟩ := forNumbers_readable changes_increaseStock refuses_increaseStock
      (Or.inl rfl) hput.2 (m := m.putClient c (Book.stored inventory)) h.levels fun i => by
        have hi := hmax i
        rw [hlevel i] at hi
        have h0 := h.levels.nonneg i
        have hheld := heldIn_nonneg i (children inventory)
        exact ⟨show 0 ≤ m.getStockLevel i + _ by omega, hi⟩
    have hclients := clientInventories_forNumbers clientInventories_increaseStock
      (m.putClient c (Book.stored inventory)) (children inventory)
    rw [hcode]
    refine ⟨hok, fun i => (hlev i).trans (hlevel i).symm, ?_, ?_, h.extra⟩
    · rw [hclients, putClient, Book.enter, h.clients]
    · intro c' inventory' hc'
      rcases SortedMap.find?_insert_cases hc' with ⟨-, rfl⟩ | ⟨-, hold⟩
      · exact readable_stored hput.2
      · exact h.readable c' inventory' hold

theorem keeps_removeClient (h : Keeps m b) (c : ℤ) :
    Keeps (m.removeClient c).1 (b.step (.removeClient c)) := by
  show Keeps (m.removeClient c).1 (b.leave c)
  cases hc : b.clients.find? c with
  | none =>
    rw [removeClient_of_absent (h.clients ▸ hc), Book.leave_of_absent hc]
    exact h
  | some inventory =>
    have hlevel : ∀ i, (b.leave c).level i
        = m.getStockLevel i + -1 * heldIn i (children inventory) := by
      intro i
      rw [Book.level, Book.holding_leave hc, h.level i, Book.level, held]
      show _ - _ + b.extra i = _
      ring
    obtain ⟨hnone, hok, hlev⟩ := forNumbers_readable changes_decreaseStock refuses_decreaseStock
      (Or.inr rfl) (h.readable c inventory hc) h.levels fun i => by
        have hle : heldIn i (children inventory) ≤ b.holding i := Book.held_le hc i
        have hi := h.level i
        rw [Book.level] at hi
        have h0 := h.extra i
        have hmax := h.levels.le_max i
        have hheld := heldIn_nonneg i (children inventory)
        omega
    rw [removeClient_of_present (h.clients ▸ hc)]
    dsimp only
    rw [hnone, if_pos rfl]
    refine ⟨hok, fun i => (hlev i).trans (hlevel i).symm, ?_, ?_, h.extra⟩
    · rw [h.clients, Book.leave]
    · intro c' inventory' hc'
      exact h.readable c' inventory' (SortedMap.find?_erase_some hc').2

theorem keeps_increaseStock (h : Keeps m b) (i q : ℤ)
    (hmax : ∀ k, (b.step (.increaseStock i q)).level k ≤ INT_MAX) :
    Keeps (m.increaseStock i q).2 (b.step (.increaseStock i q)) := by
  have hlevel : ∀ k, (b.step (.increaseStock i q)).level k
      = m.getStockLevel k + 1 * if k = i then max q 0 else 0 := by
    intro k
    rw [h.level k, Book.level, Book.level, one_mul, add_assoc]
    rfl
  have hi := hmax i
  rw [hlevel i, if_pos rfl] at hi
  have h0 := h.levels.nonneg i
  have hq : 0 ≤ max q 0 := le_max_right ..
  obtain ⟨hok, hlev⟩ := change_spec changes_increaseStock refuses_increaseStock h.levels
    (i := i) (q := q) (by omega) hi
  refine ⟨hok, fun k => (hlev k).trans (hlevel k).symm, ?_, h.readable, fun k => ?_⟩
  · rw [clientInventories_increaseStock]
    exact h.clients
  · have hk := h.extra k
    show 0 ≤ b.extra k + if k = i then max q 0 else 0
    split_ifs <;> omega

/-- one call -/
theorem keeps_step (m : InventoryManager) (b : Book) (op : Op) (h : Keeps m b)
    (hl : op.Put ∧ ∀ i, (b.step op).level i ≤ INT_MAX) : Keeps (m.step op) (b.step op) := by
  obtain ⟨hput, hmax⟩ := hl
  cases op with
  | addClient c inventory => exact keeps_addClient h hput hmax
  | removeClient c => exact keeps_removeClient h c
  | increaseStock i q => exact keeps_increaseStock h i q hmax
  | updateClientInventory c inventory => exact hput.elim
  | decreaseStock i q => exact hput.elim

theorem keeps_run {ops : List Op} (hput : ∀ op ∈ ops, op.Put)
    (hmax : Always Book.step (fun b => ∀ i, b.level i ≤ INT_MAX) Book.empty ops) :
    Keeps (run step init ops) (run Book.step Book.empty ops) :=
  related_run keeps_step keeps_empty (along_of_always hput hmax)

/-! ## two runs -/

/-- the totals stay within `int` without the client, and after it has left -/
theorem bounded_cancel {pre mid : List Op}
    (hmax : Always Book.step (fun b => ∀ i, b.level i ≤ INT_MAX) Book.empty
      (pre ++ .addClient c inventory :: mid))
    (hnew : (run Book.step Book.empty pre).clients.find? c = none)
    (hmid : ∀ op ∈ mid, op.client ≠ some c) :
    Always Book.step (fun b => ∀ i, b.level i ≤ INT_MAX) Book.empty (pre ++ mid) ∧
    Always Book.step (fun b => ∀ i, b.level i ≤ INT_MAX) Book.empty
      (pre ++ .addClient c inventory :: mid ++ [.removeClient c]) := by
  obtain ⟨hpre, hrest⟩ := always_append.mp hmax
  have hwithout : Always Book.step (fun b => ∀ i, b.level i ≤ INT_MAX)
      (run Book.step Book.empty pre) mid := by
    rw [always_iff_initial_runs] at hrest ⊢
    intro mid' hmid' i
    have hadd := hrest (.addClient c inventory :: mid') (List.cons_prefix_cons.mpr ⟨rfl, hmid'⟩) i
    exact (Book.level_le_run_add hnew inventory (fun op hop => hmid op (hmid'.subset hop)) i).trans
      hadd
  refine ⟨always_append.mpr ⟨hpre, hwithout⟩, always_append.mpr ⟨hmax, hmax.last, ?_⟩⟩
  show ∀ i, (Book.step (run Book.step Book.empty _) (.removeClient c)).level i ≤ INT_MAX
  rw [← run_snoc Book.step, Book.run_cancel hnew inventory hmid, run_append]
  exact hwithout.last

/-- **Adding and removing a client cancel out.**  In a run of calls that add and remove clients and
increase stock, whatever the inventories list, as long as the totals stay within `int`: a client that
was not there, is added, is not named in between and is removed again leaves the levels of all items
and the inventories of all clients as they are without these two calls. -/
theorem add_remove_cancel (pre mid : List Op) (c : ℤ) (inventory : Option Node)
    (hput : ∀ op ∈ pre ++ .addClient c inventory :: mid, op.Put)
    (hmax : Always Book.step (fun b => ∀ i, b.level i ≤ INT_MAX) Book.empty
      (pre ++ .addClient c inventory :: mid))
    (hnew : (run step init pre).clientInventories.find? c = none)
    (hmid : ∀ op ∈ mid, op.client ≠ some c) :
    (∀ i, (run step init (pre ++ .addClient c inventory :: mid ++ [.removeClient c])).getStockLevel i
      = (run step init (pre ++ mid)).getStockLevel i) ∧
    (run step init (pre ++ .addClient c inventory :: mid ++ [.removeClient c])).clientInventories
      = (run step init (pre ++ mid)).clientInventories := by
  have hpre : Keeps (run step init pre) (run Book.step Book.empty pre) :=
    keeps_run (fun op hop => hput op (List.mem_append_left _ hop)) (always_append.mp hmax).1
  rw [hpre.clients] at hnew
  obtain ⟨hwithout, hwith⟩ := bounded_cancel hmax hnew hmid
  have hputs : ∀ op ∈ mid, op.Put := fun op hop =>
    hput op (List.mem_append_right _ (List.mem_cons_of_mem _ hop))
  have h1 : Keeps (run step init (pre ++ .addClient c inventory :: mid ++ [.removeClient c]))
      (run Book.step Book.empty (pre ++ .addClient c inventory :: mid ++ [.removeClient c])) := by
    refine keeps_run (fun op hop => ?_) hwith
    rcases List.mem_append.mp hop with hop | hop
    · exact hput op hop
    · rw [List.mem_singleton.mp hop]
      exact trivial
  have h2 : Keeps (run step init (pre ++ mid)) (run Book.step Book.empty (pre ++ mid)) := by
    refine keeps_run (fun op hop => ?_) hwithout
    rcases List.mem_append.mp hop with hop | hop
    · exact hput op (List.mem_append_left _ hop)
    · exact hputs op hop
  have hsame : run Book.step Book.empty (pre ++ .addClient c inventory :: mid ++ [.removeClient c])
      = run Book.step Book.empty (pre ++ mid) := Book.run_cancel hnew inventory hmid
  constructor
  · intro i
    rw [h1.level, h2.level, hsame]
  · rw [h1.clients, h2.clients, hsame]

/-- five pieces under the name `" 03"` -/
def fiveOfThree : Node := .object [(.lit [' ', '0', '3'], .number (Binary64.ofInt 5))]

theorem stoi_three : stoi (CString.lit [' ', '0', '3']).bytes = .ok 3 := by decide

theorem held_fiveOfThree (i : ℤ) : held i (some fiveOfThree) ≤ INT_MAX := by
  show heldOf i _ + 0 ≤ INT_MAX
  rw [heldOf_number stoi_three, add_zero]
  split_ifs
  · exact max_le (castInt_isInt _).2 (by decide)
  · decide

/-- another client comes while the first one is there -/
theorem add_remove_cancel_example :
    (∀ i, (run step init ([] ++ .addClient 1 (some fiveOfThree) :: [.addClient 2 none]
        ++ [.removeClient 1])).getStockLevel i
      = (run step init ([] ++ [.addClient 2 none])).getStockLevel i) ∧
    (run step init ([] ++ .addClient 1 (some fiveOfThree) :: [.addClient 2 none]
        ++ [.removeClient 1])).clientInventories
      = (run step init ([] ++ [.addClient 2 none])).clientInventories := by
  refine add_remove_cancel [] [.addClient 2 none] 1 (some fiveOfThree) ?_ ⟨?_, ?_, ?_⟩ rfl ?_
  · intro op hop
    rw [List.nil_append, List.mem_cons, List.mem_singleton] at hop
    rcases hop with rfl | rfl
    · refine ⟨fun j hj => ?_, fun name d hmem => ?_⟩
      · rw [← Option.some.inj hj]
        decide
      · cases List.mem_singleton.mp hmem
        exact ⟨_, 3, rfl, stoi_three⟩
    · exact ⟨(fun j hj => by cases hj), (fun name d hmem => by cases hmem)⟩
  · intro i
    show (0 : ℤ) + 0 ≤ INT_MAX
    decide
  · intro i
    show held i (some fiveOfThree) + 0 + 0 ≤ INT_MAX
    rw [add_zero, add_zero]
    exact held_fiveOfThree i
  · intro i
    show held i (some fiveOfThree) + (0 + 0) + 0 ≤ INT_MAX
    rw [add_zero, add_zero, add_zero]
    exact held_fiveOfThree i
  · intro op hop
    rw [List.mem_singleton.mp hop]
    decide

end InventoryManager

end Hub
