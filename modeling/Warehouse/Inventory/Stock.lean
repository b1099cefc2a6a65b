import Warehouse.Inventory.Model
import Warehouse.Machine.Ledger

/-!
# The stock as a ledger

`increaseStock` and `decreaseStock` are the deposits and withdrawals of a ledger with the items for
accounts.  The linked list of named doubles behind them does not show.

* `perform`              a ledger operation on the stock;
* `perform_spec`         it answers as the ledger does, and the levels stay the balances;
* `stock_refines_ledger`   the same for every run, with what follows for the levels.
-/

namespace Hub
open Machine Numeric CJSON

namespace InventoryManager

def perform (m : InventoryManager) : Ledger.Op ℤ ℤ → Bool × InventoryManager
  | .deposit itemID quantity => m.increaseStock itemID quantity
  | .withdraw itemID quantity => m.decreaseStock itemID quantity

def performed (m : InventoryManager) (op : Ledger.Op ℤ ℤ) : InventoryManager := (m.perform op).2

def answered (m : InventoryManager) (op : Ledger.Op ℤ ℤ) : Bool := (m.perform op).1

/-- the levels are the balances -/
def Balanced (m : InventoryManager) (b : ℤ → ℤ) : Prop := m.LevelsOk ∧ m.getStockLevel = b

/-- an `int` amount -/
def IsInt (op : Ledger.Op ℤ ℤ) : Prop := INT_MIN ≤ op.amount ∧ op.amount ≤ INT_MAX

variable {m : InventoryManager} {b : ℤ → ℤ} {i q : ℤ}

theorem increaseStock_accepted (m : InventoryManager) (i : ℤ) (hq : 0 < q) :
    (m.increaseStock i q).1 = true := by
  unfold increaseStock
  rw [if_neg (not_le.mpr hq)]
  split <;> rfl

/-- the comparison of the double with the quantity -/
theorem level_lt_iff (h : m.LevelsOk) (hq : IsInt (.withdraw i q)) :
    (Binary64.ofInt (m.getStockLevel i)).lt (Binary64.ofInt q) = decide (m.getStockLevel i < q) := by
  have hlevel := h.nonneg i
  have hmax := h.le_max i
  obtain ⟨hlo, hhi⟩ : INT_MIN ≤ q ∧ q ≤ INT_MAX := hq
  unfold INT_MAX at hmax hhi
  unfold INT_MIN at hlo
  exact Binary64.lt_ofInt (by rw [abs_lt]; omega) (by rw [abs_lt]; omega)

theorem decreaseStock_refused (h : m.LevelsOk) (hq : IsInt (.withdraw i q))
    (hno : ¬ (0 < q ∧ q ≤ m.getStockLevel i)) : m.decreaseStock i q = (false, m) := by
  unfold decreaseStock
  by_cases h0 : q ≤ 0
  · rw [if_pos h0]
  · rw [if_neg h0]
    rcases h.getStockLevel i with ⟨hl, -⟩ | ⟨hl, -, -⟩
    · rw [hl]
    · have hlt : m.getStockLevel i < q := by omega
      rw [hl]
      dsimp only
      rw [level_lt_iff h hq, decide_eq_true hlt, if_pos rfl]

theorem decreaseStock_accepted (h : m.LevelsOk) (hq : IsInt (.withdraw i q)) (h0 : 0 < q)
    (hle : q ≤ m.getStockLevel i) : (m.decreaseStock i q).1 = true := by
  unfold decreaseStock
  rw [if_neg (not_le.mpr h0)]
  rcases h.getStockLevel i with ⟨-, hz⟩ | ⟨hl, -, -⟩
  · omega
  · rw [hl]
    dsimp only
    rw [level_lt_iff h hq, decide_eq_false (not_lt.mpr hle), if_neg Bool.false_ne_true]

/-- taking out what a level covers, and anything else -/
theorem decreaseStock_spec (h : m.LevelsOk) (hq : IsInt (.withdraw i q)) :
    (m.decreaseStock i q).2.LevelsOk ∧ ∀ k, (m.decreaseStock i q).2.getStockLevel k
      = if k = i ∧ 0 < q ∧ q ≤ m.getStockLevel i then m.getStockLevel k - q
        else m.getStockLevel k := by
  by_cases hc : 0 < q ∧ q ≤ m.getStockLevel i
  · have hlevel := h.le_max i
    obtain ⟨hok, hlev⟩ := changes_decreaseStock m i q h hc.1 (by omega) (by omega)
    refine ⟨hok, fun k => ?_⟩
    rw [hlev k]
    by_cases hk : k = i
    · rw [if_pos hk, if_pos ⟨hk, hc⟩, hk]
      ring
    · rw [if_neg hk, if_neg fun e => hk e.1]
  · rw [decreaseStock_refused h hq hc]
    refine ⟨h, fun k => ?_⟩
    rw [if_neg fun e => hc e.2]

/-- one operation: the stock answers as the ledger does, and keeps the balances -/
theorem perform_spec (m : InventoryManager) (b : ℤ → ℤ) (op : Ledger.Op ℤ ℤ) (h : m.Balanced b)
    (hl : IsInt op ∧ ∀ i, Ledger.step b op i ≤ INT_MAX) :
    m.answered op = Ledger.accepts b op ∧ (m.performed op).Balanced (Ledger.step b op) := by
  obtain ⟨hok, rfl⟩ := h
  obtain ⟨hint, hmax⟩ := hl
  cases op with
  | deposit i q =>
    by_cases hq : 0 < q
    · have ha : Ledger.accepts m.getStockLevel (.deposit i q) = true := decide_eq_true hq
      have hi := hmax i
      rw [Ledger.step_of_accepts ha, Ledger.Op.deposited, Ledger.Op.withdrawn, if_pos rfl] at hi
      have hlevel := hok.nonneg i
      obtain ⟨hok', hlev⟩ := changes_increaseStock m i q hok hq (by omega) (by omega)
      refine ⟨(increaseStock_accepted m i hq).trans ha.symm, hok', ?_⟩
      funext k
      rw [Ledger.step_of_accepts ha, Ledger.Op.deposited, Ledger.Op.withdrawn]
      show (m.increaseStock i q).2.getStockLevel k = _
      rw [hlev k]
      split_ifs with hk
      · rw [hk]
        ring
      · ring
    · have ha : Ledger.accepts m.getStockLevel (.deposit i q) = false := decide_eq_false hq
      rw [Ledger.step_of_refused ha, ha, answered, performed, perform, refuses_increaseStock m i q (not_lt.mp hq)]
      exact ⟨rfl, hok, rfl⟩
  | withdraw i q =>
    by_cases hq : 0 < q ∧ q ≤ m.getStockLevel i
    · have ha : Ledger.accepts m.getStockLevel (.withdraw i q) = true := decide_eq_true hq
      obtain ⟨hok', hlev⟩ := decreaseStock_spec hok hint
      refine ⟨(decreaseStock_accepted hok hint hq.1 hq.2).trans ha.symm, hok', ?_⟩
      funext k
      rw [Ledger.step_of_accepts ha, Ledger.Op.deposited, Ledger.Op.withdrawn, add_zero]
      show (m.decreaseStock i q).2.getStockLevel k = _
      rw [hlev k]
      by_cases hk : k = i
      · rw [if_pos ⟨hk, hq⟩, if_pos hk]
      · rw [if_neg fun e => hk e.1, if_neg hk, sub_zero]
    · have ha : Ledger.accepts m.getStockLevel (.withdraw i q) = false := decide_eq_false hq
      rw [Ledger.step_of_refused ha, ha, answered, performed, perform,
        decreaseStock_refused hok hint hq]
      exact ⟨rfl, hok, rfl⟩

theorem balanced_init : init.Balanced 0 := ⟨(fun _ _ h => by cases h), rfl⟩

/-- **The stock refines a ledger.**  In every run of increases and decreases of `int` amounts whose
balances stay within `int`: the levels are the balances of the ledger, the successful increases less
the successful decreases, and not negative; a call succeeds exactly when the ledger accepts it at
the levels of the moment; a refused call changes no level, and a call on an item no other item. -/
theorem stock_refines_ledger (ops : List (Ledger.Op ℤ ℤ)) (hint : ∀ op ∈ ops, IsInt op)
    (hmax : Always Ledger.step (fun b : ℤ → ℤ => ∀ i, b i ≤ INT_MAX) 0 ops) :
    ∀ pre, pre <+: ops →
      (∀ i, (run performed init pre).getStockLevel i = run Ledger.step 0 pre i ∧
        (run performed init pre).getStockLevel i
          = Ledger.deposited i (successes performed answered init pre)
            - Ledger.withdrawn i (successes performed answered init pre) ∧
        0 ≤ (run performed init pre).getStockLevel i) ∧
      ∀ op, pre ++ [op] <+: ops →
        (run performed init pre).answered op
          = Ledger.accepts (run performed init pre).getStockLevel op ∧
        ((run performed init pre).answered op = false →
          ((run performed init pre).performed op).getStockLevel
            = (run performed init pre).getStockLevel) ∧
        ∀ k, k ≠ op.account → ((run performed init pre).performed op).getStockLevel k
          = (run performed init pre).getStockLevel k := by
  have hallowed : ∀ pre, pre <+: ops →
      Along Ledger.step (fun b op => IsInt op ∧ ∀ i, Ledger.step b op i ≤ INT_MAX) 0 pre := by
    intro pre hpre
    have hbounded : Always Ledger.step (fun b : ℤ → ℤ => ∀ i, b i ≤ INT_MAX) 0 pre := by
      rw [always_iff_initial_runs] at hmax ⊢
      exact fun pre' hpre' => hmax pre' (hpre'.trans hpre)
    exact along_of_always (fun op hop => hint op (hpre.subset hop)) hbounded
  intro pre hpre
  obtain ⟨⟨hok, hlevels⟩, hsame⟩ := simulation perform_spec balanced_init (hallowed pre hpre)
  constructor
  · intro i
    have hlevel : (run performed init pre).getStockLevel i = run Ledger.step 0 pre i :=
      congrFun hlevels i
    refine ⟨hlevel, ?_, hok.nonneg i⟩
    rw [hlevel, Ledger.balance_run, hsame, Pi.zero_apply, zero_add]
  · intro op hop
    have hlast := (along_snoc.mp (hallowed (pre ++ [op]) hop)).2
    obtain ⟨hanswer, -, hnext⟩ := perform_spec _ _ op ⟨hok, hlevels⟩ hlast
    rw [hnext, hanswer, hlevels]
    refine ⟨rfl, fun hrefused => Ledger.step_of_refused hrefused, fun k hk => ?_⟩
    exact Ledger.step_of_ne _ op hk

/-- five pieces in, three out -/
theorem stock_refines_ledger_example :
    (run performed init [.deposit 7 5, .withdraw 7 3]).getStockLevel 7
      = run Ledger.step 0 [.deposit 7 5, .withdraw 7 3] 7 := by
  have hint : ∀ op ∈ [Ledger.Op.deposit 7 5, .withdraw 7 3], IsInt op := by
    intro op hop
    rw [List.mem_cons, List.mem_singleton] at hop
    rcases hop with rfl | rfl
    · exact ⟨by decide, by decide⟩
    · exact ⟨by decide, by decide⟩
  have hmax : Always Ledger.step (fun b : ℤ → ℤ => ∀ i, b i ≤ INT_MAX) 0
      [.deposit 7 5, .withdraw 7 3] := by
    have hzero : ∀ i : ℤ, (0 : ℤ → ℤ) i ≤ INT_MAX := fun i => (by decide : (0 : ℤ) ≤ INT_MAX)
    refine ⟨hzero, fun i => ?_, fun i => ?_⟩
    · by_cases hi : i = 7
      · subst hi
        decide
      · rw [Ledger.step_of_ne _ _ hi]
        exact hzero i
    · by_cases hi : i = 7
      · subst hi
        decide
      · rw [Ledger.step_of_ne _ _ hi, Ledger.step_of_ne _ _ hi]
        exact hzero i
  exact ((stock_refines_ledger _ hint hmax _ (List.prefix_refl _)).1 7).1

end InventoryManager

end Hub
