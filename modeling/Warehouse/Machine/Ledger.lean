import Warehouse.Machine.Run
import Mathlib.Algebra.BigOperators.Group.List.Basic
import Mathlib.Algebra.Order.Group.Defs
import Mathlib.Tactic.Abel

/-!
# Ledgers

A balance for each account.  A deposit of a positive amount succeeds, and so does a withdrawal of a
positive amount that the account covers; all else is refused.

* `accepts`, `step`      what succeeds, and the balances after it;
* `step_of_refused`, `step_of_ne`   a refused operation changes nothing, an accepted one only its
                         account;
* `balance_run`          a balance is what was deposited successfully less what was withdrawn.
-/

namespace Machine.Ledger

inductive Op (ι M : Type*)
  | deposit (account : ι) (amount : M)
  | withdraw (account : ι) (amount : M)

variable {ι M : Type*}

namespace Op

def account : Op ι M → ι
  | deposit i _ => i
  | withdraw i _ => i

def amount : Op ι M → M
  | deposit _ q => q
  | withdraw _ q => q

end Op

variable [DecidableEq ι] [AddCommGroup M]

/-- what an operation puts into an account -/
def Op.deposited (i : ι) : Op ι M → M
  | .deposit k q => if i = k then q else 0
  | .withdraw _ _ => 0

/-- what an operation takes from an account -/
def Op.withdrawn (i : ι) : Op ι M → M
  | .deposit _ _ => 0
  | .withdraw k q => if i = k then q else 0

/-- what a list of operations puts into an account -/
def deposited (i : ι) (ops : List (Op ι M)) : M := (ops.map (Op.deposited i)).sum

/-- what a list of operations takes from an account -/
def withdrawn (i : ι) (ops : List (Op ι M)) : M := (ops.map (Op.withdrawn i)).sum

variable [LinearOrder M]

def accepts (b : ι → M) : Op ι M → Bool
  | .deposit _ q => decide (0 < q)
  | .withdraw i q => decide (0 < q ∧ q ≤ b i)

/-- the balances after an operation -/
def step (b : ι → M) (op : Op ι M) : ι → M := fun i =>
  if accepts b op then b i + op.deposited i - op.withdrawn i else b i

variable {b : ι → M} {op : Op ι M}

theorem step_of_refused (h : accepts b op = false) : step b op = b := by
  funext i
  show (if accepts b op = true then _ else b i) = b i
  rw [h, if_neg Bool.false_ne_true]

theorem step_of_accepts (h : accepts b op = true) (i : ι) :
    step b op i = b i + op.deposited i - op.withdrawn i := by
  show (if accepts b op = true then _ else b i) = _
  rw [if_pos h]

theorem step_of_ne (b : ι → M) (op : Op ι M) {i : ι} (h : i ≠ op.account) :
    step b op i = b i := by
  have hmove : op.deposited i = 0 ∧ op.withdrawn i = 0 := by
    cases op with
    | deposit k q => exact ⟨if_neg h, rfl⟩
    | withdraw k q => exact ⟨rfl, if_neg h⟩
  show (if accepts b op = true then _ else b i) = b i
  rw [hmove.1, hmove.2, add_zero, sub_zero, ite_self]

/-- a balance is what was there, and what was deposited less what was withdrawn -/
theorem balance_run (b : ι → M) (ops : List (Op ι M)) (i : ι) :
    run step b ops i = b i + deposited i (successes step accepts b ops)
      - withdrawn i (successes step accepts b ops) := by
  induction ops generalizing b with
  | nil => exact (by rw [add_zero, sub_zero] : b i = b i + 0 - 0).trans rfl
  | cons op ops ih =>
    rw [run_cons, ih, successes]
    cases h : accepts b op with
    | false => rw [step_of_refused h, if_neg Bool.false_ne_true]
    | true =>
      rw [step_of_accepts h, if_pos rfl, deposited, deposited, withdrawn, withdrawn, List.map_cons,
        List.map_cons, List.sum_cons, List.sum_cons]
      abel

end Machine.Ledger
