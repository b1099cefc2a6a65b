import Mathlib.Algebra.Order.Group.Multiset
import Mathlib.Data.Multiset.UnionInter

/-!
# A medium between parties

What is put in may be brought at any time and in any order.  It may be lost, and it may be repeated.

* `Transit`              the medium with its past: everything that was put in or repeated is on the
                         way, brought or lost;
* `put`, `bring`, `again`, `lose`   what happens to it;
* `brought_le`           nothing is brought that was not put in or repeated.
-/

namespace Machine

structure Transit (α : Type*) where
  flight : Multiset α
  sent : Multiset α
  repeated : Multiset α
  brought : Multiset α
  lost : Multiset α
  balanced : sent + repeated = flight + brought + lost

namespace Transit

variable {α : Type*}

theorem brought_le (t : Transit α) : t.brought ≤ t.sent + t.repeated := by
  rw [t.balanced]
  exact (Multiset.le_add_left _ _).trans (Multiset.le_add_right _ _)

def empty : Transit α := ⟨0, 0, 0, 0, 0, rfl⟩

def put (t : Transit α) (xs : Multiset α) : Transit α where
  flight := t.flight + xs
  sent := t.sent + xs
  repeated := t.repeated
  brought := t.brought
  lost := t.lost
  balanced := by
    rw [add_right_comm t.sent, t.balanced, add_right_comm t.flight xs, add_right_comm _ xs]

variable [DecidableEq α]

def bring (t : Transit α) (x : α) : Transit α :=
  if h : x ∈ t.flight then
    { flight := t.flight.erase x
      sent := t.sent
      repeated := t.repeated
      brought := x ::ₘ t.brought
      lost := t.lost
      balanced := by
        rw [t.balanced, Multiset.add_cons, ← Multiset.cons_add, Multiset.cons_erase h] }
  else t

def again (t : Transit α) (x : α) : Transit α :=
  if x ∈ t.flight then
    { flight := x ::ₘ t.flight
      sent := t.sent
      repeated := x ::ₘ t.repeated
      brought := t.brought
      lost := t.lost
      balanced := by rw [Multiset.add_cons, t.balanced, Multiset.cons_add, Multiset.cons_add] }
  else t

def lose (t : Transit α) (x : α) : Transit α :=
  if h : x ∈ t.flight then
    { flight := t.flight.erase x
      sent := t.sent
      repeated := t.repeated
      brought := t.brought
      lost := x ::ₘ t.lost
      balanced := by
        rw [t.balanced, Multiset.add_cons, ← Multiset.cons_add, ← Multiset.cons_add,
          Multiset.cons_erase h] }
  else t

theorem brought_bring {t : Transit α} {x : α} (h : x ∈ t.flight) :
    (t.bring x).brought = x ::ₘ t.brought := by
  unfold bring
  rw [dif_pos h]

theorem flight_bring {t : Transit α} {x : α} (h : x ∈ t.flight) :
    (t.bring x).flight = t.flight.erase x := by
  unfold bring
  rw [dif_pos h]

theorem flight_again {t : Transit α} {x : α} (h : x ∈ t.flight) :
    (t.again x).flight = x ::ₘ t.flight := by
  unfold again
  rw [if_pos h]

@[simp] theorem sent_bring (t : Transit α) (x : α) : (t.bring x).sent = t.sent := by
  unfold bring
  split_ifs <;> rfl

@[simp] theorem sent_again (t : Transit α) (x : α) : (t.again x).sent = t.sent := by
  unfold again
  split_ifs <;> rfl

@[simp] theorem brought_again (t : Transit α) (x : α) : (t.again x).brought = t.brought := by
  unfold again
  split_ifs <;> rfl

@[simp] theorem sent_lose (t : Transit α) (x : α) : (t.lose x).sent = t.sent := by
  unfold lose
  split_ifs <;> rfl

@[simp] theorem brought_lose (t : Transit α) (x : α) : (t.lose x).brought = t.brought := by
  unfold lose
  split_ifs <;> rfl

end Transit

end Machine
