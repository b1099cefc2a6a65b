import Mathlib.Data.List.Basic

/-!
# Cells with an owner

A heap of cells, each live with its value until it is released.  Reading a released cell and
releasing it again are faults.

* `Cells`, `alloc`, `read`, `release`   the heap and its operations; a new cell is at `next`;
* `write`                a value in the place of another one;
* `value?`               the value of a cell as long as it is live; `value?_alloc`, `value?_release`,
                         `value?_write`;
* `read_of_value`, `release_of_value`   a live cell is read and released;
* `read_of_released`, `release_of_released`   a released one is not;
* `bind_eq_ok`, `map_eq_ok`   a call that ends without a fault, step by step.
-/

namespace Machine

inductive Cell (ν : Type*)
  | live (value : ν)
  | released

/-- an access to a cell that is not live -/
inductive Fault
  | read (address : ℕ)
  | release (address : ℕ)
deriving DecidableEq

structure Cells (ν : Type*) where
  cells : List (Cell ν)

namespace Cells

variable {ν : Type*}

/-- the address the next cell gets -/
def next (m : Cells ν) : ℕ := m.cells.length

def alloc (m : Cells ν) (v : ν) : Cells ν := ⟨m.cells ++ [.live v]⟩

def value? (m : Cells ν) (a : ℕ) : Option ν :=
  match m.cells[a]? with
  | some (.live v) => some v
  | _ => none

/-- the cell was live, and is not any more -/
def Released (m : Cells ν) (a : ℕ) : Prop := m.cells[a]? = some .released

def read (m : Cells ν) (a : ℕ) : Except Fault ν :=
  match m.value? a with
  | some v => .ok v
  | none => .error (.read a)

def release (m : Cells ν) (a : ℕ) : Except Fault (Cells ν) :=
  match m.value? a with
  | some _ => .ok ⟨m.cells.set a .released⟩
  | none => .error (.release a)

/-- the value of a cell is written in place; a cell that is not live is accessed by mistake -/
def write (m : Cells ν) (a : ℕ) (v : ν) : Except Fault (Cells ν) :=
  match m.value? a with
  | some _ => .ok ⟨m.cells.set a (.live v)⟩
  | none => .error (.read a)

variable {m m' : Cells ν} {a : ℕ} {v : ν}

theorem value?_next_alloc (m : Cells ν) (v : ν) : (m.alloc v).value? m.next = some v := by
  unfold value? alloc next
  rw [List.getElem?_concat_length]

theorem value?_next (m : Cells ν) : m.value? m.next = none := by
  unfold value? next
  rw [List.getElem?_eq_none (Nat.le_refl _)]

theorem lt_of_value (h : m.value? a = some v) : a < m.cells.length := by
  by_contra hge
  unfold value? at h
  rw [List.getElem?_eq_none (Nat.le_of_not_lt hge)] at h
  cases h

/-- the old cells stay -/
theorem value?_alloc (m : Cells ν) (v : ν) (a : ℕ) :
    (m.alloc v).value? a = if a = m.next then some v else m.value? a := by
  split_ifs with h
  · rw [h, value?_next_alloc]
  · unfold value? alloc
    unfold next at h
    by_cases hlt : a < m.cells.length
    · rw [List.getElem?_append_left hlt]
    · rw [List.getElem?_eq_none (Nat.le_of_not_lt hlt), List.getElem?_eq_none]
      rw [List.length_append, List.length_singleton]
      omega

theorem value?_of_released (h : m.Released a) : m.value? a = none := by
  unfold value?
  rw [h]

theorem released_of_set (h : m.value? a = some v) :
    Released ⟨m.cells.set a .released⟩ a := by
  exact List.getElem?_set_self (lt_of_value h)

theorem read_of_value (h : m.value? a = some v) : m.read a = .ok v := by
  unfold read
  rw [h]

theorem read_of_released (h : m.Released a) : m.read a = .error (.read a) := by
  unfold read
  rw [value?_of_released h]

/-- a live cell can be released, and is released then -/
theorem release_of_value (h : m.value? a = some v) :
    ∃ m', m.release a = .ok m' ∧ m'.Released a := by
  refine ⟨⟨m.cells.set a .released⟩, ?_, released_of_set h⟩
  unfold release
  rw [h]

/-- the other cells stay -/
theorem value?_release (h : m.release a = .ok m') (b : ℕ) :
    m'.value? b = if b = a then none else m.value? b := by
  unfold release at h
  split at h
  · next v hv =>
    cases h
    split_ifs with hb
    · rw [hb, value?_of_released (released_of_set hv)]
    · unfold value?
      rw [List.getElem?_set_ne (Ne.symm hb)]
  · cases h

theorem value?_write {w : ν} (h : m.write a w = .ok m') (b : ℕ) :
    m'.value? b = if b = a then some w else m.value? b := by
  unfold write at h
  split at h
  · next v hv =>
    cases h
    split_ifs with hb
    · unfold value?
      rw [hb, List.getElem?_set_self (lt_of_value hv)]
    · unfold value?
      rw [List.getElem?_set_ne (Ne.symm hb)]
  · cases h

theorem live_of_read (h : m.read a = .ok v) : m.value? a = some v := by
  unfold read at h
  split at h
  · next w hv =>
    cases h
    exact hv
  · cases h

theorem release_of_released (h : m.Released a) : m.release a = .error (.release a) := by
  unfold release
  rw [value?_of_released h]

end Cells

/-! ## calls that may fault -/

theorem ok_bind {ε α β : Type} (a : α) (f : α → Except ε β) : (.ok a : Except ε α) >>= f = f a := rfl

section
variable {ε α β : Type*} {x : Except ε α} {r : β}

theorem bind_eq_ok {f : α → Except ε β} (h : x.bind f = .ok r) : ∃ a, x = .ok a ∧ f a = .ok r := by
  cases x with
  | error e => cases h
  | ok a => exact ⟨a, rfl, h⟩

theorem map_eq_ok {f : α → β} (h : x.map f = .ok r) : ∃ a, x = .ok a ∧ f a = r := by
  cases x with
  | error e => cases h
  | ok a => exact ⟨a, rfl, Except.ok.inj h⟩

end

end Machine
