import Warehouse.Message.Model

/-!
# Assignment of messages

`Message::operator=` beside the copy constructor.  The message objects of the program are a
function of their address, so that an object can be assigned to itself.  The assignment writes the
header and frees the old content before it duplicates the new one, and it takes a null duplicate
for a failure, also where there is nothing to duplicate.

* `assign`                the code;
* `Contract`              all or nothing, and success wherever the copy constructor yields an equal
                          message;
* `contract_iff`          the assignments that keep it;
* `contract_broken`       the assignment of a message without content.
-/

namespace Hub
open Text Numeric CJSON

namespace Message

/-! ## the code -/

/-- `operator=` on the object at `this`, with the object at `other`: the objects it leaves, and what
it throws -/
def assign (objects : ℕ → Message) (this other : ℕ) : (ℕ → Message) × Option Exn :=
  if this ≠ other then
    let m := objects this
    let m := { m with clientID := (objects other).clientID }
    let m := { m with type := (objects other).type }
    let m := { m with subType := (objects other).subType }
    let m := { m with content := none } -- the old content is freed
    let m := { m with content := (objects other).content.bind Node.duplicate }
    (Function.update objects this m,
      match m.content with
      | some _ => none
      | none => some (.runtimeError "Failed to duplicate cJSON content"))
  else (objects, none)

/-! ## the contract -/

/-- The assignment makes the object equal to the other one, or it throws and the object is what it
was; and it makes them equal wherever the copy constructor yields a message equal to its source. -/
def Contract (objects : ℕ → Message) (this other : ℕ) : Prop :=
  let (after, thrown) := assign objects this other
  ((thrown = none ∧ after this = objects other) ∨
      ((∃ e, thrown = some e) ∧ after this = objects this)) ∧
    ((objects other).copy = objects other → thrown = none ∧ after this = objects other)

section
variable {objects : ℕ → Message} {this other : ℕ}

theorem assign_self (objects : ℕ → Message) (this : ℕ) :
    assign objects this this = (objects, none) := if_neg fun h => h rfl

theorem assign_of_ne (h : this ≠ other) : assign objects this other =
    (Function.update objects this (objects other).copy,
      match (objects other).copy.content with
      | some _ => none
      | none => some (.runtimeError "Failed to duplicate cJSON content")) := if_pos h

/-- content within the limit is assigned -/
theorem assign_of_short {c : Node} (h : this ≠ other) (hc : (objects other).content = some c)
    (hlim : c.height ≤ CJSON_CIRCULAR_LIMIT) :
    assign objects this other = (Function.update objects this (objects other), none) := by
  have hdup : (objects other).copy.content = some c := by
    show (objects other).content.bind Node.duplicate = _
    rw [hc, Option.bind_some, Node.duplicate_eq hlim]
  have hcopy : (objects other).copy = objects other := by
    show { objects other with content := (objects other).copy.content } = _
    rw [hdup, ← hc]
  rw [assign_of_ne h, hcopy, hc]

/-- without content, or with content beyond the limit, the header is written, the content is gone
and the assignment throws -/
theorem assign_of_none (h : this ≠ other)
    (hc : (objects other).content.bind Node.duplicate = none) :
    assign objects this other =
      (Function.update objects this { objects other with content := none },
        some (.runtimeError "Failed to duplicate cJSON content")) := by
  have hcopy : (objects other).copy = { objects other with content := none } := by
    show { objects other with content := (objects other).content.bind Node.duplicate } = _
    rw [hc]
  rw [assign_of_ne h, hcopy]

/-! ## the cases -/

theorem contract_self (objects : ℕ → Message) (this : ℕ) : Contract objects this this := by
  unfold Contract
  rw [assign_self]
  exact ⟨Or.inl ⟨rfl, rfl⟩, fun _ => ⟨rfl, rfl⟩⟩

theorem contract_of_short {c : Node} (h : this ≠ other) (hc : (objects other).content = some c)
    (hlim : c.height ≤ CJSON_CIRCULAR_LIMIT) : Contract objects this other := by
  unfold Contract
  rw [assign_of_short h hc hlim]
  have hthis : Function.update objects this (objects other) this = objects other :=
    Function.update_self ..
  exact ⟨Or.inl ⟨rfl, hthis⟩, fun _ => ⟨rfl, hthis⟩⟩

/-- the copy constructor is content with a null pointer, the assignment is not -/
theorem not_contract_of_none (h : this ≠ other) (hc : (objects other).content = none) :
    ¬ Contract objects this other := by
  have hcopy : (objects other).copy = objects other := by
    show { objects other with content := (objects other).content.bind Node.duplicate } = _
    rw [hc, Option.bind_none, ← hc]
  unfold Contract
  rw [assign_of_none h (by rw [hc, Option.bind_none])]
  rintro ⟨-, hsucc⟩
  cases (hsucc hcopy).1

/-- content beyond the limit is copied by neither -/
theorem contract_of_tall_iff {c : Node} (h : this ≠ other) (hc : (objects other).content = some c)
    (htall : CJSON_CIRCULAR_LIMIT < c.height) :
    Contract objects this other ↔ objects this = { objects other with content := none } := by
  have hdup : (objects other).content.bind Node.duplicate = none := by
    rw [hc, Option.bind_some, Node.duplicate_of_tall htall]
  have hcopy : (objects other).copy ≠ objects other := by
    intro he
    have hcontent : (objects other).content.bind Node.duplicate = (objects other).content :=
      congrArg Message.content he
    rw [hdup, hc] at hcontent
    cases hcontent
  have hthis : Function.update objects this { objects other with content := none } this
    = { objects other with content := none } := Function.update_self ..
  unfold Contract
  rw [assign_of_none h hdup]
  constructor
  · rintro ⟨hall | hnothing, -⟩
    · cases hall.1
    · exact hnothing.2.symm.trans hthis
  · exact fun hsame => ⟨Or.inr ⟨⟨_, rfl⟩, hthis.trans hsame.symm⟩, fun he => absurd he hcopy⟩

/-- **The assignments that keep the contract.**  The object itself; a message with content that is
nested at most `CJSON_CIRCULAR_LIMIT` levels deep; and one with deeper content, onto an object that
has its header and no content already, where the failed assignment has nothing to destroy. -/
theorem contract_iff (objects : ℕ → Message) (this other : ℕ) : Contract objects this other ↔
    this = other ∨ ∃ c, (objects other).content = some c ∧
      (c.height ≤ CJSON_CIRCULAR_LIMIT ∨
        objects this = { objects other with content := none }) := by
  by_cases hto : this = other
  · rw [← hto]
    exact iff_of_true (contract_self objects this) (Or.inl rfl)
  rw [or_iff_right hto]
  cases hc : (objects other).content with
  | none =>
    refine iff_of_false (not_contract_of_none hto hc) ?_
    rintro ⟨c, h, -⟩
    cases h
  | some c =>
    have hsome : (∃ c', some c = some c' ∧ (c'.height ≤ CJSON_CIRCULAR_LIMIT ∨
        objects this = { objects other with content := none })) ↔
        c.height ≤ CJSON_CIRCULAR_LIMIT ∨ objects this = { objects other with content := none } :=
      ⟨fun ⟨c', he, h⟩ => Option.some.inj he ▸ h, fun h => ⟨c, rfl, h⟩⟩
    rw [hsome]
    by_cases hlim : c.height ≤ CJSON_CIRCULAR_LIMIT
    · exact iff_of_true (contract_of_short hto hc hlim) (Or.inl hlim)
    · rw [or_iff_right hlim]
      exact contract_of_tall_iff hto hc (not_le.mp hlim)

end

/-- A message without content: the copy constructor yields an equal message, the assignment throws
after it has replaced the header and freed the content. -/
theorem contract_broken :
    ¬ ∀ (objects : ℕ → Message) (this other : ℕ), Contract objects this other := by
  intro h
  have hbroken := h (fun x => if x = 0 then ⟨1, 0, 0, some createObject⟩ else ⟨2, 1, 1, none⟩) 0 1
  cases (hbroken.2 rfl).1

end Message

end Hub
