import Warehouse.CJson.Number
import Warehouse.CJson.Strings

/-!
# The printer

Unformatted printing into a growing buffer, as `cJSON_PrintUnformatted` does it.  A buffer may not
exceed `INT_MAX` bytes; below that bound memory is taken to be available.

* `PrintBuffer`, `ensure`, `printValue`   the code;
* `render`            the text of a tree;
* `Counted`           a printing step appends a text, and succeeds while the bound allows;
* `printUnformatted_eq`   a tree is printed exactly when its text fits, and then as `render` says.
-/

namespace CJSON
open Text

/-! ## the buffer -/

/-- `printbuffer`: the size of the block, the bytes before `offset`, and the C string at it -/
structure PrintBuffer where
  length : ℕ
  text : Bytes
  tail : Bytes
deriving DecidableEq

namespace PrintBuffer

def offset (p : PrintBuffer) : ℕ := p.text.length

/-- `ensure`: a block with room for `needed` more bytes -/
def ensure (p : PrintBuffer) (needed : ℕ) : Option PrintBuffer :=
  if p.length > 0 ∧ p.offset ≥ p.length then none
  else if (needed : ℤ) > INT_MAX then none
  else if needed + p.offset + 1 ≤ p.length then some p
  else if ((needed + p.offset + 1 : ℕ) : ℤ) > INT_MAX / 2 then
    if ((needed + p.offset + 1 : ℕ) : ℤ) ≤ INT_MAX then some { p with length := INT_MAX.toNat }
    else none
  else some { p with length := (needed + p.offset + 1) * 2 }

/-- bytes and a terminating NUL, written at the offset -/
def write (p : PrintBuffer) (s : Bytes) : PrintBuffer := { p with tail := s }

/-- bytes written at the offset, which moves behind them; the string there is written before it
is read -/
def put (p : PrintBuffer) (s : Bytes) : PrintBuffer := { p with text := p.text ++ s, tail := [] }

/-- `update_offset` -/
def updateOffset (p : PrintBuffer) : PrintBuffer :=
  { p with text := p.text ++ p.tail, tail := [] }

end PrintBuffer

open PrintBuffer

/-! ## printing -/

/-- `print_number` -/
def printNumber (d : Numeric.Binary64) (p : PrintBuffer) : Option PrintBuffer :=
  if (numberText d).length > 25 then none
  else (p.ensure ((numberText d).length + 1)).map fun p => p.put (numberText d)

/-- `print_string_ptr` -/
def printStringPtr (s : CString) (p : PrintBuffer) : Option PrintBuffer :=
  (p.ensure (outputLength s.bytes + 3)).map fun p => p.write (stringText s)

namespace Node

mutual

/-- `print_value` -/
def printValue (p : PrintBuffer) : Node → Option PrintBuffer
  | null => (p.ensure 5).map fun p => p.write (ascii ['n', 'u', 'l', 'l'])
  | bool false => (p.ensure 6).map fun p => p.write (ascii ['f', 'a', 'l', 's', 'e'])
  | bool true => (p.ensure 5).map fun p => p.write (ascii ['t', 'r', 'u', 'e'])
  | number d => printNumber d p
  | string s => printStringPtr s p
  | array js =>
    ((p.ensure 1).map fun p => p.put [91]).bind fun p =>
      (printItems p js).bind fun p => (p.ensure 2).map fun p => p.write [93]
  | object ms =>
    ((p.ensure 2).map fun p => p.put [123]).bind fun p =>
      (printMembers p ms).bind fun p => (p.ensure 2).map fun p => p.write [125]

/-- the loop of `print_array` -/
def printItems (p : PrintBuffer) : List Node → Option PrintBuffer
  | [] => some p
  | j :: js =>
    ((printValue p j).map updateOffset).bind fun p =>
      (if js.isEmpty then some p else (p.ensure 2).map fun p => p.put [44]).bind fun p =>
        printItems p js

/-- the loop of `print_object` -/
def printMembers (p : PrintBuffer) : List (CString × Node) → Option PrintBuffer
  | [] => some p
  | (k, j) :: ms =>
    ((printStringPtr k p).map updateOffset).bind fun p =>
      ((p.ensure 1).map fun p => p.put [58]).bind fun p =>
        ((printValue p j).map updateOffset).bind fun p =>
          (if ms.isEmpty then (p.ensure 1).map fun p => p.put []
            else (p.ensure 2).map fun p => p.put [44]).bind fun p =>
            printMembers p ms

end

/-- `cJSON_PrintUnformatted` -/
def printUnformatted (j : Node) : Option Bytes :=
  ((printValue ⟨256, [], []⟩ j).map updateOffset).map PrintBuffer.text

/-! ## the text of a tree -/

mutual

def render : Node → Bytes
  | null => ascii ['n', 'u', 'l', 'l']
  | bool false => ascii ['f', 'a', 'l', 's', 'e']
  | bool true => ascii ['t', 'r', 'u', 'e']
  | number d => numberText d
  | string s => stringText s
  | array js => [91] ++ (renderItems js ++ [93])
  | object ms => [123] ++ (renderMembers ms ++ [125])

def renderItems : List Node → Bytes
  | [] => []
  | j :: js => render j ++ ((if js.isEmpty then [] else [44]) ++ renderItems js)

def renderMembers : List (CString × Node) → Bytes
  | [] => []
  | (k, j) :: ms =>
    stringText k ++ ([58] ++ (render j ++ ((if ms.isEmpty then [] else [44]) ++ renderMembers ms)))

end

end Node

/-! ## a step of the printer -/

/-- the offset is inside the block -/
structure PrintBuffer.Ok (p : PrintBuffer) : Prop where
  inside : p.offset < p.length
  bounded : (p.length : ℤ) ≤ INT_MAX

/-- `r` is `p` with `s` appended and counted; the step fails only near the bound -/
structure Counted (p : PrintBuffer) (s : Bytes) (r : Option PrintBuffer) : Prop where
  appends : ∀ p', r = some p' → p'.Ok ∧ p'.text = p.text ++ s
  succeeds : ((p.offset + s.length + 2 : ℕ) : ℤ) ≤ INT_MAX → ∃ p', r = some p'

theorem Counted.skip {p : PrintBuffer} (hp : p.Ok) : Counted p [] (some p) :=
  ⟨fun _ h => Option.some.inj h ▸ ⟨hp, (List.append_nil _).symm⟩, fun _ => ⟨p, rfl⟩⟩

/-- one step after another -/
theorem Counted.bind {p : PrintBuffer} {s t : Bytes} {r : Option PrintBuffer}
    {f : PrintBuffer → Option PrintBuffer} (h : Counted p s r)
    (hf : ∀ p', p'.Ok → p'.text = p.text ++ s → Counted p' t (f p')) :
    Counted p (s ++ t) (r.bind f) := by
  constructor
  · intro p' hp'
    obtain ⟨p1, h1, h2⟩ := Option.bind_eq_some_iff.mp hp'
    obtain ⟨hok, htext⟩ := h.appends p1 h1
    obtain ⟨hok', htext'⟩ := (hf p1 hok htext).appends p' h2
    exact ⟨hok', by rw [htext', htext, List.append_assoc]⟩
  · intro hle
    rw [List.length_append] at hle
    obtain ⟨p1, h1⟩ := h.succeeds (by omega)
    obtain ⟨hok, htext⟩ := h.appends p1 h1
    have hoff : p1.offset = p.offset + s.length := by rw [offset, htext, List.length_append, ← offset]
    obtain ⟨p2, h2⟩ := (hf p1 hok htext).succeeds (by rw [hoff]; omega)
    exact ⟨p2, by rw [h1]; exact h2⟩

/-- a block has the room that was asked for, and room is refused only above `INT_MAX` -/
theorem ensure_spec {p : PrintBuffer} (hp : p.Ok) (needed : ℕ) :
    (∀ p', p.ensure needed = some p' →
      p'.text = p.text ∧ needed + p.offset + 1 ≤ p'.length ∧ (p'.length : ℤ) ≤ INT_MAX) ∧
    (((needed + p.offset + 1 : ℕ) : ℤ) ≤ INT_MAX → ∃ p', p.ensure needed = some p') := by
  obtain ⟨hin, hb⟩ := hp
  unfold ensure
  have hmax : INT_MAX = 2147483647 := rfl
  rw [if_neg (by omega)]
  constructor
  · intro p' h
    split_ifs at h with h1 h2 h3 h4
    · obtain rfl := Option.some.inj h
      exact ⟨rfl, h2, hb⟩
    · obtain rfl := Option.some.inj h
      exact ⟨rfl, by show needed + p.offset + 1 ≤ INT_MAX.toNat; omega,
        by show ((INT_MAX.toNat : ℕ) : ℤ) ≤ INT_MAX; omega⟩
    · obtain rfl := Option.some.inj h
      exact ⟨rfl, by show needed + p.offset + 1 ≤ (needed + p.offset + 1) * 2; omega,
        by show (((needed + p.offset + 1) * 2 : ℕ) : ℤ) ≤ INT_MAX; omega⟩
  · intro hle
    rw [if_neg (by omega)]
    split_ifs
    · exact ⟨_, rfl⟩
    · exact ⟨_, rfl⟩
    · exact ⟨_, rfl⟩

/-- room for the bytes, and for at most one more -/
theorem counted_put {p : PrintBuffer} (hp : p.Ok) {s : Bytes} {needed : ℕ} (hlo : s.length ≤ needed)
    (hhi : needed ≤ s.length + 1) :
    Counted p s ((p.ensure needed).map fun p => p.put s) := by
  obtain ⟨hsome, hroom⟩ := ensure_spec hp needed
  constructor
  · intro p' h
    obtain ⟨p1, h1, rfl⟩ := Option.map_eq_some_iff.mp h
    obtain ⟨htext, hlen, hmax⟩ := hsome p1 h1
    refine ⟨⟨?_, hmax⟩, by show p1.text ++ s = _; rw [htext]⟩
    show (p1.text ++ s).length < p1.length
    rw [htext, List.length_append, ← offset]
    omega
  · intro hle
    obtain ⟨p1, h1⟩ := hroom (by omega)
    exact ⟨_, by rw [h1]; rfl⟩

theorem counted_write {p : PrintBuffer} (hp : p.Ok) {s : Bytes} {needed : ℕ}
    (hlo : s.length ≤ needed) (hhi : needed ≤ s.length + 1) :
    Counted p s (((p.ensure needed).map fun p => p.write s).map updateOffset) := by
  rw [Option.map_map]
  exact counted_put hp hlo hhi

theorem counted_printNumber {p : PrintBuffer} (hp : p.Ok) (d : Numeric.Binary64) :
    Counted p (numberText d) (printNumber d p) := by
  have := length_numberText_le d
  rw [printNumber, if_neg (by omega)]
  exact counted_put hp (by omega) le_rfl

theorem counted_printStringPtr {p : PrintBuffer} (hp : p.Ok) (s : CString) :
    Counted p (stringText s) ((printStringPtr s p).map updateOffset) :=
  counted_write hp (by rw [length_stringText]; omega) (by rw [length_stringText])

/-- an offset that is up to date stays -/
theorem Counted.updateOffset {p : PrintBuffer} {s : Bytes} {r : Option PrintBuffer}
    (h : Counted p s r) (htail : ∀ p', r = some p' → p'.tail = []) :
    Counted p s (r.map updateOffset) := by
  have hmap : r.map PrintBuffer.updateOffset = r := by
    cases hr : r with
    | none => rfl
    | some p' =>
      have ht := htail p' hr
      rw [Option.map_some, PrintBuffer.updateOffset, ht, List.append_nil, ← ht]
  rwa [hmap]

/-! ## the whole tree -/

namespace Node

theorem counted_printItems {js : List Node}
    (ih : ∀ j ∈ js, ∀ p : PrintBuffer, p.Ok →
      Counted p (render j) ((printValue p j).map updateOffset)) :
    ∀ p : PrintBuffer, p.Ok → Counted p (renderItems js) (printItems p js) := by
  induction js with
  | nil => exact fun p hp => Counted.skip hp
  | cons j js ihjs =>
    intro p hp
    rw [printItems, renderItems]
    refine (ih j (List.mem_cons_self ..) p hp).bind fun p1 h1 _ => ?_
    refine Counted.bind ?_ fun p2 h2 _ =>
      ihjs (fun j' hj' => ih j' (List.mem_cons_of_mem _ hj')) p2 h2
    split_ifs
    · exact Counted.skip h1
    · exact counted_put h1 (by decide) (by decide)

theorem counted_printMembers {ms : List (CString × Node)}
    (ih : ∀ m ∈ ms, ∀ p : PrintBuffer, p.Ok →
      Counted p (render m.2) ((printValue p m.2).map updateOffset)) :
    ∀ p : PrintBuffer, p.Ok → Counted p (renderMembers ms) (printMembers p ms) := by
  induction ms with
  | nil => exact fun p hp => Counted.skip hp
  | cons m ms ihms =>
    intro p hp
    obtain ⟨k, j⟩ := m
    rw [printMembers, renderMembers]
    refine (counted_printStringPtr hp k).bind fun p1 h1 _ => ?_
    refine (counted_put h1 (by decide) (by decide)).bind fun p2 h2 _ => ?_
    refine (ih (k, j) (List.mem_cons_self ..) p2 h2).bind fun p3 h3 _ => ?_
    refine Counted.bind ?_ fun p4 h4 _ =>
      ihms (fun m hm => ih m (List.mem_cons_of_mem _ hm)) p4 h4
    split_ifs
    · exact counted_put h3 (by decide) (by decide)
    · exact counted_put h3 (by decide) (by decide)

theorem counted_printValue (j : Node) : ∀ p : PrintBuffer, p.Ok →
    Counted p (render j) ((printValue p j).map updateOffset) := by
  induction j using induct with
  | null => exact fun p hp => counted_write hp (by decide) (by decide)
  | bool b =>
    cases b with
    | false => exact fun p hp => counted_write hp (by decide) (by decide)
    | true => exact fun p hp => counted_write hp (by decide) (by decide)
  | number d =>
    refine fun p hp => (counted_printNumber hp d).updateOffset fun p' h => ?_
    unfold printValue printNumber at h
    split_ifs at h
    obtain ⟨p1, -, rfl⟩ := Option.map_eq_some_iff.mp h
    rfl
  | string s => exact fun p hp => counted_printStringPtr hp s
  | array js ih =>
    intro p hp
    rw [printValue, render, Option.map_bind]
    refine (counted_put hp (by decide) (by decide)).bind fun p1 h1 _ => ?_
    show Counted _ _ (Option.map _ (Option.bind _ _))
    rw [Option.map_bind]
    exact (counted_printItems ih p1 h1).bind fun p2 h2 _ =>
      counted_write h2 (by decide) (by decide)
  | object ms ih =>
    intro p hp
    rw [printValue, render, Option.map_bind]
    refine (counted_put hp (by decide) (by decide)).bind fun p1 h1 _ => ?_
    show Counted _ _ (Option.map _ (Option.bind _ _))
    rw [Option.map_bind]
    exact (counted_printMembers ih p1 h1).bind fun p2 h2 _ =>
      counted_write h2 (by decide) (by decide)

/-- the last request of every value has room for its last bytes and one more -/
theorem ensure_bound {p p' : PrintBuffer} (hp : p.Ok) {needed : ℕ}
    (h : p.ensure needed = some p') : ((needed + p.offset + 1 : ℕ) : ℤ) ≤ INT_MAX := by
  obtain ⟨-, hlen, hmax⟩ := (ensure_spec hp needed).1 p' h
  omega

/-- the closing bracket, after whatever was printed before it -/
theorem close_bound {p p' : PrintBuffer} {s : Bytes} {r : Option PrintBuffer} {c : UInt8}
    (hr : Counted p s r)
    (h : (r.bind fun p => (p.ensure 2).map fun p => p.write [c]) = some p') :
    ((p.offset + (s ++ [c]).length + 2 : ℕ) : ℤ) ≤ INT_MAX := by
  obtain ⟨p1, h1, h2⟩ := Option.bind_eq_some_iff.mp h
  obtain ⟨p2, h3, -⟩ := Option.map_eq_some_iff.mp h2
  obtain ⟨hok, htext⟩ := hr.appends p1 h1
  have hb := ensure_bound hok h3
  have hoff : p1.offset = p.offset + s.length := by rw [offset, htext, List.length_append, ← offset]
  rw [List.length_append, List.length_singleton]
  omega

theorem printValue_bound {p p' : PrintBuffer} (hp : p.Ok) {j : Node}
    (h : printValue p j = some p') : ((p.offset + (render j).length + 2 : ℕ) : ℤ) ≤ INT_MAX := by
  have hopen : ∀ {needed : ℕ} {c : UInt8}, 1 ≤ needed → needed ≤ 2 →
      Counted p [c] ((p.ensure needed).map fun p => p.put [c]) := fun hlo hhi =>
    counted_put hp hlo hhi
  cases j with
  | null =>
    obtain ⟨p1, h1, -⟩ := Option.map_eq_some_iff.mp h
    have hb := ensure_bound hp h1
    show ((p.offset + 4 + 2 : ℕ) : ℤ) ≤ INT_MAX
    omega
  | bool b =>
    cases b with
    | false =>
      obtain ⟨p1, h1, -⟩ := Option.map_eq_some_iff.mp h
      have hb := ensure_bound hp h1
      show ((p.offset + 5 + 2 : ℕ) : ℤ) ≤ INT_MAX
      omega
    | true =>
      obtain ⟨p1, h1, -⟩ := Option.map_eq_some_iff.mp h
      have hb := ensure_bound hp h1
      show ((p.offset + 4 + 2 : ℕ) : ℤ) ≤ INT_MAX
      omega
  | number d =>
    unfold printValue printNumber at h
    split_ifs at h
    obtain ⟨p1, h1, -⟩ := Option.map_eq_some_iff.mp h
    have hb := ensure_bound hp h1
    unfold render
    omega
  | string s =>
    obtain ⟨p1, h1, -⟩ := Option.map_eq_some_iff.mp h
    have hb := ensure_bound hp h1
    have hlen := length_stringText s
    unfold render
    omega
  | array js =>
    rw [printValue] at h
    rw [render, ← List.append_assoc]
    rw [← Option.bind_assoc] at h
    exact close_bound ((hopen le_rfl (by norm_num)).bind fun p1 h1 _ =>
      counted_printItems (fun j _ => counted_printValue j) p1 h1) h
  | object ms =>
    rw [printValue] at h
    rw [render, ← List.append_assoc]
    rw [← Option.bind_assoc] at h
    exact close_bound ((hopen (by norm_num) le_rfl).bind fun p1 h1 _ =>
      counted_printMembers (fun m _ => counted_printValue m.2) p1 h1) h

/-- **The printer.**  A tree is printed exactly when its text fits the bound. -/
theorem printUnformatted_eq (j : Node) : j.printUnformatted =
    if (((render j).length + 2 : ℕ) : ℤ) ≤ INT_MAX then some (render j) else none := by
  have hok : PrintBuffer.Ok ⟨256, [], []⟩ := ⟨by decide, by decide⟩
  have hc := counted_printValue j ⟨256, [], []⟩ hok
  unfold printUnformatted
  split_ifs with hle
  · obtain ⟨p', hp'⟩ := hc.succeeds (by rw [offset]; simpa using hle)
    rw [hp', Option.map_some, (hc.appends p' hp').2]
    rfl
  · cases hv : printValue ⟨256, [], []⟩ j with
    | none => rfl
    | some p' =>
      refine absurd ?_ hle
      have := printValue_bound hok hv
      simpa [offset] using this

end Node

end CJSON
