import Warehouse.Text.Bytes

/-!
# Lines

* `lines`                the lines of a text; a newline ends a line;
* `lines_ended`          the line in front of a newline;
* `length_lines_ended`   the number of lines is the number of newlines;
* `append_cons_eq`       two texts around a byte that the first part of one of them has not.
-/

namespace Text

def newline : UInt8 := 10

/-- the lines of a text; what is behind the last newline is a line if it is not empty -/
def lines : Bytes → List Bytes
  | [] => []
  | c :: cs =>
    if c = newline then [] :: lines cs
    else
      match lines cs with
      | [] => [[c]]
      | l :: ls => (c :: l) :: ls

theorem lines_newline (cs : Bytes) : lines (newline :: cs) = [] :: lines cs := by
  rw [lines, if_pos rfl]

/-- a text in front of a newline is a line if there is no newline in it -/
theorem lines_ended {l : Bytes} (h : newline ∉ l) (rest : Bytes) :
    lines (l ++ newline :: rest) = l :: lines rest := by
  induction l with
  | nil => exact lines_newline rest
  | cons c l ih =>
    rw [List.mem_cons, not_or] at h
    obtain ⟨hc, hl⟩ := h
    rw [List.cons_append, lines, if_neg (Ne.symm hc), ih hl]

/-- every newline ends a line -/
theorem length_lines_ended (b rest : Bytes) :
    (lines (b ++ newline :: rest)).length = b.count newline + 1 + (lines rest).length := by
  induction b with
  | nil =>
    rw [List.nil_append, lines_newline, List.length_cons, List.count_nil]
    omega
  | cons c b ih =>
    rw [List.cons_append, lines]
    split_ifs with hc
    · rw [List.length_cons, ih, hc, List.count_cons_self]
      omega
    · rw [List.count_cons_of_ne hc, ← ih]
      cases hlines : lines (b ++ newline :: rest) with
      | nil =>
        rw [hlines, List.length_nil] at ih
        omega
      | cons l ls => rfl

/-- Two ways to cut a text at a byte, which the first part of one of them has not: it is the same
cut, or the other cut is further behind. -/
theorem append_cons_eq {a b t u : Bytes} {s : UInt8} (h : s ∉ a) (e : a ++ s :: t = b ++ s :: u) :
    (a = b ∧ t = u) ∨ ∃ v, b = a ++ s :: v ∧ t = v ++ s :: u := by
  rcases List.append_eq_append_iff.mp e with ⟨v, rfl, hv⟩ | ⟨v, rfl, hv⟩
  · cases v with
    | nil => exact Or.inl ⟨(List.append_nil a).symm, (List.cons.inj hv).2⟩
    | cons c v =>
      obtain ⟨rfl, ht⟩ := List.cons.inj hv
      exact Or.inr ⟨v, rfl, ht⟩
  · cases v with
    | nil => exact Or.inl ⟨List.append_nil b, (List.cons.inj hv).2.symm⟩
    | cons c v =>
      obtain ⟨rfl, -⟩ := List.cons.inj hv
      exact absurd (List.mem_append_right b (List.mem_cons_self ..)) h

end Text
