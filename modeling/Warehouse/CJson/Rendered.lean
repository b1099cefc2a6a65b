import Warehouse.CJson.Grammar
import Warehouse.CJson.Print

/-!
# Printed texts

The text of a tree is a text of the grammar.  It denotes the tree itself, up to its numbers: a
double is printed with at most 17 digits and read back, and a double that is not finite becomes a
null.

* `derives_render`    the text of `j` denotes `j.reread`;
* `nesting_reread`    which is nested as deep as `j`;
* `reread_eq_self`    whole numbers below `10^15` come back unchanged;
* `nulFree_render`    a printed text has no NUL byte;
* `Derives.length_render_le`   printing what was parsed does not grow the text beyond a factor.
-/

namespace CJSON
open Text Numeric

namespace Node

/-! ## the tree a printed text denotes -/

def rereadNumber (d : Binary64) : Node :=
  match strtod (numberText d) with
  | some (v, _) => .number v
  | none => .null

mutual

def reread : Node → Node
  | null => null
  | bool b => bool b
  | number d => rereadNumber d
  | string s => string s
  | array js => array (rereadItems js)
  | object ms => object (rereadMembers ms)

def rereadItems : List Node → List Node
  | [] => []
  | j :: js => reread j :: rereadItems js

def rereadMembers : List (CString × Node) → List (CString × Node)
  | [] => []
  | (k, j) :: ms => (k, reread j) :: rereadMembers ms

end

theorem nesting_rereadNumber (d : Binary64) : (rereadNumber d).nesting = 0 := by
  unfold rereadNumber
  split <;> rfl

/-- the containers come back where they were -/
theorem nesting_reread (j : Node) : j.reread.nesting = j.nesting := by
  induction j using induct with
  | null => rfl
  | bool b => rfl
  | number d => exact nesting_rereadNumber d
  | string s => rfl
  | array js ih =>
    have hjs : nestingItems (rereadItems js) = nestingItems js := by
      induction js with
      | nil => rfl
      | cons j js ihjs =>
        rw [rereadItems, nestingItems, nestingItems, ih j (List.mem_cons_self ..),
          ihjs fun x hx => ih x (List.mem_cons_of_mem _ hx)]
    rw [reread, nesting, nesting, hjs]
  | object ms ih =>
    have hms : nestingMembers (rereadMembers ms) = nestingMembers ms := by
      induction ms with
      | nil => rfl
      | cons m ms ihms =>
        obtain ⟨k, j⟩ := m
        have hj : j.reread.nesting = j.nesting := ih (k, j) (List.mem_cons_self ..)
        rw [rereadMembers, nestingMembers, nestingMembers, hj,
          ihms fun x hx => ih x (List.mem_cons_of_mem _ hx)]
    rw [reread, nesting, nesting, hms]

/-- what is read back as an object was one -/
theorem object_of_reread {j : Node} {ms : List (CString × Node)} (h : j.reread = .object ms) :
    ∃ ms', j = .object ms' := by
  cases j with
  | object ms' => exact ⟨ms', rfl⟩
  | number d =>
    replace h : rereadNumber d = .object ms := h
    unfold rereadNumber at h
    split at h <;> cases h
  | _ => cases h

/-- a printed number is a number token, or the text of a null -/
theorem derives_numberText (d : ℕ) (x : Binary64) :
    Derives d (.value (rereadNumber x)) (numberText x) := by
  unfold rereadNumber
  cases x with
  | finite q h =>
    obtain ⟨v, hv⟩ := numberToken_numberText h
    rw [hv.value]
    exact .number hv
  | inf s => exact .litNull
  | nan => exact .litNull

theorem derives_renderItems {js : List Node} (hne : js ≠ [])
    (ih : ∀ j ∈ js, ∀ d, j.nesting ≤ d → Derives d (.value j.reread) (render j)) :
    ∀ d, nestingItems js ≤ d → Derives d (.items (rereadItems js)) (renderItems js) := by
  induction js with
  | nil => exact absurd rfl hne
  | cons j js ihjs =>
    intro d hd
    rw [nestingItems] at hd
    have hj := ih j (List.mem_cons_self ..) d (by omega)
    rw [renderItems, rereadItems]
    cases js with
    | nil =>
      show Derives d (.items [j.reread]) ([] ++ (render j ++ []))
      exact .item blank_nil hj blank_nil
    | cons j' js =>
      have hjs := ihjs (List.cons_ne_nil _ _) (fun x hx => ih x (List.mem_cons_of_mem _ hx)) d
        (by omega)
      exact Derives.items blank_nil hj blank_nil hjs

theorem derives_renderMembers {ms : List (CString × Node)} (hne : ms ≠ [])
    (ih : ∀ m ∈ ms, ∀ d, m.2.nesting ≤ d → Derives d (.value m.2.reread) (render m.2)) :
    ∀ d, nestingMembers ms ≤ d → Derives d (.members (rereadMembers ms)) (renderMembers ms) := by
  induction ms with
  | nil => exact absurd rfl hne
  | cons m ms ihms =>
    obtain ⟨k, j⟩ := m
    intro d hd
    rw [nestingMembers] at hd
    have hj : Derives d (.value j.reread) (render j) :=
      ih (k, j) (List.mem_cons_self ..) d (show j.nesting ≤ d by omega)
    have hk := stringToken_stringText k
    rw [renderMembers, rereadMembers]
    cases ms with
    | nil =>
      show Derives d (.members [(k, j.reread)])
        ([] ++ (stringText k ++ ([] ++ ([58] ++ ([] ++ (render j ++ []))))))
      exact .member blank_nil hk blank_nil blank_nil hj blank_nil
    | cons m' ms =>
      have hms := ihms (List.cons_ne_nil _ _) (fun x hx => ih x (List.mem_cons_of_mem _ hx)) d
        (by omega)
      exact Derives.members blank_nil hk blank_nil blank_nil hj blank_nil hms

/-- **The text of a tree is a text of the grammar.** -/
theorem derives_render (j : Node) :
    ∀ d, j.nesting ≤ d → Derives d (.value j.reread) (render j) := by
  induction j using induct with
  | null => exact fun _ _ => .litNull
  | bool b =>
    cases b with
    | false => exact fun _ _ => .litFalse
    | true => exact fun _ _ => .litTrue
  | number x => exact fun d _ => derives_numberText d x
  | string s => exact fun _ _ => .string (stringToken_stringText s)
  | array js ih =>
    intro d hd
    rw [nesting] at hd
    obtain ⟨n, rfl⟩ : ∃ n, d = n + 1 := ⟨d - 1, by omega⟩
    rw [render, reread]
    cases js with
    | nil => exact .emptyArray blank_nil
    | cons j js => exact .array (derives_renderItems (List.cons_ne_nil _ _) ih n (by omega))
  | object ms ih =>
    intro d hd
    rw [nesting] at hd
    obtain ⟨n, rfl⟩ : ∃ n, d = n + 1 := ⟨d - 1, by omega⟩
    rw [render, reread]
    cases ms with
    | nil => exact .emptyObject blank_nil
    | cons m ms => exact .object (derives_renderMembers (List.cons_ne_nil _ _) ih n (by omega))

/-! ## whole numbers -/

mutual

/-- every number of the tree satisfies `P` -/
def AllNumbers (P : Binary64 → Prop) : Node → Prop
  | number d => P d
  | array js => AllNumbersItems P js
  | object ms => AllNumbersMembers P ms
  | _ => True

def AllNumbersItems (P : Binary64 → Prop) : List Node → Prop
  | [] => True
  | j :: js => AllNumbers P j ∧ AllNumbersItems P js

def AllNumbersMembers (P : Binary64 → Prop) : List (CString × Node) → Prop
  | [] => True
  | (_, j) :: ms => AllNumbers P j ∧ AllNumbersMembers P ms

end

/-- a whole number of at most 15 digits -/
def WholeNumber (d : Binary64) : Prop := ∃ i : ℤ, i.natAbs < 10 ^ 15 ∧ d = Binary64.ofInt i

theorem rereadNumber_whole {d : Binary64} (h : WholeNumber d) : rereadNumber d = .number d := by
  obtain ⟨i, hi, rfl⟩ := h
  unfold rereadNumber
  rw [numberText_ofInt hi, (numberToken_ofInt hi).value]

theorem reread_eq_self (j : Node) : j.AllNumbers WholeNumber → j.reread = j := by
  induction j using induct with
  | null => exact fun _ => rfl
  | bool b => exact fun _ => rfl
  | number d => exact fun h => rereadNumber_whole h
  | string s => exact fun _ => rfl
  | array js ih =>
    intro h
    have hjs : rereadItems js = js := by
      rw [AllNumbers] at h
      induction js with
      | nil => rfl
      | cons j js ihjs =>
        rw [rereadItems, ih j (List.mem_cons_self ..) h.1,
          ihjs (fun x hx => ih x (List.mem_cons_of_mem _ hx)) h.2]
    rw [reread, hjs]
  | object ms ih =>
    intro h
    have hms : rereadMembers ms = ms := by
      rw [AllNumbers] at h
      induction ms with
      | nil => rfl
      | cons m ms ihms =>
        obtain ⟨k, j⟩ := m
        have hj : j.reread = j := ih (k, j) (List.mem_cons_self ..) h.1
        rw [rereadMembers, hj, ihms (fun x hx => ih x (List.mem_cons_of_mem _ hx)) h.2]
    rw [reread, hms]

/-! ## no NUL in a printed text -/

/-- a text without NUL bytes is a C string as it is -/
def NulFree (b : Bytes) : Prop := ∀ c ∈ b, c ≠ 0

theorem NulFree.append {a b : Bytes} (ha : NulFree a) (hb : NulFree b) : NulFree (a ++ b) :=
  fun c hc => (List.mem_append.mp hc).elim (ha c) (hb c)

theorem nulFree_nil : NulFree [] := fun _ h => nomatch h

/-- by evaluation, for a text that is given -/
theorem nulFree_of_all {b : Bytes} (h : b.all (fun c => c != 0) = true) : NulFree b := fun c hc =>
  bne_iff_ne.mp (List.all_eq_true.mp h c hc)

theorem nulFree_singleton {c : UInt8} (h : c ≠ 0) : NulFree [c] := fun _ hx =>
  List.mem_singleton.mp hx ▸ h

theorem nulFree_escape {c : UInt8} (h : c ≠ 0) : NulFree (escape c) := by
  have hhex : ∀ n, hexDigit (n % 16) ≠ 0 := fun n h0 => by
    have hlt : n % 16 < 16 := Nat.mod_lt _ (by norm_num)
    generalize n % 16 = m at h0 hlt
    interval_cases m <;> revert h0 <;> decide
  rcases escape_cases c with ⟨-, -, -, e, -⟩ | hs | ⟨-, e, -⟩
  · rw [e]
    exact nulFree_singleton h
  · rcases hs with rfl | rfl | rfl | rfl | rfl | rfl | rfl <;> exact nulFree_of_all (by decide)
  · rw [e]
    intro x hx
    simp only [hex4, List.mem_cons, List.not_mem_nil, or_false] at hx
    rcases hx with rfl | rfl | rfl | rfl | rfl | rfl
    · decide
    · decide
    all_goals exact hhex _

theorem nulFree_stringText (s : CString) : NulFree (stringText s) := by
  have hesc : NulFree (escaped s.bytes) := fun c hc => by
    obtain ⟨x, hx, hc⟩ := List.mem_flatMap.mp hc
    exact nulFree_escape (s.nulFree x hx) c hc
  exact (nulFree_singleton (by decide)).append (hesc.append (nulFree_singleton (by decide)))

theorem nulFree_numberText (x : Binary64) : NulFree (numberText x) := by
  have hnum : ∀ {b : Bytes}, (∀ c ∈ b, isNumberByte c = true) → NulFree b := fun hb c hc e => by
    have := hb c hc
    rw [e] at this
    revert this
    decide
  rcases numberText_cases x with ⟨q, h, -, e | e | e⟩ | ⟨-, e⟩ <;> rw [e]
  · exact hnum isNumberByte_numeral
  · exact hnum isNumberByte_formatG
  · exact hnum isNumberByte_formatG
  · exact nulFree_of_all (by decide)

theorem nulFree_renderItems {js : List Node} (ih : ∀ j ∈ js, NulFree (render j)) :
    NulFree (renderItems js) := by
  induction js with
  | nil => exact nulFree_nil
  | cons j js ihjs =>
    rw [renderItems]
    refine (ih j (List.mem_cons_self ..)).append (NulFree.append ?_
      (ihjs fun x hx => ih x (List.mem_cons_of_mem _ hx)))
    split_ifs
    · exact nulFree_nil
    · exact nulFree_singleton (by decide)

theorem nulFree_renderMembers {ms : List (CString × Node)} (ih : ∀ m ∈ ms, NulFree (render m.2)) :
    NulFree (renderMembers ms) := by
  induction ms with
  | nil => exact nulFree_nil
  | cons m ms ihms =>
    obtain ⟨k, j⟩ := m
    rw [renderMembers]
    refine (nulFree_stringText k).append ((nulFree_singleton (by decide)).append
      (NulFree.append (ih (k, j) (List.mem_cons_self ..)) (NulFree.append ?_
        (ihms fun x hx => ih x (List.mem_cons_of_mem _ hx)))))
    split_ifs
    · exact nulFree_nil
    · exact nulFree_singleton (by decide)

theorem nulFree_render (j : Node) : NulFree (render j) := by
  induction j using induct with
  | null => exact nulFree_of_all (by decide)
  | bool b => cases b <;> exact nulFree_of_all (by decide)
  | number x => exact nulFree_numberText x
  | string s => exact nulFree_stringText s
  | array js ih =>
    exact (nulFree_singleton (by decide)).append
      ((nulFree_renderItems ih).append (nulFree_singleton (by decide)))
  | object ms ih =>
    exact (nulFree_singleton (by decide)).append
      ((nulFree_renderMembers ih).append (nulFree_singleton (by decide)))

end Node

/-! ## lengths -/

/-- what the printer makes of a phrase -/
def Phrase.render : Phrase → Bytes
  | .value j => j.render
  | .items js => Node.renderItems js
  | .members ms => Node.renderMembers ms

/-- **Printing what was parsed does not grow the text beyond a factor.** -/
theorem Derives.length_render_le {d : ℕ} {p : Phrase} {b : Bytes} (h : Derives d p b) :
    p.render.length ≤ 25 * b.length := by
  induction h with
  | litNull => decide
  | litFalse => decide
  | litTrue => decide
  | number h =>
    obtain ⟨c, t, rfl, -⟩ := h.head
    refine (length_numberText_le _).trans ?_
    rw [List.length_cons]
    omega
  | string h => exact h.length_stringText_le.trans (by omega)
  | emptyArray hw =>
    simp only [List.length_append, List.length_singleton]
    exact le_trans (by decide : _ ≤ 2) (by omega)
  | array h ih =>
    simp only [Phrase.render, Node.render, List.length_append, List.length_singleton] at ih ⊢
    omega
  | emptyObject hw =>
    simp only [List.length_append, List.length_singleton]
    exact le_trans (by decide : _ ≤ 2) (by omega)
  | object h ih =>
    simp only [Phrase.render, Node.render, List.length_append, List.length_singleton] at ih ⊢
    omega
  | item hw hj hw' ih =>
    simp only [Phrase.render, Node.renderItems, List.isEmpty_nil, if_true, List.append_nil,
      List.length_append] at ih ⊢
    omega
  | items hw hj hw' hjs ih ihs =>
    simp only [Phrase.render, Node.renderItems, List.length_append, List.length_singleton] at ih ihs ⊢
    split_ifs <;> simp only [List.length_nil, List.length_singleton] <;> omega
  | member hw hk hw1 hw2 hj hw' ih =>
    have hkey := hk.length_stringText_le
    simp only [Phrase.render, Node.renderMembers, List.isEmpty_nil, if_true, List.append_nil,
      List.length_append, List.length_singleton] at ih ⊢
    omega
  | members hw hk hw1 hw2 hj hw' hms ih ihs =>
    have hkey := hk.length_stringText_le
    simp only [Phrase.render, Node.renderMembers, List.length_append, List.length_singleton]
      at ih ihs ⊢
    split_ifs <;> simp only [List.length_nil, List.length_singleton] <;> omega

namespace Node

theorem length_render_le_of_mem {m : CString × Node} {ms : List (CString × Node)} (h : m ∈ ms) :
    m.2.render.length ≤ (object ms).render.length := by
  have hmem : m.2.render.length ≤ (renderMembers ms).length := by
    induction ms with
    | nil => cases h
    | cons x ms ih =>
      obtain ⟨k, j⟩ := x
      simp only [renderMembers, List.length_append]
      rcases List.mem_cons.mp h with rfl | h
      · show j.render.length ≤ _
        omega
      · have := ih h
        omega
  simp only [render, List.length_append]
  omega

end Node

end CJSON
