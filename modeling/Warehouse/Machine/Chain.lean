import Mathlib.Data.List.Nodup
import Mathlib.Data.List.Infix

/-!
# Chains of cells

Each cell of a chain knows the next cell and the previous one.  After the last cell comes none; the
first cell has the last one in the place of a previous one, so that the end is found in one step.

* `Segment`, `Chain`     a part of a chain, between the cells before and after it, and a whole chain;
                         `segment_append`, `Segment.congr`;
* `Linked`               the cells point on to each other;
* `Segment.relink`       new neighbours for the two ends of a segment;
* `chain_snoc`, `chain_insert`, `chain_remove`, `chain_replace`   what has to be written into which
                         cell to change a chain in one place;
* `segment_snoc`, `chain_of_segment`   a chain built up from its first cell, and closed at the end;
* `Chain.next_eq`, `Chain.prev_eq`   the neighbours of a cell in the middle.
-/

namespace Machine

variable {α : Type*}

section
variable (next prev : α → Option α)

/-- the cells of a list point to each other, the first one back to `before` and the last one on
to `after` -/
def Segment : Option α → List α → Option α → Prop
  | _, [], _ => True
  | before, a :: l, after => prev a = before ∧ next a = l.head?.or after ∧ Segment (some a) l after

/-- a whole list of cells; the first one points back to the last one -/
def Chain (l : List α) : Prop := Segment next prev l.getLast? l none

end

variable {next prev next' prev' : α → Option α} {before before' after after' : Option α}
  {l l₁ l₂ : List α} {x y : α}

/-! ## segments -/

@[simp] theorem segment_nil : Segment next prev before [] after := trivial

@[simp] theorem segment_cons : Segment next prev before (x :: l) after ↔
    prev x = before ∧ next x = l.head?.or after ∧ Segment next prev (some x) l after := Iff.rfl

@[simp] theorem chain_nil : Chain next prev [] := trivial

theorem getLast?_cons_or (x : α) (l : List α) (o : Option α) :
    (x :: l).getLast?.or o = l.getLast?.or (some x) := by
  rw [List.getLast?_cons]
  cases l.getLast? <;> rfl

theorem segment_append : Segment next prev before (l₁ ++ l₂) after ↔
    Segment next prev before l₁ (l₂.head?.or after) ∧
      Segment next prev (l₁.getLast?.or before) l₂ after := by
  induction l₁ generalizing before with
  | nil => simp
  | cons x l₁ ih =>
    rw [List.cons_append, segment_cons, segment_cons, ih, List.head?_append, Option.or_assoc,
      getLast?_cons_or, and_assoc, and_assoc]

/-- only the cells of a segment matter -/
theorem Segment.congr (hn : ∀ a ∈ l, next' a = next a) (hp : ∀ a ∈ l, prev' a = prev a)
    (h : Segment next prev before l after) : Segment next' prev' before l after := by
  induction l generalizing before with
  | nil => trivial
  | cons x l ih =>
    obtain ⟨hprev, hnext, hrest⟩ := h
    have hx := List.mem_cons_self (a := x) (l := l)
    exact ⟨(hp x hx).trans hprev, (hn x hx).trans hnext,
      ih (fun a ha => hn a (List.mem_cons_of_mem x ha))
        (fun a ha => hp a (List.mem_cons_of_mem x ha)) hrest⟩

theorem Chain.congr (hn : ∀ a ∈ l, next' a = next a) (hp : ∀ a ∈ l, prev' a = prev a)
    (h : Chain next prev l) : Chain next' prev' l := Segment.congr hn hp h

theorem Segment.prev_head (h : Segment next prev before l after) (hx : l.head? = some x) :
    prev x = before := by
  cases l with
  | nil => cases hx
  | cons y l =>
    cases hx
    exact h.1

theorem head?_or_of_ne_nil (hl : l ≠ []) (o : Option α) : l.head?.or o = l.head? := by
  cases l with
  | nil => exact absurd rfl hl
  | cons x l => rfl

theorem getLast?_cons_of_ne_nil (hl : l ≠ []) (x : α) : (x :: l).getLast? = l.getLast? := by
  cases l with
  | nil => exact absurd rfl hl
  | cons y l => exact List.getLast?_cons_cons

theorem getLast?_or_of_cons (x : α) (l : List α) (o : Option α) :
    (x :: l).getLast?.or o = (x :: l).getLast? := by
  rw [List.getLast?_cons]
  rfl

theorem getLast?_append_cons (l₁ l₂ : List α) (x : α) :
    (l₁ ++ x :: l₂).getLast? = (x :: l₂).getLast? := by
  rw [List.getLast?_append, getLast?_or_of_cons]

/-- the neighbours of a cell -/
theorem Chain.neighbours (h : Chain next prev (l₁ ++ x :: l₂)) :
    prev x = l₁.getLast?.or (x :: l₂).getLast? ∧ next x = l₂.head? := by
  unfold Chain at h
  rw [segment_append, getLast?_append_cons] at h
  exact ⟨h.2.1, h.2.2.1.trans Option.or_none⟩

/-- each cell points on to the next one; where the cells point back is left open -/
def Linked (next : α → Option α) : List α → Prop
  | [] => True
  | a :: l => next a = l.head? ∧ Linked next l

theorem Segment.linked (h : Segment next prev before l none) : Linked next l := by
  induction l generalizing before with
  | nil => trivial
  | cons x l ih => exact ⟨h.2.1.trans Option.or_none, ih h.2.2⟩

theorem Linked.congr (hn : ∀ a ∈ l, next' a = next a) (h : Linked next l) : Linked next' l := by
  induction l with
  | nil => trivial
  | cons x l ih =>
    exact ⟨(hn x (List.mem_cons_self ..)).trans h.1,
      ih (fun a ha => hn a (List.mem_cons_of_mem x ha)) h.2⟩

section
variable [DecidableEq α]

/-- **New neighbours for a segment.**  The last cell is made to point on to `after'` and the first
one back to `before'`; every other pointer stays. -/
theorem Segment.relink (hd : l.Nodup) (h : Segment next prev before l after)
    (hn : ∀ a ∈ l, next' a = if some a = l.getLast? then after' else next a)
    (hp : ∀ a ∈ l, prev' a = if some a = l.head? then before' else prev a) :
    Segment next' prev' before' l after' := by
  induction l generalizing before before' with
  | nil => trivial
  | cons x l ih =>
    obtain ⟨-, hnext, hrest⟩ := h
    obtain ⟨hxl, hd⟩ := List.nodup_cons.mp hd
    have hx := List.mem_cons_self (a := x) (l := l)
    have hpx : prev' x = before' := (hp x hx).trans (if_pos rfl)
    have hne : ∀ a ∈ l, a ≠ x := fun a ha hax => hxl (hax ▸ ha)
    by_cases hl : l = []
    · subst hl
      exact ⟨hpx, (hn x hx).trans (if_pos rfl), trivial⟩
    · rw [getLast?_cons_of_ne_nil hl] at hn
      have hxlast : some x ≠ l.getLast? := fun hx' =>
        hxl (List.mem_of_getLast? hx'.symm)
      refine ⟨hpx, ?_, ih hd hrest ?_ ?_⟩
      · rw [hn x hx, if_neg hxlast, hnext, head?_or_of_ne_nil hl, head?_or_of_ne_nil hl]
      · exact fun a ha => hn a (List.mem_cons_of_mem x ha)
      · intro a ha
        rw [hp a (List.mem_cons_of_mem x ha), List.head?_cons,
          if_neg (fun h => hne a ha (Option.some.inj h))]
        split_ifs with hhead
        · exact hrest.prev_head hhead.symm
        · rfl

/-- the last cell alone is written -/
theorem Segment.relink_last (hd : l.Nodup) (h : Segment next prev before l after)
    (hn : ∀ a ∈ l, next' a = if some a = l.getLast? then after' else next a)
    (hp : ∀ a ∈ l, prev' a = prev a) : Segment next' prev' before l after' := by
  refine h.relink hd hn fun a ha => (hp a ha).trans ?_
  split_ifs with hhead
  · exact h.prev_head hhead.symm
  · rfl

/-- the first cell of a segment that ends the chain is written -/
theorem Segment.relink_head (hd : l.Nodup) (h : Segment next prev before l none)
    (hn : ∀ a ∈ l, next' a = next a)
    (hp : ∀ a ∈ l, prev' a = if some a = l.head? then before' else prev a) :
    Segment next' prev' before' l none := by
  refine h.relink hd (fun a ha => (hn a ha).trans ?_) hp
  split_ifs with hlast
  · obtain ⟨l₀, rfl⟩ := List.getLast?_eq_some_iff.mp hlast.symm
    exact (segment_append.mp h).2.2.1
  · rfl

/-! ## changes of a chain -/

/-- a cell is appended: the old last cell and the first one are written -/
theorem chain_snoc (hd : l.Nodup) (h : Chain next prev l)
    (hx : next' x = none ∧ prev' x = l.getLast?.or (some x))
    (hn : ∀ a ∈ l, next' a = if some a = l.getLast? then some x else next a)
    (hp : ∀ a ∈ l, prev' a = if some a = l.head? then some x else prev a) :
    Chain next' prev' (l ++ [x]) := by
  unfold Chain
  rw [List.getLast?_concat, segment_append]
  exact ⟨h.relink hd hn hp, hx.2, hx.1, trivial⟩

/-- a cell is put before another one, which gets it as its previous one; so does the cell that
came before get it as its next one -/
theorem chain_insert (hd : (l₁ ++ y :: l₂).Nodup) (h : Chain next prev (l₁ ++ y :: l₂))
    (hx : next' x = some y ∧ prev' x = prev y)
    (hn : ∀ a ∈ l₁ ++ y :: l₂, next' a = if some a = l₁.getLast? then some x else next a)
    (hp : ∀ a ∈ l₁ ++ y :: l₂, prev' a = if a = y then some x else prev a) :
    Chain next' prev' (l₁ ++ x :: y :: l₂) := by
  obtain ⟨hd₁, hd₂, hdisj⟩ := List.nodup_append.mp hd
  have hy := h.neighbours
  unfold Chain at h ⊢
  rw [segment_append, getLast?_append_cons] at h ⊢
  rw [List.getLast?_cons_cons]
  refine ⟨h.1.relink_last hd₁ (fun a ha => hn a (List.mem_append_left _ ha)) ?_,
    hx.2.trans hy.1, hx.1, h.2.relink_head hd₂ ?_ ?_⟩
  · intro a ha
    rw [hp a (List.mem_append_left _ ha), if_neg (hdisj a ha y (List.mem_cons_self ..))]
  · intro a ha
    rw [hn a (List.mem_append_right _ ha), if_neg]
    exact fun h => hdisj a (List.mem_of_getLast? h.symm) a ha rfl
  · intro a ha
    rw [hp a (List.mem_append_right _ ha)]
    exact if_congr (Option.some_inj (a := a) (b := y)).symm rfl rfl

/-- a cell is taken out: the cells beside it are written, and the first one if the last cell goes -/
theorem chain_remove (hd : (l₁ ++ x :: l₂).Nodup) (h : Chain next prev (l₁ ++ x :: l₂))
    (hn : ∀ a ∈ l₁ ++ l₂, next' a = if some a = l₁.getLast? then next x else next a)
    (hp : ∀ a ∈ l₁ ++ l₂, prev' a =
      if some a = l₂.head? ∨ l₂ = [] ∧ some a = l₁.head? then prev x else prev a) :
    Chain next' prev' (l₁ ++ l₂) := by
  obtain ⟨hd₁, hd₂, hdisj⟩ := List.nodup_append.mp hd
  obtain ⟨hprev, hnext⟩ := h.neighbours
  rw [hnext] at hn
  unfold Chain at h ⊢
  rw [segment_append, getLast?_append_cons] at h
  cases l₂ with
  | nil =>
    rw [List.append_nil] at hn hp ⊢
    refine h.1.relink hd₁ hn fun a ha => (hp a ha).trans ?_
    obtain ⟨z, l₀, rfl⟩ := List.exists_cons_of_ne_nil (List.ne_nil_of_mem ha)
    rw [hprev, getLast?_or_of_cons]
    exact if_congr (by simp) rfl rfl
  | cons y l₂ =>
    rw [segment_append, getLast?_append_cons]
    refine ⟨h.1.relink_last hd₁ (fun a ha => hn a (List.mem_append_left _ ha)) ?_,
      h.2.2.2.relink_head (List.nodup_cons.mp hd₂).2 ?_ ?_⟩
    · intro a ha
      have hay : a ≠ y := hdisj a ha y (by simp)
      rw [hp a (List.mem_append_left _ ha), if_neg (by simpa using hay)]
    · intro a ha
      rw [hn a (List.mem_append_right _ ha), if_neg]
      exact fun h => hdisj a (List.mem_of_getLast? h.symm) a (List.mem_cons_of_mem x ha) rfl
    · intro a ha
      rw [hp a (List.mem_append_right _ ha), hprev, List.getLast?_cons_cons]
      exact if_congr (by simp) rfl rfl

/-- a cell takes the place of another one -/
theorem chain_replace (hd : (l₁ ++ x :: l₂).Nodup) (h : Chain next prev (l₁ ++ x :: l₂))
    (hy : next' y = next x ∧ prev' y = if l₁ ++ l₂ = [] then some y else prev x)
    (hn : ∀ a ∈ l₁ ++ l₂, next' a = if some a = l₁.getLast? then some y else next a)
    (hp : ∀ a ∈ l₁ ++ l₂, prev' a =
      if some a = l₂.head? ∨ l₂ = [] ∧ some a = l₁.head? then some y else prev a) :
    Chain next' prev' (l₁ ++ y :: l₂) := by
  obtain ⟨hd₁, hd₂, hdisj⟩ := List.nodup_append.mp hd
  obtain ⟨hprev, hnext⟩ := h.neighbours
  unfold Chain at h ⊢
  rw [segment_append, getLast?_append_cons] at h ⊢
  have hlast : l₂ ≠ [] → (y :: l₂).getLast? = (x :: l₂).getLast? := fun hl => by
    rw [getLast?_cons_of_ne_nil hl, getLast?_cons_of_ne_nil hl]
  refine ⟨h.1.relink hd₁ (fun a ha => hn a (List.mem_append_left _ ha)) ?_, hy.2.trans ?_,
    hy.1.trans (hnext.trans Option.or_none.symm), h.2.2.2.relink_head (List.nodup_cons.mp hd₂).2 ?_ ?_⟩
  · intro a ha
    rw [hp a (List.mem_append_left _ ha)]
    by_cases hl : l₂ = []
    · subst hl
      exact if_congr (by simp) rfl rfl
    · have hal : some a ≠ l₂.head? := fun ha' =>
        hdisj a ha a (List.mem_cons_of_mem x (List.mem_of_head? ha'.symm)) rfl
      rw [if_neg (by simp [hl, hal]), hlast hl]
      split_ifs with hhead
      · exact h.1.prev_head hhead.symm
      · rfl
  · split_ifs with hl
    · obtain ⟨rfl, rfl⟩ := List.append_eq_nil_iff.mp hl
      rfl
    · rw [hprev]
      cases l₁ with
      | nil => exact (hlast hl).symm
      | cons z l₁ => rw [getLast?_or_of_cons, getLast?_or_of_cons]
  · intro a ha
    rw [hn a (List.mem_append_right _ ha), if_neg]
    exact fun h => hdisj a (List.mem_of_getLast? h.symm) a (List.mem_cons_of_mem x ha) rfl
  · intro a ha
    rw [hp a (List.mem_append_right _ ha)]
    exact if_congr (by simp [List.ne_nil_of_mem ha]) rfl rfl

/-! ## a chain in the making -/

/-- a cell is put behind the last one; the first one is not written -/
theorem segment_snoc (hd : l.Nodup) (h : Segment next prev before l after)
    (hx : next' x = after' ∧ prev' x = l.getLast?.or before)
    (hn : ∀ a ∈ l, next' a = if some a = l.getLast? then some x else next a)
    (hp : ∀ a ∈ l, prev' a = prev a) : Segment next' prev' before (l ++ [x]) after' :=
  segment_append.mpr ⟨h.relink_last hd hn hp, hx.2, hx.1, trivial⟩

/-- at the end the first cell gets the last one -/
theorem chain_of_segment (hd : l.Nodup) (h : Segment next prev before l none)
    (hn : ∀ a ∈ l, next' a = next a)
    (hp : ∀ a ∈ l, prev' a = if some a = l.head? then l.getLast? else prev a) :
    Chain next' prev' l := h.relink_head hd hn hp

end

end Machine
