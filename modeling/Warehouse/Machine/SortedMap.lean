import Mathlib.Order.Defs.LinearOrder
import Mathlib.Data.List.Basic
import Mathlib.Algebra.BigOperators.Group.List.Basic
import Mathlib.Algebra.Order.BigOperators.Group.List
import Mathlib.Algebra.Order.Group.Unbundled.Basic
import Mathlib.Tactic.Abel
import Mathlib.Tactic.SplitIfs

/-!
# Ordered maps

`SortedMap κ ν` is a list of entries with strictly increasing keys: the observable behaviour of
an ordered associative container (lookup, overwriting and non-overwriting insertion, erasure,
and iteration in key order).

* `find?_insert`, `find?_erase`      lookup after each operation;
* `find?_insert_cases`, `find?_erase_some`, `find?_emplace_cases`   where an entry comes from;
* `mem_entries`      an entry is in the list exactly when lookup finds it;
* `mapValues`        the same keys with other values;
* `mem_keys`         and a key is among the keys exactly when the map contains it;
* `sumBy_insert`, `sumBy_erase`, `at?_le_sumBy`   sums over all entries.
-/

namespace Machine

/-- a finite map with entries in increasing key order -/
structure SortedMap (κ ν : Type*) [LinearOrder κ] where
  entries : List (κ × ν)
  sorted : entries.Pairwise (fun a b => a.1 < b.1)
deriving DecidableEq

namespace SortedMap

variable {κ ν : Type*} [LinearOrder κ]

/-! ## the operations on entry lists -/

def lookupList (k : κ) : List (κ × ν) → Option ν
  | [] => none
  | (k', v) :: rest => if k = k' then some v else lookupList k rest

/-- put `(k, v)` at its place, over an entry with the same key if there is one -/
def insertList (k : κ) (v : ν) : List (κ × ν) → List (κ × ν)
  | [] => [(k, v)]
  | (k', v') :: rest =>
    if k < k' then (k, v) :: (k', v') :: rest
    else if k = k' then (k, v) :: rest
    else (k', v') :: insertList k v rest

def eraseList (k : κ) (l : List (κ × ν)) : List (κ × ν) := l.filter (fun e => e.1 ≠ k)

theorem lookupList_cons (k a : κ) (b : ν) (tl : List (κ × ν)) :
    lookupList k ((a, b) :: tl) = if k = a then some b else lookupList k tl := rfl

theorem mem_insertList {k : κ} {v : ν} {e : κ × ν} {l : List (κ × ν)}
    (h : e ∈ insertList k v l) : e = (k, v) ∨ e ∈ l := by
  induction l with
  | nil => exact Or.inl (List.mem_singleton.mp h)
  | cons hd tl ih =>
    obtain ⟨k', v'⟩ := hd
    unfold insertList at h
    split_ifs at h with h1 h2
    · exact List.mem_cons.mp h
    · rcases List.mem_cons.mp h with h | h
      · exact Or.inl h
      · exact Or.inr (List.mem_cons_of_mem _ h)
    · rcases List.mem_cons.mp h with h | h
      · exact Or.inr (by rw [h]; exact List.mem_cons_self ..)
      · rcases ih h with h | h
        · exact Or.inl h
        · exact Or.inr (List.mem_cons_of_mem _ h)

theorem sorted_insertList (k : κ) (v : ν) {l : List (κ × ν)}
    (h : l.Pairwise (fun a b => a.1 < b.1)) :
    (insertList k v l).Pairwise (fun a b => a.1 < b.1) := by
  induction l with
  | nil => exact List.pairwise_singleton ..
  | cons hd tl ih =>
    obtain ⟨k', v'⟩ := hd
    obtain ⟨hhd, htl⟩ := List.pairwise_cons.mp h
    unfold insertList
    split_ifs with h1 h2
    · refine List.pairwise_cons.mpr ⟨fun e he => ?_, h⟩
      rcases List.mem_cons.mp he with rfl | he
      · exact h1
      · exact lt_trans h1 (hhd e he)
    · subst h2
      exact List.pairwise_cons.mpr ⟨hhd, htl⟩
    · refine List.pairwise_cons.mpr ⟨fun e he => ?_, ih htl⟩
      rcases mem_insertList he with rfl | he
      · exact lt_of_le_of_ne (not_lt.mp h1) (Ne.symm h2)
      · exact hhd e he

theorem lookup_insertList (k : κ) (v : ν) (k' : κ) (l : List (κ × ν)) :
    lookupList k' (insertList k v l) = if k' = k then some v else lookupList k' l := by
  induction l with
  | nil => rfl
  | cons hd tl ih =>
    obtain ⟨a, b⟩ := hd
    unfold insertList
    split_ifs with h1 h2 h3 h4 h5
    · rw [lookupList_cons, if_pos h2]
    · rw [lookupList_cons, if_neg h2]
    · rw [lookupList_cons, if_pos h4]
    · rw [lookupList_cons, lookupList_cons, if_neg h4, if_neg (h3 ▸ h4)]
    · rw [lookupList_cons, ih, if_pos h5, if_neg (h5 ▸ h3)]
    · rw [lookupList_cons, ih, lookupList_cons, if_neg h5]

theorem lookup_eraseList (k k' : κ) (l : List (κ × ν)) :
    lookupList k' (eraseList k l) = if k' = k then none else lookupList k' l := by
  induction l with
  | nil => exact (ite_self none).symm
  | cons hd tl ih =>
    obtain ⟨a, b⟩ := hd
    unfold eraseList at ih ⊢
    by_cases ha : a = k
    · subst ha
      rw [List.filter_cons_of_neg (by simp), ih, lookupList_cons]
      by_cases h : k' = a
      · rw [if_pos h, if_pos h]
      · rw [if_neg h, if_neg h, if_neg h]
    · rw [List.filter_cons_of_pos (by simpa using ha), lookupList_cons, ih, lookupList_cons]
      by_cases h : k' = a
      · rw [if_pos h, if_pos h, if_neg (h ▸ ha)]
      · rw [if_neg h, if_neg h]

/-! ## the map operations -/

def empty : SortedMap κ ν := ⟨[], List.Pairwise.nil⟩

def find? (m : SortedMap κ ν) (k : κ) : Option ν := lookupList k m.entries

def contains (m : SortedMap κ ν) (k : κ) : Bool := (m.find? k).isSome

/-- assignment `m[k] = v` -/
def insert (m : SortedMap κ ν) (k : κ) (v : ν) : SortedMap κ ν :=
  ⟨insertList k v m.entries, sorted_insertList k v m.sorted⟩

/-- `m.emplace(k, v)`: an entry that is there stays -/
def emplace (m : SortedMap κ ν) (k : κ) (v : ν) : SortedMap κ ν :=
  if m.contains k then m else m.insert k v

def erase (m : SortedMap κ ν) (k : κ) : SortedMap κ ν :=
  ⟨eraseList k m.entries, m.sorted.filter _⟩

theorem find?_insert (m : SortedMap κ ν) (k : κ) (v : ν) (k' : κ) :
    (m.insert k v).find? k' = if k' = k then some v else m.find? k' :=
  lookup_insertList k v k' m.entries

@[simp] theorem find?_insert_self (m : SortedMap κ ν) (k : κ) (v : ν) :
    (m.insert k v).find? k = some v := by
  rw [find?_insert, if_pos rfl]

theorem find?_insert_of_ne (m : SortedMap κ ν) {k k' : κ} (v : ν) (h : k' ≠ k) :
    (m.insert k v).find? k' = m.find? k' := by
  rw [find?_insert, if_neg h]

theorem find?_erase (m : SortedMap κ ν) (k k' : κ) :
    (m.erase k).find? k' = if k' = k then none else m.find? k' :=
  lookup_eraseList k k' m.entries

@[simp] theorem find?_erase_self (m : SortedMap κ ν) (k : κ) : (m.erase k).find? k = none := by
  rw [find?_erase, if_pos rfl]

theorem find?_erase_of_ne (m : SortedMap κ ν) {k k' : κ} (h : k' ≠ k) :
    (m.erase k).find? k' = m.find? k' := by
  rw [find?_erase, if_neg h]

theorem contains_eq_true {m : SortedMap κ ν} {k : κ} :
    m.contains k = true ↔ ∃ v, m.find? k = some v := Option.isSome_iff_exists

theorem contains_eq_false {m : SortedMap κ ν} {k : κ} :
    m.contains k = false ↔ m.find? k = none := by
  simp [contains]

/-- an entry after an insertion is the new one, or an old one under another key -/
theorem find?_insert_cases {m : SortedMap κ ν} {k k' : κ} {v w : ν}
    (h : (m.insert k v).find? k' = some w) :
    (k' = k ∧ w = v) ∨ (k' ≠ k ∧ m.find? k' = some w) := by
  rw [find?_insert] at h
  split_ifs at h with hk
  · exact Or.inl ⟨hk, (Option.some.inj h).symm⟩
  · exact Or.inr ⟨hk, h⟩

/-- an entry after an erasure is an old one under another key -/
theorem find?_erase_some {m : SortedMap κ ν} {k k' : κ} {v : ν}
    (h : (m.erase k).find? k' = some v) : k' ≠ k ∧ m.find? k' = some v := by
  rw [find?_erase] at h
  split_ifs at h with hk
  exact ⟨hk, h⟩

/-- an entry after an emplacement is an old one, or the new one where there was none -/
theorem find?_emplace_cases {m : SortedMap κ ν} {k k' : κ} {v w : ν}
    (h : (m.emplace k v).find? k' = some w) :
    m.find? k' = some w ∨ (m.find? k = none ∧ k' = k ∧ w = v) := by
  unfold emplace at h
  split_ifs at h with hc
  · exact Or.inl h
  · rcases find?_insert_cases h with ⟨hk, hw⟩ | ⟨-, hold⟩
    · exact Or.inr ⟨contains_eq_false.mp (Bool.eq_false_iff.mpr hc), hk, hw⟩
    · exact Or.inl hold

/-! ## entries -/

theorem mem_lookup {l : List (κ × ν)} (hl : l.Pairwise (fun a b => a.1 < b.1)) (k : κ) (v : ν) :
    (k, v) ∈ l ↔ lookupList k l = some v := by
  induction l with
  | nil => simp [lookupList]
  | cons hd tl ih =>
    obtain ⟨a, b⟩ := hd
    obtain ⟨hhd, htl⟩ := List.pairwise_cons.mp hl
    rw [List.mem_cons, lookupList_cons, Prod.mk.injEq]
    by_cases h : k = a
    · have hno : (k, v) ∉ tl := fun hv => ne_of_gt (hhd (k, v) hv) h
      rw [if_pos h, Option.some_inj]
      exact ⟨fun e => e.elim (fun e => e.2.symm) (fun e => absurd e hno),
        fun e => Or.inl ⟨h, e.symm⟩⟩
    · rw [if_neg h, ← ih htl]
      exact ⟨fun e => e.elim (fun e => absurd e.1 h) id, Or.inr⟩

/-- no entry below the first key -/
theorem lookup_eq_none {k : κ} {l : List (κ × ν)} (hl : l.Pairwise (fun a b => a.1 < b.1))
    (h : ∀ e ∈ l, k < e.1) : lookupList k l = none := by
  rw [Option.eq_none_iff_forall_ne_some]
  intro v hv
  exact lt_irrefl k (h (k, v) ((mem_lookup hl k v).mpr hv))

theorem mem_entries (m : SortedMap κ ν) (k : κ) (v : ν) :
    (k, v) ∈ m.entries ↔ m.find? k = some v := mem_lookup m.sorted k v

theorem nodup_entries (m : SortedMap κ ν) : m.entries.Nodup :=
  List.Pairwise.imp (fun h e => ne_of_lt h (congrArg Prod.fst e)) m.sorted

/-- maps with the same lookups are equal -/
theorem ext_find? {m m' : SortedMap κ ν} (h : ∀ k, m.find? k = m'.find? k) : m = m' := by
  have hperm : m.entries.Perm m'.entries := by
    refine (List.perm_ext_iff_of_nodup m.nodup_entries m'.nodup_entries).mpr fun e => ?_
    obtain ⟨k, v⟩ := e
    rw [mem_entries, mem_entries, h k]
  have hentries : m.entries = m'.entries :=
    hperm.eq_of_pairwise (fun a b _ _ hab hba => absurd (hab.trans hba) (lt_irrefl _))
      m.sorted m'.sorted
  obtain ⟨entries, sorted⟩ := m
  obtain ⟨entries', sorted'⟩ := m'
  cases hentries
  rfl

theorem erase_of_absent {m : SortedMap κ ν} {k : κ} (h : m.find? k = none) : m.erase k = m :=
  ext_find? fun k' => by
    rw [find?_erase]
    split_ifs with hk
    · rw [hk, h]
    · rfl

/-- an entry that is added and erased again -/
theorem erase_insert {m : SortedMap κ ν} {k : κ} (h : m.find? k = none) (v : ν) :
    (m.insert k v).erase k = m :=
  ext_find? fun k' => by
    rw [find?_erase, find?_insert]
    split_ifs with hk
    · rw [hk, h]
    · rfl

theorem insert_comm (m : SortedMap κ ν) {k k' : κ} (v v' : ν) (h : k ≠ k') :
    (m.insert k v).insert k' v' = (m.insert k' v').insert k v :=
  ext_find? fun x => by
    rw [find?_insert, find?_insert, find?_insert, find?_insert]
    split_ifs with h1 h2
    · exact absurd (h2.symm.trans h1) h
    · rfl
    · rfl
    · rfl

theorem erase_insert_comm (m : SortedMap κ ν) {k k' : κ} (v : ν) (h : k ≠ k') :
    (m.insert k v).erase k' = (m.erase k').insert k v :=
  ext_find? fun x => by
    rw [find?_erase, find?_insert, find?_insert, find?_erase]
    split_ifs with h1 h2
    · exact absurd (h2.symm.trans h1) h
    · rfl
    · rfl
    · rfl

/-- what is written over an entry does not depend on it -/
theorem insert_erase (m : SortedMap κ ν) (k : κ) (v : ν) : (m.erase k).insert k v = m.insert k v :=
  ext_find? fun x => by
    rw [find?_insert, find?_insert, find?_erase]
    split_ifs <;> rfl

/-! ## another value in each entry -/

section
variable {μ : Type*}

def mapValues (f : ν → μ) (m : SortedMap κ ν) : SortedMap κ μ :=
  ⟨m.entries.map fun e => (e.1, f e.2), List.pairwise_map.mpr m.sorted⟩

theorem find?_mapValues (f : ν → μ) (m : SortedMap κ ν) (k : κ) :
    (m.mapValues f).find? k = (m.find? k).map f := by
  show lookupList k (m.entries.map fun e => (e.1, f e.2)) = (lookupList k m.entries).map f
  induction m.entries with
  | nil => rfl
  | cons e es ih =>
    obtain ⟨a, b⟩ := e
    rw [List.map_cons, lookupList_cons, lookupList_cons]
    split_ifs
    · rfl
    · exact ih

theorem mapValues_erase (f : ν → μ) (m : SortedMap κ ν) (k : κ) :
    (m.erase k).mapValues f = (m.mapValues f).erase k :=
  ext_find? fun x => by
    rw [find?_mapValues, find?_erase, find?_erase, find?_mapValues]
    split_ifs <;> rfl

theorem mapValues_insert (f : ν → μ) (m : SortedMap κ ν) (k : κ) (v : ν) :
    (m.insert k v).mapValues f = (m.mapValues f).insert k (f v) :=
  ext_find? fun x => by
    rw [find?_mapValues, find?_insert, find?_insert, find?_mapValues]
    split_ifs <;> rfl

/-- values that agree on the entries -/
theorem mapValues_congr {f g : ν → μ} {m : SortedMap κ ν}
    (h : ∀ k v, m.find? k = some v → f v = g v) : m.mapValues f = m.mapValues g :=
  ext_find? fun x => by
    rw [find?_mapValues, find?_mapValues]
    cases hx : m.find? x with
    | none => rfl
    | some v => exact congrArg some (h x v hx)

end

/-! ## keys -/

/-- the keys in order, `std::views::keys` -/
def keys (m : SortedMap κ ν) : List κ := m.entries.map Prod.fst

theorem mem_keys (m : SortedMap κ ν) (k : κ) : k ∈ m.keys ↔ m.contains k = true := by
  rw [contains_eq_true]
  unfold keys
  constructor
  · intro h
    obtain ⟨e, he, rfl⟩ := List.mem_map.mp h
    exact ⟨e.2, (mem_entries m e.1 e.2).mp he⟩
  · intro h
    obtain ⟨v, hv⟩ := h
    exact List.mem_map.mpr ⟨(k, v), (mem_entries m k v).mpr hv, rfl⟩

theorem contains_insert (m : SortedMap κ ν) (k : κ) (v : ν) (k' : κ) :
    (m.insert k v).contains k' = (decide (k' = k) || m.contains k') := by
  unfold contains
  rw [find?_insert]
  by_cases h : k' = k
  · rw [if_pos h, decide_eq_true h]
    rfl
  · rw [if_neg h, decide_eq_false h]
    rfl

theorem contains_erase (m : SortedMap κ ν) (k k' : κ) :
    (m.erase k).contains k' = (!decide (k' = k) && m.contains k') := by
  unfold contains
  rw [find?_erase]
  by_cases h : k' = k
  · rw [if_pos h, decide_eq_true h]
    rfl
  · rw [if_neg h, decide_eq_false h]
    rfl

/-! ## one entry among the others -/

theorem entries_insert_perm (m : SortedMap κ ν) (k : κ) (v : ν) :
    (m.insert k v).entries.Perm ((k, v) :: (m.erase k).entries) := by
  have hnot : (k, v) ∉ (m.erase k).entries := fun h => by
    rw [mem_entries, find?_erase, if_pos rfl] at h
    cases h
  refine (List.perm_ext_iff_of_nodup (nodup_entries _)
    (List.nodup_cons.mpr ⟨hnot, nodup_entries _⟩)).mpr fun e => ?_
  obtain ⟨k', v'⟩ := e
  rw [mem_entries, find?_insert, List.mem_cons, mem_entries, find?_erase, Prod.mk.injEq]
  by_cases hk : k' = k
  · rw [if_pos hk, if_pos hk, Option.some_inj]
    simp [hk, eq_comm]
  · simp [hk]

theorem entries_erase_perm {m : SortedMap κ ν} {k : κ} {v : ν} (h : m.find? k = some v) :
    m.entries.Perm ((k, v) :: (m.erase k).entries) := by
  have hsame : m.insert k v = m := ext_find? fun k' => by
    rw [find?_insert]
    split_ifs with hk
    · rw [hk, h]
    · rfl
  have hperm := entries_insert_perm m k v
  rwa [hsame] at hperm

/-! ## sums over all entries -/

section
variable {M : Type*} [AddCommGroup M]

/-- the sum of `f` over all entries -/
def sumBy (f : κ → ν → M) (m : SortedMap κ ν) : M := (m.entries.map fun e => f e.1 e.2).sum

/-- what the entry of a key contributes -/
def at? (f : κ → ν → M) (m : SortedMap κ ν) (k : κ) : M := ((m.find? k).map (f k)).getD 0

theorem sum_insertList (f : κ → ν → M) (k : κ) (v : ν) {l : List (κ × ν)}
    (hl : l.Pairwise (fun a b => a.1 < b.1)) :
    ((insertList k v l).map fun e => f e.1 e.2).sum
      = (l.map fun e => f e.1 e.2).sum + f k v - ((lookupList k l).map (f k)).getD 0 := by
  induction l with
  | nil => simp [insertList, lookupList]
  | cons hd tl ih =>
    obtain ⟨a, b⟩ := hd
    obtain ⟨hhd, htl⟩ := List.pairwise_cons.mp hl
    unfold insertList
    split_ifs with h1 h2
    · have hno : lookupList k ((a, b) :: tl) = none := lookup_eq_none hl fun e he => by
        rcases List.mem_cons.mp he with rfl | he
        · exact h1
        · exact lt_trans h1 (hhd e he)
      rw [hno, List.map_cons, List.sum_cons]
      simp only [Option.map_none, Option.getD_none]
      abel
    · subst h2
      rw [lookupList_cons, if_pos rfl, List.map_cons, List.sum_cons, List.map_cons, List.sum_cons]
      simp only [Option.map_some, Option.getD_some]
      abel
    · rw [lookupList_cons, if_neg h2, List.map_cons, List.sum_cons, ih htl, List.map_cons,
        List.sum_cons]
      abel

theorem sumBy_insert (f : κ → ν → M) (m : SortedMap κ ν) (k : κ) (v : ν) :
    sumBy f (m.insert k v) = sumBy f m + f k v - at? f m k := sum_insertList f k v m.sorted

theorem sum_eraseList (f : κ → ν → M) (k : κ) {l : List (κ × ν)}
    (hl : l.Pairwise (fun a b => a.1 < b.1)) :
    ((eraseList k l).map fun e => f e.1 e.2).sum
      = (l.map fun e => f e.1 e.2).sum - ((lookupList k l).map (f k)).getD 0 := by
  induction l with
  | nil => simp [eraseList, lookupList]
  | cons hd tl ih =>
    obtain ⟨a, b⟩ := hd
    obtain ⟨hhd, htl⟩ := List.pairwise_cons.mp hl
    have ih' := ih htl
    unfold eraseList at ih' ⊢
    rw [lookupList_cons, List.map_cons, List.sum_cons]
    by_cases ha : a = k
    · subst ha
      rw [lookup_eq_none htl hhd] at ih'
      rw [List.filter_cons_of_neg (by simp), ih', if_pos rfl]
      simp only [Option.map_some, Option.getD_some, Option.map_none, Option.getD_none]
      abel
    · rw [List.filter_cons_of_pos (by simpa using ha), if_neg (Ne.symm ha), List.map_cons,
        List.sum_cons, ih']
      abel

theorem sumBy_erase (f : κ → ν → M) (m : SortedMap κ ν) (k : κ) :
    sumBy f (m.erase k) = sumBy f m - at? f m k := sum_eraseList f k m.sorted

theorem sumBy_nonneg [PartialOrder M] [IsOrderedAddMonoid M] {f : κ → ν → M} {m : SortedMap κ ν}
    (h : ∀ k v, m.find? k = some v → 0 ≤ f k v) : 0 ≤ sumBy f m := by
  refine List.sum_nonneg fun x hx => ?_
  obtain ⟨⟨k, v⟩, he, rfl⟩ := List.mem_map.mp hx
  exact h k v ((mem_entries m k v).mp he)

/-- one entry is at most the sum -/
theorem at?_le_sumBy [PartialOrder M] [IsOrderedAddMonoid M] {f : κ → ν → M} {m : SortedMap κ ν}
    (h : ∀ k v, m.find? k = some v → 0 ≤ f k v) (k : κ) : at? f m k ≤ sumBy f m := by
  have hrest : 0 ≤ sumBy f (m.erase k) := sumBy_nonneg fun k' v hv => h k' v (find?_erase_some hv).2
  rw [sumBy_erase] at hrest
  exact sub_nonneg.mp hrest

end

end SortedMap

end Machine
