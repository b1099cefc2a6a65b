import Warehouse.CJson.HeapEdits

/-!
# Trees in memory

* `Tree`, `records`      a tree with its addresses, and its items one by one;
* `mapKids`              other children for one item of a tree; `exists_focus`;
* `delete_trees`         a list of trees is released block by block, each block once;
* `Holds.delete`         a root is deleted with all that is below it.
-/

namespace CJSON.Heap
open Machine Memory Text

inductive Tree
  | node (address : ℕ) (label : Label) (kids : List Tree)

def Tree.address : Tree → ℕ
  | .node a _ _ => a

mutual

/-- the items of a tree, the parents first -/
def Tree.records : Tree → List Record
  | .node a lab ks => ⟨a, lab, ks.map Tree.address⟩ :: records ks

def records : List Tree → List Record
  | [] => []
  | t :: ts => t.records ++ records ts

end

/-- induction over a list of trees -/
@[elab_as_elim]
theorem Tree.inductList {P : List Tree → Prop} (nil : P [])
    (cons : ∀ a lab ks ts, P ks → P ts → P (.node a lab ks :: ts)) : ∀ ts, P ts :=
  fun ts => Tree.rec_1 (motive_1 := fun t => match t with | .node _ _ ks => P ks)
    (motive_2 := P) (fun _ _ _ h => h) nil
    (fun t ts ht hts => match t, ht with | .node a lab ks, ht => cons a lab ks ts ht hts) ts

@[simp] theorem records_nil : records [] = [] := rfl

@[simp] theorem records_cons (t : Tree) (ts : List Tree) :
    records (t :: ts) = t.records ++ records ts := rfl

theorem records_node (a : ℕ) (lab : Label) (ks ts : List Tree) :
    records (.node a lab ks :: ts) =
      ⟨a, lab, ks.map Tree.address⟩ :: (records ks ++ records ts) := rfl

theorem records_append (ts us : List Tree) : records (ts ++ us) = records ts ++ records us := by
  induction ts with
  | nil => rfl
  | cons t ts ih => rw [List.cons_append, records_cons, records_cons, ih, List.append_assoc]

theorem records_perm {ts us : List Tree} (h : ts.Perm us) : (records ts).Perm (records us) := by
  induction h with
  | nil => exact List.Perm.refl _
  | cons t _ ih => exact ih.append_left _
  | swap t u ts =>
    simp only [records_cons, ← List.append_assoc]
    exact List.perm_append_comm.append_right _
  | trans _ _ ih₁ ih₂ => exact ih₁.trans ih₂

/-- each item of a list of trees is a root or the child of one item -/
theorem records_parents (ts : List Tree) :
    (ts.map Tree.address ++ kids (records ts)).Perm ((records ts).map Record.address) := by
  induction ts using Tree.inductList with
  | nil => exact List.Perm.refl _
  | cons a lab ks ts ihks ihts =>
    rw [records_node, kids_cons, kids_append, List.map_cons, List.map_cons, List.map_append,
      List.cons_append]
    refine List.Perm.cons _ (List.Perm.trans ?_ (ihks.append ihts))
    show (ts.map Tree.address ++ (ks.map Tree.address ++ (kids (records ks) ++ kids (records ts)))).Perm _
    rw [← List.append_assoc (ks.map Tree.address)]
    exact List.perm_append_comm_assoc ..

theorem records_addresses_nodup (ts : List Tree) (h : (owned (records ts)).Nodup) :
    (ts.map Tree.address ++ kids (records ts)).Nodup :=
  (records_parents ts).nodup_iff.mpr (h.sublist (addresses_sublist _))

/-! ## release -/

variable {S : ℕ → Option CString} {m m' : Memory Block} {R : List Record} {roots : List ℕ} {r : Record}

/-- an item that can be released: it is live with its strings, and points to its children, which
point on to each other -/
structure Loose (m : Memory Block) (r : Record) : Prop where
  fields : fieldsAt m r.address = some r.label.fields
  child : linkAt .child m r.address = r.kids.head?
  linked : Linked (linkAt .next m) r.kids
  live : ∀ a ∈ r.label.owned, m.block a ≠ none

theorem Stored.loose (h : Stored m r) : Loose m r where
  fields := h.fields
  child := h.child
  linked := Segment.linked h.chain
  live := fun _ ha => h.live (List.mem_cons_of_mem _ ha)

theorem Loose.congr (h : Loose m r) (hown : ∀ a ∈ r.owned, m'.block a = m.block a)
    (hkids : ∀ a ∈ r.kids, m'.block a = m.block a) : Loose m' r where
  fields := (fieldsAt_congr (hown _ (List.mem_cons_self ..))).trans h.fields
  child := (linkAt_congr _ (hown _ (List.mem_cons_self ..))).trans h.child
  linked := h.linked.congr fun a ha => linkAt_congr _ (hkids a ha)
  live := fun a ha => by
    rw [hown a (List.mem_cons_of_mem _ ha)]
    exact h.live a ha

theorem freeUnless_released (flag : Bool) (o : Option (ℕ × CString))
    (h : ∀ a ∈ (if flag then [] else o.toList).map Prod.fst, m.block a ≠ none) :
    ∃ m', freeUnless flag (o.map Prod.fst) m = .ok ((), m') ∧
      Released m m' ((if flag then [] else o.toList).map Prod.fst) := by
  cases o with
  | none => exact ⟨m, rfl, by cases flag <;> exact Released.refl m⟩
  | some e =>
    cases flag with
    | true => exact ⟨m, rfl, Released.refl m⟩
    | false => exact free_released (h e.1 (by simp))

/-- the strings of an item -/
theorem freeTexts_released (lab : Label) (hd : lab.owned.Nodup)
    (h : ∀ a ∈ lab.owned, m.block a ≠ none) :
    ∃ m', (do freeUnless false lab.fields.valuestring
              freeUnless lab.stringIsConst lab.fields.string : Prog Block Unit) m = .ok ((), m') ∧
      Released m m' lab.owned := by
  unfold Label.owned at h hd ⊢
  rw [List.map_append] at h hd ⊢
  obtain ⟨m₁, hrun₁, hm₁⟩ := freeUnless_released (m := m) false lab.valuestring
    (fun a ha => h a (List.mem_append_left _ ha))
  obtain ⟨m₂, hrun₂, hm₂⟩ := freeUnless_released (m := m₁) lab.stringIsConst lab.string
    (fun a ha => by
      rw [hm₁.kept fun ha' => (List.nodup_append.mp hd).2.2 a ha' a ha rfl]
      exact h a (List.mem_append_right _ ha))
  exact ⟨m₂, (bind_of_ok hrun₁ _).trans hrun₂, hm₁.trans hm₂⟩

/-- **A list of trees is released.**  The items are found along their pointers; every block of the
trees is released once, and no other block. -/
theorem delete_trees (ts : List Tree) : ∀ m : Memory Block, (owned (records ts)).Nodup →
    (∀ r ∈ records ts, Loose m r) → Linked (linkAt .next m) (ts.map Tree.address) →
    ∃ m', (∀ n ≥ (records ts).length,
        delete n (ts.map Tree.address).head? m = .ok ((), m')) ∧
      Released m m' (owned (records ts)) := by
  induction ts using Tree.inductList with
  | nil =>
    intro m _ _ _
    exact ⟨m, fun n _ => by cases n <;> rfl, Released.refl m⟩
  | cons a lab ks ts ihks ihts =>
    intro m hd hloose hlinked
    rw [records_node] at hd hloose
    rw [owned_cons, owned_append] at hd
    obtain ⟨hda, hdrest, hdisj⟩ := List.nodup_append.mp hd
    obtain ⟨hdks, hdts, hdisj'⟩ := List.nodup_append.mp hdrest
    have hhead : Loose m ⟨a, lab, ks.map Tree.address⟩ := hloose _ (List.mem_cons_self ..)
    obtain ⟨c, hc, hfields⟩ := Option.map_eq_some_iff.mp hhead.fields
    have hlink : ∀ l, linkAt l m a = c.link l := fun l => by
      unfold linkAt
      rw [hc]
      rfl
    -- the children first, then the strings and the item, and then what comes after it
    obtain ⟨m₁, hrun₁, hm₁⟩ := ihks m hdks
      (fun r hr => hloose r (List.mem_cons_of_mem _ (List.mem_append_left _ hr))) hhead.linked
    have hown₁ : ∀ b ∈ a :: lab.owned, m₁.block b = m.block b := fun b hb =>
      hm₁.kept fun hks => hdisj b hb b (List.mem_append_left _ hks) rfl
    have hlive : ∀ b ∈ lab.owned, m₁.block b ≠ none := fun b hb => by
      rw [hown₁ b (List.mem_cons_of_mem _ hb)]
      exact hhead.live b hb
    obtain ⟨m₂, hrun₂, hm₂⟩ := freeTexts_released lab (List.nodup_cons.mp hda).2 hlive
    have ha₂ : m₂.block a ≠ none := by
      rw [hm₂.kept (List.nodup_cons.mp hda).1, hown₁ a (List.mem_cons_self ..), block_of_item hc]
      exact Option.some_ne_none _
    obtain ⟨m₃, hrun₃, hm₃⟩ := free_released ha₂
    have hm : Released m m₃ (owned (records ks) ++ lab.owned ++ [a]) := (hm₁.trans hm₂).trans hm₃
    have hkeep : ∀ b ∈ owned (records ts), m₃.block b = m.block b := by
      intro b hb
      have hb₁ : b ∉ a :: lab.owned := fun hb' =>
        hdisj b hb' b (List.mem_append_right _ hb) rfl
      refine hm.kept fun hb' => ?_
      rcases List.mem_append.mp hb' with hb' | hb'
      · rcases List.mem_append.mp hb' with hb' | hb'
        · exact hdisj' b hb' b hb rfl
        · exact hb₁ (List.mem_cons_of_mem _ hb')
      · exact hb₁ (List.mem_singleton.mp hb' ▸ List.mem_cons_self ..)
    have hitems : ∀ b ∈ ts.map Tree.address ++ kids (records ts), m₃.block b = m.block b := by
      intro b hb
      obtain ⟨r, hr, rfl⟩ := List.mem_map.mp ((records_parents ts).mem_iff.mp hb)
      exact hkeep _ (address_mem_owned hr)
    obtain ⟨m', hrun', hm'⟩ := ihts m₃ hdts
      (fun r hr => (hloose r (List.mem_cons_of_mem _ (List.mem_append_right _ hr))).congr
        (fun b hb => hkeep b (mem_owned hr hb))
        (fun b hb => hitems b (List.mem_append_right _ (List.mem_flatMap.mpr ⟨r, hr, hb⟩))))
      (hlinked.2.congr fun b hb => linkAt_congr _ (hitems b (List.mem_append_left _ hb)))
    refine ⟨m', ?_, (hm.trans hm').congr fun b => ?_⟩
    · intro n hn
      rw [records_node, List.length_cons, List.length_append] at hn
      obtain ⟨n, rfl⟩ : ∃ k, n = k + 1 := ⟨n - 1, by omega⟩
      rw [List.map_cons, List.head?_cons]
      show delete (n + 1) (some a) m = _
      rw [delete, bind_of_ok (item_eq hc), hfields]
      have hchild : c.child = (ks.map Tree.address).head? := (hlink .child).symm.trans hhead.child
      have hnext : c.next = (ts.map Tree.address).head? := (hlink .next).symm.trans hlinked.1
      rw [hchild, hnext]
      refine (bind_of_ok (hrun₁ n (by omega)) _).trans ?_
      rw [← bind_assoc]
      exact (bind_of_ok hrun₂ _).trans ((bind_of_ok hrun₃ _).trans (hrun' n (by omega)))
    · rw [records_node, owned_cons, owned_append]
      show _ ↔ b ∈ (a :: lab.owned) ++ _
      simp only [List.mem_append, List.mem_cons, List.not_mem_nil]
      tauto

/-- **A root is deleted.**  The call succeeds, and what is left is what was there without the tree. -/
theorem Holds.delete {t : Tree} (h : Holds S m (t.records ++ R) (t.address :: roots)) :
    ∃ m', (∀ n ≥ t.records.length, Heap.delete n (some t.address) m = .ok ((), m')) ∧
      Holds S m' R roots := by
  have hrec : records [t] = t.records := List.append_nil _
  have hd : (owned (records [t])).Nodup := by
    have hnodup := h.nodup
    rw [owned_append] at hnodup
    rw [hrec]
    exact (List.nodup_append.mp hnodup).1
  obtain ⟨m', hrun, hm'⟩ := delete_trees [t] m hd
    (fun r hr => (h.stored r (List.mem_append_left _ (hrec ▸ hr))).loose)
    ⟨(h.single _ (List.mem_cons_self ..)).1, trivial⟩
  rw [hrec] at hm' hrun
  refine ⟨m', hrun, ?_⟩
  have hp : (roots ++ kids R).Perm (R.map Record.address) := by
    have hall := h.parents
    rw [kids_append, List.map_append, List.cons_append] at hall
    have ht := records_parents [t]
    rw [hrec] at ht
    have hall' : (t.address :: kids t.records ++ (roots ++ kids R)).Perm
        (t.records.map Record.address ++ R.map Record.address) := by
      refine List.Perm.trans (List.Perm.cons _ ?_) hall
      exact List.perm_append_comm_assoc ..
    exact (List.perm_append_left_iff _).mp
      ((ht.append_right _).symm.trans hall')
  exact Holds.remove t.records [t.address] h hm' hp

end CJSON.Heap
