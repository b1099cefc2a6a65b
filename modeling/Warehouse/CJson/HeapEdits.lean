import Warehouse.CJson.Forest

/-!
# Lists of children in memory

What the functions that change a list of children write, as a change of the list.

* `skip_eq`, `getArrayItem_eq`   the search by index;
* `Holds.addItemToArray` a root becomes the last child;
* `Holds.insertItemInArray`   a root becomes the child of an index, or the last one;
* `Holds.detachItemViaPointer`   a child becomes a root;
* `Holds.replaceItemViaPointer`   a root takes the place of a child, which is deleted.
-/

namespace CJSON.Heap
open Machine Memory Text

variable {S : ℕ → Option CString} {m m' : Memory Block} {R : List Record} {roots : List ℕ} {lab : Label}
  {ks ks₁ ks₂ : List ℕ} {p x y : ℕ} {before : Option ℕ}

/-! ## search -/

theorem skip_eq (h : Segment (linkAt .next m) (linkAt .prev m) before ks none)
    (hi : ∀ a ∈ ks, IsItem m a) (i : ℕ) : skip i ks.head? m = .ok (ks[i]?, m) := by
  induction ks generalizing before i with
  | nil => cases i <;> rfl
  | cons k ks ih =>
    cases i with
    | zero => rfl
    | succ i =>
      have hk := hi k (List.mem_cons_self ..)
      have hnext : linkAt .next m k = ks.head? := h.2.1.trans Option.or_none
      have hrest := ih h.2.2 (fun a ha => hi a (List.mem_cons_of_mem _ ha)) i
      simp [skip, hk, hnext, hrest]

theorem Holds.kids_items (h : Holds S m (⟨p, lab, ks⟩ :: R) roots) : ∀ a ∈ ks, IsItem m a :=
  fun a ha => h.isItem_of_mem (List.mem_append_right _ (by simp [ha]))

theorem Holds.getArrayItem_eq (h : Holds S m (⟨p, lab, ks⟩ :: R) roots) (i : ℕ) :
    getArrayItem (some p) i m = .ok (ks[i]?, m) := by
  have hp : IsItem m p := h.head.isItem
  have hchild : linkAt .child m p = ks.head? := h.head.child
  simp [getArrayItem, hp, hchild, skip_eq h.head.chain h.kids_items i]

/-! ## a new child -/

theorem Holds.kids_nodup (h : Holds S m (⟨p, lab, ks⟩ :: R) roots) : (roots ++ ks).Nodup := by
  have hpar := h.parents_nodup
  rw [kids_cons, ← List.append_assoc] at hpar
  exact (List.nodup_append.mp hpar).1

theorem Holds.root_notMem (h : Holds S m (⟨p, lab, ks⟩ :: R) (x :: roots)) : x ∉ ks := fun hx =>
  (List.nodup_append.mp h.kids_nodup).2.2 x (List.mem_cons_self ..) x hx rfl

/-- a root becomes the last child of an item -/
theorem Holds.addItemToArray (h : Holds S m (⟨p, lab, ks⟩ :: R) (x :: roots)) (hne : p ≠ x) :
    ∃ m', addItemToArray (some p) (some x) m = .ok (true, m') ∧
      Holds S m' (⟨p, lab, ks ++ [x]⟩ :: R) roots := by
  have hp : IsItem m p := h.head.isItem
  have hx : IsItem m x := h.isItem_of_mem (by simp)
  have hxks : x ∉ ks := h.root_notMem
  have hd : ks.Nodup := (List.nodup_append.mp h.kids_nodup).2.1
  have hparents : (roots ++ (ks ++ [x])).Perm (x :: roots ++ ks) := by
    rw [← List.append_assoc]
    exact (List.perm_append_singleton x _)
  have hroot : ∀ a ∈ roots, a ∈ ks → False := fun a ha hk =>
    (List.nodup_append.mp h.kids_nodup).2.2 a (List.mem_cons_of_mem _ ha) a hk rfl
  have hchild : linkAt .child m p = ks.head? := h.head.child
  have hnext : linkAt .next m x = none := (h.single x (List.mem_cons_self ..)).1
  cases ks with
  | nil =>
    refine ⟨putLink (putLink (putLink m .child p (some x)) .prev x (some x)) .next x none, ?_, ?_⟩
    · have hnone : linkAt .child m p = none := hchild
      simp [Heap.addItemToArray, hne, hp, hx, hnone]
    · refine h.reshape (by simp) (by simp) ?_ ?_ ?_ hparents (fun a ha hk => (hroot a ha hk).elim)
      · simp [linkAt_putLink, hp, hx]
      · exact chain_snoc hd h.head.chain (by simp [linkAt_putLink, hp, hx])
          (fun a ha => nomatch ha) (fun a ha => nomatch ha)
      · intro a _ ha
        have hax : a ≠ x := by simpa using ha
        simp [linkAt_putLink, hp, hx, hax]
  | cons k ks =>
    obtain ⟨last, hlast⟩ : ∃ last, (k :: ks).getLast? = some last := ⟨_, List.getLast?_cons⟩
    have hk : IsItem m k := h.kids_items k (List.mem_cons_self ..)
    have hl : IsItem m last := h.kids_items last (List.mem_of_getLast? hlast)
    have hprev : linkAt .prev m k = some last := (h.head.chain.prev_head rfl).trans hlast
    have hkx : x ≠ k := fun hxk => hxks (by simp [hxk])
    have hlx : x ≠ last := fun hxl => hxks (hxl ▸ List.mem_of_getLast? hlast)
    have hsome : linkAt .child m p = some k := hchild
    refine ⟨putLink (putLink (putLink m .next last (some x)) .prev x (some last)) .prev k (some x),
      ?_, ?_⟩
    · simp [Heap.addItemToArray, suffixObject, linkAt_putLink, *]
    · refine h.reshape (by simp) (by simp) ?_ ?_ ?_ hparents (fun a ha hk => (hroot a ha hk).elim)
      · funext a
        by_cases hap : a = p
        · subst hap
          simp [linkAt_putLink, hx, hk, hl, hsome]
        · simp [linkAt_putLink, hx, hk, hl, hap]
      · refine chain_snoc hd h.head.chain ?_ ?_ ?_
        · rw [hlast]
          simp [linkAt_putLink, hx, hk, hl, hkx, hlx, hnext]
        · intro a ha
          rw [hlast]
          simp [linkAt_putLink, hx, hk, hl, Function.update_apply]
        · intro a ha
          have hax : a ≠ x := fun hax => hxks (hax ▸ ha)
          simp [linkAt_putLink, hx, hk, hl, Function.update_apply, hax]
      · intro a ha ha'
        have hak : a ≠ k := fun hak => ha (by simp [hak])
        have hal : a ≠ last := fun hal => ha (hal ▸ List.mem_of_getLast? hlast)
        have hax : a ≠ x := fun hax => ha' (by simp [hax])
        simp [linkAt_putLink, hx, hk, hl, hak, hal, hax]

/-- a root is put before a child -/
theorem Holds.insert_before (h : Holds S m (⟨p, lab, ks₁ ++ y :: ks₂⟩ :: R) (x :: roots)) {i : ℕ}
    (hi : ks₁.length = i) : ∃ m', insertItemInArray (some p) i (some x) m = .ok (true, m') ∧
      Holds S m' (⟨p, lab, ks₁ ++ x :: y :: ks₂⟩ :: R) roots := by
  have hp : IsItem m p := h.head.isItem
  have hx : IsItem m x := h.isItem_of_mem (by simp)
  have hy : IsItem m y := h.kids_items y (by simp)
  have hxks : x ∉ ks₁ ++ y :: ks₂ := h.root_notMem
  have hd : (ks₁ ++ y :: ks₂).Nodup := (List.nodup_append.mp h.kids_nodup).2.1
  have hxy : x ≠ y := fun hxy => hxks (by simp [hxy])
  have hne : ∀ a ∈ ks₁ ++ y :: ks₂, a ≠ x := fun a ha hax => hxks (hax ▸ ha)
  have hparents : (roots ++ (ks₁ ++ x :: y :: ks₂)).Perm (x :: roots ++ (ks₁ ++ y :: ks₂)) := by
    rw [← List.append_assoc, List.cons_append, ← List.append_assoc]
    exact List.perm_middle
  have hroot : ∀ a ∈ roots, a ∈ ks₁ ++ y :: ks₂ → False := fun a ha hk =>
    (List.nodup_append.mp h.kids_nodup).2.2 a (List.mem_cons_of_mem _ ha) a hk rfl
  have hget : getArrayItem (some p) i m = .ok (some y, m) := by
    rw [h.getArrayItem_eq, ← hi, List.getElem?_append_right le_rfl, Nat.sub_self]
    rfl
  have hi' : ¬ (i : ℤ) < 0 := by omega
  have hprev := h.head.chain.neighbours.1
  have hchild : linkAt .child m p = (ks₁ ++ y :: ks₂).head? := h.head.child
  cases ks₁ with
  | nil =>
    have hfirst : linkAt .child m p = some y := hchild
    refine ⟨putLink (putLink (putLink (putLink m .next x (some y)) .prev x (linkAt .prev m y))
      .prev y (some x)) .child p (some x), ?_, ?_⟩
    · simp [insertItemInArray, linkAt_putLink, *]
    · refine h.reshape (by simp) (by simp) ?_ ?_ ?_ hparents (fun a ha hk => (hroot a ha hk).elim)
      · simp [linkAt_putLink, hp, hx, hy]
      · refine chain_insert hd h.head.chain ?_ ?_ ?_
        · simp [linkAt_putLink, hp, hx, hy, hxy]
        · intro a ha
          simp [linkAt_putLink, hp, hx, hy, hne a ha]
        · intro a ha
          simp [linkAt_putLink, hp, hx, hy, hne a ha, Function.update_apply]
      · intro a ha ha'
        have hax : a ≠ x := fun hax => ha' (by simp [hax])
        have hay : a ≠ y := fun hay => ha (by simp [hay])
        simp [linkAt_putLink, hp, hx, hy, hax, hay]
  | cons k ks₁ =>
    have hfirst : linkAt .child m p = some k := hchild
    obtain ⟨l, hl⟩ : ∃ l, (k :: ks₁).getLast? = some l := ⟨_, List.getLast?_cons⟩
    have hmem : l ∈ k :: ks₁ := List.mem_of_getLast? hl
    have hlmem : l ∈ k :: ks₁ ++ y :: ks₂ := List.mem_append_left _ hmem
    have hli : IsItem m l := h.kids_items l hlmem
    have hbefore : linkAt .prev m y = some l := by
      rw [hprev, hl]
      rfl
    have hky : y ≠ k := by
      have hdisj := (List.nodup_append.mp hd).2.2 k (List.mem_cons_self ..) y (List.mem_cons_self ..)
      exact hdisj.symm
    refine ⟨putLink (putLink (putLink (putLink m .next x (some y)) .prev x (some l))
      .prev y (some x)) .next l (some x), ?_, ?_⟩
    · simp [insertItemInArray, linkAt_putLink, *]
    · refine h.reshape (by simp) (by simp) ?_ ?_ ?_ hparents (fun a ha hk => (hroot a ha hk).elim)
      · funext a
        by_cases hap : a = p
        · subst hap
          simp [linkAt_putLink, hx, hy, hli, hfirst]
        · simp [linkAt_putLink, hx, hy, hli, hap]
      · refine chain_insert hd h.head.chain ?_ ?_ ?_
        · have hlx : x ≠ l := (hne l hlmem).symm
          simp [linkAt_putLink, hx, hy, hli, hxy, hlx, hbefore]
        · intro a ha
          rw [hl]
          simp [linkAt_putLink, hx, hy, hli, hne a ha, Function.update_apply]
        · intro a ha
          simp [linkAt_putLink, hx, hy, hli, hne a ha, Function.update_apply]
      · intro a ha ha'
        have hax : a ≠ x := fun hax => ha' (by simp [hax])
        have hay : a ≠ y := fun hay => ha (by simp [hay])
        have hal : a ≠ l := fun hal => ha (hal ▸ hlmem)
        simp [linkAt_putLink, hx, hy, hli, hax, hay, hal]

/-- a root becomes the child of an index, or the last one -/
theorem Holds.insertItemInArray (h : Holds S m (⟨p, lab, ks⟩ :: R) (x :: roots)) (hne : p ≠ x)
    (i : ℕ) : ∃ m', Heap.insertItemInArray (some p) i (some x) m = .ok (true, m') ∧
      Holds S m' (⟨p, lab, ks.take i ++ x :: ks.drop i⟩ :: R) roots := by
  cases hdrop : ks.drop i with
  | nil =>
    have hge : ks.length ≤ i := List.drop_eq_nil_iff.mp hdrop
    have hget : getArrayItem (some p) i m = .ok (none, m) := by
      rw [h.getArrayItem_eq, List.getElem?_eq_none hge]
    obtain ⟨m', hrun, hm'⟩ := h.addItemToArray hne
    have hi : ¬ (i : ℤ) < 0 := by omega
    refine ⟨m', ?_, by rwa [List.take_of_length_le hge]⟩
    simp [Heap.insertItemInArray, hi, hget, hrun]
  | cons y ks₂ =>
    have hlt : i < ks.length := by
      by_contra hge
      rw [List.drop_of_length_le (not_lt.mp hge)] at hdrop
      cases hdrop
    have hks : ks = ks.take i ++ y :: ks₂ := by rw [← hdrop, List.take_append_drop]
    rw [hks] at h
    exact h.insert_before (List.length_take_of_le hlt.le)

/-! ## a child taken out -/

/-- a root is not among the children of an item -/
theorem Holds.detach_root (h : Holds S m (⟨p, lab, ks⟩ :: R) (x :: roots)) :
    Heap.detachItemViaPointer (some p) (some x) m = .ok (none, m) := by
  have hp : IsItem m p := h.head.isItem
  have hx : IsItem m x := h.isItem_of_mem (by simp)
  have hprev : linkAt .prev m x = none := (h.single x (List.mem_cons_self ..)).2
  have hchild : some x ≠ linkAt .child m p := fun hc =>
    h.root_notMem (List.mem_of_head? (hc.trans h.head.child).symm)
  simp [Heap.detachItemViaPointer, hp, hx, hprev, hchild]

/-- a child becomes a root -/
theorem Holds.detachItemViaPointer (h : Holds S m (⟨p, lab, ks₁ ++ x :: ks₂⟩ :: R) roots) :
    ∃ m', Heap.detachItemViaPointer (some p) (some x) m = .ok (some x, m') ∧
      Holds S m' (⟨p, lab, ks₁ ++ ks₂⟩ :: R) (x :: roots) := by
  have hp : IsItem m p := h.head.isItem
  have hx : IsItem m x := h.kids_items x (by simp)
  have hd : (ks₁ ++ x :: ks₂).Nodup := (List.nodup_append.mp h.kids_nodup).2.1
  have hparents : (x :: roots ++ (ks₁ ++ ks₂)).Perm (roots ++ (ks₁ ++ x :: ks₂)) := by
    rw [List.cons_append, ← List.append_assoc, ← List.append_assoc]
    exact List.perm_middle.symm
  have hne : ∀ a ∈ ks₁ ++ ks₂, a ≠ x := by
    intro a ha hax
    have hmid := List.nodup_middle.mp hd
    exact (List.nodup_cons.mp hmid).1 (hax ▸ ha)
  have hold : ∀ a ∈ x :: roots, a ∈ ks₁ ++ x :: ks₂ → a = x := by
    intro a ha hk
    rcases List.mem_cons.mp ha with rfl | ha
    · rfl
    · exact absurd rfl ((List.nodup_append.mp h.kids_nodup).2.2 a ha a hk)
  obtain ⟨hprev, hnext⟩ := h.head.chain.neighbours
  have hchild : linkAt .child m p = (ks₁ ++ x :: ks₂).head? := h.head.child
  have hitem : ∀ a ∈ ks₁ ++ ks₂, IsItem m a := fun a ha => h.kids_items a (by
    rcases List.mem_append.mp ha with ha | ha <;> simp [ha])
  -- what is written depends on whether the child is the first one, and whether it is the last one
  cases ks₁ with
  | nil =>
    have hfirst : linkAt .child m p = some x := hchild
    cases ks₂ with
    | nil =>
      have hlast : linkAt .next m x = none := hnext
      refine ⟨putLink (putLink (putLink m .child p none) .prev x none) .next x none, ?_, ?_⟩
      · simp [Heap.detachItemViaPointer, hp, hx, hfirst, hlast]
      · refine h.reshape (by simp) (by simp) ?_ ?_ ?_ hparents ?_
        · simp [linkAt_putLink, hp, hx]
        · exact chain_nil
        · intro a ha _
          have hax : a ≠ x := fun hax => ha (by simp [hax])
          simp [linkAt_putLink, hp, hx, hax]
        · intro a ha hk
          rw [hold a ha hk]
          simp [linkAt_putLink, hp, hx]
    | cons b ks₂ =>
      have hb : IsItem m b := hitem b (by simp)
      have hbx : b ≠ x := hne b (by simp)
      have hlast : linkAt .next m x = some b := hnext
      refine ⟨putLink (putLink (putLink (putLink m .prev b (linkAt .prev m x)) .child p (some b))
        .prev x none) .next x none, ?_, ?_⟩
      · simp [Heap.detachItemViaPointer, linkAt_putLink, hp, hx, hb, hfirst, hlast]
      · refine h.reshape (by simp) (by simp) ?_ ?_ ?_ hparents ?_
        · simp [linkAt_putLink, hp, hx, hb]
        · refine chain_remove hd h.head.chain ?_ ?_
          · intro a ha
            simp [linkAt_putLink, hp, hx, hb, hne a ha]
          · intro a ha
            simp [linkAt_putLink, hp, hx, hb, hne a ha, Function.update_apply]
        · intro a ha _
          have hax : a ≠ x := fun hax => ha (by simp [hax])
          have hab : a ≠ b := fun hab => ha (by simp [hab])
          simp [linkAt_putLink, hp, hx, hb, hax, hab]
        · intro a ha hk
          rw [hold a ha hk]
          simp [linkAt_putLink, hp, hx, hb]
  | cons k ks₁ =>
    have hfirst : linkAt .child m p = some k := hchild
    have hk : IsItem m k := hitem k (by simp)
    have hkx : k ≠ x := hne k (by simp)
    obtain ⟨l, hl⟩ : ∃ l, (k :: ks₁).getLast? = some l := ⟨_, List.getLast?_cons⟩
    have hmem : l ∈ k :: ks₁ := List.mem_of_getLast? hl
    have hlx : l ≠ x := hne l (List.mem_append_left _ hmem)
    have hli : IsItem m l := hitem l (List.mem_append_left _ hmem)
    have hbefore : linkAt .prev m x = some l := by
      rw [hprev, hl]
      rfl
    cases ks₂ with
    | nil =>
      have hlast : linkAt .next m x = none := hnext
      refine ⟨putLink (putLink (putLink (putLink m .next l none) .prev k (some l)) .prev x none)
        .next x none, ?_, ?_⟩
      · simp [Heap.detachItemViaPointer, linkAt_putLink, hkx.symm, hlx.symm, *]
      · refine h.reshape (by simp) (by simp) ?_ ?_ ?_ hparents ?_
        · funext a
          by_cases hap : a = p
          · subst hap
            simp [linkAt_putLink, hx, hk, hli, hfirst]
          · simp [linkAt_putLink, hx, hk, hli, hap]
        · refine chain_remove hd h.head.chain ?_ ?_
          · intro a ha
            simp [linkAt_putLink, hx, hk, hli, hne a ha, hl, hlast, Function.update_apply]
          · intro a ha
            simp [linkAt_putLink, hx, hk, hli, hne a ha, hbefore, Function.update_apply]
        · intro a ha _
          have hax : a ≠ x := fun hax => ha (by simp [hax])
          have hal : a ≠ l := fun hal => ha (List.mem_append_left _ (hal ▸ hmem))
          have hak : a ≠ k := fun hak => ha (by simp [hak])
          simp [linkAt_putLink, hx, hk, hli, hax, hal, hak]
        · intro a ha hk'
          rw [hold a ha hk']
          simp [linkAt_putLink, hx, hk, hli]
    | cons b ks₂ =>
      have hb : IsItem m b := hitem b (by simp)
      have hbx : b ≠ x := hne b (by simp)
      have hlast : linkAt .next m x = some b := hnext
      refine ⟨putLink (putLink (putLink (putLink m .next l (some b)) .prev b (some l)) .prev x none)
        .next x none, ?_, ?_⟩
      · simp [Heap.detachItemViaPointer, linkAt_putLink, hkx.symm, hlx.symm, *]
      · refine h.reshape (by simp) (by simp) ?_ ?_ ?_ hparents ?_
        · funext a
          by_cases hap : a = p
          · subst hap
            simp [linkAt_putLink, hx, hb, hli, hfirst]
          · simp [linkAt_putLink, hx, hb, hli, hap]
        · refine chain_remove hd h.head.chain ?_ ?_
          · intro a ha
            simp [linkAt_putLink, hx, hb, hli, hne a ha, hl, hlast, Function.update_apply]
          · intro a ha
            simp [linkAt_putLink, hx, hb, hli, hne a ha, hbefore, Function.update_apply]
        · intro a ha _
          have hax : a ≠ x := fun hax => ha (by simp [hax])
          have hal : a ≠ l := fun hal => ha (List.mem_append_left _ (hal ▸ hmem))
          have hab : a ≠ b := fun hab => ha (by simp [hab])
          simp [linkAt_putLink, hx, hb, hli, hax, hal, hab]
        · intro a ha hk'
          rw [hold a ha hk']
          simp [linkAt_putLink, hx, hb, hli]

/-! ## a child replaced -/

/-- a root takes the place of a child; the child becomes a root, and is deleted -/
theorem Holds.replaceItemViaPointer
    (h : Holds S m (⟨p, lab, ks₁ ++ x :: ks₂⟩ :: R) (y :: roots)) :
    ∃ m', (∀ n, Heap.replaceItemViaPointer n (some p) (some x) (some y) m =
        (delete n (some x) m').map fun r => (true, r.2)) ∧
      Holds S m' (⟨p, lab, ks₁ ++ y :: ks₂⟩ :: R) (x :: roots) := by
  have hp : IsItem m p := h.head.isItem
  have hx : IsItem m x := h.kids_items x (by simp)
  have hy : IsItem m y := h.isItem_of_mem (by simp)
  have hyks : y ∉ ks₁ ++ x :: ks₂ := h.root_notMem
  have hd : (ks₁ ++ x :: ks₂).Nodup := (List.nodup_append.mp h.kids_nodup).2.1
  have hyx : y ≠ x := fun hyx => hyks (by simp [hyx])
  have hnex : ∀ a ∈ ks₁ ++ ks₂, a ≠ x := by
    intro a ha hax
    exact (List.nodup_cons.mp (List.nodup_middle.mp hd)).1 (hax ▸ ha)
  have hney : ∀ a ∈ ks₁ ++ ks₂, a ≠ y := by
    intro a ha hay
    refine hyks (hay ▸ ?_)
    rcases List.mem_append.mp ha with ha | ha <;> simp [ha]
  have hparents : (x :: roots ++ (ks₁ ++ y :: ks₂)).Perm (y :: roots ++ (ks₁ ++ x :: ks₂)) := by
    simp only [List.cons_append, ← List.append_assoc]
    exact (List.perm_middle.cons x).trans ((List.Perm.swap ..).trans (List.perm_middle.symm.cons y))
  have hold : ∀ a ∈ x :: roots, a ∈ ks₁ ++ x :: ks₂ → a = x := by
    intro a ha hk
    rcases List.mem_cons.mp ha with rfl | ha
    · rfl
    · exact absurd rfl ((List.nodup_append.mp h.kids_nodup).2.2 a (List.mem_cons_of_mem _ ha) a hk)
  obtain ⟨hprev, hnext⟩ := h.head.chain.neighbours
  have hchild : linkAt .child m p = (ks₁ ++ x :: ks₂).head? := h.head.child
  have hitem : ∀ a ∈ ks₁ ++ ks₂, IsItem m a := fun a ha => h.kids_items a (by
    rcases List.mem_append.mp ha with ha | ha <;> simp [ha])
  cases ks₁ with
  | nil =>
    have hfirst : linkAt .child m p = some x := hchild
    cases ks₂ with
    | nil =>
      have hlast : linkAt .next m x = none := hnext
      have hself : linkAt .prev m x = some x := hprev
      refine ⟨putLink (putLink (putLink (putLink (putLink (putLink m .next y none) .prev y (some x))
        .prev y (some y)) .child p (some y)) .next x none) .prev x none, ?_, ?_⟩
      · intro n
        simp [Heap.replaceItemViaPointer, linkAt_putLink, hyx.symm, *]
      · refine h.reshape (by simp) (by simp) ?_ ?_ ?_ hparents ?_
        · simp [linkAt_putLink, hp, hx, hy]
        · exact chain_replace hd h.head.chain (by simp [linkAt_putLink, hp, hx, hy, hyx, hlast])
            (fun a ha => nomatch ha) (fun a ha => nomatch ha)
        · intro a ha ha'
          have hax : a ≠ x := fun hax => ha (by simp [hax])
          have hay : a ≠ y := fun hay => ha' (by simp [hay])
          simp [linkAt_putLink, hp, hx, hy, hax, hay]
        · intro a ha hk
          rw [hold a ha hk]
          simp [linkAt_putLink, hp, hx, hy]
    | cons b ks₂ =>
      have hb : IsItem m b := hitem b (by simp)
      have hbx : b ≠ x := hnex b (by simp)
      have hby : b ≠ y := hney b (by simp)
      have hlast : linkAt .next m x = some b := hnext
      have hself : linkAt .prev m x ≠ some x := by
        rw [hprev, List.getLast?_nil, Option.none_or, List.getLast?_cons_cons]
        intro hx'
        have hmem : x ∈ [] ++ b :: ks₂ := List.mem_of_getLast? hx'
        exact hnex x hmem rfl
      clear hprev
      refine ⟨putLink (putLink (putLink (putLink (putLink (putLink m .next y (some b))
        .prev y (linkAt .prev m x)) .prev b (some y)) .child p (some y)) .next x none)
        .prev x none, ?_, ?_⟩
      · intro n
        simp [Heap.replaceItemViaPointer, linkAt_putLink, hyx.symm, hbx.symm, *]
      · refine h.reshape (by simp) (by simp) ?_ ?_ ?_ hparents ?_
        · simp [linkAt_putLink, hp, hx, hy, hb]
        · refine chain_replace hd h.head.chain ?_ ?_ ?_
          · simp [linkAt_putLink, hp, hx, hy, hb, hyx, hby.symm, hlast]
          · intro a ha
            simp [linkAt_putLink, hp, hx, hy, hb, hnex a ha, hney a ha]
          · intro a ha
            simp [linkAt_putLink, hp, hx, hy, hb, hnex a ha, hney a ha, Function.update_apply]
        · intro a ha ha'
          have hax : a ≠ x := fun hax => ha (by simp [hax])
          have hay : a ≠ y := fun hay => ha' (by simp [hay])
          have hab : a ≠ b := fun hab => ha (by simp [hab])
          simp [linkAt_putLink, hp, hx, hy, hb, hax, hay, hab]
        · intro a ha hk
          rw [hold a ha hk]
          simp [linkAt_putLink, hp, hx, hy, hb]
  | cons k ks₁ =>
    have hfirst : linkAt .child m p = some k := hchild
    have hk : IsItem m k := hitem k (by simp)
    have hkx : k ≠ x := hnex k (by simp)
    have hky : k ≠ y := hney k (by simp)
    obtain ⟨l, hl⟩ : ∃ l, (k :: ks₁).getLast? = some l := ⟨_, List.getLast?_cons⟩
    have hmem : l ∈ k :: ks₁ := List.mem_of_getLast? hl
    have hlx : l ≠ x := hnex l (List.mem_append_left _ hmem)
    have hly : l ≠ y := hney l (List.mem_append_left _ hmem)
    have hli : IsItem m l := hitem l (List.mem_append_left _ hmem)
    have hbefore : linkAt .prev m x = some l := by
      rw [hprev, hl]
      rfl
    clear hprev
    cases ks₂ with
    | nil =>
      have hlast : linkAt .next m x = none := hnext
      refine ⟨putLink (putLink (putLink (putLink (putLink (putLink m .next y none)
        .prev y (some l)) .next l (some y)) .prev k (some y)) .next x none) .prev x none, ?_, ?_⟩
      · intro n
        simp [Heap.replaceItemViaPointer, linkAt_putLink, hly.symm, *]
      · refine h.reshape (by simp) (by simp) ?_ ?_ ?_ hparents ?_
        · funext a
          by_cases hap : a = p
          · subst hap
            simp [linkAt_putLink, hx, hy, hk, hli, hfirst]
          · simp [linkAt_putLink, hx, hy, hk, hli, hap]
        · refine chain_replace hd h.head.chain ?_ ?_ ?_
          · simp [linkAt_putLink, hx, hy, hk, hli, hyx, hly.symm, hky.symm, hlast, hbefore]
          · intro a ha
            simp [linkAt_putLink, hx, hy, hk, hli, hnex a ha, hney a ha, hl, Function.update_apply]
          · intro a ha
            simp [linkAt_putLink, hx, hy, hk, hli, hnex a ha, hney a ha, Function.update_apply]
        · intro a ha ha'
          have hax : a ≠ x := fun hax => ha (by simp [hax])
          have hay : a ≠ y := fun hay => ha' (by simp [hay])
          have hal : a ≠ l := fun hal => ha (List.mem_append_left _ (hal ▸ hmem))
          have hak : a ≠ k := fun hak => ha (by simp [hak])
          simp [linkAt_putLink, hx, hy, hk, hli, hax, hay, hal, hak]
        · intro a ha hk'
          rw [hold a ha hk']
          simp [linkAt_putLink, hx, hy, hk, hli]
    | cons b ks₂ =>
      have hb : IsItem m b := hitem b (by simp)
      have hbx : b ≠ x := hnex b (by simp)
      have hby : b ≠ y := hney b (by simp)
      have hlast : linkAt .next m x = some b := hnext
      refine ⟨putLink (putLink (putLink (putLink (putLink (putLink m .next y (some b))
        .prev y (some l)) .prev b (some y)) .next l (some y)) .next x none) .prev x none, ?_, ?_⟩
      · intro n
        simp [Heap.replaceItemViaPointer, linkAt_putLink, hly.symm, hby.symm, *]
      · refine h.reshape (by simp) (by simp) ?_ ?_ ?_ hparents ?_
        · funext a
          by_cases hap : a = p
          · subst hap
            simp [linkAt_putLink, hx, hy, hb, hli, hfirst]
          · simp [linkAt_putLink, hx, hy, hb, hli, hap]
        · refine chain_replace hd h.head.chain ?_ ?_ ?_
          · simp [linkAt_putLink, hx, hy, hb, hli, hyx, hly.symm, hby.symm, hlast, hbefore]
          · intro a ha
            simp [linkAt_putLink, hx, hy, hb, hli, hnex a ha, hney a ha, hl, Function.update_apply]
          · intro a ha
            simp [linkAt_putLink, hx, hy, hb, hli, hnex a ha, hney a ha, Function.update_apply]
        · intro a ha ha'
          have hax : a ≠ x := fun hax => ha (by simp [hax])
          have hay : a ≠ y := fun hay => ha' (by simp [hay])
          have hal : a ≠ l := fun hal => ha (List.mem_append_left _ (hal ▸ hmem))
          have hab : a ≠ b := fun hab => ha (by simp [hab])
          simp [linkAt_putLink, hx, hy, hb, hli, hax, hay, hal, hab]
        · intro a ha hk'
          rw [hold a ha hk']
          simp [linkAt_putLink, hx, hy, hb, hli]

end CJSON.Heap
