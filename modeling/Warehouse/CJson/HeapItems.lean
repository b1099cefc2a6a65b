import Warehouse.CJson.HeapCopies

/-!
# New items, names and the search for a name

* `Holds.create`, `Holds.createText`   a new root, or nothing;
* `Holds.addItemToObject`   a root gets a name and becomes the last child;
* `Holds.duplicate`, `Holds.duplicate_shallow`   a copy of an item becomes a root, or nothing;
* `lookup`, `Holds.findObjectItem_eq`   the first child of a name;
* `Content.toNode`, `lookup_toNode`   .. is the member of the value in memory that the search in
                         values finds.
-/

namespace CJSON.Heap
open Machine Memory Text Numeric

variable {S : ℕ → Option CString} {m m' m₁ : Memory Block} {R : List Record} {roots : List ℕ}
  {lab : Label} {ks : List ℕ} {x p key : ℕ} {s : CString} {X : List ℕ}

/-! ## new items -/

theorem Holds.of_block (h : Holds S m R roots) (hb : m'.block = m.block) :
    Holds S m' R roots := by
  obtain ⟨block, answers⟩ := m
  obtain ⟨block', answers'⟩ := m'
  cases hb
  exact ⟨h.nodup, fun r hr => ⟨(h.stored r hr).fields, (h.stored r hr).child,
    (h.stored r hr).chain, (h.stored r hr).texts⟩, h.parents, h.single, h.live, h.caller,
    h.borrowed⟩

theorem Label.owned_of_texts (h : lab.texts = []) : lab.owned = [] := by
  obtain ⟨hv, hs⟩ := List.append_eq_nil_iff.mp h
  rw [Label.owned, hv, hs, ite_self]
  rfl

theorem Label.borrowed_of_texts (h : lab.texts = []) : lab.borrowed = [] := by
  obtain ⟨-, hs⟩ := List.append_eq_nil_iff.mp h
  rw [Label.borrowed, hs, ite_self]
  rfl

/-- a new item without strings becomes a root, or there is none -/
theorem Holds.create (h : Holds S m R roots) (lab : Label) (hlab : lab.texts = []) :
    (∃ m', create lab.fields m = .ok (none, m') ∧ Holds S m' R roots) ∨
      ∃ x m', create lab.fields m = .ok (some x, m') ∧
        Holds S m' (⟨x, lab, []⟩ :: R) (x :: roots) := by
  rcases alloc_cases (Block.item blank) m with ⟨m', hrun, hblock, -⟩ | ⟨x, m₁, hrun, hx, hm₁, -⟩
  · exact Or.inl ⟨m', bind_of_ok hrun _, h.of_block hblock⟩
  · have hxi : itemAt m₁ x = some blank := item_of_block (by rw [hm₁, Function.update_self])
    have hxit : IsItem m₁ x := by
      unfold IsItem
      rw [hxi]
      rfl
    have hlink : ∀ l, linkAt l (putFields m₁ x lab.fields) x = none := by
      intro l
      rw [linkAt_putFields]
      unfold linkAt
      rw [hxi]
      cases l <;> rfl
    have hown : owned [⟨x, lab, []⟩] = [x] := by
      rw [owned_cons, owned, List.flatMap_nil, List.append_nil, Record.owned,
        Label.owned_of_texts hlab]
    refine Or.inr ⟨x, putFields m₁ x lab.fields, ?_, ?_⟩
    · exact (bind_of_ok hrun _).trans ((bind_of_ok (setFields_eq hxit _) _).trans rfl)
    · refine h.extend [⟨x, lab, []⟩] [x] ?_ ?_ ?_ ?_ (List.Perm.refl _) ?_ ?_
      · intro a ha
        rw [hown] at ha
        have hax : a ≠ x := fun hax => ha (by simp [hax])
        exact (if_neg hax).trans (by rw [hm₁, Function.update_of_ne hax])
      · intro a ha
        rw [hown] at ha
        rw [List.mem_singleton.mp ha]
        exact hx
      · rw [hown]
        exact List.nodup_singleton x
      · intro r hr
        rw [List.mem_singleton.mp hr]
        refine ⟨?_, hlink _, chain_nil, fun e he => ?_⟩
        · rw [fieldsAt_putFields hxit, Function.update_self]
        · rw [hlab] at he
          cases he
      · intro a ha
        rw [List.mem_singleton.mp ha]
        exact ⟨hlink _, hlink _⟩
      · intro r hr a ha
        rw [List.mem_singleton.mp hr, Label.borrowed_of_texts hlab] at ha
        cases ha

/-- the label of a new item of a kind -/
def plain (kind : Kind) : Label := ⟨kind, false, none, 0, Binary64.ofInt 0, none⟩

/-- the label of a new number -/
def numeral (num : Binary64) : Label :=
  ⟨.number, false, none, CJSON.valueint num, num, none⟩

/-- a new item with a copy of a string of the caller becomes a root, or there is none -/
theorem Holds.createText (h : Holds S m R roots) (hs : S key = some s) (kind : Kind) :
    (∃ m', (∀ n ≥ 1, createText n kind (some key) m = .ok (none, m')) ∧ Holds S m' R roots) ∨
      ∃ x k m', (∀ n ≥ 1, createText n kind (some key) m = .ok (some x, m')) ∧
        Holds S m' (⟨x, { plain kind with valuestring := some (k, s) }, []⟩ :: R) (x :: roots) := by
  rcases h.create (plain kind) rfl with ⟨m', hrun, hm'⟩ | ⟨x, m₁, hrun, hm₁⟩
  · exact Or.inl ⟨m', fun n _ => bind_of_ok hrun _, hm'⟩
  · have hkey : textAt m₁ key = some s := (hm₁.caller key (by rw [hs]; rfl)).1.trans hs
    obtain ⟨o, m₂, hdup, hg, hi, htext, hres⟩ := strdup_cases (m := m₁) (some (key, s))
      (fun e he => by cases he; exact hkey)
    rcases hres with ⟨hsame, -⟩ | ⟨-, rfl, -⟩
    · obtain ⟨⟨k, s'⟩, rfl, hks⟩ := Option.map_eq_some_iff.mp hsame
      cases hks
      have hfields : fieldsAt m₂ x = some (plain kind).fields := by
        rw [fieldsAt_of_itemAt hi]
        exact hm₁.head.fields
      have hxi : IsItem m₂ x := isItem_of_fields hfields
      refine Or.inr ⟨x, k, putFields m₂ x ({ plain kind with valuestring := some (k, s) } : Label).fields,
        fun n _ => ?_, hm₁.relabel
        { plain kind with valuestring := some (k, s) } ?_ ?_ ?_ ?_ ?_ ?_ ?_ ?_⟩
      · refine (bind_of_ok hrun _).trans ((bind_of_ok hdup _).trans ?_)
        exact (bind_of_ok (fields_eq hfields) _).trans ((bind_of_ok (setFields_eq hxi _) _).trans rfl)
      · rw [fieldsAt_putFields hxi, fieldsAt_of_itemAt hi]
      · exact fun l => by rw [linkAt_putFields, linkAt_of_itemAt hi]
      · intro e he
        rw [textAt_putFields]
        exact htext e (by simpa [Label.texts, plain, eq_comm] using he)
      · intro a _ ha
        rw [textAt_putFields]
        exact textAt_congr (hg.kept a (by simpa [Label.owned, plain] using ha))
      · exact fun a ha => absurd ha (by simp [Label.owned, plain])
      · intro a ha _
        exact hg.fresh a (by simpa [Label.owned, plain] using ha)
      · simp [Label.owned, plain]
      · simp [Label.borrowed, plain]
    · have hm₂ : Holds S m₂ (⟨x, plain kind, []⟩ :: R) (x :: roots) := hm₁.of_block (by
        funext a
        exact hg.kept a List.not_mem_nil)
      obtain ⟨m₃, hdel, hm₃⟩ := @Holds.delete S m₂ R roots (.node x (plain kind) []) hm₂
      refine Or.inl ⟨m₃, fun n hn => ?_, hm₃⟩
      exact (bind_of_ok hrun _).trans ((bind_of_ok hdup _).trans
        ((bind_of_ok (hdel n hn) _).trans rfl))

/-! ## names -/

/-- an item gives up its name for another one, which is there already -/
theorem Holds.setName (h : Holds S m (⟨x, lab, ks⟩ :: R) roots) (name : ℕ × CString) {const : Bool}
    (hg : Grown m m₁ (if const then [] else [name.1])) (hi : itemAt m₁ = itemAt m)
    (htext : textAt m₁ name.1 = some name.2) (hc : const = true → (S name.1).isSome = true) :
    ∃ m', (do freeUnless lab.stringIsConst lab.fields.string
              setFields x { lab.fields with string := some name.1, stringIsConst := const }
            : Prog Block Unit) m₁ = .ok ((), m') ∧
      Holds S m' (⟨x, { lab with string := some name, stringIsConst := const }, ks⟩ :: R) roots := by
  have hnodup := h.nodup
  rw [owned_cons] at hnodup
  have hdlab : lab.owned.Nodup := (List.nodup_cons.mp (List.nodup_append.mp hnodup).1).2
  have hsplit : lab.owned = lab.valuestring.toList.map Prod.fst ++
      (if lab.stringIsConst then [] else lab.string.toList).map Prod.fst := List.map_append
  have hlive : ∀ a ∈ lab.owned, m.block a ≠ none := fun a ha =>
    h.head.live (List.mem_cons_of_mem _ ha)
  have hold : ∀ a ∈ (if lab.stringIsConst then [] else lab.string.toList).map Prod.fst,
      a ∈ lab.owned := fun a ha => by
    rw [hsplit]
    exact List.mem_append_right _ ha
  obtain ⟨m₂, hfree, hm₂⟩ := freeUnless_released (m := m₁) lab.stringIsConst lab.string
    (fun a ha => by
      rw [hg.known (hlive a (hold a ha))]
      exact hlive a (hold a ha))
  generalize hX : (if lab.stringIsConst then [] else lab.string.toList).map Prod.fst = X at *
  have hname : name.1 ∉ X := by
    intro hmem
    cases const with
    | true => exact (h.caller _ (hc rfl)).2 (mem_owned (List.mem_cons_self ..)
        (List.mem_cons_of_mem _ (hold _ hmem)))
    | false => exact hlive _ (hold _ hmem) (hg.fresh _ (by simp))
  have htexts : ∀ e ∈ lab.texts, textAt m₁ e.1 = some e.2 := by
    intro e he
    have hte := h.head.texts e he
    have hlivee : m.block e.1 ≠ none := by
      rw [block_ne_none_iff, hte]
      exact Or.inr rfl
    rw [textAt_congr (hg.known hlivee)]
    exact hte
  have hi₂ : itemAt m₂ = itemAt m := by
    rw [← hi]
    funext a
    by_cases ha : a ∈ X
    · obtain ⟨e, he, rfl⟩ := Label.texts_of_owned (hold a ha)
      rw [itemAt_of_text (htexts e he), itemAt_of_free ((hm₂ _).trans (if_pos ha))]
    · exact itemAt_congr (hm₂.kept ha)
  have hxi : IsItem m₂ x := by
    unfold IsItem
    rw [hi₂]
    exact h.head.isItem
  have hown' : ∀ a, a ∈ ({ lab with string := some name, stringIsConst := const } : Label).owned ↔
      a ∈ lab.valuestring.toList.map Prod.fst ∨ a ∈ if const then [] else [name.1] := by
    intro a
    cases const <;> simp [Label.owned]
  refine ⟨putFields m₂ x ({ lab with string := some name, stringIsConst := const } : Label).fields,
    (bind_of_ok hfree _).trans (setFields_eq hxi _),
    h.relabel { lab with string := some name, stringIsConst := const } ?_ ?_ ?_ ?_ ?_ ?_ ?_ ?_⟩
  · rw [fieldsAt_putFields hxi, fieldsAt_of_itemAt hi₂]
  · exact fun l => by rw [linkAt_putFields, linkAt_of_itemAt hi₂]
  · intro e he
    rw [textAt_putFields]
    rcases List.mem_append.mp he with he | he
    · have hmem : e.1 ∈ lab.valuestring.toList.map Prod.fst := List.mem_map_of_mem he
      have hnot : e.1 ∉ X := by
        rw [hsplit] at hdlab
        exact fun hX' => (List.nodup_append.mp hdlab).2.2 _ hmem _ hX' rfl
      rw [textAt_congr (hm₂.kept hnot)]
      exact htexts e (List.mem_append_left _ he)
    · have hen : e = name := by simpa [eq_comm] using he
      rw [hen, textAt_congr (hm₂.kept hname), htext]
  · intro a ha ha'
    rw [textAt_putFields, textAt_congr (hm₂.kept fun hX' => ha (hold a hX'))]
    exact textAt_congr (hg.kept a fun hmem => ha' ((hown' a).mpr (Or.inr hmem)))
  · intro a ha ha'
    have haX : a ∈ X := by
      rw [hsplit] at ha
      rcases List.mem_append.mp ha with ha | ha
      · exact absurd ((hown' a).mpr (Or.inl ha)) ha'
      · exact ha
    rw [textAt_putFields]
    unfold textAt
    rw [hm₂ a, if_pos haX]
  · intro a ha ha'
    rcases (hown' a).mp ha with ha | ha
    · refine absurd ?_ ha'
      rw [hsplit]
      exact List.mem_append_left _ ha
    · exact hg.fresh a ha
  · rw [Label.owned]
    cases const with
    | true =>
      rw [hsplit] at hdlab
      simpa using (List.nodup_append.mp hdlab).1
    | false =>
      rw [hsplit] at hdlab
      rw [List.map_append]
      refine List.nodup_append.mpr ⟨(List.nodup_append.mp hdlab).1, by simp, ?_⟩
      intro a ha b hb hab
      have hbn : b = name.1 := by simpa using hb
      refine hlive a ?_ (hg.fresh a (by simp [hab, hbn]))
      rw [hsplit]
      exact List.mem_append_left _ ha
  · intro a ha
    cases const with
    | true =>
      have han : a = name.1 := by simpa [Label.borrowed] using ha
      rw [han]
      exact hc rfl
    | false => simp [Label.borrowed] at ha

/-- a root gets a name and becomes the last child, or nothing changes; a constant name is shared
with the caller -/
theorem Holds.addItemToObject {labp : Label} {kx : List ℕ}
    (h : Holds S m (⟨p, labp, ks⟩ :: ⟨x, lab, kx⟩ :: R) (x :: roots)) (hne : p ≠ x)
    (hs : S key = some s) (const : Bool) :
    (∃ m', addItemToObject (some p) (some key) (some x) const m = .ok (false, m') ∧
        Holds S m' (⟨p, labp, ks⟩ :: ⟨x, lab, kx⟩ :: R) (x :: roots)) ∨
      ∃ k m', addItemToObject (some p) (some key) (some x) const m = .ok (true, m') ∧
        Holds S m' (⟨p, labp, ks ++ [x]⟩ ::
          ⟨x, { lab with string := some (k, s), stringIsConst := const }, kx⟩ :: R) roots := by
  have hkey : textAt m key = some s := (h.caller key (by rw [hs]; rfl)).1.trans hs
  have hx : fieldsAt m x = some lab.fields :=
    (h.stored ⟨x, lab, kx⟩ (List.mem_cons_of_mem _ (List.mem_cons_self ..))).fields
  have hswap : Holds S m (⟨x, lab, kx⟩ :: ⟨p, labp, ks⟩ :: R) (x :: roots) :=
    h.perm (List.Perm.swap ..) (List.Perm.refl _)
  -- a name that is there, in whatever memory, leads to the end
  have hgo : ∀ (m₁ : Memory Block) (k : ℕ), Grown m m₁ (if const then [] else [k]) →
      itemAt m₁ = itemAt m → textAt m₁ k = some s → (const = true → (S k).isSome = true) →
      ∃ m', (do
          let f ← fields x
          freeUnless f.stringIsConst f.string
          setFields x { f with string := some k, stringIsConst := const }
          Heap.addItemToArray (some p) (some x) : Prog Block Bool) m₁ = .ok (true, m') ∧
        Holds S m' (⟨p, labp, ks ++ [x]⟩ ::
          ⟨x, { lab with string := some (k, s), stringIsConst := const }, kx⟩ :: R) roots := by
    intro m₁ k hg hi htext hc
    obtain ⟨m₂, hrun, hm₂⟩ := hswap.setName (k, s) hg hi htext hc
    have hback := hm₂.perm (List.Perm.swap _ _ _) (List.Perm.refl _)
    obtain ⟨m₃, hadd, hm₃⟩ := hback.addItemToArray hne
    refine ⟨m₃, ?_, hm₃⟩
    have hfields : fieldsAt m₁ x = some lab.fields := by
      rw [fieldsAt_of_itemAt hi]
      exact hx
    refine (bind_of_ok (fields_eq hfields) _).trans ?_
    rw [← bind_assoc]
    exact (bind_of_ok hrun _).trans hadd
  cases const with
  | true =>
    obtain ⟨m', hrun, hm'⟩ := hgo m key (Grown.refl m) rfl hkey (fun _ => by rw [hs]; rfl)
    refine Or.inr ⟨key, m', ?_, hm'⟩
    have hstart : Heap.addItemToObject (some p) (some key) (some x) true m = (do
        let f ← fields x
        freeUnless f.stringIsConst f.string
        setFields x { f with string := some key, stringIsConst := true }
        Heap.addItemToArray (some p) (some x) : Prog Block Bool) m := by
      simp only [Heap.addItemToObject, if_neg hne]
      rfl
    exact hstart.trans hrun
  | false =>
    obtain ⟨o, m₁, hdup, hg, hi, htext, hres⟩ := strdup_cases (m := m) (some (key, s))
      (fun e he => by cases he; exact hkey)
    rcases hres with ⟨hsame, -⟩ | ⟨-, rfl, -⟩
    · obtain ⟨⟨k, s'⟩, rfl, hks⟩ := Option.map_eq_some_iff.mp hsame
      cases hks
      obtain ⟨m', hrun, hm'⟩ := hgo m₁ k hg hi (htext _ rfl) (fun h => nomatch h)
      refine Or.inr ⟨k, m', ?_, hm'⟩
      simp only [Heap.addItemToObject, if_neg hne]
      exact (bind_of_ok hdup _).trans hrun
    · refine Or.inl ⟨m₁, ?_, h.of_block (by funext a; exact hg.kept a List.not_mem_nil)⟩
      simp only [Heap.addItemToObject, if_neg hne]
      exact (bind_of_ok hdup _).trans rfl

/-! ## copies -/

/-- a copy of a tree becomes a root, or nothing changes; with all allocations granted it is copied
exactly when it is not too deep -/
theorem Holds.duplicate (h : Holds S m R roots) {t : Tree} (ht : ∀ r ∈ t.records, r ∈ R) :
    ∃ o m', (∀ n ≥ 2 * t.records.length,
        Heap.duplicate n (some t.address) true m = .ok (o, m')) ∧
      (o = none ∧ Holds S m' R roots ∧
          ¬ (Supply m (owned t.records).length ∧ t.height ≤ CJSON_CIRCULAR_LIMIT) ∨
        ∃ t' : Tree, o = some t'.address ∧ t'.content = t.content ∧
          Holds S m' (t'.records ++ R) (t'.address :: roots) ∧
          t.height ≤ CJSON_CIRCULAR_LIMIT) := by
  obtain ⟨o, m', hrun, hres⟩ := copies t 0 m (fun r hr => h.stored r (ht r hr))
  refine ⟨o, m', hrun, ?_⟩
  rcases hres with ⟨rfl, hblock, hno⟩ | ⟨t', rfl, hcopy, -, hdeep, -⟩
  · rw [zero_add] at hno
    exact Or.inl ⟨rfl, h.of_block hblock, hno⟩
  · have hdeep' := hdeep (Nat.zero_le _)
    rw [zero_add] at hdeep'
    refine Or.inr ⟨t', rfl, hcopy.content, ?_, hdeep'⟩
    refine h.extend t'.records [t'.address] hcopy.grown.kept hcopy.grown.fresh hcopy.grown.nodup
      hcopy.stored ?_ ?_ ?_
    · have hpar := records_parents [t']
      rwa [records_cons, records_nil, List.append_nil] at hpar
    · intro a ha
      rw [List.mem_singleton.mp ha]
      exact hcopy.single
    · intro r hr a ha
      obtain ⟨r₀, hr₀, ha₀⟩ := hcopy.borrowed r hr a ha
      exact h.borrowed r₀ (ht r₀ hr₀) a ha₀

/-- a copy of an item without its children becomes a root, or nothing changes -/
theorem Holds.duplicate_shallow (h : Holds S m R roots) (hx : ⟨x, lab, ks⟩ ∈ R) :
    (∃ m', (∀ n ≥ 2, Heap.duplicate n (some x) false m = .ok (none, m')) ∧ Holds S m' R roots) ∨
      ∃ w lab' m', (∀ n ≥ 2, Heap.duplicate n (some x) false m = .ok (some w, m')) ∧
        lab'.face = lab.face ∧ Holds S m' (⟨w, lab', []⟩ :: R) (w :: roots) := by
  rcases newCopy_cases (h.stored _ hx) with ⟨m', hblock, -, hrun⟩ |
    ⟨w, m', lab', hP, hsame, -, hrun⟩
  · refine Or.inl ⟨m', fun n hn => ?_, h.of_block hblock⟩
    obtain ⟨n, rfl⟩ : ∃ k, n = k + 1 := ⟨n - 1, by omega⟩
    exact hrun n (by omega) 0 false
  · have hown : owned (records [.node w lab' []]) = owned [⟨w, lab', []⟩] := rfl
    have hgrown := hP.grown
    rw [hown] at hgrown
    refine Or.inr ⟨w, lab', m', fun n hn => ?_, hsame.face, h.extend [⟨w, lab', []⟩] [w]
      hgrown.kept hgrown.fresh hgrown.nodup ?_ (List.Perm.refl _) ?_ ?_⟩
    · obtain ⟨n, rfl⟩ : ∃ k, n = k + 1 := ⟨n - 1, by omega⟩
      exact (hrun n 0 false).trans rfl
    · intro r hr
      rw [List.mem_singleton.mp hr]
      exact ⟨hP.fields, hP.child, chain_nil, hP.texts⟩
    · intro a ha
      rw [List.mem_singleton.mp ha]
      exact hP.single
    · intro r hr a ha
      rw [List.mem_singleton.mp hr, hsame.borrowed] at ha
      exact h.borrowed _ hx a ha

/-! ## search for a name -/

def Tree.label : Tree → Label
  | .node _ lab _ => lab

/-- the first child where the search stops, if it has a name -/
def lookup (caseSensitive : Bool) (name : CString) (ks : List Tree) : Option Tree :=
  (ks.find? fun t => stopsAt caseSensitive name (t.label.string.map Prod.snd)).filter
    fun t => t.label.string.isSome

theorem skipTo_eq (caseSensitive : Bool) (s : CString) {before : Option ℕ} (ks : List Tree)
    (hst : ∀ t ∈ ks, fieldsAt m t.address = some t.label.fields ∧
      ∀ e ∈ t.label.string, textAt m e.1 = some e.2)
    (hseg : Segment (linkAt .next m) (linkAt .prev m) before (ks.map Tree.address) none) (n : ℕ)
    (hn : ks.length ≤ n) : skipTo caseSensitive s n (ks.map Tree.address).head? m =
      .ok ((ks.find? fun t => stopsAt caseSensitive s (t.label.string.map Prod.snd)).map
        Tree.address, m) := by
  induction ks generalizing before n with
  | nil => cases n <;> rfl
  | cons t ks ih =>
    obtain ⟨n, rfl⟩ : ∃ k, n = k + 1 := ⟨n - 1, by rw [List.length_cons] at hn; omega⟩
    obtain ⟨hfields, htext⟩ := hst t (List.mem_cons_self ..)
    obtain ⟨c, hc, hcf⟩ := Option.map_eq_some_iff.mp hfields
    have hnext : c.next = (ks.map Tree.address).head? := by
      have := hseg.2.1.trans Option.or_none
      unfold linkAt at this
      rwa [hc] at this
    have hname : textOf c.fields.string m = .ok (t.label.string.map Prod.snd, m) := by
      rw [hcf]
      cases hstr : t.label.string with
      | none => simp [Label.fields, hstr, textOf]
      | some e => simp [Label.fields, hstr, textOf, text_eq (htext e hstr)]
    rw [List.map_cons, List.head?_cons, skipTo]
    refine (bind_of_ok (item_eq hc) _).trans ((bind_of_ok hname _).trans ?_)
    cases hstop : stopsAt caseSensitive s (t.label.string.map Prod.snd) with
    | true =>
      simp only [List.find?_cons, hstop]
      rfl
    | false =>
      simp only [List.find?_cons, hstop, hnext]
      exact ih (fun t ht => hst t (List.mem_cons_of_mem _ ht)) hseg.2.2 n (Nat.le_of_succ_le_succ hn)

theorem record_mem {t : Tree} {ts : List Tree} (ht : t ∈ ts) :
    ∃ ks, (⟨t.address, t.label, ks⟩ : Record) ∈ records ts := by
  induction ts with
  | nil => cases ht
  | cons u ts ih =>
    rcases List.mem_cons.mp ht with rfl | ht
    · cases t with
      | node a lab ks => exact ⟨_, List.mem_cons_self ..⟩
    · obtain ⟨ks, hks⟩ := ih ht
      exact ⟨ks, List.mem_append_right _ hks⟩

/-- the search along the children of an item, by a name in memory -/
theorem Holds.findObjectItem_eq {ks : List Tree}
    (h : Holds S m (⟨p, lab, ks.map Tree.address⟩ :: (records ks ++ R)) roots)
    (hs : textAt m key = some s) (caseSensitive : Bool) {n : ℕ} (hn : ks.length ≤ n) :
    findObjectItem n (some p) (some key) caseSensitive m =
      .ok ((lookup caseSensitive s ks).map Tree.address, m) := by
  have hp : IsItem m p := h.head.isItem
  have hchild : linkAt .child m p = (ks.map Tree.address).head? := h.head.child
  have hst : ∀ t ∈ ks, fieldsAt m t.address = some t.label.fields ∧
      ∀ e ∈ t.label.string, textAt m e.1 = some e.2 := by
    intro t ht
    obtain ⟨kt, hkt⟩ := record_mem ht
    have hst := h.stored _ (List.mem_cons_of_mem _ (List.mem_append_left _ hkt))
    exact ⟨hst.fields, fun e he =>
      hst.texts e (List.mem_append_right _ (Option.mem_toList.mpr he))⟩
  have hskip := skipTo_eq caseSensitive s ks hst h.head.chain n hn
  unfold Heap.findObjectItem lookup
  refine (bind_of_ok (text_eq hs) _).trans ((bind_of_ok (child_eq hp) _).trans ?_)
  rw [hchild]
  refine (bind_of_ok hskip _).trans ?_
  cases hfind : ks.find? fun t => stopsAt caseSensitive s (t.label.string.map Prod.snd) with
  | none => rfl
  | some t =>
    have hf := (hst t (List.mem_of_find?_eq_some hfind)).1
    refine (bind_of_ok (fields_eq hf) _).trans ?_
    cases hstr : t.label.string <;> simp [Label.fields, hstr]

/-! ## values -/

def Content.name : Content → Option CString
  | .node f _ => f.string

mutual

/-- the value a tree stands for; an object needs the names of its members, a string its text -/
def Content.toNode : Content → Option Node
  | .node f ks =>
    match f.kind with
    | .null => some .null
    | .true => some (.bool true)
    | .false => some (.bool false)
    | .number => some (.number f.valuedouble)
    | .string => f.valuestring.map .string
    | .array => (toNodes ks).map .array
    | .object => (toMembers ks).map .object
    | .invalid => none
    | .raw => none

def toNodes : List Content → Option (List Node)
  | [] => some []
  | c :: cs => c.toNode.bind fun j => (toNodes cs).map (j :: ·)

def toMembers : List Content → Option (List (CString × Node))
  | [] => some []
  | c :: cs => c.name.bind fun name => c.toNode.bind fun j => (toMembers cs).map ((name, j) :: ·)

end

/-- the value of a tree in memory -/
def Tree.value (t : Tree) : Option Node := t.content.toNode

/-- when two names are the same for the search -/
def sameName (caseSensitive : Bool) (a b : CString) : Bool :=
  if caseSensitive then decide (a = b) else caseInsensitiveEq a b

theorem stopsAt_some (caseSensitive : Bool) (name key : CString) :
    stopsAt caseSensitive name (some key) = sameName caseSensitive name key := by
  cases caseSensitive with
  | true => rfl
  | false =>
    show decide (caseInsensitiveStrcmp name.bytes key.bytes = 0) = caseInsensitiveEq name key
    rw [Bool.eq_iff_iff, decide_eq_true_iff]
    exact caseInsensitiveStrcmp_eq_zero_iff name key

/-- the child has the name, for the search -/
def Tree.named (caseSensitive : Bool) (name : CString) (t : Tree) : Bool :=
  t.label.string.any fun e => sameName caseSensitive name e.2

theorem Tree.name_content (t : Tree) : t.content.name = t.label.string.map Prod.snd := by
  cases t with
  | node a lab ks => rfl

/-- the children of an object all have names -/
theorem string_of_toMembers {ks : List Tree} {ms : List (CString × Node)}
    (h : toMembers (contents ks) = some ms) : ∀ t ∈ ks, ∃ e, t.label.string = some e := by
  induction ks generalizing ms with
  | nil => exact fun t ht => absurd ht List.not_mem_nil
  | cons t ks ih =>
    rw [contents, toMembers] at h
    obtain ⟨key, hkey, h⟩ := Option.bind_eq_some_iff.mp h
    obtain ⟨j, -, h⟩ := Option.bind_eq_some_iff.mp h
    obtain ⟨ms', hms, -⟩ := Option.map_eq_some_iff.mp h
    rw [Tree.name_content] at hkey
    obtain ⟨e, he, -⟩ := Option.map_eq_some_iff.mp hkey
    intro t' ht'
    rcases List.mem_cons.mp ht' with rfl | ht'
    · exact ⟨e, he⟩
    · exact ih hms t' ht'

/-- where all children have names, the search finds the first one with the name -/
theorem lookup_eq_find? {ks : List Tree} (h : ∀ t ∈ ks, ∃ e, t.label.string = some e)
    (caseSensitive : Bool) (name : CString) :
    lookup caseSensitive name ks = ks.find? (Tree.named caseSensitive name) := by
  unfold lookup
  induction ks with
  | nil => rfl
  | cons t ks ih =>
    obtain ⟨e, he⟩ := h t (List.mem_cons_self ..)
    have hstop : stopsAt caseSensitive name (t.label.string.map Prod.snd) =
        t.named caseSensitive name := by
      rw [Tree.named, he, Option.map_some, stopsAt_some, Option.any_some]
    have hname : t.label.string.isSome = true := by rw [he, Option.isSome_some]
    cases hsame : t.named caseSensitive name with
    | true =>
      simp only [List.find?_cons, hstop, hsame, Option.filter_some, hname, if_true]
    | false =>
      simp only [List.find?_cons, hstop, hsame]
      exact ih fun t ht => h t (List.mem_cons_of_mem _ ht)

/-- the search among the children of an object is the search among the members of its value -/
theorem lookup_toNode {ks : List Tree} {ms : List (CString × Node)} (caseSensitive : Bool)
    (name : CString) (h : toMembers (contents ks) = some ms) :
    (lookup caseSensitive name ks).bind Tree.value =
      getObjectItemWith (sameName caseSensitive) name (.object ms) := by
  rw [lookup_eq_find? (string_of_toMembers h)]
  show _ = (ms.find? fun m => sameName caseSensitive name m.1).map Prod.snd
  induction ks generalizing ms with
  | nil =>
    cases h
    rfl
  | cons t ks ih =>
    rw [contents, toMembers] at h
    obtain ⟨key, hkey, h⟩ := Option.bind_eq_some_iff.mp h
    obtain ⟨j, hj, h⟩ := Option.bind_eq_some_iff.mp h
    obtain ⟨ms', hms, rfl⟩ := Option.map_eq_some_iff.mp h
    rw [Tree.name_content] at hkey
    obtain ⟨e, he, rfl⟩ := Option.map_eq_some_iff.mp hkey
    have hnamed : t.named caseSensitive name = sameName caseSensitive name e.2 := by
      rw [Tree.named, he, Option.any_some]
    cases hsame : sameName caseSensitive name e.2 with
    | true =>
      simp only [List.find?_cons, hnamed, hsame, Option.bind_some, Option.map_some]
      exact hj
    | false =>
      simp only [List.find?_cons, hnamed, hsame]
      exact ih hms

end CJSON.Heap
