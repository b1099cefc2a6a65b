import Warehouse.CJson.HeapParsed

/-!
# Texts in memory

* `Row.root`             what was parsed is a root beside the others;
* `kindOf`, `Forest.member_ends`   the search for a member in a tree that was parsed;
* `Forest.parse_ends`, `Forest.parse_exact`   a text is parsed into a tree that is its value, or the
                         memory is as it was.
-/

namespace CJSON.Heap
open Machine Memory Text Numeric

variable {S : ℕ → Option CString} {m m' : Memory Block} {F : List Tree} {a : ℕ} {lab : Label}
  {t : Tree} {ts : List Tree}

/-! ## whole texts -/

/-- a tree beside the others is a root -/
theorem Row.root (h : Row m m' [t]) (hF : Forest S m F) : Forest S m' (t :: F) := by
  have hext : Holds S m' (records [t] ++ records F) ([t.address] ++ F.map Tree.address) := by
    refine Holds.extend hF (records [t]) [t.address] h.grown.kept h.grown.fresh h.grown.nodup
      h.stored (records_parents [t]) (fun a ha => ?_) fun r hr a ha => ?_
    · rw [List.mem_singleton.mp ha]
      obtain ⟨hprev, hnext, -⟩ := h.segment
      exact ⟨hnext, hprev⟩
    · rw [Label.borrowed_of_own (h.const r hr)] at ha
      cases ha
  rwa [records_single] at hext

/-- a text is parsed into a new root, or nothing is left in memory -/
theorem Forest.parse_ends (h : Forest S m F) (value : CString) :
    ∃ (o : Option Tree) (m' : Memory Block),
      Ends (fun n => Heap.parse n value) m (o.map Tree.address, m') ∧ Forest S m' (o.toList ++ F) ∧
      (∀ t ∈ o, Row m m' [t] ∧ ∃ j, CJSON.parse value = some j ∧ t.Parsed j ∧
        ∀ k, Supply m (1 + j.blocks + k) → Supply m' k) ∧
      (o = none → m'.block = m.block ∧ ∀ j, CJSON.parse value = some j → ¬ Supply m (1 + j.blocks)) := by
  rcases alloc_cases (Block.item blank) m with ⟨m', hrun, hblock, hno⟩ | ⟨w, m₁, hrun, hw, hm₁, hs⟩
  · refine ⟨none, m', Ends.of_eq fun n => bind_of_ok hrun _, h.of_block hblock, by simp,
      fun _ => ⟨hblock, fun j _ hj => hno hj.mono⟩⟩
  · have hrow : Row m m₁ [.node w (plain .invalid) []] := ((Row.nil m).snoc hw hm₁).2
    have hwst : Stored m₁ ⟨w, plain .invalid, []⟩ := hrow.stored _ (List.mem_singleton_self _)
    obtain ⟨o, m₂, ⟨N, hval⟩, hres⟩ := parseValue_into CJSON_NESTING_LIMIT w (plain .invalid)
      (skipWhitespace (skipUtf8Bom (value.bytes ++ [0]))) m₁ hwst rfl rfl
    rcases hres with ⟨j, r, t, X, hj, rfl, hf, his, -, hsup⟩ | ⟨rfl, hb, hnone⟩
    · have hparse : CJSON.parse value = some j := congrArg _ hj
      have hroot : Row m m₂ ([] ++ [t]) := Row.fill hrow hf
      refine ⟨some t, m₂, ⟨N, fun n hn => ?_⟩, hroot.root h, fun u hu => ?_, by simp⟩
      · refine (bind_of_ok hrun _).trans ((bind_of_ok (hval n hn) _).trans ?_)
        rw [Option.map_some, hf.address]
        rfl
      · rw [← Option.some.inj hu]
        refine ⟨hroot, j, hparse, his, fun k hk => ?_⟩
        rw [add_assoc] at hk
        exact hsup k (hs _ hk)
    · have hrow₂ : Row m m₂ ([] ++ [.node w (plain .invalid) []]) :=
        Row.fill hrow (Fills.of_block hwst rfl hb)
      obtain ⟨m', hdel, hblock⟩ := hrow₂.delete
      refine ⟨none, m', ⟨max N 1, fun n hn => ?_⟩, h.of_block hblock, by simp,
        fun _ => ⟨hblock, fun j hj hall => ?_⟩⟩
      · refine (bind_of_ok hrun _).trans ((bind_of_ok (hval n (le_of_max_le_left hn)) _).trans ?_)
        exact bind_of_ok (hdel n (le_of_max_le_right hn)) _
      · obtain ⟨e, he, rfl⟩ := Option.map_eq_some_iff.mp hj
        exact hnone e.1 e.2 he (hs _ hall)

/-! ## the members of what was parsed -/

/-- the kind of an item that is the value -/
def kindOf : Node → Kind
  | .null => .null
  | .bool b => if b then .true else .false
  | .number _ => .number
  | .string _ => .string
  | .array _ => .array
  | .object _ => .object

theorem object_of_kind {j : Node} (h : kindOf j = .object) : ∃ ms, j = .object ms := by
  cases j with
  | object ms => exact ⟨ms, rfl⟩
  | bool b => cases b <;> cases h
  | _ => cases h

theorem number_of_kind {j : Node} (h : kindOf j = .number) : ∃ v, j = .number v := by
  cases j with
  | number v => exact ⟨v, rfl⟩
  | bool b => cases b <;> cases h
  | _ => cases h

theorem kind_of_value {ks : List Tree} {j : Node} (h : (Tree.node a lab ks).value = some j) :
    lab.kind = kindOf j := by
  change Content.toNode (.node lab.face (contents ks)) = some j at h
  rw [Content.toNode] at h
  have hface : lab.face.kind = lab.kind := rfl
  rw [← hface]
  cases hk : lab.face.kind <;> rw [hk] at h
  case array =>
    obtain ⟨js, -, rfl⟩ := Option.map_eq_some_iff.mp h
    rfl
  case object =>
    obtain ⟨ms, -, rfl⟩ := Option.map_eq_some_iff.mp h
    rfl
  case string =>
    obtain ⟨s, -, rfl⟩ := Option.map_eq_some_iff.mp h
    rfl
  all_goals
    cases h
    try rfl

theorem toMembers_of_value {ks : List Tree} {ms : List (CString × Node)}
    (h : (Tree.node a lab ks).value = some (.object ms)) : toMembers (contents ks) = some ms := by
  have hk : lab.face.kind = .object := kind_of_value h
  change Content.toNode (.node lab.face (contents ks)) = some (.object ms) at h
  rw [Content.toNode, hk] at h
  obtain ⟨ms', hms, he⟩ := Option.map_eq_some_iff.mp h
  cases he
  exact hms

theorem number_of_parsed {v : Binary64} (h : t.Parsed (.number v)) :
    t.label.valueint = CJSON.valueint v := by
  cases t with
  | node a lab ks =>
    have hk : lab.face.kind = .number := kind_of_value h.1.1
    have hv : (Tree.node a lab ks).value = some (.number v) := h.1.1
    change Content.toNode (.node lab.face (contents ks)) = some (.number v) at hv
    rw [Content.toNode, hk] at hv
    cases hv
    exact h.2.1.int hk

theorem mem_contents {u : Tree} (h : u ∈ ts) : u.content ∈ contents ts := by
  induction ts with
  | nil => cases h
  | cons t ts ih =>
    rcases List.mem_cons.mp h with rfl | h
    · exact List.mem_cons_self ..
    · exact List.mem_cons_of_mem _ (ih h)

theorem records_of_mem {u : Tree} (h : u ∈ ts) : ∀ r ∈ u.records, r ∈ records ts := by
  intro r hr
  obtain ⟨us, vs, rfl⟩ := List.append_of_mem h
  rw [records_append]
  exact List.mem_append_right _ (List.mem_append_left _ hr)

/-- the children of a tree that was parsed -/
theorem parsed_of_mem {u : Tree} {ms : List (CString × Node)} :
    tidyAll (contents ts) → soundAll (contents ts) → toMembers (contents ts) = some ms → u ∈ ts →
      ∃ j, u.Parsed j := by
  induction ts generalizing ms with
  | nil => exact fun _ _ _ hu => absurd hu List.not_mem_nil
  | cons t ts ih =>
    intro htidy hsound hms hu
    rw [contents, toMembers] at hms
    obtain ⟨name, -, hms⟩ := Option.bind_eq_some_iff.mp hms
    obtain ⟨j, hj, hms⟩ := Option.bind_eq_some_iff.mp hms
    obtain ⟨ms', hms', -⟩ := Option.map_eq_some_iff.mp hms
    rcases List.mem_cons.mp hu with rfl | hu
    · exact ⟨j, ⟨hj, hsound.1⟩, htidy.1⟩
    · exact ih htidy.2 hsound.2 hms' hu

/-- the search for a member in a tree that was parsed, also where it is no object -/
theorem Forest.member_ends {key : ℕ} {name : CString} {j : Node} (h : Forest S m F) (ht : t ∈ F)
    (hp : t.Parsed j) (hs : textAt m key = some name) : ∃ o : Option Tree,
      Ends (fun n => findObjectItem n (some t.address) (some key) true) m
        (o.map Tree.address, m) ∧
      (∀ u ∈ o, u ∈ t.kids ∧ u.label.string.isSome = true ∧ ∃ j', u.Parsed j') ∧
      o.bind Tree.value = getObjectItemCaseSensitive j name := by
  obtain ⟨F₁, F₂, rfl⟩ := List.append_of_mem ht
  cases t with
  | node a lab ks =>
    have hperm : Holds S m (⟨a, lab, ks.map Tree.address⟩ :: (records ks ++ records (F₁ ++ F₂)))
        (a :: (F₁ ++ F₂).map Tree.address) := Forest.perm h List.perm_middle
    refine ⟨lookup true name ks, ⟨ks.length, fun n hn => hperm.findObjectItem_eq hs true hn⟩, ?_⟩
    have hfound : ∀ u ∈ lookup true name ks, u ∈ ks ∧ u.label.string.isSome = true := by
      intro u hu
      obtain ⟨hfind, hname⟩ := Option.mem_filter_iff.mp hu
      exact ⟨List.mem_of_find?_eq_some hfind, hname⟩
    by_cases hk : lab.face.kind = .object
    · obtain ⟨ms, rfl⟩ := object_of_kind ((kind_of_value hp.1.1).symm.trans hk)
      have hms := toMembers_of_value hp.1.1
      refine ⟨fun u hu => ⟨(hfound u hu).1, (hfound u hu).2, ?_⟩, ?_⟩
      · exact parsed_of_mem hp.2.2 hp.1.2.2 hms (hfound u hu).1
      · exact lookup_toNode true name hms
    · have hnone : lookup true name ks = none := by
        cases hl : lookup true name ks with
        | none => rfl
        | some u =>
          obtain ⟨hu, hname⟩ := hfound u hl
          have hnil := hp.2.1.names hk u.content (mem_contents hu)
          rw [Tree.name_content, Option.map_eq_none_iff] at hnil
          rw [hnil] at hname
          cases hname
      refine ⟨fun u hu => ?_, ?_⟩
      · rw [hnone] at hu
        cases hu
      · rw [hnone]
        cases j <;> first | rfl | exact absurd (kind_of_value hp.1.1) hk

/-- **A text is parsed.**  Whatever the allocator answers, what is returned is a new root that is
the value of the text, and with which everything that was allocated is deleted again; or nothing,
and then the memory is as it was.  The latter only where the text has no value or an allocation for
it was refused. -/
theorem Forest.parse_exact (h : Forest S m F) (value : CString) :
    ∃ (o : Option Tree) (m' : Memory Block),
      Ends (fun n => Heap.parse n value) m (o.map Tree.address, m') ∧ Forest S m' (o.toList ++ F) ∧
      (∀ t ∈ o, (∃ j, CJSON.parse value = some j ∧ t.Parsed j) ∧ ∃ m'',
        Ends (fun n => Heap.delete n (some t.address)) m' ((), m'') ∧ m''.block = m.block) ∧
      (o = none → m'.block = m.block ∧ ∀ j, CJSON.parse value = some j → ¬ Supply m (1 + j.blocks)) := by
  obtain ⟨o, m', hrun, hF, hsome, hnone⟩ := h.parse_ends value
  refine ⟨o, m', hrun, hF, fun t ht => ?_, hnone⟩
  obtain ⟨hrow, j, hj, hparsed, -⟩ := hsome t ht
  obtain ⟨m'', hdel, hblock⟩ := hrow.delete
  exact ⟨⟨j, hj, hparsed⟩, m'', ⟨_, hdel⟩, hblock⟩

theorem Forest.parse_exact_list : ∃ (o : Option Tree) (m' : Memory Block),
    Ends (fun n => Heap.parse n (CString.lit ['[', '1', ']'])) pairMemory (o.map Tree.address, m') ∧
      Forest callerName m' (o.toList ++ [pairTree]) ∧
      (∀ t ∈ o, (∃ j, CJSON.parse (CString.lit ['[', '1', ']']) = some j ∧ t.Parsed j) ∧ ∃ m'',
        Ends (fun n => Heap.delete n (some t.address)) m' ((), m'') ∧
          m''.block = pairMemory.block) ∧
      (o = none → m'.block = pairMemory.block ∧ ∀ j,
        CJSON.parse (CString.lit ['[', '1', ']']) = some j → ¬ Supply pairMemory (1 + j.blocks)) :=
  Forest.parse_exact pairMemory_forest _

end CJSON.Heap
