import Warehouse.CJson.HeapRuns

/-!
# Trees in memory as values

* `Tree.Is`              a tree that is a value, without anything below the leaves;
* `Tree.Is.height`       it is as deep as the value, so that both are copied or none;
* `Quiet`                a program that allocates nothing; `quiet_delete`;
* `Forest.delete_ends`, `Forest.duplicate_ends`   a root that is deleted or copied, if there is one.
-/

namespace CJSON.Heap
open Machine Memory Text Numeric

/-! ## trees that are values -/

mutual

/-- only arrays and objects have children -/
def Content.Sound : Content → Prop
  | .node f ks => (f.kind = .array ∨ f.kind = .object ∨ ks = []) ∧ soundAll ks

def soundAll : List Content → Prop
  | [] => True
  | c :: cs => c.Sound ∧ soundAll cs

end

theorem heights_of_value (ts : List Tree) : soundAll (contents ts) →
    (∀ js, toNodes (contents ts) = some js → heights ts = Node.heightItems js) ∧
      ∀ ms, toMembers (contents ts) = some ms → heights ts = Node.heightMembers ms := by
  induction ts using Tree.inductList with
  | nil =>
    refine fun _ => ⟨fun js h => ?_, fun ms h => ?_⟩
    · cases h
      rfl
    · cases h
      rfl
  | cons a lab ks ts ihks ihts =>
    intro hsound
    obtain ⟨⟨hkind, hks⟩, hts⟩ := hsound
    -- the height of the first tree is that of its value
    have hfirst : ∀ j, (Tree.node a lab ks).content.toNode = some j → heights ks = j.height := by
      intro j hj
      change Content.toNode (.node lab.face (contents ks)) = some j at hj
      rw [Content.toNode] at hj
      have hleaf : lab.face.kind ≠ .array → lab.face.kind ≠ .object → heights ks = 0 := by
        intro h1 h2
        obtain hnil := (hkind.resolve_left h1).resolve_left h2
        cases ks with
        | nil => rfl
        | cons t ks => cases hnil
      cases hk : lab.face.kind <;> rw [hk] at hj hleaf
      case array =>
        obtain ⟨js, hjs, rfl⟩ := Option.map_eq_some_iff.mp hj
        exact (ihks hks).1 js hjs
      case object =>
        obtain ⟨ms, hms, rfl⟩ := Option.map_eq_some_iff.mp hj
        exact (ihks hks).2 ms hms
      case string =>
        obtain ⟨s, -, rfl⟩ := Option.map_eq_some_iff.mp hj
        exact hleaf (fun h => nomatch h) (fun h => nomatch h)
      all_goals
        cases hj
        try exact hleaf (fun h => nomatch h) (fun h => nomatch h)
    refine ⟨fun js h => ?_, fun ms h => ?_⟩
    · rw [contents, toNodes] at h
      obtain ⟨j, hj, h⟩ := Option.bind_eq_some_iff.mp h
      obtain ⟨js', hjs, rfl⟩ := Option.map_eq_some_iff.mp h
      rw [heights, Node.heightItems, (ihts hts).1 js' hjs, ← hfirst j hj]
      rfl
    · rw [contents, toMembers] at h
      obtain ⟨name, -, h⟩ := Option.bind_eq_some_iff.mp h
      obtain ⟨j, hj, h⟩ := Option.bind_eq_some_iff.mp h
      obtain ⟨ms', hms, rfl⟩ := Option.map_eq_some_iff.mp h
      rw [heights, Node.heightMembers, (ihts hts).2 ms' hms, ← hfirst j hj]
      rfl

/-- the tree is the value: nothing but the members and the elements hangs below an item -/
def Tree.Is (t : Tree) (j : Node) : Prop := t.value = some j ∧ t.content.Sound

theorem Tree.Is.height {t : Tree} {j : Node} (h : t.Is j) : t.height = j.height := by
  have hone := (heights_of_value [t] ⟨h.2, trivial⟩).1 [j] (by
    show (t.content.toNode.bind fun j => (toNodes []).map (j :: ·)) = _
    rw [show t.content.toNode = some j from h.1]
    rfl)
  have hmax : max (t.height + 1) 0 = max (j.height + 1) 0 := hone
  omega

theorem Tree.Is.copy {t t' : Tree} {j : Node} (h : t.Is j) (ht : t'.content = t.content) :
    t'.Is j := by
  unfold Tree.Is Tree.value
  rw [ht]
  exact h

/-! ## the trees of a forest -/

variable {S : ℕ → Option CString} {m m' : Memory Block} {F : List Tree} {p : Option ℕ}

/-- a program that allocates nothing -/
def Quiet {β : Type} (x : Prog Block β) : Prop :=
  ∀ m b m', x m = .ok (b, m') → m'.answers = m.answers

theorem Quiet.bind {β γ : Type} {x : Prog Block β} {f : β → Prog Block γ} (hx : Quiet x)
    (hf : ∀ b, Quiet (f b)) : Quiet (x >>= f) := by
  intro m c m' h
  rw [bind_apply] at h
  cases hr : x m with
  | error e =>
    rw [hr] at h
    cases h
  | ok r =>
    rw [hr] at h
    exact (hf r.1 r.2 c m' h).trans (hx m r.1 r.2 hr)

theorem quiet_pure {β : Type} (b : β) : Quiet (pure b : Prog Block β) := by
  intro m c m' h
  cases h
  rfl

theorem quiet_item (a : ℕ) : Quiet (item a) := by
  intro m c m' h
  unfold item at h
  split at h
  · cases h
    rfl
  · cases h

theorem quiet_free (a : ℕ) : Quiet (free a) := by
  intro m c m' h
  unfold free at h
  split at h
  · cases h
    rfl
  · cases h

theorem quiet_freeUnless (flag : Bool) (p : Option ℕ) : Quiet (freeUnless flag p) := by
  cases p with
  | none => exact quiet_pure ()
  | some a =>
    cases flag with
    | true => exact quiet_pure ()
    | false => exact quiet_free a

theorem quiet_delete (n : ℕ) : ∀ p, Quiet (delete n p) := by
  induction n with
  | zero =>
    intro p
    cases p with
    | none => exact quiet_pure ()
    | some a => exact fun m b m' h => nomatch h
  | succ n ih =>
    intro p
    cases p with
    | none => exact quiet_pure ()
    | some a =>
      rw [delete]
      exact (quiet_item a).bind fun c => (ih _).bind fun _ => (quiet_freeUnless _ _).bind fun _ =>
        (quiet_freeUnless _ _).bind fun _ => (quiet_free a).bind fun _ => ih _

namespace Forest

/-- the tree of a root that is deleted, if there is one -/
theorem delete_ends (h : Forest S m F) (hp : ∀ x ∈ p, x ∈ F.map Tree.address) :
    ∃ (old : Option Tree) (F' : List Tree) (m' : Memory Block),
      Ends (fun n => Heap.delete n p) m ((), m') ∧ p = old.map Tree.address ∧
      F.Perm (old.toList ++ F') ∧ Forest S m' F' ∧ ∀ k, Supply m k → Supply m' k := by
  cases p with
  | none =>
    refine ⟨none, F, m, Ends.of_eq fun n => ?_, rfl, List.Perm.refl _, h, fun k hk => hk⟩
    cases n <;> rfl
  | some x =>
    obtain ⟨t, F', hF, rfl⟩ := exists_root (hp x rfl)
    obtain ⟨m', ⟨N, hrun⟩, hblock, hrest⟩ : ∃ m',
        Ends (fun n => Heap.delete n (some t.address)) m ((), m') ∧
          (∀ a, m.block a = none → m'.block a = none) ∧ Forest S m' F' := by
      obtain ⟨m', hrun, hm'⟩ := Holds.delete (h.perm hF)
      refine ⟨m', ⟨_, hrun⟩, fun a ha => ?_, hm'⟩
      by_contra hne
      have hwas : m.block a ≠ none := by
        rcases (hm'.live a).mp hne with hmem | hcaller
        · refine ((h.perm hF).live a).mpr (Or.inl ?_)
          rw [records_cons, owned_append]
          exact List.mem_append_right _ hmem
        · exact (h.live a).mpr (Or.inr hcaller)
      exact hwas ha
    have hanswers : m'.answers = m.answers := quiet_delete N _ m () m' (hrun N le_rfl)
    exact ⟨some t, F', m', ⟨N, hrun⟩, rfl, hF, hrest, fun k hk => hk.congr hanswers hblock⟩

/-- the tree of a root that is copied, if there is one -/
theorem duplicate_ends (h : Forest S m F) (hp : ∀ x ∈ p, x ∈ F.map Tree.address) :
    ∃ (new : Option Tree) (m' : Memory Block),
      Ends (fun n => Heap.duplicate n p true) m (new.map Tree.address, m') ∧
      Forest S m' (new.toList ++ F) ∧
      (∀ t' ∈ new, ∃ t ∈ F, p = some t.address ∧ t'.content = t.content ∧
        t.height ≤ CJSON_CIRCULAR_LIMIT) ∧
      (new = none → ∀ t ∈ F, p = some t.address →
        ¬ (Supply m (owned t.records).length ∧ t.height ≤ CJSON_CIRCULAR_LIMIT)) := by
  cases p with
  | none =>
    refine ⟨none, m, Ends.of_eq fun n => ?_, h, by simp, by simp⟩
    cases n <;> rfl
  | some x =>
    obtain ⟨t, F', hF, rfl⟩ := exists_root (hp x rfl)
    have ht : t ∈ F := hF.mem_iff.mpr (List.mem_cons_self ..)
    have hsub : ∀ r ∈ t.records, r ∈ records F := fun r hr =>
      (records_perm hF).mem_iff.mpr (List.mem_append_left _ hr)
    obtain ⟨o, m', hrun, hres⟩ := Holds.duplicate h hsub
    rcases hres with ⟨rfl, hm', hno⟩ | ⟨t', rfl, hsame, hm', hheight⟩
    · refine ⟨none, m', ⟨_, hrun⟩, hm', by simp, fun _ u hu hut => ?_⟩
      have hut' : u = t := List.inj_on_of_nodup_map h.address_nodup hu ht
        (Option.some.inj hut).symm
      rw [hut']
      exact hno
    · refine ⟨some t', m', ⟨_, hrun⟩, hm', fun u hu => ?_, by simp⟩
      rw [← Option.some.inj hu]
      exact ⟨t, ht, rfl, hsame, hheight⟩

end Forest

end CJSON.Heap
