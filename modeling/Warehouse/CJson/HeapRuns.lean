import Warehouse.CJson.HeapItems

/-!
# Clients of the tree library

The calls of the library as steps on a forest of trees, and the calls in memory as a refinement of
them.  A client may choose its calls from all that it has; a call is legal when the item that is to
be inserted is a root outside the tree it goes into, and the item that is to be taken out is a child
of the parent that is named.  A string that is handed over is one of the client's own: the name or
the text of an item, which the library releases with the item, is no legal argument.

* `Call`, `exec`         the calls, and the functions they run;
* `Legal`, `Step`        what a client keeps to, and what a call makes of the forest;
* `exec_step`            a legal call ends without a fault and is the step on the forest;
* `client_safe`          so does every run of a client that keeps to the rules;
* `findObjectItem_value` the search of a member in memory and in the value.
-/

namespace CJSON.Heap
open Machine Memory Text Numeric

variable {S : ℕ → Option CString} {m m' : Memory Block} {F F' ts : List Tree} {p x : ℕ}

/-! ## trees -/

mutual

/-- the subtree of an address -/
def Tree.treeAt (x : ℕ) : Tree → Option Tree
  | .node a lab ks => if a = x then some (.node a lab ks) else treeAt x ks

def treeAt (x : ℕ) : List Tree → Option Tree
  | [] => none
  | t :: ts => (t.treeAt x).or (treeAt x ts)

end

mutual

/-- other children for the item of an address -/
def Tree.mapKids (p : ℕ) (g : List Tree → List Tree) : Tree → Tree
  | .node a lab ks => if a = p then .node a lab (g ks) else .node a lab (mapKids p g ks)

def mapKids (p : ℕ) (g : List Tree → List Tree) : List Tree → List Tree
  | [] => []
  | t :: ts => t.mapKids p g :: mapKids p g ts

end

def addresses (ts : List Tree) : List ℕ := (records ts).map Record.address

theorem addresses_cons (a : ℕ) (lab : Label) (ks ts : List Tree) :
    addresses (.node a lab ks :: ts) = a :: (addresses ks ++ addresses ts) := by
  unfold addresses
  rw [records_node, List.map_cons, List.map_append]

theorem treeAt_cons (a : ℕ) (lab : Label) (ks ts : List Tree) (x : ℕ) :
    treeAt x (.node a lab ks :: ts) =
      if a = x then some (.node a lab ks) else (treeAt x ks).or (treeAt x ts) := by
  rw [treeAt, Tree.treeAt]
  split_ifs <;> rfl

theorem mapKids_cons (a : ℕ) (lab : Label) (ks ts : List Tree) (p : ℕ)
    (g : List Tree → List Tree) : mapKids p g (.node a lab ks :: ts) =
      .node a lab (if a = p then g ks else mapKids p g ks) :: mapKids p g ts := by
  rw [mapKids, Tree.mapKids]
  split_ifs <;> rfl

theorem mapKids_roots (p : ℕ) (g : List Tree → List Tree) (ts : List Tree) :
    (mapKids p g ts).map Tree.address = ts.map Tree.address := by
  induction ts with
  | nil => rfl
  | cons t ts ih =>
    cases t with
    | node a lab ks =>
      rw [mapKids_cons, List.map_cons, List.map_cons, ih]
      rfl

theorem mapKids_of_notMem {g : List Tree → List Tree} (h : p ∉ addresses ts) :
    mapKids p g ts = ts := by
  induction ts using Tree.inductList with
  | nil => rfl
  | cons a lab ks ts ihks ihts =>
    rw [addresses_cons] at h
    simp only [List.mem_cons, List.mem_append, not_or] at h
    rw [mapKids_cons, if_neg (fun ha => h.1 ha.symm), ihks h.2.1, ihts h.2.2]

theorem treeAt_of_notMem (h : x ∉ addresses ts) : treeAt x ts = none := by
  induction ts using Tree.inductList with
  | nil => rfl
  | cons a lab ks ts ihks ihts =>
    rw [addresses_cons] at h
    simp only [List.mem_cons, List.mem_append, not_or] at h
    rw [treeAt_cons, if_neg (fun ha => h.1 ha.symm), ihks h.2.1, ihts h.2.2]
    rfl

/-- **An item in focus.**  Its record, those of its children, and the rest; other children for the
item change nothing else. -/
theorem exists_focus (hp : p ∈ addresses ts) (hd : (addresses ts).Nodup) :
    ∃ lab ks rest, treeAt p ts = some (.node p lab ks) ∧
      (records ts).Perm (⟨p, lab, ks.map Tree.address⟩ :: (records ks ++ rest)) ∧
      ∀ g, (records (mapKids p g ts)).Perm
        (⟨p, lab, (g ks).map Tree.address⟩ :: (records (g ks) ++ rest)) := by
  induction ts using Tree.inductList with
  | nil => cases hp
  | cons a lab ks ts ihks ihts =>
    rw [addresses_cons] at hp hd
    obtain ⟨ha, hd⟩ := List.nodup_cons.mp hd
    obtain ⟨hdk, hdt, hdisj⟩ := List.nodup_append.mp hd
    by_cases hap : a = p
    · subst hap
      have hts : a ∉ addresses ts := fun h => ha (List.mem_append_right _ h)
      refine ⟨lab, ks, records ts, ?_, ?_, fun g => ?_⟩
      · rw [treeAt_cons, if_pos rfl]
      · exact List.Perm.refl _
      · rw [mapKids_cons, if_pos rfl, mapKids_of_notMem hts]
        exact List.Perm.refl _
    · rcases List.mem_cons.mp hp with h | hp
      · exact absurd h.symm hap
      by_cases hpk : p ∈ addresses ks
      · have hts : p ∉ addresses ts := fun h => hdisj p hpk p h rfl
        obtain ⟨lab', ks', rest, hat, hrec, hmap⟩ := ihks hpk hdk
        have hmove : ∀ (r r' : Record) (A B : List Record),
            A.Perm (r' :: B) → (r :: (A ++ records ts)).Perm (r' :: (B ++ (r :: records ts))) := by
          intro r r' A B hA
          refine ((hA.append_right _).cons r).trans ((List.Perm.swap ..).trans ?_)
          exact List.perm_middle.symm.cons r'
        refine ⟨lab', ks', rest ++ ⟨a, lab, ks.map Tree.address⟩ :: records ts, ?_, ?_,
          fun g => ?_⟩
        · rw [treeAt_cons, if_neg hap, hat]
          rfl
        · rw [records_node, ← List.append_assoc]
          exact hmove _ _ _ _ hrec
        · rw [mapKids_cons, if_neg hap, mapKids_of_notMem hts, records_node, mapKids_roots,
            ← List.append_assoc]
          exact hmove _ _ _ _ (hmap g)
      · have hpt : p ∈ addresses ts := (List.mem_append.mp hp).resolve_left hpk
        obtain ⟨lab', ks', rest, hat, hrec, hmap⟩ := ihts hpt hdt
        have hmove : ∀ (r r' : Record) (A B C : List Record), A.Perm (r' :: (B ++ C)) →
            (r :: (records ks ++ A)).Perm (r' :: (B ++ (r :: (records ks ++ C)))) := by
          intro r r' A B C hA
          refine ((hA.append_left (records ks)).cons r).trans ?_
          refine (List.perm_middle.cons r).trans ((List.Perm.swap ..).trans (List.Perm.cons r' ?_))
          exact (List.perm_append_comm_assoc _ B C).cons r |>.trans List.perm_middle.symm
        refine ⟨lab', ks', ⟨a, lab, ks.map Tree.address⟩ :: (records ks ++ rest), ?_, ?_,
          fun g => ?_⟩
        · rw [treeAt_cons, if_neg hap, treeAt_of_notMem hpk, hat]
          rfl
        · rw [records_node]
          exact hmove _ _ _ _ _ hrec
        · rw [mapKids_cons, if_neg hap, mapKids_of_notMem hpk, records_node]
          exact hmove _ _ _ _ _ (hmap g)

/-! ## calls -/

inductive Call
  | createNull
  | createTrue
  | createFalse
  | createBool (boolean : Bool)
  | createNumber (num : Binary64)
  | createArray
  | createObject
  | createString (string : ℕ)
  | createRaw (raw : ℕ)
  | delete (item : ℕ)
  | addItemToArray (array item : ℕ)
  | addItemToObject (object string item : ℕ) (constantKey : Bool)
  | detachItemViaPointer (parent item : ℕ)
  | insertItemInArray (array : ℕ) (which : ℤ) (newitem : ℕ)
  | replaceItemViaPointer (parent item replacement : ℕ)
  | duplicate (item : ℕ) (recurse : Bool)

inductive Reply
  | done
  | flag (b : Bool)
  | pointer (p : Option ℕ)

/-- the function that a call runs -/
def exec (n : ℕ) : Call → Prog Block Reply
  | .createNull => Reply.pointer <$> Heap.createNull
  | .createTrue => Reply.pointer <$> Heap.createTrue
  | .createFalse => Reply.pointer <$> Heap.createFalse
  | .createBool b => Reply.pointer <$> Heap.createBool b
  | .createNumber num => Reply.pointer <$> Heap.createNumber num
  | .createArray => Reply.pointer <$> Heap.createArray
  | .createObject => Reply.pointer <$> Heap.createObject
  | .createString string => Reply.pointer <$> Heap.createString n (some string)
  | .createRaw raw => Reply.pointer <$> Heap.createRaw n (some raw)
  | .delete item => (fun _ => Reply.done) <$> Heap.delete n (some item)
  | .addItemToArray array item => Reply.flag <$> Heap.addItemToArray (some array) (some item)
  | .addItemToObject object string item constantKey =>
    Reply.flag <$> Heap.addItemToObject (some object) (some string) (some item) constantKey
  | .detachItemViaPointer parent item =>
    Reply.pointer <$> Heap.detachItemViaPointer (some parent) (some item)
  | .insertItemInArray array which newitem =>
    Reply.flag <$> Heap.insertItemInArray (some array) which (some newitem)
  | .replaceItemViaPointer parent item replacement =>
    Reply.flag <$> Heap.replaceItemViaPointer n (some parent) (some item) (some replacement)
  | .duplicate item recurse => Reply.pointer <$> Heap.duplicate n (some item) recurse

/-- the label of a new item without strings -/
def Call.newLabel : Call → Option Label
  | .createNull => some (plain .null)
  | .createTrue => some (plain .true)
  | .createFalse => some (plain .false)
  | .createBool b => some (plain (if b then .true else .false))
  | .createNumber num => some (numeral num)
  | .createArray => some (plain .array)
  | .createObject => some (plain .object)
  | _ => none

/-- the kind of a new item with a string, and the string -/
def Call.newText : Call → Option (Kind × ℕ)
  | .createString string => some (.string, string)
  | .createRaw raw => some (.raw, raw)
  | _ => none

/-! ## the steps of a forest -/

def Tree.kids : Tree → List Tree
  | .node _ _ ks => ks

def Tree.rename (name : ℕ × CString) (const : Bool) : Tree → Tree
  | .node a lab ks => .node a { lab with string := some name, stringIsConst := const } ks

/-- the trees of other addresses -/
def without (x : ℕ) (ts : List Tree) : List Tree := ts.filter fun t => t.address != x

/-- the item is a child of the parent -/
def IsKid (F : List Tree) (p x : ℕ) : Prop :=
  ∃ u, treeAt p F = some u ∧ x ∈ u.kids.map Tree.address

/-- the item is a root, and the parent an item of another tree -/
def Outside (F : List Tree) (p x : ℕ) : Prop :=
  ∃ t F', F.Perm (t :: F') ∧ t.address = x ∧ p ∈ addresses F'

/-- what a client of the library keeps to; the strings `S` are its own -/
def Legal (S : ℕ → Option CString) (F : List Tree) : Call → Prop
  | .createString string => (S string).isSome = true
  | .createRaw raw => (S raw).isSome = true
  | .delete item => item ∈ F.map Tree.address
  | .addItemToArray array item => Outside F array item
  | .addItemToObject object string item _ => Outside F object item ∧ (S string).isSome = true
  | .detachItemViaPointer parent item =>
    IsKid F parent item ∨ parent ∈ addresses F ∧ item ∈ F.map Tree.address
  | .insertItemInArray array _ newitem => Outside F array newitem
  | .replaceItemViaPointer parent item replacement => ∃ t F', F.Perm (t :: F') ∧
      t.address = replacement ∧ IsKid F' parent item
  | .duplicate item _ => item ∈ addresses F
  | _ => True

/-- what a call makes of a forest -/
inductive Step (S : ℕ → Option CString) (F : List Tree) : Call → Reply → List Tree → Prop
  | created {c : Call} {lab : Label} {x : ℕ} (h : c.newLabel = some lab) :
      Step S F c (.pointer (some x)) (.node x lab [] :: F)
  | createdText {c : Call} {kind : Kind} {key x k : ℕ} {s : CString}
      (h : c.newText = some (kind, key)) (hs : S key = some s) : Step S F c (.pointer (some x))
      (.node x { plain kind with valuestring := some (k, s) } [] :: F)
  | notCreated {c : Call} (h : c.newLabel.isSome = true ∨ c.newText.isSome = true) :
      Step S F c (.pointer none) F
  | deleted {t : Tree} {F' : List Tree} (h : F.Perm (t :: F')) :
      Step S F (.delete t.address) .done F'
  | added {t : Tree} {F' : List Tree} {p : ℕ} (h : F.Perm (t :: F')) :
      Step S F (.addItemToArray p t.address) (.flag true) (mapKids p (· ++ [t]) F')
  | named {t : Tree} {F' : List Tree} {p key k : ℕ} {s : CString} {const : Bool}
      (h : F.Perm (t :: F')) (hs : S key = some s) :
      Step S F (.addItemToObject p key t.address const) (.flag true)
        (mapKids p (· ++ [t.rename (k, s) const]) F')
  | notNamed {p key x : ℕ} {const : Bool} :
      Step S F (.addItemToObject p key x const) (.flag false) F
  | detached {u t : Tree} {p : ℕ} (h : treeAt p F = some u) (ht : t ∈ u.kids) :
      Step S F (.detachItemViaPointer p t.address) (.pointer (some t.address))
        (t :: mapKids p (without t.address) F)
  | notDetached {p x : ℕ} (h : x ∈ F.map Tree.address) :
      Step S F (.detachItemViaPointer p x) (.pointer none) F
  | inserted {t : Tree} {F' : List Tree} {p i : ℕ} (h : F.Perm (t :: F')) :
      Step S F (.insertItemInArray p i t.address) (.flag true)
        (mapKids p (fun ks => ks.take i ++ t :: ks.drop i) F')
  | notInserted {p x : ℕ} {which : ℤ} (h : which < 0) :
      Step S F (.insertItemInArray p which x) (.flag false) F
  | replaced {t : Tree} {F' : List Tree} {p x : ℕ} (h : F.Perm (t :: F')) :
      Step S F (.replaceItemViaPointer p x t.address) (.flag true)
        (mapKids p (fun ks => ks.map fun k => if k.address = x then t else k) F')
  | copied {t t' : Tree} {x : ℕ} (h : treeAt x F = some t) (ht : t'.content = t.content) :
      Step S F (.duplicate x true) (.pointer (some t'.address)) (t' :: F)
  | copiedItem {t : Tree} {x w : ℕ} {lab : Label} (h : treeAt x F = some t)
      (hl : lab.face = t.label.face) :
      Step S F (.duplicate x false) (.pointer (some w)) (.node w lab [] :: F)
  | notCopied {x : ℕ} {recurse : Bool} : Step S F (.duplicate x recurse) (.pointer none) F

/-- the memory holds a forest of trees, and nothing else beside the strings of the caller -/
def Forest (S : ℕ → Option CString) (m : Memory Block) (F : List Tree) : Prop :=
  Holds S m (records F) (F.map Tree.address)

namespace Forest

theorem perm (h : Forest S m F) (hF : F.Perm F') : Forest S m F' :=
  Holds.perm h (records_perm hF) (hF.map _)

theorem addresses_nodup (h : Forest S m F) : (addresses F).Nodup :=
  h.nodup.sublist (addresses_sublist _)

/-- the forest with one of its items in focus, beside other trees -/
theorem focus (ts : List Tree) {us : List Tree} (h : Forest S m (ts ++ us)) (hp : p ∈ addresses us) :
    ∃ lab ks rest, treeAt p us = some (.node p lab ks) ∧
      (records (ts ++ us)).Perm
        (⟨p, lab, ks.map Tree.address⟩ :: (records ts ++ (records ks ++ rest))) ∧
      ∀ (g : List Tree → List Tree) (vs : List Tree), (records (vs ++ mapKids p g us)).Perm
        (⟨p, lab, (g ks).map Tree.address⟩ :: (records vs ++ (records (g ks) ++ rest))) := by
  have hd : (addresses us).Nodup := by
    refine h.addresses_nodup.sublist ?_
    unfold addresses
    rw [records_append, List.map_append]
    exact List.sublist_append_right ..
  obtain ⟨lab, ks, rest, hat, hrec, hmap⟩ := exists_focus hp hd
  refine ⟨lab, ks, rest, hat, ?_, fun g vs => ?_⟩
  · rw [records_append]
    exact (hrec.append_left _).trans List.perm_middle
  · rw [records_append]
    exact ((hmap g).append_left _).trans List.perm_middle

theorem address_nodup (h : Forest S m F) : (F.map Tree.address).Nodup :=
  (List.nodup_append.mp h.parents_nodup).1

/-- a root is the address of no item of another tree -/
theorem root_notMem {t : Tree} (h : Forest S m (t :: ts)) : t.address ∉ addresses ts := by
  have hd := h.addresses_nodup
  cases t with
  | node a lab ks =>
    rw [addresses_cons] at hd
    exact fun ha => (List.nodup_cons.mp hd).1 (List.mem_append_right _ ha)

theorem exists_root (hx : x ∈ F.map Tree.address) :
    ∃ t F', F.Perm (t :: F') ∧ t.address = x := by
  obtain ⟨t, ht, rfl⟩ := List.mem_map.mp hx
  obtain ⟨F₁, F₂, rfl⟩ := List.append_of_mem ht
  exact ⟨t, F₁ ++ F₂, List.perm_middle, rfl⟩

theorem mem_of_treeAt {u : Tree} (h : treeAt p F = some u) : p ∈ addresses F := by
  by_contra hp
  rw [treeAt_of_notMem hp] at h
  cases h

theorem without_middle {t : Tree} {ks₁ ks₂ : List Tree}
    (hd : ((ks₁ ++ t :: ks₂).map Tree.address).Nodup) :
    without t.address (ks₁ ++ t :: ks₂) = ks₁ ++ ks₂ := by
  rw [List.map_append, List.map_cons, List.nodup_middle] at hd
  obtain ⟨hnot, -⟩ := List.nodup_cons.mp hd
  have hkeep : ∀ u ∈ ks₁ ++ ks₂, (u.address != t.address) = true := by
    intro u hu
    refine bne_iff_ne.mpr fun hut => hnot ?_
    rw [← List.map_append, ← hut]
    exact List.mem_map_of_mem hu
  unfold without
  rw [List.filter_append, List.filter_cons_of_neg (by simp), ← List.filter_append]
  exact List.filter_eq_self.mpr hkeep

theorem replace_middle {t u : Tree} {ks₁ ks₂ : List Tree}
    (hd : ((ks₁ ++ u :: ks₂).map Tree.address).Nodup) :
    (ks₁ ++ u :: ks₂).map (fun k => if k.address = u.address then t else k) =
      ks₁ ++ t :: ks₂ := by
  rw [List.map_append, List.map_cons, List.nodup_middle] at hd
  obtain ⟨hnot, -⟩ := List.nodup_cons.mp hd
  have hkeep : ∀ ks : List Tree, (∀ k ∈ ks, k.address ≠ u.address) →
      ks.map (fun k => if k.address = u.address then t else k) = ks := by
    intro ks hks
    refine (List.map_congr_left fun k hk => if_neg (hks k hk)).trans (List.map_id' ks)
  have hne : ∀ k ∈ ks₁ ++ ks₂, k.address ≠ u.address := by
    intro k hk hku
    refine hnot ?_
    rw [← List.map_append, ← hku]
    exact List.mem_map_of_mem hk
  rw [List.map_append, List.map_cons, if_pos rfl,
    hkeep ks₁ fun k hk => hne k (List.mem_append_left _ hk),
    hkeep ks₂ fun k hk => hne k (List.mem_append_right _ hk)]

/-! ## the calls -/

/-- the call ends as a step of the forest -/
def Steps (S : ℕ → Option CString) (m : Memory Block) (F : List Tree) (c : Call) : Prop :=
  ∃ r m' F', Ends (fun n => exec n c) m (r, m') ∧ Step S F c r F' ∧ Forest S m' F'

theorem create_steps (h : Forest S m F) {c : Call} {lab : Label} (hc : c.newLabel = some lab)
    (hlab : lab.texts = []) (hexec : ∀ n, exec n c = Reply.pointer <$> create lab.fields) :
    Steps S m F c := by
  rcases Holds.create h lab hlab with ⟨m', hrun, hm'⟩ | ⟨x, m', hrun, hm'⟩
  · refine ⟨.pointer none, m', F, Ends.of_eq fun n => ?_, .notCreated ?_, hm'⟩
    · simp [hexec, map_apply, hrun]
    · rw [hc]
      exact Or.inl rfl
  · refine ⟨.pointer (some x), m', .node x lab [] :: F, Ends.of_eq fun n => ?_, .created hc, hm'⟩
    simp [hexec, map_apply, hrun]

theorem createText_steps (h : Forest S m F) {c : Call} {kind : Kind} {key : ℕ}
    (hc : c.newText = some (kind, key)) (hs : (S key).isSome = true)
    (hexec : ∀ n, exec n c = Reply.pointer <$> createText n kind (some key)) : Steps S m F c := by
  obtain ⟨s, hs⟩ := Option.isSome_iff_exists.mp hs
  rcases Holds.createText h hs kind with ⟨m', hrun, hm'⟩ | ⟨x, k, m', hrun, hm'⟩
  · refine ⟨.pointer none, m', F, ⟨1, fun n hn => ?_⟩, .notCreated ?_, hm'⟩
    · simp [hexec, map_apply, hrun n hn]
    · rw [hc]
      exact Or.inr rfl
  · refine ⟨.pointer (some x), m', .node x _ [] :: F, ⟨1, fun n hn => ?_⟩, .createdText hc hs, hm'⟩
    simp [hexec, map_apply, hrun n hn]

theorem delete_steps (h : Forest S m F) (hx : x ∈ F.map Tree.address) :
    Steps S m F (.delete x) := by
  obtain ⟨t, F', hF, rfl⟩ := exists_root hx
  obtain ⟨m', hrun, hm'⟩ := Holds.delete (h.perm hF)
  refine ⟨.done, m', F', ⟨t.records.length, fun n hn => ?_⟩, .deleted hF, hm'⟩
  simp [exec, map_apply, hrun n hn]

theorem add_steps (h : Forest S m F) (ho : Outside F p x) : Steps S m F (.addItemToArray p x) := by
  obtain ⟨t, F', hF, rfl, hp⟩ := ho
  have h' := h.perm hF
  obtain ⟨lab, ks, rest, -, hrec, hmap⟩ := focus [t] h' hp
  have hne : p ≠ t.address := fun hpt => h'.root_notMem (hpt ▸ hp)
  obtain ⟨m', hrun, hm'⟩ := Holds.addItemToArray (Holds.perm h' hrec (List.Perm.refl _)) hne
  refine ⟨.flag true, m', mapKids p (· ++ [t]) F', Ends.of_eq fun n => ?_, .added hF, ?_⟩
  · simp [exec, map_apply, hrun]
  · refine Holds.perm hm' ?_ ?_
    · refine List.Perm.trans ?_ (hmap (· ++ [t]) []).symm
      rw [List.map_append, records_append]
      refine List.Perm.cons _ ?_
      rw [← List.append_assoc]
      exact List.perm_append_comm.append_right _
    · rw [mapKids_roots]

/-- a root in a list of children, among the items of its tree -/
theorem records_middle (t : Tree) (ks₁ ks₂ : List Tree) (rest : List Record) :
    (records [t] ++ (records (ks₁ ++ ks₂) ++ rest)).Perm
      (records (ks₁ ++ t :: ks₂) ++ rest) := by
  rw [← List.append_assoc, ← records_append]
  show (records (t :: (ks₁ ++ ks₂)) ++ rest).Perm _
  exact (records_perm List.perm_middle.symm).append_right _

theorem insert_steps (h : Forest S m F) {which : ℤ} (ho : Outside F p x) :
    Steps S m F (.insertItemInArray p which x) := by
  by_cases hw : which < 0
  · refine ⟨.flag false, m, F, Ends.of_eq fun n => ?_, .notInserted hw, h⟩
    simp [exec, map_apply, Heap.insertItemInArray, hw]
  obtain ⟨t, F', hF, rfl, hp⟩ := ho
  obtain ⟨i, rfl⟩ := Int.eq_ofNat_of_zero_le (not_lt.mp hw)
  have h' := h.perm hF
  obtain ⟨lab, ks, rest, -, hrec, hmap⟩ := focus [t] h' hp
  have hne : p ≠ t.address := fun hpt => h'.root_notMem (hpt ▸ hp)
  obtain ⟨m', hrun, hm'⟩ := Holds.insertItemInArray (Holds.perm h' hrec (List.Perm.refl _)) hne i
  refine ⟨.flag true, m', mapKids p (fun ks => ks.take i ++ t :: ks.drop i) F',
    Ends.of_eq fun n => ?_, .inserted hF, ?_⟩
  · simp [exec, map_apply, hrun]
  · refine Holds.perm hm' ?_ (by rw [mapKids_roots])
    refine List.Perm.trans ?_ (hmap (fun ks => ks.take i ++ t :: ks.drop i) []).symm
    rw [List.map_append, List.map_cons, List.map_take, List.map_drop]
    refine List.Perm.cons _ ?_
    have hsplit := records_middle t (ks.take i) (ks.drop i) rest
    rw [List.take_append_drop] at hsplit
    exact hsplit

theorem detach_steps (h : Forest S m F)
    (hl : IsKid F p x ∨ p ∈ addresses F ∧ x ∈ F.map Tree.address) :
    Steps S m F (.detachItemViaPointer p x) := by
  rcases hl with ⟨u, hu, hx⟩ | ⟨hp, hx⟩
  · obtain ⟨lab, ks, rest, hat, hrec, hmap⟩ := focus [] h (mem_of_treeAt hu)
    cases hu.symm.trans hat
    obtain ⟨t, ht, rfl⟩ := List.mem_map.mp hx
    obtain ⟨ks₁, ks₂, rfl⟩ := List.append_of_mem ht
    have hfocus := Holds.perm h hrec (List.Perm.refl _)
    have hd : ((ks₁ ++ t :: ks₂).map Tree.address).Nodup :=
      (List.nodup_append.mp hfocus.kids_nodup).2.1
    rw [List.map_append, List.map_cons] at hfocus
    obtain ⟨m', hrun, hm'⟩ := Holds.detachItemViaPointer hfocus
    refine ⟨.pointer (some t.address), m', t :: mapKids p (without t.address) F,
      Ends.of_eq fun n => ?_, .detached hu ht, ?_⟩
    · simp [exec, map_apply, hrun]
    · refine Holds.perm hm' ?_ ?_
      · refine List.Perm.trans ?_ (hmap (without t.address) [t]).symm
        rw [without_middle hd, List.map_append]
        exact (records_middle t ks₁ ks₂ rest).symm.cons _
      · rw [List.map_cons, mapKids_roots]
  · obtain ⟨t, F', hF, rfl⟩ := exists_root hx
    obtain ⟨lab, ks, rest, -, hrec, -⟩ := focus [] h hp
    have hrun := Holds.detach_root (Holds.perm h hrec (hF.map Tree.address))
    refine ⟨.pointer none, m, F, Ends.of_eq fun n => ?_, .notDetached hx, h⟩
    simp [exec, map_apply, hrun]

theorem replace_steps (h : Forest S m F) {y : ℕ}
    (hl : ∃ t F', F.Perm (t :: F') ∧ t.address = y ∧ IsKid F' p x) :
    Steps S m F (.replaceItemViaPointer p x y) := by
  obtain ⟨t, F', hF, rfl, u, hu, hx⟩ := hl
  have h' := h.perm hF
  obtain ⟨lab, ks, rest, hat, hrec, hmap⟩ := focus [t] h' (mem_of_treeAt hu)
  cases hu.symm.trans hat
  obtain ⟨v, hv, rfl⟩ := List.mem_map.mp hx
  obtain ⟨ks₁, ks₂, rfl⟩ := List.append_of_mem hv
  have hfocus := Holds.perm h' hrec (List.Perm.refl _)
  have hd : ((ks₁ ++ v :: ks₂).map Tree.address).Nodup :=
    (List.nodup_append.mp hfocus.kids_nodup).2.1
  rw [List.map_append, List.map_cons] at hfocus
  obtain ⟨m₁, hrun, hm₁⟩ := Holds.replaceItemViaPointer hfocus
  -- what was replaced is a root now, and is deleted
  have hroot : Holds S m₁ (v.records ++ (⟨p, lab, (ks₁ ++ t :: ks₂).map Tree.address⟩ ::
      (records (ks₁ ++ t :: ks₂) ++ rest))) (v.address :: F'.map Tree.address) := by
    refine Holds.perm hm₁ (List.Perm.trans ?_ List.perm_middle.symm) (List.Perm.refl _)
    rw [List.map_append, List.map_cons, ← List.append_nil v.records]
    refine List.Perm.cons _ ?_
    refine ((records_middle v ks₁ ks₂ rest).symm.append_left _).trans ?_
    refine (List.perm_append_comm_assoc ..).trans ?_
    exact (records_middle t ks₁ ks₂ rest).append_left _
  obtain ⟨m', hdel, hm'⟩ := hroot.delete
  refine ⟨.flag true, m', mapKids p (fun ks => ks.map fun k => if k.address = v.address then t
    else k) F', ⟨v.records.length, fun n hn => ?_⟩, .replaced hF, ?_⟩
  · simp [exec, map_apply, hrun, hdel n hn, Except.map]
  · refine Holds.perm hm' ?_ (by rw [mapKids_roots])
    refine List.Perm.trans ?_ (hmap _ []).symm
    rw [replace_middle hd]
    exact List.Perm.refl _

theorem name_steps (h : Forest S m F) {key : ℕ} {const : Bool} (ho : Outside F p x)
    (hs : (S key).isSome = true) : Steps S m F (.addItemToObject p key x const) := by
  obtain ⟨s, hs⟩ := Option.isSome_iff_exists.mp hs
  obtain ⟨t, F', hF, rfl, hp⟩ := ho
  have h' := h.perm hF
  obtain ⟨lab, ks, rest, -, hrec, hmap⟩ := focus [t] h' hp
  have hne : p ≠ t.address := fun hpt => h'.root_notMem (hpt ▸ hp)
  cases t with
  | node a labt kt =>
    have hfocus := Holds.perm h' hrec (List.Perm.refl _)
    rcases Holds.addItemToObject hfocus hne hs const with ⟨m', hrun, hm'⟩ | ⟨k, m', hrun, hm'⟩
    · refine ⟨.flag false, m', F, Ends.of_eq fun n => ?_, .notNamed, ?_⟩
      · show (Reply.flag <$> Heap.addItemToObject (some p) (some key) (some a) const) m = _
        rw [map_apply]
        exact (congrArg _ hrun).trans rfl
      · exact Forest.perm (Holds.perm hm' hrec.symm (List.Perm.refl _)) hF.symm
    · refine ⟨.flag true, m', mapKids p (· ++ [(Tree.node a labt kt).rename (k, s) const]) F',
        Ends.of_eq fun n => ?_, .named hF hs, ?_⟩
      · show (Reply.flag <$> Heap.addItemToObject (some p) (some key) (some a) const) m = _
        rw [map_apply]
        exact (congrArg _ hrun).trans rfl
      · refine Holds.perm hm' ?_ (by rw [mapKids_roots])
        refine List.Perm.trans ?_
          (hmap (· ++ [(Tree.node a labt kt).rename (k, s) const]) []).symm
        rw [List.map_append]
        refine List.Perm.cons _ ?_
        have hmid := records_middle ((Tree.node a labt kt).rename (k, s) const) ks [] rest
        rw [List.append_nil] at hmid
        exact hmid

theorem duplicate_steps (h : Forest S m F) {recurse : Bool} (hx : x ∈ addresses F) :
    Steps S m F (.duplicate x recurse) := by
  obtain ⟨lab, ks, rest, hat, hrec, -⟩ := focus [] h hx
  cases recurse with
  | true =>
    have hsub : ∀ r ∈ (Tree.node x lab ks).records, r ∈ records F := fun r hr =>
      hrec.mem_iff.mpr (List.mem_append_left rest hr)
    obtain ⟨o, m', hrun, hres⟩ := Holds.duplicate h hsub
    rcases hres with ⟨rfl, hm', -⟩ | ⟨t', rfl, hsame, hm', -⟩
    · refine ⟨.pointer none, m', F, ⟨2 * (Tree.node x lab ks).records.length, fun n hn => ?_⟩,
        .notCopied, hm'⟩
      exact (map_apply ..).trans (congrArg _ (hrun n hn))
    · refine ⟨.pointer (some t'.address), m', t' :: F,
        ⟨2 * (Tree.node x lab ks).records.length, fun n hn => ?_⟩, .copied hat hsame, hm'⟩
      exact (map_apply ..).trans (congrArg _ (hrun n hn))
  | false =>
    have hmem : ⟨x, lab, ks.map Tree.address⟩ ∈ records F :=
      hrec.mem_iff.mpr (List.mem_cons_self ..)
    rcases Holds.duplicate_shallow h hmem with ⟨m', hrun, hm'⟩ | ⟨w, lab', m', hrun, hsame, hm'⟩
    · refine ⟨.pointer none, m', F, ⟨2, fun n hn => ?_⟩, .notCopied, hm'⟩
      exact (map_apply ..).trans (congrArg _ (hrun n hn))
    · refine ⟨.pointer (some w), m', .node w lab' [] :: F, ⟨2, fun n hn => ?_⟩,
        .copiedItem hat hsame, hm'⟩
      exact (map_apply ..).trans (congrArg _ (hrun n hn))

/-- **A call of a client.**  A legal call ends without a fault, and is a step of the forest. -/
theorem exec_step (h : Forest S m F) (c : Call) (hc : Legal S F c) : Steps S m F c := by
  cases c with
  | createNull => exact h.create_steps rfl rfl fun _ => rfl
  | createTrue => exact h.create_steps rfl rfl fun _ => rfl
  | createFalse => exact h.create_steps rfl rfl fun _ => rfl
  | createBool b => exact h.create_steps rfl rfl fun _ => rfl
  | createNumber num => exact h.create_steps rfl rfl fun _ => rfl
  | createArray => exact h.create_steps rfl rfl fun _ => rfl
  | createObject => exact h.create_steps rfl rfl fun _ => rfl
  | createString string => exact h.createText_steps rfl hc fun _ => rfl
  | createRaw raw => exact h.createText_steps rfl hc fun _ => rfl
  | delete item => exact h.delete_steps hc
  | addItemToArray array item => exact h.add_steps hc
  | addItemToObject object string item constantKey => exact h.name_steps hc.1 hc.2
  | detachItemViaPointer parent item => exact h.detach_steps hc
  | insertItemInArray array which newitem => exact h.insert_steps hc
  | replaceItemViaPointer parent item replacement => exact h.replace_steps hc
  | duplicate item recurse => exact h.duplicate_steps hc

end Forest

/-! ## runs -/

/-- a list of calls that are made one after the other, each legal when it is made -/
inductive Goes (S : ℕ → Option CString) : Memory Block → List Tree → List Call → Memory Block →
    List Tree → Prop
  | nil (m : Memory Block) (F : List Tree) : Goes S m F [] m F
  | cons {m m' m'' : Memory Block} {F F' F'' : List Tree} {c : Call} {r : Reply} {cs : List Call}
      (hl : Legal S F c) (he : Ends (fun n => exec n c) m (r, m')) (hs : Step S F c r F')
      (h : Goes S m' F' cs m'' F'') : Goes S m F (c :: cs) m'' F''

/-- **Clients are safe.**  A list of calls runs without a fault, and as steps of the forest, up to
the end or up to a call that is not legal where it is made; then the memory holds the forest and
the strings of the caller, and nothing else. -/
theorem client_safe (cs : List Call) : ∀ (m : Memory Block) (F : List Tree), Forest S m F →
    ∃ made rest m' F', cs = made ++ rest ∧ Goes S m F made m' F' ∧ Forest S m' F' ∧
      ∀ c ∈ rest.head?, ¬ Legal S F' c := by
  induction cs with
  | nil =>
    intro m F h
    exact ⟨[], [], m, F, rfl, .nil m F, h, fun c hc => nomatch hc⟩
  | cons c cs ih =>
    intro m F h
    by_cases hc : Legal S F c
    · obtain ⟨r, m₁, F₁, hrun, hstep, h₁⟩ := h.exec_step c hc
      obtain ⟨made, rest, m', F', rfl, hgoes, h', hstop⟩ := ih m₁ F₁ h₁
      exact ⟨c :: made, rest, m', F', rfl, .cons hc hrun hstep hgoes, h', hstop⟩
    · refine ⟨[], c :: cs, m, F, rfl, .nil m F, h, fun c' hc' => ?_⟩
      rw [List.head?_cons, Option.mem_some_iff] at hc'
      exact hc' ▸ hc

/-! ## what the calls give -/

/-- an object with a null of the name "a" -/
def pairTree : Tree :=
  .node 0 (plain .object) [.node 1 { plain .null with string := some (2, CString.lit ['a']) } []]

/-- the object in memory, beside a name of the caller -/
def pairMemory : Memory Block where
  block
    | 0 => some (.item ⟨{ blankFields with kind := .object }, none, none, some 1⟩)
    | 1 => some (.item ⟨{ blankFields with kind := .null, string := some 2 }, none, some 1, none⟩)
    | 2 => some (.text (CString.lit ['a']))
    | 3 => some (.text (CString.lit ['a']))
    | _ => none
  answers := [some 4, some 5, some 6, none]

def callerName : ℕ → Option CString
  | 3 => some (CString.lit ['a'])
  | _ => none

theorem pairMemory_forest : Forest callerName pairMemory [pairTree] where
  nodup := by decide
  stored := by
    intro r hr
    rcases List.mem_cons.mp hr with rfl | hr
    · exact ⟨rfl, rfl, ⟨rfl, rfl, trivial⟩, fun e he => nomatch he⟩
    · rw [List.mem_singleton.mp hr]
      exact ⟨rfl, rfl, trivial, fun e he => by rw [List.mem_singleton.mp he]; rfl⟩
  parents := List.Perm.refl _
  single := fun a ha => by rw [List.mem_singleton.mp ha]; exact ⟨rfl, rfl⟩
  live
    | 0 => by decide
    | 1 => by decide
    | 2 => by decide
    | 3 => by decide
    | a + 4 => by
      refine iff_of_false (fun h => h rfl) (fun h => ?_)
      rcases h with h | h
      · have hmem : a + 4 ∈ [0, 1, 2] := h
        simp at hmem
      · cases h
  caller
    | 3, _ => ⟨rfl, by decide⟩
  borrowed := by
    intro r hr a ha
    rcases List.mem_cons.mp hr with rfl | hr
    · cases ha
    · rw [List.mem_singleton.mp hr] at ha
      cases ha

theorem client_safe_pair : ∃ made rest m' F',
    [Call.detachItemViaPointer 0 1, .delete 1, .duplicate 0 true, .delete 0] = made ++ rest ∧
      Goes callerName pairMemory [pairTree] made m' F' ∧ Forest callerName m' F' ∧
      ∀ c ∈ rest.head?, ¬ Legal callerName F' c :=
  client_safe _ _ _ pairMemory_forest

namespace Forest

/-- **A tree is released.**  Deleting a root releases the items and the strings of its tree, each of
them once, and writes to no other block. -/
theorem delete_exact {t : Tree} (h : Forest S m (t :: F)) : ∃ m',
    Ends (fun n => Heap.delete n (some t.address)) m ((), m') ∧ (owned t.records).Nodup ∧
      (∀ a, m'.block a = if a ∈ owned t.records then none else m.block a) ∧ Forest S m' F := by
  have hrec : records [t] = t.records := List.append_nil _
  have hd : (owned t.records).Nodup := by
    have hnodup := h.nodup
    rw [records_cons, owned_append] at hnodup
    exact (List.nodup_append.mp hnodup).1
  have hstored : ∀ r ∈ t.records, Stored m r := fun r hr =>
    h.stored r (List.mem_append_left _ hr)
  obtain ⟨m', hrun, hm'⟩ := delete_trees [t] m (hrec ▸ hd)
    (fun r hr => (hstored r (hrec ▸ hr)).loose) ⟨(h.single _ (List.mem_cons_self ..)).1, trivial⟩
  obtain ⟨m'', hrun', hF⟩ := Holds.delete h
  have hends : Ends (fun n => Heap.delete n (some t.address)) m ((), m') := ⟨_, hrun⟩
  have hends' : Ends (fun n => Heap.delete n (some t.address)) m ((), m'') := ⟨_, hrun'⟩
  obtain rfl : m' = m'' := (Prod.mk.inj (hends.unique hends')).2
  rw [hrec] at hm'
  exact ⟨m', hends, hd, hm', hF⟩

theorem delete_exact_pair : ∃ m',
    Ends (fun n => Heap.delete n (some 0)) pairMemory ((), m') ∧ (owned pairTree.records).Nodup ∧
      (∀ a, m'.block a = if a ∈ owned pairTree.records then none else pairMemory.block a) ∧
      Forest callerName m' [] := delete_exact (t := pairTree) pairMemory_forest

/-- **All of a tree is copied, or nothing.**  Whatever the allocator answers, a copy is a new root
with the contents of the tree, or the memory is as it was; a tree that is not too deep is copied
when the allocations are granted, and a deeper one never is. -/
theorem duplicate_all_or_nothing {t : Tree} (h : Forest S m F) (ht : treeAt x F = some t) :
    ∃ o m', Ends (fun n => Heap.duplicate n (some x) true) m (o, m') ∧
      (o = none ∧ m'.block = m.block ∨
        ∃ t' : Tree, o = some t'.address ∧ t'.content = t.content ∧ Forest S m' (t' :: F)) ∧
      (Supply m (owned t.records).length → t.height ≤ CJSON_CIRCULAR_LIMIT → o ≠ none) ∧
      (CJSON_CIRCULAR_LIMIT < t.height → o = none) := by
  obtain ⟨lab, ks, rest, hat, hrec, -⟩ := focus [] h (mem_of_treeAt ht)
  cases ht.symm.trans hat
  have hsub : ∀ r ∈ (Tree.node x lab ks).records, r ∈ records F := fun r hr =>
    hrec.mem_iff.mpr (List.mem_append_left rest hr)
  obtain ⟨o, m', hrun, hres⟩ := copies (.node x lab ks) 0 m fun r hr => h.stored r (hsub r hr)
  obtain ⟨o', m'', hrun', hres'⟩ := Holds.duplicate h hsub
  have hends : Ends (fun n => Heap.duplicate n (some x) true) m (o, m') := ⟨_, hrun⟩
  have hends' : Ends (fun n => Heap.duplicate n (some x) true) m (o', m'') := ⟨_, hrun'⟩
  obtain ⟨rfl, rfl⟩ := Prod.mk.inj (hends.unique hends')
  refine ⟨o, m', hends, ?_⟩
  rcases hres' with ⟨rfl, -, hno⟩ | ⟨t', rfl, hsame, hF, hheight⟩
  · rcases hres with ⟨-, hblock, -⟩ | ⟨t'', ho, -⟩
    · exact ⟨Or.inl ⟨rfl, hblock⟩, fun hs hh => absurd ⟨hs, hh⟩ hno, fun _ => rfl⟩
    · cases ho
  · exact ⟨Or.inr ⟨t', rfl, hsame, hF⟩, fun _ _ => Option.some_ne_none _,
      fun hh => absurd hheight (not_le.mpr hh)⟩

theorem duplicate_all_or_nothing_pair : ∃ o m',
    Ends (fun n => Heap.duplicate n (some 0) true) pairMemory (o, m') ∧
      (o = none ∧ m'.block = pairMemory.block ∨ ∃ t' : Tree, o = some t'.address ∧
        t'.content = pairTree.content ∧ Forest callerName m' (t' :: [pairTree])) ∧
      (Supply pairMemory (owned pairTree.records).length →
        pairTree.height ≤ CJSON_CIRCULAR_LIMIT → o ≠ none) ∧
      (CJSON_CIRCULAR_LIMIT < pairTree.height → o = none) :=
  duplicate_all_or_nothing (t := pairTree) pairMemory_forest rfl

/-- **The search for a member, in memory.**  It leaves the memory as it is, and finds the first child
with the name, which stands for the member that the search in the value of the object finds. -/
theorem findObjectItem_value {u : Tree} {ms : List (CString × Node)} {key : ℕ} {name : CString}
    (h : Forest S m F) (hu : treeAt p F = some u) (hv : u.value = some (.object ms))
    (hs : textAt m key = some name) (caseSensitive : Bool) : ∃ o : Option Tree,
      Ends (fun n => findObjectItem n (some p) (some key) caseSensitive) m
        (o.map Tree.address, m) ∧
      o = u.kids.find? (Tree.named caseSensitive name) ∧
      o.bind Tree.value = getObjectItemWith (sameName caseSensitive) name (.object ms) := by
  obtain ⟨lab, ks, rest, hat, hrec, -⟩ := focus [] h (mem_of_treeAt hu)
  cases hu.symm.trans hat
  have hms : toMembers (contents ks) = some ms := by
    unfold Tree.value Tree.content at hv
    unfold Content.toNode at hv
    cases hk : lab.face.kind <;> rw [hk] at hv <;> simp_all
  have hfocus := Holds.perm h hrec (List.Perm.refl _)
  refine ⟨lookup caseSensitive name ks, ⟨ks.length, fun n hn => ?_⟩, ?_, ?_⟩
  · exact hfocus.findObjectItem_eq hs caseSensitive hn
  · exact lookup_eq_find? (string_of_toMembers hms) caseSensitive name
  · exact lookup_toNode caseSensitive name hms

theorem findObjectItem_value_pair : ∃ o : Option Tree,
    Ends (fun n => findObjectItem n (some 0) (some 3) true) pairMemory
      (o.map Tree.address, pairMemory) ∧
      o = pairTree.kids.find? (Tree.named true (CString.lit ['a'])) ∧
      o.bind Tree.value = getObjectItemWith (sameName true) (CString.lit ['a'])
        (.object [(CString.lit ['a'], .null)]) :=
  findObjectItem_value (u := pairTree) pairMemory_forest rfl rfl rfl true

end Forest

end CJSON.Heap
