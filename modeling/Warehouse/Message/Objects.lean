import Warehouse.CJson.HeapValues
import Warehouse.Message.Assignment
import Warehouse.Machine.SortedMap

/-!
# Message objects and their trees

`Message` as a class that owns memory: the objects that are alive, the trees their contents point
to, and the other trees the program holds.  The program constructs, copies, assigns and destroys
objects, and calls the tree library on all that it can reach, the contents of the objects included.

* `Object`               an object; `copy`, `assign` and `destroy` as the code has them;
* `Program`, `perform`   the program and its acts;
* `Owned`                each content is a tree of its own, and there is no other tree but those the
                         program holds;
* `perform_owned`        a legal act ends without a fault and keeps this;
* `program_safe`         so does every run; what is not owned at its end is not there;
* `assign_refines`       the assignment in memory is `Message.assign` on the values, unless an
                         allocation is refused.
-/

namespace Hub
open Text Numeric CJSON Machine Memory
open CJSON.Heap (Block Tree Forest Call Reply)

/-! ## the class -/

/-- an object of the class; `content` is a pointer -/
structure Object where
  clientID : ℤ
  type : ℤ
  subType : ℤ
  content : Option ℕ

namespace Object

/-- the copy constructor -/
def copy (n : ℕ) (other : Object) : Prog Block Object := do
  let content ← Heap.duplicate n other.content true
  return { other with content := content }

/-- `operator=` with another object, and what it throws -/
def assign (n : ℕ) (this other : Object) : Prog Block (Object × Option Exn) := do
  let this := { this with clientID := other.clientID }
  let this := { this with type := other.type }
  let this := { this with subType := other.subType }
  (if this.content.isSome then Heap.delete n this.content else pure ())
  let content ← Heap.duplicate n other.content true
  let this := { this with content := content }
  match content with
  | some _ => return (this, none)
  | none => return (this, some (.runtimeError "Failed to duplicate cJSON content"))

/-- the destructor -/
def destroy (n : ℕ) (this : Object) : Prog Block Unit :=
  if this.content.isSome then Heap.delete n this.content else pure ()

end Object

/-! ## the program -/

/-- the objects that are alive, by their addresses, and the trees the program holds beside them -/
structure Program where
  objects : SortedMap ℕ Object
  trees : List ℕ

inductive Act
  | construct (this : ℕ) (id type subType : ℤ) (msgContent : Option ℕ)
  | copy (this other : ℕ)
  | assign (this other : ℕ)
  | destroy (this : ℕ)
  | setClientID (this : ℕ) (id : ℤ)
  | setType (this : ℕ) (t : ℤ)
  | setSubType (this : ℕ) (st : ℤ)
  | call (c : Call)

/-- the root that a call takes from the program -/
def takes : Call → Option ℕ
  | .delete x => some x
  | .addItemToArray _ x => some x
  | .addItemToObject _ _ x _ => some x
  | .insertItemInArray _ _ x => some x
  | .replaceItemViaPointer _ _ x => some x
  | _ => none

/-- the trees the program holds after a call -/
def heldAfter (c : Call) (r : Reply) (trees : List ℕ) : List ℕ :=
  match r, takes c with
  | .pointer (some p), _ => p :: trees
  | .done, some x => trees.erase x
  | .flag true, some x => trees.erase x
  | _, _ => trees

namespace Program

/-- a field of an object is written -/
def set (P : Program) (this : ℕ) (f : Object → Object) : Program :=
  match P.objects.find? this with
  | none => P
  | some o => { P with objects := P.objects.insert this (f o) }

/-- one act, and what it throws; an act on an object that is not alive does nothing -/
def perform (n : ℕ) (P : Program) : Act → Prog Block (Program × Option Exn)
  | .construct this id type subType msgContent =>
    return (⟨P.objects.insert this ⟨id, type, subType, msgContent⟩,
      msgContent.elim P.trees P.trees.erase⟩, none)
  | .copy this other =>
    match P.objects.find? other with
    | none => return (P, none)
    | some o => do
      let o' ← o.copy n
      return ({ P with objects := P.objects.insert this o' }, none)
  | .assign this other =>
    match P.objects.find? this, P.objects.find? other with
    | some o, some o' => do
      if this ≠ other then
        let (o, thrown) ← o.assign n o'
        return ({ P with objects := P.objects.insert this o }, thrown)
      else return (P, none)
    | _, _ => return (P, none)
  | .destroy this =>
    match P.objects.find? this with
    | none => return (P, none)
    | some o => do
      o.destroy n
      return ({ P with objects := P.objects.erase this }, none)
  | .setClientID this id => return (P.set this fun o => { o with clientID := id }, none)
  | .setType this t => return (P.set this fun o => { o with type := t }, none)
  | .setSubType this st => return (P.set this fun o => { o with subType := st }, none)
  | .call c => do
    let r ← Heap.exec n c
    return ({ P with trees := heldAfter c r P.trees }, none)
/-- what the language and the class ask of a program -/
def Legal (S : ℕ → Option CString) (P : Program) (F : List Tree) : Act → Prop
  | .construct this _ _ _ msgContent =>
    P.objects.find? this = none ∧ ∀ p ∈ msgContent, p ∈ P.trees
  | .copy this other => P.objects.find? this = none ∧ (P.objects.find? other).isSome = true
  | .assign this other =>
    (P.objects.find? this).isSome = true ∧ (P.objects.find? other).isSome = true
  | .destroy this => (P.objects.find? this).isSome = true
  | .setClientID this _ => (P.objects.find? this).isSome = true
  | .setType this _ => (P.objects.find? this).isSome = true
  | .setSubType this _ => (P.objects.find? this).isSome = true
  | .call c => Heap.Legal S F c ∧ ∀ x ∈ takes c, x ∈ P.trees

/-- the contents of the objects -/
def contents (objects : SortedMap ℕ Object) : List ℕ :=
  objects.entries.filterMap fun e => e.2.content

/-- the memory holds the contents of the objects and the trees of the program, and no other tree -/
structure Owned (S : ℕ → Option CString) (P : Program) (m : Memory Block) (F : List Tree) :
    Prop where
  forest : Forest S m F
  roots : (F.map Tree.address).Perm (contents P.objects ++ P.trees)

variable {S : ℕ → Option CString} {P : Program} {m : Memory Block} {F F' : List Tree}
  {this other : ℕ} {o o' : Object}

/-! ## what is held -/

theorem contents_insert (objects : SortedMap ℕ Object) (this : ℕ) (o : Object) :
    (contents (objects.insert this o)).Perm
      (o.content.toList ++ contents (objects.erase this)) := by
  unfold contents
  refine ((SortedMap.entries_insert_perm objects this o).filterMap _).trans ?_
  cases hc : o.content <;> simp [hc]

theorem contents_of_find {objects : SortedMap ℕ Object} (h : objects.find? this = some o) :
    (contents objects).Perm (o.content.toList ++ contents (objects.erase this)) := by
  unfold contents
  refine ((SortedMap.entries_erase_perm h).filterMap _).trans ?_
  cases hc : o.content <;> simp [hc]

theorem contents_insert_new {objects : SortedMap ℕ Object} (h : objects.find? this = none)
    (o : Object) : (contents (objects.insert this o)).Perm (o.content.toList ++ contents objects) := by
  have hsame : objects.erase this = objects := SortedMap.erase_of_absent h
  have hperm := contents_insert objects this o
  rwa [hsame] at hperm

/-- a root that is taken from the trees of the program -/
theorem taken_perm {A trees : List ℕ} {x : ℕ} {roots : List ℕ}
    (h : (x :: roots).Perm (A ++ trees)) (hx : x ∈ trees) :
    roots.Perm (A ++ trees.erase x) := by
  refine List.Perm.cons_inv (h.trans ?_)
  exact ((List.perm_cons_erase hx).append_left A).trans List.perm_middle

/-- the trees that the program holds after a call -/
theorem roots_of_step {c : Call} {r : Reply} {A trees : List ℕ} (hs : Heap.Step S F c r F')
    (h : (F.map Tree.address).Perm (A ++ trees)) (ht : ∀ x ∈ takes c, x ∈ trees) :
    (F'.map Tree.address).Perm (A ++ heldAfter c r trees) := by
  have hnew : ∀ (t : Tree), ((t :: F).map Tree.address).Perm (A ++ t.address :: trees) := fun t =>
    (h.cons _).trans List.perm_middle.symm
  have hgone : ∀ {t : Tree} {G : List Tree}, F.Perm (t :: G) → t.address ∈ trees →
      (G.map Tree.address).Perm (A ++ trees.erase t.address) := fun hG hm =>
    taken_perm ((hG.map Tree.address).symm.trans h) hm
  cases hs with
  | created hc => exact hnew _
  | createdText hc hs => exact hnew _
  | notCreated hc => exact h
  | deleted hF => exact hgone hF (ht _ rfl)
  | added hF =>
    rw [Heap.mapKids_roots]
    exact hgone hF (ht _ rfl)
  | named hF hs =>
    rw [Heap.mapKids_roots]
    exact hgone hF (ht _ rfl)
  | notNamed => exact h
  | detached hu hk =>
    rw [List.map_cons, Heap.mapKids_roots]
    exact hnew _
  | notDetached hx => exact h
  | inserted hF =>
    rw [Heap.mapKids_roots]
    exact hgone hF (ht _ rfl)
  | notInserted hw => exact h
  | replaced hF =>
    rw [Heap.mapKids_roots]
    exact hgone hF (ht _ rfl)
  | copied hx hsame => exact hnew _
  | copiedItem hx hsame => exact hnew _
  | notCopied => exact h

/-! ## the operations of the class -/

theorem Owned.content_root (h : Owned S P m F) (hthis : P.objects.find? this = some o) :
    ∀ p ∈ o.content, p ∈ F.map Tree.address := by
  intro p hp
  refine h.roots.mem_iff.mpr (List.mem_append_left _ ((contents_of_find hthis).mem_iff.mpr ?_))
  exact List.mem_append_left _ (Option.mem_toList.mpr hp)

theorem copy_ends (h : Forest S m F) (ho : ∀ p ∈ o.content, p ∈ F.map Tree.address) :
    ∃ (new : Option Tree) (m' : Memory Block),
      Ends (fun n => o.copy n) m ({ o with content := new.map Tree.address }, m') ∧
      Forest S m' (new.toList ++ F) ∧
      (∀ t' ∈ new, ∃ t ∈ F, o.content = some t.address ∧ t'.content = t.content ∧
        t.height ≤ CJSON_CIRCULAR_LIMIT) ∧
      (new = none → ∀ t ∈ F, o.content = some t.address →
        ¬ (Supply m (Heap.owned t.records).length ∧ t.height ≤ CJSON_CIRCULAR_LIMIT)) := by
  obtain ⟨new, m', hrun, hm', hsome, hnone⟩ := h.duplicate_ends ho
  exact ⟨new, m', hrun.bind (Ends.of_eq fun n => rfl), hm', hsome, hnone⟩

/-- what `operator=` throws, when it is left with this content -/
def thrownBy : Option ℕ → Option Exn
  | some _ => none
  | none => some (.runtimeError "Failed to duplicate cJSON content")

/-- `operator=` destroys, and copies -/
theorem assign_eq (n : ℕ) (o o' : Object) : o.assign n o' = (do
    o.destroy n
    let content ← Heap.duplicate n o'.content true
    return ({ o' with content := content }, thrownBy content)) := by
  refine congrArg (fun f => o.destroy n >>= f) (funext fun _ => ?_)
  refine congrArg (fun f => Heap.duplicate n o'.content true >>= f) (funext fun content => ?_)
  cases content <;> rfl

theorem destroy_of_delete {m' : Memory Block}
    (h : Ends (fun n => Heap.delete n o.content) m ((), m')) :
    Ends (fun n => o.destroy n) m ((), m') := by
  unfold Object.destroy
  cases hc : o.content with
  | none =>
    rw [hc] at h
    have hsame : m' = m := by
      obtain ⟨N, hN⟩ := h
      have hzero := hN N le_rfl
      cases N <;> cases hzero <;> rfl
    rw [hsame]
    exact Ends.of_eq fun n => rfl
  | some p =>
    rw [hc] at h
    exact h

theorem assign_ends (h : Forest S m F)
    (hroots : ∃ rest, (F.map Tree.address).Perm (o.content.toList ++ (o'.content.toList ++ rest))) :
    ∃ (old new : Option Tree) (F' : List Tree) (m' : Memory Block),
      Ends (fun n => o.assign n o') m
        (({ o' with content := new.map Tree.address }, thrownBy (new.map Tree.address)), m') ∧
      o.content = old.map Tree.address ∧ F.Perm (old.toList ++ F') ∧
      Forest S m' (new.toList ++ F') ∧
      (∀ t' ∈ new, ∃ t ∈ F', o'.content = some t.address ∧ t'.content = t.content ∧
        t.height ≤ CJSON_CIRCULAR_LIMIT) ∧
      (new = none → ∀ t ∈ F', o'.content = some t.address →
        ¬ (Supply m (Heap.owned t.records).length ∧ t.height ≤ CJSON_CIRCULAR_LIMIT)) := by
  obtain ⟨rest, hroots⟩ := hroots
  have ho : ∀ p ∈ o.content, p ∈ F.map Tree.address := fun p hp =>
    hroots.mem_iff.mpr (List.mem_append_left _ (Option.mem_toList.mpr hp))
  obtain ⟨old, F', m₁, hdel, hold, hF, hm₁, hsupply⟩ := h.delete_ends ho
  -- the content of the other object is not the tree that was deleted
  have hleft : (F'.map Tree.address).Perm (o'.content.toList ++ rest) := by
    have hall := (hF.map Tree.address).symm.trans hroots
    rw [hold, List.map_append] at hall
    cases old with
    | none => exact hall
    | some t => exact hall.cons_inv
  have ho' : ∀ p ∈ o'.content, p ∈ F'.map Tree.address := fun p hp =>
    hleft.mem_iff.mpr (List.mem_append_left _ (Option.mem_toList.mpr hp))
  obtain ⟨new, m', hrun, hm', hsome, hnone⟩ := hm₁.duplicate_ends ho'
  refine ⟨old, new, F', m', ?_, hold, hF, hm', hsome, fun hn t ht hot hall =>
    hnone hn t ht hot ⟨hsupply _ hall.1, hall.2⟩⟩
  have hdestroy : Ends (fun n => o.destroy n) m ((), m₁) := destroy_of_delete hdel
  simp only [assign_eq]
  exact hdestroy.bind (hrun.bind (Ends.of_eq fun n => rfl))

/-! ## the acts of a program -/

/-- an object with another content of its own -/
theorem roots_insert (hthis : P.objects.find? this = some o) (o' : Object) {rest : List ℕ}
    {roots : List ℕ} (h : roots.Perm (o'.content.toList ++ rest))
    (hrest : (contents P.objects ++ P.trees).Perm (o.content.toList ++ rest)) :
    roots.Perm (contents (P.objects.insert this o') ++ P.trees) := by
  have hold := (contents_of_find hthis).append_right P.trees
  rw [List.append_assoc] at hold
  have hsame : rest.Perm (contents (P.objects.erase this) ++ P.trees) :=
    (List.perm_append_left_iff _).mp (hrest.symm.trans hold)
  have hnew := (contents_insert P.objects this o').append_right P.trees
  rw [List.append_assoc] at hnew
  exact (h.trans (hsame.append_left _)).trans hnew.symm

theorem set_owned (h : Owned S P m F) (hthis : P.objects.find? this = some o) {f : Object → Object}
    (hf : (f o).content = o.content) : Owned S (P.set this f) m F := by
  unfold set
  rw [hthis]
  refine ⟨h.forest, ?_⟩
  have hold := (contents_of_find hthis).append_right P.trees
  rw [List.append_assoc] at hold
  refine roots_insert hthis (f o) ?_ hold
  rw [hf]
  exact h.roots.trans hold

theorem contents_of_two (hthis : P.objects.find? this = some o)
    (hother : P.objects.find? other = some o') (hne : this ≠ other) :
    ∃ rest, (contents P.objects ++ P.trees).Perm
      (o.content.toList ++ (o'.content.toList ++ rest)) := by
  have hother' : (P.objects.erase this).find? other = some o' := by
    rw [SortedMap.find?_erase, if_neg fun h => hne h.symm, hother]
  refine ⟨contents ((P.objects.erase this).erase other) ++ P.trees, ?_⟩
  have hperm := ((contents_of_find hthis).trans
    ((contents_of_find hother').append_left _)).append_right P.trees
  rwa [List.append_assoc, List.append_assoc] at hperm

/-- the assignment of one object to another -/
theorem assign_owned (h : Owned S P m F) (hthis : P.objects.find? this = some o)
    (hother : P.objects.find? other = some o') (hne : this ≠ other) :
    ∃ (old new : Option Tree) (F' : List Tree) (m' : Memory Block),
      Ends (fun n => P.perform n (.assign this other)) m
        (({ P with objects := P.objects.insert this { o' with content := new.map Tree.address } },
          thrownBy (new.map Tree.address)), m') ∧
      Owned S { P with objects := P.objects.insert this { o' with content := new.map Tree.address } }
        m' (new.toList ++ F') ∧
      o.content = old.map Tree.address ∧ F.Perm (old.toList ++ F') ∧
      (∀ t' ∈ new, ∃ t ∈ F', o'.content = some t.address ∧ t'.content = t.content ∧
        t.height ≤ CJSON_CIRCULAR_LIMIT) ∧
      (new = none → ∀ t ∈ F', o'.content = some t.address →
        ¬ (Supply m (Heap.owned t.records).length ∧ t.height ≤ CJSON_CIRCULAR_LIMIT)) := by
  obtain ⟨rest, hrest⟩ := contents_of_two hthis hother hne
  obtain ⟨old, new, F', m', hrun, hold, hF, hm', hsome, hnone⟩ :=
    assign_ends h.forest ⟨rest, h.roots.trans hrest⟩
  refine ⟨old, new, F', m', ?_, ⟨hm', ?_⟩, hold, hF, hsome, hnone⟩
  · simp only [perform, hthis, hother, if_pos hne]
    exact hrun.bind (Ends.of_eq fun n => rfl)
  · have hroots := (hF.map Tree.address).symm.trans (h.roots.trans hrest)
    rw [hold] at hroots hrest
    have hleft : (F'.map Tree.address).Perm (o'.content.toList ++ rest) := by
      rw [List.map_append] at hroots
      cases old with
      | none => exact hroots
      | some t => exact hroots.cons_inv
    refine roots_insert hthis { o' with content := new.map Tree.address } ?_ (by rw [hold]; exact hrest)
    rw [List.map_append]
    cases new with
    | none => exact hleft
    | some t => exact hleft.cons _

theorem destroy_owned (h : Owned S P m F) (hthis : P.objects.find? this = some o) :
    ∃ (F' : List Tree) (m' : Memory Block), Ends (fun n => P.perform n (.destroy this)) m
      (({ P with objects := P.objects.erase this }, none), m') ∧
      Owned S { P with objects := P.objects.erase this } m' F' := by
  obtain ⟨old, F', m', hrun, hold, hF, hm', -⟩ := h.forest.delete_ends (h.content_root hthis)
  have hdestroy : Ends (fun n => o.destroy n) m ((), m') := destroy_of_delete hrun
  refine ⟨F', m', ?_, hm', ?_⟩
  · simp only [perform, hthis]
    exact hdestroy.bind (Ends.of_eq fun n => rfl)
  · have hall := (contents_of_find hthis).append_right P.trees
    rw [List.append_assoc] at hall
    have hroots := (hF.map Tree.address).symm.trans (h.roots.trans hall)
    rw [hold, List.map_append] at hroots
    cases old with
    | none => exact hroots
    | some t => exact hroots.cons_inv

/-- **An act of a program.**  It ends without a fault, and then each content is a tree of its own,
again. -/
theorem perform_owned (h : Owned S P m F) (a : Act) (ha : Legal S P F a) :
    ∃ (P' : Program) (thrown : Option Exn) (m' : Memory Block) (F' : List Tree),
      Ends (fun n => P.perform n a) m ((P', thrown), m') ∧ Owned S P' m' F' := by
  cases a with
  | construct this id type subType msgContent =>
    refine ⟨_, _, m, F, Ends.of_eq fun n => rfl, h.forest, ?_⟩
    have hnew := contents_insert_new ha.1 ⟨id, type, subType, msgContent⟩
    cases msgContent with
    | none => exact h.roots.trans (hnew.append_right _).symm
    | some p =>
      refine h.roots.trans (List.Perm.trans ?_ (hnew.append_right _).symm)
      exact ((List.perm_cons_erase (ha.2 p rfl)).append_left _).trans List.perm_middle
  | copy this other =>
    obtain ⟨o, ho⟩ := Option.isSome_iff_exists.mp ha.2
    obtain ⟨new, m', hrun, hm', -⟩ := copy_ends h.forest (h.content_root ho)
    refine ⟨{ P with objects := P.objects.insert this { o with content := new.map Tree.address } },
      none, m', new.toList ++ F, ?_, hm', ?_⟩
    · simp only [perform, ho]
      exact hrun.bind (Ends.of_eq fun n => rfl)
    · have hnew := contents_insert_new ha.1 { o with content := new.map Tree.address }
      refine List.Perm.trans ?_ (hnew.append_right _).symm
      rw [List.map_append]
      cases new with
      | none => exact h.roots
      | some t => exact h.roots.cons _
  | assign this other =>
    obtain ⟨o, ho⟩ := Option.isSome_iff_exists.mp ha.1
    obtain ⟨o', ho'⟩ := Option.isSome_iff_exists.mp ha.2
    by_cases hne : this ≠ other
    · obtain ⟨old, new, F', m', hrun, howned, -⟩ := assign_owned h ho ho' hne
      exact ⟨_, _, m', _, hrun, howned⟩
    · refine ⟨P, none, m, F, Ends.of_eq fun n => ?_, h⟩
      simp only [perform, ho, ho', if_neg hne]
      rfl
  | destroy this =>
    obtain ⟨o, ho⟩ := Option.isSome_iff_exists.mp ha
    obtain ⟨F', m', hrun, howned⟩ := destroy_owned h ho
    exact ⟨_, _, m', F', hrun, howned⟩
  | setClientID this id =>
    obtain ⟨o, ho⟩ := Option.isSome_iff_exists.mp ha
    exact ⟨_, _, m, F, Ends.of_eq fun n => rfl, set_owned h ho rfl⟩
  | setType this t =>
    obtain ⟨o, ho⟩ := Option.isSome_iff_exists.mp ha
    exact ⟨_, _, m, F, Ends.of_eq fun n => rfl, set_owned h ho rfl⟩
  | setSubType this st =>
    obtain ⟨o, ho⟩ := Option.isSome_iff_exists.mp ha
    exact ⟨_, _, m, F, Ends.of_eq fun n => rfl, set_owned h ho rfl⟩
  | call c =>
    obtain ⟨r, m', F', hrun, hstep, hm'⟩ := h.forest.exec_step c ha.1
    exact ⟨{ P with trees := heldAfter c r P.trees }, none, m', F',
      hrun.bind (Ends.of_eq fun n => rfl), hm', roots_of_step hstep h.roots ha.2⟩

/-! ## the objects as messages -/

/-- the object is the message, with a tree that is its content -/
structure Shows (F : List Tree) (o : Object) (msg : Message) : Prop where
  clientID : msg.clientID = o.clientID
  type : msg.type = o.type
  subType : msg.subType = o.subType
  null : o.content = none → msg.content = none
  tree : ∀ p ∈ o.content, ∃ t ∈ F, t.address = p ∧ ∃ j, t.Is j ∧ msg.content = some j

/-- the objects of a program are these messages -/
def View (P : Program) (F : List Tree) (v : ℕ → Message) : Prop :=
  ∀ a o, P.objects.find? a = some o → Shows F o (v a)

/-- What an act may leave alone: which objects there are, and the trees that the program holds. -/
structure Keeps (P P' : Program) (F F' : List Tree) : Prop where
  objects : ∀ a, P'.objects.contains a = P.objects.contains a
  trees : P'.trees = P.trees
  held : ∀ t ∈ F, t.address ∈ P.trees → t ∈ F'

theorem Shows.mono {msg : Message} (h : Shows F o msg)
    (hF : ∀ t ∈ F, o.content = some t.address → t ∈ F') : Shows F' o msg := by
  refine ⟨h.clientID, h.type, h.subType, h.null, fun p hp => ?_⟩
  obtain ⟨t, ht, rfl, j, hj, hmsg⟩ := h.tree p hp
  exact ⟨t, hF t ht hp, rfl, j, hj, hmsg⟩

/-- an object with a tree, and one without -/
def pairProgram : Program :=
  ⟨(SortedMap.empty.insert 0 ⟨7, INVENTORY, 0, some 0⟩).insert 1 ⟨8, ALERT, 1, none⟩, []⟩

/-- the messages that they are -/
def pairView (a : ℕ) : Message :=
  if a = 0 then ⟨7, INVENTORY, 0, some (.object [(CString.lit ['a'], .null)])⟩
  else ⟨8, ALERT, 1, none⟩

theorem pairProgram_owned : Owned Heap.callerName pairProgram Heap.pairMemory [Heap.pairTree] :=
  ⟨Heap.pairMemory_forest, List.Perm.refl [0]⟩

theorem pairProgram_view : View pairProgram [Heap.pairTree] pairView := by
  intro a o ha
  have hfind : pairProgram.objects.find? a = if a = 1 then some ⟨8, ALERT, 1, none⟩
      else if a = 0 then some ⟨7, INVENTORY, 0, some 0⟩ else none := by
    unfold pairProgram
    rw [SortedMap.find?_insert, SortedMap.find?_insert]
    rfl
  rw [hfind] at ha
  split_ifs at ha with h1 h0
  · subst h1
    cases ha
    exact ⟨rfl, rfl, rfl, fun _ => rfl, by simp⟩
  · subst h0
    cases ha
    refine ⟨rfl, rfl, rfl, by simp, fun p hp => ?_⟩
    exact ⟨Heap.pairTree, List.mem_cons_self .., Option.some.inj hp, _,
      ⟨rfl, Or.inr (Or.inl rfl), ⟨Or.inr (Or.inr rfl), trivial⟩, trivial⟩, rfl⟩

/-- a copy of an object is the copy of the message, unless an allocation was refused -/
theorem Shows.copy {msg : Message} {new : Option Tree} (h : Shows F o msg)
    (hd : (F.map Tree.address).Nodup)
    (hsome : ∀ t' ∈ new, ∃ t ∈ F, o.content = some t.address ∧ t'.content = t.content ∧
      t.height ≤ CJSON_CIRCULAR_LIMIT)
    (hnone : new = none → ∀ t ∈ F, o.content = some t.address →
      ¬ (Supply m (Heap.owned t.records).length ∧ t.height ≤ CJSON_CIRCULAR_LIMIT)) :
    Shows (new.toList ++ F) { o with content := new.map Tree.address } msg.copy ∧
        (new = none ↔ msg.copy.content = none) ∨
      new = none ∧ ∃ t ∈ F, o.content = some t.address ∧
        ¬ Supply m (Heap.owned t.records).length := by
  have hcopy : msg.copy.content = msg.content.bind Node.duplicate := rfl
  cases new with
  | some t' =>
    obtain ⟨t, ht, hot, hsame, hheight⟩ := hsome t' rfl
    obtain ⟨u, hu, hut, j, hj, hmsg⟩ := h.tree t.address hot
    have hut' : u = t := List.inj_on_of_nodup_map hd hu ht hut
    subst hut'
    rw [hj.height] at hheight
    have hdup : msg.copy.content = some j := by
      rw [hcopy, hmsg, Option.bind_some, Node.duplicate_eq hheight]
    refine Or.inl ⟨⟨h.clientID, h.type, h.subType, by simp, fun p hp => ?_⟩, by simp [hdup]⟩
    exact ⟨t', List.mem_cons_self .., Option.some.inj hp, j, hj.copy hsame, hdup⟩
  | none =>
    cases hc : o.content with
    | none =>
      have hdup : msg.copy.content = none := by rw [hcopy, h.null hc, Option.bind_none]
      exact Or.inl ⟨⟨h.clientID, h.type, h.subType, fun _ => hdup, by simp⟩, by simp [hdup]⟩
    | some p =>
      obtain ⟨t, ht, rfl, j, hj, hmsg⟩ := h.tree p hc
      by_cases hs : Supply m (Heap.owned t.records).length
      · have htall : CJSON_CIRCULAR_LIMIT < j.height := by
          rw [← hj.height]
          exact not_le.mp fun hle => hnone rfl t ht hc ⟨hs, hle⟩
        have hdup : msg.copy.content = none := by
          rw [hcopy, hmsg, Option.bind_some, Node.duplicate_of_tall htall]
        exact Or.inl ⟨⟨h.clientID, h.type, h.subType, fun _ => hdup, by simp⟩, by simp [hdup]⟩
      · exact Or.inr ⟨rfl, t, ht, rfl, hs⟩

/-- the other objects keep their contents -/
theorem View.others {v : ℕ → Message} {old : Option Tree} (h : Owned S P m F) (hv : View P F v)
    (hthis : P.objects.find? this = some o) (hold : o.content = old.map Tree.address)
    (hF : F.Perm (old.toList ++ F')) {a : ℕ} {oa : Object} (ha : P.objects.find? a = some oa)
    (hne : a ≠ this) : Shows F' oa (v a) := by
  refine (hv a oa ha).mono fun t ht hot => ?_
  rcases List.mem_append.mp (hF.mem_iff.mp ht) with hmem | hmem
  · obtain ⟨rest, hrest⟩ := contents_of_two hthis ha fun e => hne e.symm
    have hd := ((h.roots.trans hrest).nodup_iff.mp h.forest.address_nodup)
    rw [hold, Option.mem_toList.mp hmem, hot] at hd
    simp at hd
  · exact hmem

/-- an object is written, and its old content goes -/
theorem keeps_insert {old : Option Tree} (h : Owned S P m F)
    (hthis : P.objects.find? this = some o) (hold : o.content = old.map Tree.address)
    (hF : F.Perm (old.toList ++ F')) (o₁ : Object) (new : List Tree) :
    Keeps P { P with objects := P.objects.insert this o₁ } F (new ++ F') where
  objects := fun a => by
    unfold SortedMap.contains
    dsimp only
    rw [SortedMap.find?_insert]
    split_ifs with ha
    · rw [ha, hthis, Option.isSome_some, Option.isSome_some]
    · rfl
  trees := rfl
  held := fun t ht hheld => by
    rcases List.mem_append.mp (hF.mem_iff.mp ht) with hmem | hmem
    · -- a tree of the program is no content
      have hcontent : o.content = some t.address := by rw [hold, Option.mem_toList.mp hmem]; rfl
      have hin : t.address ∈ contents P.objects := by
        rw [(contents_of_find hthis).mem_iff, hcontent]
        exact List.mem_append_left _ (List.mem_singleton_self _)
      have hd := h.roots.nodup_iff.mp h.forest.address_nodup
      exact absurd hheld fun hmem' => (List.nodup_append.mp hd).2.2 _ hin _ hmem' rfl
    · exact List.mem_append_right _ hmem

/-- **The assignment in memory.**  It is the assignment of the messages, with the same exception;
where an allocation is refused, the header is written, the old content is gone and it throws.  The
objects are the same ones, and the trees that the program holds stay. -/
theorem assign_refines {v : ℕ → Message} (h : Owned S P m F) (hv : View P F v)
    (hthis : (P.objects.find? this).isSome = true) (hother : P.objects.find? other = some o') :
    ∃ (P' : Program) (thrown : Option Exn) (m' : Memory Block) (F' : List Tree),
      Ends (fun n => P.perform n (.assign this other)) m ((P', thrown), m') ∧ Owned S P' m' F' ∧
      Keeps P P' F F' ∧
      (View P' F' (Message.assign v this other).1 ∧ thrown = (Message.assign v this other).2 ∨
        (∃ t ∈ F, o'.content = some t.address ∧ ¬ Supply m (Heap.owned t.records).length) ∧
          View P' F' (Function.update v this { v other with content := none }) ∧
          thrown = some (.runtimeError "Failed to duplicate cJSON content")) := by
  obtain ⟨o, ho⟩ := Option.isSome_iff_exists.mp hthis
  by_cases hne : this = other
  · subst hne
    refine ⟨P, none, m, F, Ends.of_eq fun n => ?_, h, ⟨fun _ => rfl, rfl, fun _ ht _ => ht⟩,
      Or.inl ?_⟩
    · simp only [perform, ho, ne_eq, not_true_eq_false, if_false]
      rfl
    · rw [Message.assign_self]
      exact ⟨hv, rfl⟩
  obtain ⟨old, new, F', m', hrun, howned, hold, hF, hsome, hnone⟩ := assign_owned h ho hother hne
  refine ⟨_, _, m', _, hrun, howned, keeps_insert h ho hold hF _ _, ?_⟩
  have hother' : Shows F' o' (v other) := View.others h hv ho hold hF hother fun e => hne e.symm
  have hd : (F'.map Tree.address).Nodup := by
    have hall := howned.forest.address_nodup
    rw [List.map_append] at hall
    exact (List.nodup_append.mp hall).2.1
  -- an object of the program after it: the one that was written, or another one
  have hview : ∀ msg, Shows (new.toList ++ F') { o' with content := new.map Tree.address } msg →
      View { P with objects := P.objects.insert this { o' with content := new.map Tree.address } }
        (new.toList ++ F') (Function.update v this msg) := by
    intro msg hmsg a oa ha
    dsimp only at ha
    rw [SortedMap.find?_insert] at ha
    by_cases hat : a = this
    · rw [if_pos hat] at ha
      rw [hat, Function.update_self, ← Option.some.inj ha]
      exact hmsg
    · rw [if_neg hat] at ha
      rw [Function.update_of_ne hat]
      exact (View.others h hv ho hold hF ha hat).mono fun t ht _ => List.mem_append_right _ ht
  rcases hother'.copy hd hsome hnone with ⟨hmsg, hnull⟩ | ⟨rfl, t, ht, hot, hs⟩
  · refine Or.inl ?_
    rw [Message.assign_of_ne hne]
    refine ⟨hview _ hmsg, ?_⟩
    cases new with
    | none =>
      rw [hnull.mp rfl]
      rfl
    | some t' =>
      cases hc : (v other).copy.content with
      | none => cases hnull.mpr hc
      | some j => rfl
  · refine Or.inr ⟨⟨t, hF.mem_iff.mpr (List.mem_append_right _ ht), hot, hs⟩, ?_, rfl⟩
    refine hview _ ⟨hother'.clientID, hother'.type, hother'.subType, fun _ => rfl, by simp⟩

theorem assign_refines_pair : ∃ (P' : Program) (thrown : Option Exn) (m' : Memory Block)
    (F' : List Tree), Ends (fun n => pairProgram.perform n (.assign 1 0)) Heap.pairMemory
      ((P', thrown), m') ∧ Owned Heap.callerName P' m' F' ∧
      Keeps pairProgram P' [Heap.pairTree] F' ∧
      (View P' F' (Message.assign pairView 1 0).1 ∧ thrown = (Message.assign pairView 1 0).2 ∨
        (∃ t ∈ [Heap.pairTree], some 0 = some t.address ∧
          ¬ Supply Heap.pairMemory (Heap.owned t.records).length) ∧
          View P' F' (Function.update pairView 1 { pairView 0 with content := none }) ∧
          thrown = some (.runtimeError "Failed to duplicate cJSON content")) :=
  have hother : pairProgram.objects.find? 0 = some ⟨7, INVENTORY, 0, some 0⟩ := rfl
  assign_refines pairProgram_owned pairProgram_view rfl hother

/-! ## runs -/

/-- acts one after the other, each legal when it is made; in between, each content is a tree of its
own -/
inductive Runs (S : ℕ → Option CString) : Program → Memory Block → List Tree → List Act →
    Program → Memory Block → List Tree → Prop
  | nil (P : Program) (m : Memory Block) (F : List Tree) : Runs S P m F [] P m F
  | cons {P P' P'' : Program} {m m' m'' : Memory Block} {F F' F'' : List Tree} {a : Act}
      {thrown : Option Exn} {as : List Act} (hl : Legal S P F a)
      (he : Ends (fun n => P.perform n a) m ((P', thrown), m')) (ho : Owned S P' m' F')
      (h : Runs S P' m' F' as P'' m'' F'') : Runs S P m F (a :: as) P'' m'' F''

/-- **Programs are safe.**  Acts on objects and trees run without a fault up to the end, or up to an
act that is not legal where it is made.  Each content is a tree of its own all the way, and with
the last object and the last tree of the program everything is gone. -/
theorem program_safe (as : List Act) : ∀ (P : Program) (m : Memory Block) (F : List Tree),
    Owned S P m F → ∃ made rest P' m' F', as = made ++ rest ∧ Runs S P m F made P' m' F' ∧
      Owned S P' m' F' ∧ (∀ a ∈ rest.head?, ¬ Legal S P' F' a) ∧
      (contents P'.objects ++ P'.trees = [] → ∀ a, m'.block a ≠ none ↔ (S a).isSome = true) := by
  have hgone : ∀ {P : Program} {m : Memory Block} {F : List Tree}, Owned S P m F →
      contents P.objects ++ P.trees = [] → ∀ a, m.block a ≠ none ↔ (S a).isSome = true := by
    intro P m F h hnil a
    have hF : F = [] := by
      have hroots := h.roots
      rw [hnil] at hroots
      exact List.map_eq_nil_iff.mp hroots.eq_nil
    have hlive := h.forest.live a
    rw [hF] at hlive
    exact hlive.trans (or_iff_right List.not_mem_nil)
  induction as with
  | nil =>
    intro P m F h
    exact ⟨[], [], P, m, F, rfl, .nil P m F, h, by simp, hgone h⟩
  | cons a as ih =>
    intro P m F h
    by_cases ha : Legal S P F a
    · obtain ⟨P₁, thrown, m₁, F₁, hrun, h₁⟩ := perform_owned h a ha
      obtain ⟨made, rest, P', m', F', rfl, hruns, h', hstop, hend⟩ := ih P₁ m₁ F₁ h₁
      exact ⟨a :: made, rest, P', m', F', rfl, .cons ha hrun h₁ hruns, h', hstop, hend⟩
    · refine ⟨[], a :: as, P, m, F, rfl, .nil P m F, h, fun a' ha' => ?_, hgone h⟩
      rw [← Option.some.inj ha']
      exact ha

theorem program_safe_pair : ∃ made rest P' m' F',
    [Act.copy 2 0, .destroy 0, .assign 2 1, .destroy 2, .destroy 1] = made ++ rest ∧
      Runs Heap.callerName pairProgram Heap.pairMemory [Heap.pairTree] made P' m' F' ∧
      Owned Heap.callerName P' m' F' ∧
      (∀ a ∈ rest.head?, ¬ Legal Heap.callerName P' F' a) ∧
      (contents P'.objects ++ P'.trees = [] →
        ∀ a, m'.block a ≠ none ↔ (Heap.callerName a).isSome = true) :=
  program_safe _ _ _ _ pairProgram_owned

end Program

end Hub
