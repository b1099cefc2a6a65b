import Warehouse.CJson.HeapTexts
import Warehouse.Message.Objects
import Warehouse.Message.RoundTrip

/-!
# Messages received into memory

`fromJSONString` with the trees it makes: the text is parsed, four members are looked up, the content
is copied and the parsed tree is deleted.

* `Object.fromJSONString`   the code;
* `Literals`                the names of the members, as strings of the program;
* `malformed_ends`          the checks on the members that were found;
* `fromJSONString_refines`  the message that the decoder on values gives, with its content as a tree of
                            its own, or the same exception; nothing else is left in memory.  Where an
                            allocation is refused the text counts as invalid, or the content is lost.
-/

namespace Hub
open Text Numeric CJSON Machine Memory
open CJSON.Heap (Block Tree Forest Kind fields findObjectItem kindOf)

/-! ## the code -/

/-- the addresses of the literals -/
structure Literals where
  clientID : ℕ
  type : ℕ
  subType : ℕ
  content : ℕ

/-- the literals are among the strings of the program -/
structure Literals.In (l : Literals) (S : ℕ → Option CString) : Prop where
  clientID : S l.clientID = some clientIDKey
  type : S l.type = some typeKey
  subType : S l.subType = some subTypeKey
  content : S l.content = some contentKey

/-- `cJSON_IsNumber` and its kin -/
def isKind (kind : Kind) : Option ℕ → Prog Block Bool
  | none => pure false
  | some item => do return decide ((← fields item).kind = kind)

def isNumber : Option ℕ → Prog Block Bool := isKind .number

def isObject : Option ℕ → Prog Block Bool := isKind .object

/-- the checks of `fromJSONString` -/
def malformed (idNode typeNode subTypeNode contentNode : Option ℕ) : Prog Block Bool := do
  if !(← isNumber idNode) then return true
  else if !(← isNumber typeNode) then return true
  else if !(← isNumber subTypeNode) then return true
  else return !(← isObject contentNode)

def Object.fromJSONString (l : Literals) (n : ℕ) (jsonString : Bytes) :
    Prog Block (Except Exn Object) := do
  match ← Heap.parse n (CString.ofBuffer jsonString) with
  | none => return .error (.runtimeError "Invalid JSON string")
  | some root => do
    let idNode ← findObjectItem n (some root) (some l.clientID) true
    let typeNode ← findObjectItem n (some root) (some l.type) true
    let subTypeNode ← findObjectItem n (some root) (some l.subType) true
    let contentNode ← findObjectItem n (some root) (some l.content) true
    if ← malformed idNode typeNode subTypeNode contentNode then do
      Heap.delete n (some root)
      return .error (.runtimeError "Malformed JSON message")
    else do
      let id := (← fields (← deref idNode)).valueint
      let type := (← fields (← deref typeNode)).valueint
      let subType := (← fields (← deref subTypeNode)).valueint
      let contentCopy ← Heap.duplicate n contentNode true
      Heap.delete n (some root)
      return .ok ⟨id, type, subType, contentCopy⟩

namespace Object

variable {S : ℕ → Option CString} {m : Memory Block} {F : List Tree} {l : Literals}

/-! ## the checks -/

/-- what is known of an item that was found -/
def Found (m : Memory Block) (o : Option Tree) : Prop :=
  ∀ u ∈ o, Heap.fieldsAt m u.address = some u.label.fields ∧ ∃ j, u.Parsed j

/-- the value of an item that was found is of a kind -/
def hasKind (kind : Kind) (o : Option Tree) : Bool :=
  (o.bind Tree.value).any fun j => decide (kindOf j = kind)

theorem isKind_eq {o : Option Tree} (h : Found m o) (kind : Kind) :
    isKind kind (o.map Tree.address) m = .ok (hasKind kind o, m) := by
  cases o with
  | none => rfl
  | some u =>
    obtain ⟨hfields, j, hj⟩ := h u rfl
    have hkind : u.label.kind = kindOf j := by
      cases u with
      | node a lab ks => exact Heap.kind_of_value hj.1.1
    have hvalue : hasKind kind (some u) = decide (kindOf j = kind) := by
      unfold hasKind
      rw [Option.bind_some, hj.1.1]
      rfl
    rw [hvalue, ← hkind]
    exact bind_of_ok (Heap.fields_eq hfields) _

theorem malformed_eq {o₁ o₂ o₃ o₄ : Option Tree} (h₁ : Found m o₁) (h₂ : Found m o₂)
    (h₃ : Found m o₃) (h₄ : Found m o₄) : malformed (o₁.map Tree.address) (o₂.map Tree.address)
      (o₃.map Tree.address) (o₄.map Tree.address) m =
      .ok (!(hasKind .number o₁ && hasKind .number o₂ && hasKind .number o₃ &&
        hasKind .object o₄), m) := by
  unfold malformed
  refine (bind_of_ok (isKind_eq h₁ .number) _).trans ?_
  cases hasKind .number o₁ with
  | false => rfl
  | true =>
    refine (bind_of_ok (isKind_eq h₂ .number) _).trans ?_
    cases hasKind .number o₂ with
    | false => rfl
    | true =>
      refine (bind_of_ok (isKind_eq h₃ .number) _).trans ?_
      cases hasKind .number o₃ with
      | false => rfl
      | true => exact bind_of_ok (isKind_eq h₄ .object) _

theorem hasKind_number {o : Option Tree} (hm : Found m o) (h : hasKind .number o = true) :
    ∃ u v, o = some u ∧ u.Parsed (.number v) := by
  cases o with
  | none => cases h
  | some u =>
    obtain ⟨-, j, hj⟩ := hm u rfl
    have hvalue : hasKind .number (some u) = decide (kindOf j = .number) := by
      unfold hasKind
      rw [Option.bind_some, hj.1.1]
      rfl
    rw [hvalue] at h
    obtain ⟨v, rfl⟩ := Heap.number_of_kind (of_decide_eq_true h)
    exact ⟨u, v, rfl, hj⟩

theorem hasKind_object {o : Option Tree} (hm : Found m o) (h : hasKind .object o = true) :
    ∃ u ms, o = some u ∧ u.Parsed (.object ms) := by
  cases o with
  | none => cases h
  | some u =>
    obtain ⟨-, j, hj⟩ := hm u rfl
    have hvalue : hasKind .object (some u) = decide (kindOf j = .object) := by
      unfold hasKind
      rw [Option.bind_some, hj.1.1]
      rfl
    rw [hvalue] at h
    obtain ⟨ms, rfl⟩ := Heap.object_of_kind (of_decide_eq_true h)
    exact ⟨u, ms, rfl, hj⟩

/-! ## the message -/

/-- the object that was made is the message, with the new tree as its content; or both throw -/
def Agrees (new : Option Tree) : Except Exn Object → Except Exn Message → Prop
  | .ok o, .ok msg => o.content = new.map Tree.address ∧ Program.Shows new.toList o msg
  | .error e, .error e' => new = none ∧ e = e'
  | _, _ => False

/-- what comes of a text whose allocations are not all granted -/
def Starved (m : Memory Block) (s : Bytes) (r : Except Exn Object) : Prop :=
  ∃ j, parse (CString.ofBuffer s) = some j ∧
    (¬ Supply m (1 + j.blocks) ∧ r = .error (.runtimeError "Invalid JSON string") ∨
      ∃ msg c, Message.fromJSONString s = .ok msg ∧ msg.content = some c ∧
        ¬ Supply m (1 + j.blocks + (2 + c.blocks)) ∧
        r = .ok ⟨msg.clientID, msg.type, msg.subType, none⟩)

section
variable {s : Bytes} {j : Node} {t : Tree} {o₁ o₂ o₃ o₄ : Option Tree}

/-- the message of the members that were found -/
def decoded : Option Node → Option Node → Option Node → Option Node → Except Exn Message
  | some (.number id), some (.number type), some (.number subType), some (.object ms) =>
    .ok ⟨valueint id, valueint type, valueint subType, (Node.object ms).duplicate⟩
  | _, _, _, _ => .error (.runtimeError "Malformed JSON message")

/-- the decoder on values, with the members that were found -/
theorem fromJSONString_of_found (hp : parse (CString.ofBuffer s) = some j)
    (h₁ : o₁.bind Tree.value = getObjectItemCaseSensitive j clientIDKey)
    (h₂ : o₂.bind Tree.value = getObjectItemCaseSensitive j typeKey)
    (h₃ : o₃.bind Tree.value = getObjectItemCaseSensitive j subTypeKey)
    (h₄ : o₄.bind Tree.value = getObjectItemCaseSensitive j contentKey) :
    Message.fromJSONString s = decoded (o₁.bind Tree.value) (o₂.bind Tree.value)
      (o₃.bind Tree.value) (o₄.bind Tree.value) := by
  rw [h₁, h₂, h₃, h₄]
  unfold Message.fromJSONString
  rw [hp]
  rfl

theorem decoded_of_kinds (h : (hasKind .number o₁ && hasKind .number o₂ && hasKind .number o₃ &&
    hasKind .object o₄) = false) : decoded (o₁.bind Tree.value) (o₂.bind Tree.value)
      (o₃.bind Tree.value) (o₄.bind Tree.value) =
    .error (.runtimeError "Malformed JSON message") := by
  unfold decoded
  split
  · next h₁ h₂ h₃ h₄ =>
    unfold hasKind at h
    rw [h₁, h₂, h₃, h₄] at h
    cases h
  · rfl

/-- a member of the parsed tree -/
theorem found_ends {key : ℕ} {name : CString} (h : Forest S m (t :: F)) (hj : t.Parsed j)
    (hs : S key = some name) : ∃ o : Option Tree,
      Ends (fun n => findObjectItem n (some t.address) (some key) true) m (o.map Tree.address, m) ∧
      Found m o ∧ (∀ u ∈ o, u ∈ t.kids ∧ u.label.string.isSome = true) ∧
      o.bind Tree.value = getObjectItemCaseSensitive j name := by
  have htext : Heap.textAt m key = some name := by
    rw [(h.caller key (by rw [hs]; rfl)).1, hs]
  obtain ⟨o, hrun, ho, hvalue⟩ := h.member_ends (List.mem_cons_self ..) hj htext
  refine ⟨o, hrun, fun u hu => ?_, fun u hu => ⟨(ho u hu).1, (ho u hu).2.1⟩, hvalue⟩
  obtain ⟨hkid, -, hparsed⟩ := ho u hu
  obtain ⟨ks, hks⟩ := Heap.record_mem hkid
  have hmem : (⟨u.address, u.label, ks⟩ : Heap.Record) ∈ t.records := by
    cases t with
    | node a lab us => exact List.mem_cons_of_mem _ hks
  exact ⟨(h.stored _ (List.mem_append_left _ hmem)).fields, hparsed⟩

end

/-- the content is copied, and the copy is a root behind the parsed tree -/
theorem copy_ends {t u : Tree} {ms : List (CString × Node)} (h : Forest S m (t :: F))
    (hu : u.Parsed (.object ms)) (hk : u ∈ t.kids ∧ u.label.string.isSome = true) :
    ∃ (new : Option Tree) (m' : Memory Block),
      Ends (fun n => Heap.duplicate n (some u.address) true) m (new.map Tree.address, m') ∧
      Forest S m' (t :: (new.toList ++ F)) ∧
      ((∀ u' ∈ new, u'.Is (.object ms) ∧ (Node.object ms).duplicate = some (.object ms)) ∧
          (new = none → (Node.object ms).duplicate = none) ∨
        new = none ∧ ¬ Supply m (2 + (Node.object ms).blocks)) := by
  have hsub : ∀ r ∈ u.records, r ∈ Heap.records (t :: F) := by
    intro r hr
    refine List.mem_append_left _ ?_
    cases t with
    | node a lab us => exact List.mem_cons_of_mem _ (Heap.records_of_mem hk.1 r hr)
  obtain ⟨o, m', hrun, hres⟩ := Heap.Holds.duplicate h hsub
  rcases hres with ⟨rfl, hm', hno⟩ | ⟨u', rfl, hsame, hm', hheight⟩
  · refine ⟨none, m', ⟨_, hrun⟩, hm', ?_⟩
    rw [hu.length_owned hk.2, hu.1.height] at hno
    by_cases hs : Supply m (2 + (Node.object ms).blocks)
    · exact Or.inl ⟨by simp, fun _ => Node.duplicate_of_tall (not_le.mp fun hle => hno ⟨hs, hle⟩)⟩
    · exact Or.inr ⟨rfl, hs⟩
  · have hroot : Forest S m' (u' :: t :: F) := hm'
    rw [hu.1.height] at hheight
    refine ⟨some u', m', ⟨_, hrun⟩, hroot.perm (List.Perm.swap ..), Or.inl ⟨fun v hv => ?_, by simp⟩⟩
    rw [← Option.some.inj hv]
    exact ⟨hu.1.copy hsame, Node.duplicate_eq hheight⟩

/-- **The decoder in memory.** -/
theorem fromJSONString_refines (h : Forest S m F) (hl : l.In S) (s : Bytes) :
    ∃ (r : Except Exn Object) (new : Option Tree) (m' : Memory Block),
      Ends (fun n => Object.fromJSONString l n s) m (r, m') ∧ Forest S m' (new.toList ++ F) ∧
      (Agrees new r (Message.fromJSONString s) ∨ new = none ∧ Starved m s r) := by
  obtain ⟨o, m₁, hparse, hF, hsome, hnone⟩ := h.parse_ends (CString.ofBuffer s)
  cases o with
  | none =>
    refine ⟨.error (.runtimeError "Invalid JSON string"), none, m₁,
      hparse.bind (Ends.of_eq fun _ => rfl), hF, ?_⟩
    cases hp : parse (CString.ofBuffer s) with
    | none =>
      refine Or.inl ?_
      unfold Message.fromJSONString
      rw [hp]
      exact ⟨rfl, rfl⟩
    | some j => exact Or.inr ⟨rfl, j, hp, Or.inl ⟨(hnone rfl).2 j hp, rfl⟩⟩
  | some t =>
    obtain ⟨-, j, hp, hj, hsup⟩ := hsome t rfl
    obtain ⟨o₁, hrun₁, hf₁, -, hv₁⟩ := found_ends hF hj hl.clientID
    obtain ⟨o₂, hrun₂, hf₂, -, hv₂⟩ := found_ends hF hj hl.type
    obtain ⟨o₃, hrun₃, hf₃, -, hv₃⟩ := found_ends hF hj hl.subType
    obtain ⟨o₄, hrun₄, hf₄, hk₄, hv₄⟩ := found_ends hF hj hl.content
    have hvalue := fromJSONString_of_found hp hv₁ hv₂ hv₃ hv₄
    have hcheck : Ends (fun _ => malformed (o₁.map Tree.address) (o₂.map Tree.address)
        (o₃.map Tree.address) (o₄.map Tree.address)) m₁ _ :=
      Ends.of_eq fun _ => malformed_eq hf₁ hf₂ hf₃ hf₄
    cases hkinds : hasKind .number o₁ && hasKind .number o₂ && hasKind .number o₃ &&
        hasKind .object o₄ with
    | false =>
      rw [hkinds] at hcheck
      obtain ⟨m', hdel, hm'⟩ := Heap.Holds.delete hF
      have hdelete : Ends (fun n => Heap.delete n (some t.address)) m₁ ((), m') := ⟨_, hdel⟩
      refine ⟨.error (.runtimeError "Malformed JSON message"), none, m', ?_, hm', Or.inl ?_⟩
      · exact hparse.bind (hrun₁.bind (hrun₂.bind (hrun₃.bind (hrun₄.bind (hcheck.bind
          (hdelete.bind (Ends.of_eq fun _ => rfl)))))))
      · rw [hvalue, decoded_of_kinds hkinds]
        exact ⟨rfl, rfl⟩
    | true =>
      rw [hkinds] at hcheck
      simp only [Bool.and_eq_true] at hkinds
      obtain ⟨⟨⟨hn₁, hn₂⟩, hn₃⟩, ho₄⟩ := hkinds
      obtain ⟨u₁, v₁, rfl, hu₁⟩ := hasKind_number hf₁ hn₁
      obtain ⟨u₂, v₂, rfl, hu₂⟩ := hasKind_number hf₂ hn₂
      obtain ⟨u₃, v₃, rfl, hu₃⟩ := hasKind_number hf₃ hn₃
      obtain ⟨u₄, ms, rfl, hu₄⟩ := hasKind_object hf₄ ho₄
      have hread : ∀ {u : Tree} {v : Binary64}, Found m₁ (some u) → u.Parsed (.number v) →
          ∃ f : Heap.Fields, fields u.address m₁ = .ok (f, m₁) ∧ f.valueint = valueint v := by
        intro u v hu hv
        exact ⟨u.label.fields, Heap.fields_eq (hu u rfl).1, Heap.number_of_parsed hv⟩
      obtain ⟨f₁, hr₁, hi₁⟩ := hread hf₁ hu₁
      obtain ⟨f₂, hr₂, hi₂⟩ := hread hf₂ hu₂
      obtain ⟨f₃, hr₃, hi₃⟩ := hread hf₃ hu₃
      obtain ⟨new, m₂, hcopy, hm₂, hres⟩ := copy_ends hF hu₄ (hk₄ u₄ rfl)
      obtain ⟨m', hdel, hm'⟩ := Heap.Holds.delete hm₂
      have hdelete : Ends (fun n => Heap.delete n (some t.address)) m₂ ((), m') := ⟨_, hdel⟩
      refine ⟨.ok ⟨f₁.valueint, f₂.valueint, f₃.valueint, new.map Tree.address⟩, new, m', ?_, hm', ?_⟩
      · refine hparse.bind (hrun₁.bind (hrun₂.bind (hrun₃.bind (hrun₄.bind (hcheck.bind ?_)))))
        show Ends (fun n => do
          let id := (← fields u₁.address).valueint
          let type := (← fields u₂.address).valueint
          let subType := (← fields u₃.address).valueint
          let contentCopy ← Heap.duplicate n (some u₄.address) true
          Heap.delete n (some t.address)
          return (.ok (⟨id, type, subType, contentCopy⟩ : Object) : Except Exn Object)) m₁ _
        exact (Ends.of_eq fun _ => hr₁).bind ((Ends.of_eq fun _ => hr₂).bind
          ((Ends.of_eq fun _ => hr₃).bind (hcopy.bind (hdelete.bind (Ends.of_eq fun _ => rfl)))))
      · have hmsg : Message.fromJSONString s =
            .ok ⟨valueint v₁, valueint v₂, valueint v₃, (Node.object ms).duplicate⟩ := by
          rw [hvalue, Option.bind_some, Option.bind_some, Option.bind_some, Option.bind_some,
            hu₁.1.1, hu₂.1.1, hu₃.1.1, hu₄.1.1]
          rfl
        rw [hi₁, hi₂, hi₃]
        rcases hres with ⟨hnew, hnull⟩ | ⟨rfl, hno⟩
        · refine Or.inl ?_
          rw [hmsg]
          refine ⟨rfl, rfl, rfl, rfl, fun hn => hnull (Option.map_eq_none_iff.mp hn), fun p hp => ?_⟩
          obtain ⟨u', hu', rfl⟩ := Option.map_eq_some_iff.mp hp
          obtain ⟨his, hdup⟩ := hnew u' hu'
          exact ⟨u', Option.mem_toList.mpr hu', rfl, _, his, hdup⟩
        · cases hdup : (Node.object ms).duplicate with
          | none =>
            refine Or.inl ?_
            rw [hmsg, hdup]
            exact ⟨rfl, rfl, rfl, rfl, fun _ => rfl, by simp⟩
          | some c =>
            obtain rfl := Node.duplicate_some hdup
            rw [hdup] at hmsg
            exact Or.inr ⟨rfl, j, hp, Or.inr ⟨_, _, hmsg, rfl, fun hall => hno (hsup _ hall), rfl⟩⟩

/-- the literals at the first addresses -/
def literals : Literals := ⟨0, 1, 2, 3⟩

def literalNames : ℕ → Option CString
  | 0 => some clientIDKey
  | 1 => some typeKey
  | 2 => some subTypeKey
  | 3 => some contentKey
  | _ => none

/-- a memory with the literals and nothing else -/
def literalMemory (answers : List (Option ℕ)) : Memory Block :=
  ⟨fun a => (literalNames a).map .text, answers⟩

theorem literalMemory_forest (answers : List (Option ℕ)) :
    Forest literalNames (literalMemory answers) [] where
  nodup := List.nodup_nil
  stored := by simp
  parents := List.Perm.refl _
  single := by simp
  live := fun a => by
    show (literalNames a).map Block.text ≠ none ↔ a ∈ [] ∨ _
    cases literalNames a <;> simp
  caller := fun a ha => by
    refine ⟨?_, List.not_mem_nil⟩
    obtain ⟨s, hs⟩ := Option.isSome_iff_exists.mp ha
    rw [hs]
    refine Heap.text_of_block ?_
    show (literalNames a).map Block.text = _
    rw [hs]
    rfl
  borrowed := by simp

theorem fromJSONString_refines_small : ∃ (r : Except Exn Object) (new : Option Tree)
    (m' : Memory Block), Ends (fun n => Object.fromJSONString literals n Message.smallMessage.encoding)
      (literalMemory [some 4, some 5, none]) (r, m') ∧ Forest literalNames m' (new.toList ++ []) ∧
      (Agrees new r (Message.fromJSONString Message.smallMessage.encoding) ∨
        new = none ∧ Starved (literalMemory [some 4, some 5, none]) Message.smallMessage.encoding r) :=
  fromJSONString_refines (literalMemory_forest _) ⟨rfl, rfl, rfl, rfl⟩ _

end Object

end Hub
