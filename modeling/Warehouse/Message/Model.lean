import Warehouse.CJson.Rendered

/-!
# `Message`

The messages of `server/Message.cpp` and their JSON form.  `content` is `none` for a null pointer.

* `toJSONString`, `fromJSONString`   the code;
* `toJSONString_eq`     the encoder fails only where the text does not fit the print buffer;
* `ofMembers`           the message in the members of an object;
* `MessageText`         the object texts the decoder accepts, with the message each one denotes;
* `fromJSONString_ok_iff`   a string is decoded exactly when it starts with such a text, after a
                        byte order mark and blanks, before its first NUL.
-/

namespace Hub
open Text Numeric CJSON

/-- what leaves a call by `throw` -/
inductive Exn
  | runtimeError (what : String)
  | logicError (what : String)
deriving DecidableEq

/-! ## the type of a message

`MessageType` is an enumeration over `int`, to which any `int` can be cast. -/

def ALERT : ℤ := 0
def NOTIFICATION : ℤ := 1
def INVENTORY : ℤ := 2
def CREDENTIALS : ℤ := 3

structure Message where
  clientID : ℤ
  type : ℤ
  subType : ℤ
  content : Option Node

/-! ## building a tree -/

def createObject : Node := .object []

/-- `cJSON_AddItemToObject`: nothing happens without an item -/
def addItemToObject (object : Node) (key : CString) (item : Option Node) : Node :=
  match object, item with
  | .object ms, some item => .object (ms ++ [(key, item)])
  | _, _ => object

/-- `cJSON_AddNumberToObject` with an `int` -/
def addNumberToObject (object : Node) (key : CString) (number : ℤ) : Node :=
  addItemToObject object key (some (.number (Binary64.ofInt number)))

def clientIDKey : CString := .lit ['c', 'l', 'i', 'e', 'n', 't', 'I', 'D']
def typeKey : CString := .lit ['t', 'y', 'p', 'e']
def subTypeKey : CString := .lit ['s', 'u', 'b', 'T', 'y', 'p', 'e']
def contentKey : CString := .lit ['c', 'o', 'n', 't', 'e', 'n', 't']

namespace Message

/-! ## the code -/

/-- the tree `toJSONString` prints -/
def root (m : Message) : Node :=
  let root := createObject
  let root := addNumberToObject root clientIDKey m.clientID
  let root := addNumberToObject root typeKey m.type
  let root := addNumberToObject root subTypeKey m.subType
  addItemToObject root contentKey (m.content.bind Node.duplicate)

def toJSONString (m : Message) : Except Exn Bytes :=
  match m.root.printUnformatted with
  | some jsonStr => .ok (CString.ofBuffer jsonStr).bytes
  -- `std::string` from a null pointer
  | none => .error (.logicError "basic_string: construction from null is not valid")

def fromJSONString (jsonString : Bytes) : Except Exn Message :=
  match parse (CString.ofBuffer jsonString) with
  | none => .error (.runtimeError "Invalid JSON string")
  | some root =>
    match getObjectItemCaseSensitive root clientIDKey, getObjectItemCaseSensitive root typeKey,
      getObjectItemCaseSensitive root subTypeKey, getObjectItemCaseSensitive root contentKey with
    | some (.number id), some (.number type), some (.number subType), some (.object ms) =>
      .ok ⟨valueint id, valueint type, valueint subType, (Node.object ms).duplicate⟩
    | _, _, _, _ => .error (.runtimeError "Malformed JSON message")

/-- the copy constructor -/
def copy (m : Message) : Message := { m with content := m.content.bind Node.duplicate }

def setClientID (m : Message) (id : ℤ) : Message := { m with clientID := id }

/-! ## encoding -/

/-- the header fields are values of the type `int` -/
structure Wide (m : Message) : Prop where
  clientID : INT_MIN ≤ m.clientID ∧ m.clientID ≤ INT_MAX
  type : INT_MIN ≤ m.type ∧ m.type ≤ INT_MAX
  subType : INT_MIN ≤ m.subType ∧ m.subType ≤ INT_MAX

/-- the members of the printed tree -/
def rootMembers (m : Message) : List (CString × Node) :=
  [(clientIDKey, .number (Binary64.ofInt m.clientID)), (typeKey, .number (Binary64.ofInt m.type)),
    (subTypeKey, .number (Binary64.ofInt m.subType))]
    ++ ((m.content.bind Node.duplicate).map fun c => (contentKey, c)).toList

theorem root_eq (m : Message) : m.root = .object m.rootMembers := by
  unfold root rootMembers
  cases m.content.bind Node.duplicate with
  | none => rfl
  | some c => rfl

/-- a text without NUL bytes is handed over whole -/
theorem ofBuffer_of_nulFree {s : Bytes} (h : Node.NulFree s) : (CString.ofBuffer s).bytes = s :=
  List.takeWhile_eq_self_iff.mpr fun c hc => bne_iff_ne.mpr (h c hc)

/-- the text of a message -/
def encoding (m : Message) : Bytes := m.root.render

theorem toJSONString_eq (m : Message) : m.toJSONString =
    if ((m.encoding.length + 2 : ℕ) : ℤ) ≤ INT_MAX then .ok m.encoding
    else .error (.logicError "basic_string: construction from null is not valid") := by
  unfold toJSONString encoding
  rw [Node.printUnformatted_eq]
  by_cases h : ((m.root.render.length + 2 : ℕ) : ℤ) ≤ INT_MAX
  · have hnul := ofBuffer_of_nulFree (Node.nulFree_render m.root)
    rw [if_pos h, if_pos h]
    exact congrArg Except.ok hnul
  · rw [if_neg h, if_neg h]

theorem toJSONString_ok {m : Message} {text : Bytes} (h : m.toJSONString = .ok text) :
    text = m.encoding := by
  rw [toJSONString_eq] at h
  split_ifs at h
  exact (Except.ok.inj h).symm

/-- the text, piece by piece -/
theorem encoding_eq {m : Message} (hw : m.Wide) : m.encoding =
    ascii ['{', '"', 'c', 'l', 'i', 'e', 'n', 't', 'I', 'D', '"', ':'] ++ (numeral m.clientID
      ++ (ascii [',', '"', 't', 'y', 'p', 'e', '"', ':'] ++ (numeral m.type
      ++ (ascii [',', '"', 's', 'u', 'b', 'T', 'y', 'p', 'e', '"', ':'] ++ (numeral m.subType
      ++ ((match m.content.bind Node.duplicate with
          | some c => ascii [',', '"', 'c', 'o', 'n', 't', 'e', 'n', 't', '"', ':'] ++ c.render
          | none => []) ++ ascii ['}'])))))) := by
  obtain ⟨h1, h2, h3⟩ := hw
  have hnum : ∀ {i : ℤ}, INT_MIN ≤ i ∧ i ≤ INT_MAX → numberText (Binary64.ofInt i) = numeral i :=
    fun {i} hi => numberText_ofInt (by unfold INT_MIN INT_MAX at hi; norm_num; omega)
  have hkeys : stringText clientIDKey = ascii ['"', 'c', 'l', 'i', 'e', 'n', 't', 'I', 'D', '"'] ∧
      stringText typeKey = ascii ['"', 't', 'y', 'p', 'e', '"'] ∧
      stringText subTypeKey = ascii ['"', 's', 'u', 'b', 'T', 'y', 'p', 'e', '"'] ∧
      stringText contentKey = ascii ['"', 'c', 'o', 'n', 't', 'e', 'n', 't', '"'] := by decide
  obtain ⟨k1, k2, k3, k4⟩ := hkeys
  rw [encoding, root_eq, rootMembers]
  cases m.content.bind Node.duplicate with
  | none =>
    simp only [Option.map_none, Option.toList_none, List.append_nil, Node.render,
      Node.renderMembers, hnum h1, hnum h2, hnum h3, k1, k2, k3]
    simp [ascii]
  | some c =>
    simp only [Option.map_some, Option.toList_some, List.cons_append, List.nil_append, Node.render,
      Node.renderMembers, hnum h1, hnum h2, hnum h3, k1, k2, k3, k4]
    simp [ascii]

/-- the encoding is a text of the printed tree, for every number of levels that covers it -/
theorem derives_encoding (m : Message) {d : ℕ} (hd : m.root.nesting ≤ d) :
    Derives d (.value (.object (Node.rereadMembers m.rootMembers))) m.encoding := by
  have h := Node.derives_render m.root d hd
  rwa [root_eq, Node.reread, ← root_eq] at h

/-! ## decoding -/

/-- the message in the members of an object: the first member of each name counts -/
def ofMembers (ms : List (CString × Node)) : Option Message :=
  match getObjectItemCaseSensitive (.object ms) clientIDKey,
    getObjectItemCaseSensitive (.object ms) typeKey,
    getObjectItemCaseSensitive (.object ms) subTypeKey,
    getObjectItemCaseSensitive (.object ms) contentKey with
  | some (.number id), some (.number type), some (.number subType), some (.object cs) =>
    some ⟨valueint id, valueint type, valueint subType, (Node.object cs).duplicate⟩
  | _, _, _, _ => none

/-- what the decoder does with the parsed tree -/
theorem fromJSONString_parse (s : Bytes) : fromJSONString s =
    match parse (CString.ofBuffer s) with
    | none => .error (.runtimeError "Invalid JSON string")
    | some (.object ms) =>
      match ofMembers ms with
      | some m => .ok m
      | none => .error (.runtimeError "Malformed JSON message")
    | some _ => .error (.runtimeError "Malformed JSON message") := by
  unfold fromJSONString
  cases hp : parse (CString.ofBuffer s) with
  | none => rfl
  | some root =>
    cases root with
    | object ms =>
      unfold ofMembers
      dsimp only
      split <;> simp_all
    | _ => rfl

/-- the object texts of a message -/
def MessageText (m : Message) (b : Bytes) : Prop :=
  ∃ ms, Derives CJSON_NESTING_LIMIT (.value (.object ms)) b ∧ ofMembers ms = some m

theorem fromJSONString_ok_iff {s : Bytes} {m : Message} : fromJSONString s = .ok m ↔
    ∃ lead b t, (CString.ofBuffer s).bytes = lead ++ (b ++ t) ∧ Lead lead ∧ MessageText m b := by
  rw [fromJSONString_parse]
  constructor
  · intro h
    split at h
    · cases h
    · next ms hp =>
      obtain ⟨lead, b, t, hs, hl, hd⟩ := parse_object_iff.mp hp
      split at h
      · next m' hm =>
        obtain rfl := Except.ok.inj h
        exact ⟨lead, b, t, hs, hl, ms, hd, hm⟩
      · cases h
    · cases h
  · rintro ⟨lead, b, t, hs, hl, ms, hd, hm⟩
    rw [parse_object_iff.mpr ⟨lead, b, t, hs, hl, hd⟩]
    dsimp only
    rw [hm]

/-- the empty string is no message -/
theorem fromJSONString_nil (m : Message) : fromJSONString [] ≠ .ok m := by
  intro h
  obtain ⟨lead, b, t, hb, -, ms, hd, -⟩ := fromJSONString_ok_iff.mp h
  obtain ⟨c, r, rfl, -⟩ := hd.head
  have hlen : 0 = (lead ++ ((c :: r) ++ t)).length := congrArg List.length hb
  rw [List.length_append, List.length_append, List.length_cons] at hlen
  omega

/-- the decoder returns or throws a `std::runtime_error` -/
theorem fromJSONString_cases (s : Bytes) :
    (∃ m, fromJSONString s = .ok m) ∨ ∃ what, fromJSONString s = .error (.runtimeError what) := by
  rw [fromJSONString_parse]
  split
  · exact Or.inr ⟨_, rfl⟩
  · split
    · exact Or.inl ⟨_, rfl⟩
    · exact Or.inr ⟨_, rfl⟩
  · exact Or.inr ⟨_, rfl⟩

end Message

end Hub
