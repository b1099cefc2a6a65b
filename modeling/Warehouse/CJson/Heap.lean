import Warehouse.CJson.Node
import Warehouse.Machine.Memory

/-!
# Items in memory

The items of the library as they lie in memory, each with the pointers to the items beside it and
to its first child, and the functions that build, change and delete trees of them.  A pointer is an
address or none; strings are blocks of their own, the literals of a caller too.

* `Item`, `Block`        the cells;
* `newItem`, `strdup`    allocation; an allocation may be refused;
* `delete`               the release of an item, of what is below and of what comes after it;
* `getArrayItem`, `findObjectItem`   the search among the children;
* `addItemToArray`, `addItemToObject`, `detachItemViaPointer`, `insertItemInArray`,
  `replaceItemViaPointer`   the changes of a list of children;
* `createNull` .., `createText`, `duplicateRec`   new items and copies.

A loop takes the bound of its iterations as the first argument.
-/

namespace CJSON.Heap
open Machine Memory Text Numeric

/-! ## cells -/

/-- the low eight bits of the type of an item -/
inductive Kind
  | invalid | false | true | null | number | string | array | object | raw
deriving DecidableEq

/-- what an item holds beside the pointers to other items -/
structure Fields where
  kind : Kind
  isReference : Bool
  stringIsConst : Bool
  valuestring : Option ℕ
  valueint : ℤ
  valuedouble : Binary64
  string : Option ℕ
deriving DecidableEq

structure Item where
  fields : Fields
  next : Option ℕ
  prev : Option ℕ
  child : Option ℕ
deriving DecidableEq

inductive Block
  | item (c : Item)
  | text (s : CString)
deriving DecidableEq

/-- an item whose bytes are all zero -/
def blankFields : Fields := ⟨.invalid, false, false, none, 0, Binary64.ofInt 0, none⟩

def blank : Item := ⟨blankFields, none, none, none⟩

/-- an item that is accessed -/
def item (a : ℕ) : Prog Block Item := fun m =>
  match m.block a with
  | some (.item c) => .ok (c, m)
  | _ => .error (.load a)

/-- a string that is read -/
def text (a : ℕ) : Prog Block CString := fun m =>
  match m.block a with
  | some (.text s) => .ok (s, m)
  | _ => .error (.load a)

def modify (f : Item → Item) (a : ℕ) : Prog Block Unit := do
  let c ← item a
  store a (.item (f c))

def next (a : ℕ) : Prog Block (Option ℕ) := do return (← item a).next
def prev (a : ℕ) : Prog Block (Option ℕ) := do return (← item a).prev
def child (a : ℕ) : Prog Block (Option ℕ) := do return (← item a).child
def fields (a : ℕ) : Prog Block Fields := do return (← item a).fields

def setNext (a : ℕ) (p : Option ℕ) : Prog Block Unit := modify (fun c => { c with next := p }) a
def setPrev (a : ℕ) (p : Option ℕ) : Prog Block Unit := modify (fun c => { c with prev := p }) a
def setChild (a : ℕ) (p : Option ℕ) : Prog Block Unit := modify (fun c => { c with child := p }) a
def setFields (a : ℕ) (f : Fields) : Prog Block Unit := modify (fun c => { c with fields := f }) a

/-! ## allocation and release -/

/-- `cJSON_New_Item` -/
def newItem : Prog Block (Option ℕ) := alloc (.item blank)

/-- `cJSON_strdup` -/
def strdup : Option ℕ → Prog Block (Option ℕ)
  | none => pure none
  | some string => do
    let s ← text string
    alloc (.text s)

/-- a string is released, unless a flag of its item says that it belongs to somebody else -/
def freeUnless (flag : Bool) : Option ℕ → Prog Block Unit
  | none => pure ()
  | some a => if flag then pure () else free a

/-- `cJSON_Delete` -/
def delete : ℕ → Option ℕ → Prog Block Unit
  | _, none => pure ()
  | 0, some _ => throw .bound
  | n + 1, some a => do
    let c ← item a
    delete n (if c.fields.isReference then none else c.child)
    freeUnless c.fields.isReference c.fields.valuestring
    freeUnless c.fields.stringIsConst c.fields.string
    free a
    delete n c.next

/-! ## search -/

/-- the loop of `get_array_item` -/
def skip : ℕ → Option ℕ → Prog Block (Option ℕ)
  | _, none => pure none
  | 0, some a => pure (some a)
  | index + 1, some a => do skip index (← next a)

/-- `get_array_item` -/
def getArrayItem (array : Option ℕ) (index : ℕ) : Prog Block (Option ℕ) :=
  match array with
  | none => pure none
  | some array => do skip index (← child array)

/-- where the search stops: the names are equal, or, with regard to case, there is no name -/
def stopsAt (caseSensitive : Bool) (name : CString) : Option CString → Bool
  | none => caseSensitive
  | some key =>
    if caseSensitive then decide (name = key)
    else decide (caseInsensitiveStrcmp name.bytes key.bytes = 0)

/-- the string behind a pointer, if it is not NULL -/
def textOf : Option ℕ → Prog Block (Option CString)
  | none => pure none
  | some a => do return some (← text a)

/-- the loops of `get_object_item` -/
def skipTo (caseSensitive : Bool) (name : CString) : ℕ → Option ℕ → Prog Block (Option ℕ)
  | _, none => pure none
  | 0, some _ => throw .bound
  | n + 1, some a => do
    let c ← item a
    let key ← textOf c.fields.string
    if stopsAt caseSensitive name key then return some a
    else skipTo caseSensitive name n c.next

/-- `get_object_item` -/
def findObjectItem (n : ℕ) (object name : Option ℕ) (caseSensitive : Bool) :
    Prog Block (Option ℕ) :=
  match object, name with
  | some object, some name => do
    let found ← skipTo caseSensitive (← text name) n (← child object)
    match found with
    | none => return none
    | some a => do
      let f ← fields a
      return if f.string.isNone then none else some a
  | _, _ => pure none

/-! ## lists of children -/

/-- `suffix_object` -/
def suffixObject (prev item : ℕ) : Prog Block Unit := do
  setNext prev (some item)
  setPrev item (some prev)

/-- `add_item_to_array` -/
def addItemToArray (array item : Option ℕ) : Prog Block Bool :=
  match array, item with
  | some array, some item =>
    if array = item then pure false
    else do
      match ← child array with
      | none => do
        setChild array (some item)
        setPrev item (some item)
        setNext item none
      | some first => do
        match ← prev first with
        | none => pure ()
        | some last => do
          suffixObject last item
          setPrev (← deref (← child array)) (some item)
      return true
  | _, _ => pure false

/-- `add_item_to_object` -/
def addItemToObject (object string item : Option ℕ) (constantKey : Bool) : Prog Block Bool :=
  match object, string, item with
  | some object, some string, some item =>
    if object = item then pure false
    else do
      match ← (if constantKey then pure (some string) else strdup (some string)) with
      | none => return false
      | some newKey => do
        let f ← fields item
        freeUnless f.stringIsConst f.string
        setFields item { f with string := some newKey, stringIsConst := constantKey }
        addItemToArray (some object) (some item)
  | _, _, _ => pure false

/-- `cJSON_DetachItemViaPointer` -/
def detachItemViaPointer (parent item : Option ℕ) : Prog Block (Option ℕ) :=
  match parent, item with
  | some parent, some item => do
    if some item ≠ (← child parent) ∧ (← prev item) = none then return none
    else do
      if some item ≠ (← child parent) then setNext (← deref (← prev item)) (← next item)
      match ← next item with
      | none => pure ()
      | some after => do setPrev after (← prev item)
      if some item = (← child parent) then setChild parent (← next item)
      else if (← next item) = none then
        setPrev (← deref (← child parent)) (← prev item)
      setPrev item none
      setNext item none
      return some item
  | _, _ => pure none

/-- `cJSON_InsertItemInArray` -/
def insertItemInArray (array : Option ℕ) (which : ℤ) (newitem : Option ℕ) : Prog Block Bool :=
  match newitem with
  | none => pure false
  | some newitem =>
    if which < 0 then pure false
    else do
      match array, ← getArrayItem array which.toNat with
      | some array, some afterInserted => do
        if some afterInserted ≠ (← child array) ∧ (← prev afterInserted) = none then return false
        else do
          setNext newitem (some afterInserted)
          setPrev newitem (← prev afterInserted)
          setPrev afterInserted (some newitem)
          if some afterInserted = (← child array) then setChild array (some newitem)
          else setNext (← deref (← prev newitem)) (some newitem)
          return true
      | array, _ => addItemToArray array (some newitem)

/-- `cJSON_ReplaceItemViaPointer` -/
def replaceItemViaPointer (n : ℕ) (parent item replacement : Option ℕ) : Prog Block Bool :=
  match parent, item, replacement with
  | some parent, some item, some replacement => do
    if (← child parent) = none then return false
    else if replacement = item then return true
    else do
      setNext replacement (← next item)
      setPrev replacement (← prev item)
      match ← next replacement with
      | none => pure ()
      | some after => setPrev after (some replacement)
      if (← child parent) = some item then do
        if (← prev (← deref (← child parent))) = (← child parent) then
          setPrev replacement (some replacement)
        setChild parent (some replacement)
      else do
        match ← prev replacement with
        | none => pure ()
        | some before => setNext before (some replacement)
        if (← next replacement) = none then
          setPrev (← deref (← child parent)) (some replacement)
      setNext item none
      setPrev item none
      delete n (some item)
      return true
  | _, _, _ => pure false

/-! ## new items -/

/-- a new item with its fields -/
def create (f : Fields) : Prog Block (Option ℕ) := do
  match ← newItem with
  | none => return none
  | some a => do
    setFields a f
    return some a

def createNull : Prog Block (Option ℕ) := create { blankFields with kind := .null }
def createTrue : Prog Block (Option ℕ) := create { blankFields with kind := .true }
def createFalse : Prog Block (Option ℕ) := create { blankFields with kind := .false }
def createBool (boolean : Bool) : Prog Block (Option ℕ) :=
  create { blankFields with kind := if boolean then .true else .false }
def createNumber (num : Binary64) : Prog Block (Option ℕ) :=
  create { blankFields with kind := .number, valuedouble := num, valueint := CJSON.valueint num }
def createArray : Prog Block (Option ℕ) := create { blankFields with kind := .array }
def createObject : Prog Block (Option ℕ) := create { blankFields with kind := .object }

/-- a new item with a string of its own; without the string the item is deleted again -/
def createText (n : ℕ) (kind : Kind) (string : Option ℕ) : Prog Block (Option ℕ) := do
  match ← create { blankFields with kind := kind } with
  | none => return none
  | some a => do
    match ← strdup string with
    | none => do
      delete n (some a)
      return none
    | some copy => do
      setFields a { (← fields a) with valuestring := some copy }
      return some a

def createString (n : ℕ) : Option ℕ → Prog Block (Option ℕ) := createText n .string
def createRaw (n : ℕ) : Option ℕ → Prog Block (Option ℕ) := createText n .raw

/-! ## copies -/

/-- the strings of a copy; false where one is refused -/
def copyTexts (new : ℕ) (f : Fields) : Prog Block Bool := do
  let valuestring ← strdup f.valuestring
  setFields new { (← fields new) with valuestring := valuestring }
  if f.valuestring.isSome ∧ valuestring = none then return false
  else do
    let string ← if f.stringIsConst then pure f.string else strdup f.string
    setFields new { (← fields new) with string := string }
    return !(f.string.isSome ∧ string = none)

mutual

/-- `cJSON_Duplicate_rec` -/
def duplicateRec : ℕ → Option ℕ → ℕ → Bool → Prog Block (Option ℕ)
  | _, none, _, _ => pure none
  | 0, some _, _, _ => throw .bound
  | n + 1, some a, depth, recurse => do
    match ← newItem with
    | none => return none
    | some new => do
      let c ← item a
      setFields new
        { c.fields with isReference := false, valuestring := none, string := none }
      let copied ← copyTexts new c.fields
      let done ← if copied && recurse then copyChildren n depth new none c.child else pure copied
      if done then return some new
      else do
        delete n (some new)
        return none

/-- the walk along the children; `last` is the copy made last, false where one fails -/
def copyChildren : ℕ → ℕ → ℕ → Option ℕ → Option ℕ → Prog Block Bool
  | _, _, new, last, none => do
    match ← child new with
    | none => return true
    | some first => do
      setPrev first last
      return true
  | 0, _, _, _, some _ => throw .bound
  | n + 1, depth, new, last, some a => do
    if depth ≥ CJSON_CIRCULAR_LIMIT then return false
    else do
      match ← duplicateRec n (some a) (depth + 1) true with
      | none => return false
      | some newchild => do
        match last with
        | none => setChild new (some newchild)
        | some last => do
          setNext last (some newchild)
          setPrev newchild (some last)
        copyChildren n depth new (some newchild) (← next a)

end

/-- `cJSON_Duplicate` -/
def duplicate (n : ℕ) (a : Option ℕ) (recurse : Bool) : Prog Block (Option ℕ) :=
  duplicateRec n a 0 recurse

end CJSON.Heap
