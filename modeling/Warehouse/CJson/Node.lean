import Warehouse.Numeric.Decimal

/-!
# JSON trees

The nodes of the vendored cJSON library.  A node carries the string and the double the library
keeps for it; the integer value of a number is derived from the double when it is read.

* `CString`, `Node`       the strings and the nodes; `Node.induct` the induction over a tree;
* `valueint`              saturation of a double to an `int`;
* `getObjectItem`         the first member of a name, with or without regard to case;
                        `caseInsensitiveStrcmp`, `FirstMember`, `getObjectItem_eq_some_iff`;
* `duplicateRec`          the copy, refused below the depth limit; `duplicate_eq`,
                        `duplicate_of_tall`;
* `height`, `nesting`     edges below a node, and containers on a path.
-/

namespace CJSON
open Text Numeric

def INT_MAX : ℤ := 2147483647
def INT_MIN : ℤ := -2147483648
def CJSON_NESTING_LIMIT : ℕ := 1000
def CJSON_CIRCULAR_LIMIT : ℕ := 10000

/-! ## strings -/

/-- a C string: its bytes before the terminating NUL -/
structure CString where
  bytes : Bytes
  nulFree : ∀ b ∈ bytes, b ≠ 0
deriving DecidableEq

namespace CString

/-- what a C function sees of a buffer: the bytes before the first NUL -/
def ofBuffer (b : Bytes) : CString :=
  ⟨b.takeWhile fun c => c != 0, fun _ h =>
    bne_iff_ne.mp (List.mem_takeWhile_imp (p := fun c : UInt8 => c != 0) h)⟩

theorem ofBuffer_bytes (s : CString) : ofBuffer s.bytes = s := by
  have h : s.bytes.takeWhile (fun c => c != 0) = s.bytes :=
    List.takeWhile_eq_self_iff.mpr fun b hb => bne_iff_ne.mpr (s.nulFree b hb)
  obtain ⟨bytes, nulFree⟩ := s
  rw [ofBuffer, CString.mk.injEq]
  exact h

/-- the C string of an ASCII literal -/
def lit (l : List Char) : CString := ofBuffer (ascii l)

end CString

/-! ## nodes -/

/-- `struct cJSON` -/
inductive Node
  | null
  | bool (value : Bool)
  | number (valuedouble : Binary64)
  | string (valuestring : CString)
  | array (child : List Node)
  | object (child : List (CString × Node))

namespace Node

/-- induction over a tree -/
@[elab_as_elim]
theorem induct {P : Node → Prop} (null : P .null) (bool : ∀ b, P (.bool b))
    (number : ∀ d, P (.number d)) (string : ∀ s, P (.string s))
    (array : ∀ js, (∀ j ∈ js, P j) → P (.array js))
    (object : ∀ ms, (∀ m ∈ ms, P m.2) → P (.object ms)) : ∀ j, P j :=
  Node.rec (motive_2 := fun js => ∀ j ∈ js, P j) (motive_3 := fun ms => ∀ m ∈ ms, P m.2)
    (motive_4 := fun m => P m.2) null bool number string (fun js h => array js h)
    (fun ms h => object ms h) (fun _ h => nomatch h)
    (fun _ _ hj hjs => List.forall_mem_cons.mpr ⟨hj, hjs⟩) (fun _ h => nomatch h)
    (fun _ _ hm hms => List.forall_mem_cons.mpr ⟨hm, hms⟩) (fun _ _ h => h)

def isNumber : Node → Bool
  | number _ => true
  | _ => false

end Node

/-- the `int` beside a double: saturated, and truncated between the bounds -/
def valueint (d : Binary64) : ℤ :=
  if (Binary64.ofInt INT_MAX).le d then INT_MAX
  else if d.le (Binary64.ofInt INT_MIN) then INT_MIN
  else match d with
    | .finite q _ => truncate q
    -- the conversion of a NaN as x86 computes it
    | _ => INT_MIN

theorem valueint_ofInt {i : ℤ} (hlo : INT_MIN ≤ i) (hhi : i ≤ INT_MAX) :
    valueint (Binary64.ofInt i) = i := by
  unfold INT_MIN at hlo
  unfold INT_MAX at hhi
  have hi : |i| < 2 ^ 53 := by rw [abs_lt]; omega
  have hmax : |INT_MAX| < 2 ^ 53 := by decide
  have hmin : |INT_MIN| < 2 ^ 53 := by decide
  unfold valueint
  rw [Binary64.le_ofInt hmax hi, Binary64.le_ofInt hi hmin, Binary64.ofInt_eq hi]
  dsimp only
  split_ifs with h1 h2
  · have := of_decide_eq_true h1
    unfold INT_MAX at this ⊢
    omega
  · have := of_decide_eq_true h2
    unfold INT_MIN at this ⊢
    omega
  · exact truncate_intCast i

/-- the integer value never leaves the `int` range -/
theorem valueint_range (d : Binary64) : INT_MIN ≤ valueint d ∧ valueint d ≤ INT_MAX := by
  have hmin : |INT_MIN| < 2 ^ 53 := by decide
  have hmax : |INT_MAX| < 2 ^ 53 := by decide
  unfold valueint
  split_ifs with h1 h2
  · decide
  · decide
  · cases d with
    | finite q h =>
      rw [Binary64.ofInt_eq hmax, Binary64.le_finite, decide_eq_true_iff, not_le] at h1
      rw [Binary64.ofInt_eq hmin, Binary64.le_finite, decide_eq_true_iff, not_le] at h2
      show INT_MIN ≤ truncate q ∧ truncate q ≤ INT_MAX
      unfold truncate
      split_ifs
      · exact ⟨by exact_mod_cast h2.le.trans (Int.le_ceil q), Int.ceil_le.mpr h1.le⟩
      · exact ⟨Int.le_floor.mpr h2.le, by exact_mod_cast (Int.floor_le q).trans h1.le⟩
    | inf s => exact (by decide : INT_MIN ≤ INT_MIN ∧ INT_MIN ≤ INT_MAX)
    | nan => exact (by decide : INT_MIN ≤ INT_MIN ∧ INT_MIN ≤ INT_MAX)

/-! ## members -/

/-- `tolower` in the C locale -/
def tolower (b : UInt8) : UInt8 := if 65 ≤ b ∧ b ≤ 90 then b + 32 else b

/-- equality up to case; a comparison of C strings stops at the terminating NUL of both -/
def caseInsensitiveEq (a b : CString) : Bool := a.bytes.map tolower == b.bytes.map tolower

/-- `case_insensitive_strcmp` of two strings, their ends read as NUL -/
def caseInsensitiveStrcmp : Bytes → Bytes → ℤ
  | [], [] => 0
  | [], y :: _ => (tolower 0).toNat - (tolower y).toNat
  | x :: _, [] => (tolower x).toNat - (tolower 0).toNat
  | x :: xs, y :: ys =>
    if tolower x = tolower y then caseInsensitiveStrcmp xs ys
    else (tolower x).toNat - (tolower y).toNat

/-- `get_object_item`; the children of an array have no names -/
def getObjectItemWith (same : CString → CString → Bool) (name : CString) : Node → Option Node
  | .object ms => (ms.find? fun m => same name m.1).map Prod.snd
  | _ => none

def getObjectItem (object : Node) (name : CString) : Option Node :=
  getObjectItemWith caseInsensitiveEq name object

def getObjectItemCaseSensitive (object : Node) (name : CString) : Option Node :=
  getObjectItemWith (fun a b => a = b) name object

theorem tolower_ne_zero {b : UInt8} (h : b ≠ 0) : tolower b ≠ 0 := by
  unfold tolower
  split_ifs with hb
  · obtain ⟨hlo, hhi⟩ := hb
    intro h0
    have h1 : (b + 32).toNat = 0 := congrArg UInt8.toNat h0
    rw [UInt8.toNat_add] at h1
    have hlo' : 65 ≤ b.toNat := UInt8.le_iff_toNat_le.mp hlo
    have hhi' : b.toNat ≤ 90 := UInt8.le_iff_toNat_le.mp hhi
    have h32 : (32 : UInt8).toNat = 32 := rfl
    omega
  · exact h

theorem caseInsensitiveStrcmp_bytes {a b : Bytes} (ha : ∀ x ∈ a, x ≠ 0) (hb : ∀ x ∈ b, x ≠ 0) :
    caseInsensitiveStrcmp a b = 0 ↔ a.map tolower = b.map tolower := by
  have hdiff : ∀ x y : UInt8, ((x.toNat : ℤ) - y.toNat = 0) ↔ x = y := by
    intro x y
    rw [sub_eq_zero, Nat.cast_inj, UInt8.toNat_inj]
  induction a generalizing b with
  | nil =>
    cases b with
    | nil => exact ⟨fun _ => rfl, fun _ => rfl⟩
    | cons y ys =>
      refine iff_of_false ?_ (fun h => by cases h)
      rw [caseInsensitiveStrcmp, hdiff]
      exact fun h => tolower_ne_zero (hb y (List.mem_cons_self ..)) h.symm
  | cons x xs ih =>
    cases b with
    | nil =>
      refine iff_of_false ?_ (fun h => by cases h)
      rw [caseInsensitiveStrcmp, hdiff]
      exact tolower_ne_zero (ha x (List.mem_cons_self ..))
    | cons y ys =>
      rw [caseInsensitiveStrcmp, List.map_cons, List.map_cons, List.cons.injEq]
      split_ifs with hxy
      · have hrest := ih (fun c hc => ha c (List.mem_cons_of_mem _ hc))
          (fun c hc => hb c (List.mem_cons_of_mem _ hc))
        exact hrest.trans ⟨fun h => ⟨hxy, h⟩, And.right⟩
      · rw [hdiff]
        exact ⟨fun h => absurd h hxy, fun h => absurd h.1 hxy⟩

/-- the comparison is zero for the strings that differ in case only -/
theorem caseInsensitiveStrcmp_eq_zero_iff (a b : CString) :
    caseInsensitiveStrcmp a.bytes b.bytes = 0 ↔ caseInsensitiveEq a b = true := by
  rw [caseInsensitiveStrcmp_bytes a.nulFree b.nulFree, caseInsensitiveEq, beq_iff_eq]

/-- the first member of an object whose name is a given one up to case -/
def FirstMember (name : CString) (object value : Node) : Prop :=
  ∃ pre k post, object = .object (pre ++ (k, value) :: post) ∧
    caseInsensitiveStrcmp name.bytes k.bytes = 0 ∧
    ∀ m ∈ pre, caseInsensitiveStrcmp name.bytes m.1.bytes ≠ 0

/-- the search finds the first member of the name, and nothing in what is no object -/
theorem getObjectItem_eq_some_iff {object value : Node} {name : CString} :
    getObjectItem object name = some value ↔ FirstMember name object value := by
  unfold getObjectItem FirstMember
  cases object with
  | object ms =>
    show (ms.find? fun m => caseInsensitiveEq name m.1).map Prod.snd = some value ↔ _
    rw [Option.map_eq_some_iff]
    constructor
    · rintro ⟨⟨k, v⟩, hfind, rfl⟩
      obtain ⟨hk, pre, post, rfl, hpre⟩ := List.find?_eq_some_iff_append.mp hfind
      refine ⟨pre, k, post, rfl, (caseInsensitiveStrcmp_eq_zero_iff name k).mpr hk, ?_⟩
      intro m hm h0
      have hno := hpre m hm
      rw [(caseInsensitiveStrcmp_eq_zero_iff name m.1).mp h0] at hno
      cases hno
    · rintro ⟨pre, k, post, hms, hk, hpre⟩
      cases hms
      refine ⟨(k, value), List.find?_eq_some_iff_append.mpr ⟨?_, pre, post, rfl, ?_⟩, rfl⟩
      · exact (caseInsensitiveStrcmp_eq_zero_iff name k).mp hk
      · intro m hm
        rw [Bool.not_eq_true', ← Bool.not_eq_true, ← caseInsensitiveStrcmp_eq_zero_iff]
        exact hpre m hm
  | _ =>
    refine iff_of_false (fun h => (by cases h)) ?_
    rintro ⟨pre, k, post, h, -⟩
    cases h

/-! ## copies -/

namespace Node

mutual

/-- `cJSON_Duplicate_rec` with `recurse`; the depth is that of the node -/
def duplicateRec (depth : ℕ) : Node → Option Node
  | null => some null
  | bool b => some (bool b)
  | number d => some (number d)
  | string s => some (string s)
  | array js => (duplicateItems depth js).map array
  | object ms => (duplicateMembers depth ms).map object

/-- the walk along the children of a node at this depth -/
def duplicateItems (depth : ℕ) : List Node → Option (List Node)
  | [] => some []
  | j :: js =>
    if depth ≥ CJSON_CIRCULAR_LIMIT then none
    else (duplicateRec (depth + 1) j).bind fun j' =>
      (duplicateItems depth js).map fun js' => j' :: js'

def duplicateMembers (depth : ℕ) : List (CString × Node) → Option (List (CString × Node))
  | [] => some []
  | (k, j) :: ms =>
    if depth ≥ CJSON_CIRCULAR_LIMIT then none
    else (duplicateRec (depth + 1) j).bind fun j' =>
      (duplicateMembers depth ms).map fun ms' => (k, j') :: ms'

end

/-- `cJSON_Duplicate(item, true)` of an item that is not NULL -/
def duplicate (j : Node) : Option Node := duplicateRec 0 j

mutual

/-- the number of edges on the longest path down -/
def height : Node → ℕ
  | array js => heightItems js
  | object ms => heightMembers ms
  | _ => 0

def heightItems : List Node → ℕ
  | [] => 0
  | j :: js => max (height j + 1) (heightItems js)

def heightMembers : List (CString × Node) → ℕ
  | [] => 0
  | (_, j) :: ms => max (height j + 1) (heightMembers ms)

end

mutual

/-- the number of containers on the longest path down, the node itself counted -/
def nesting : Node → ℕ
  | array js => nestingItems js + 1
  | object ms => nestingMembers ms + 1
  | _ => 0

def nestingItems : List Node → ℕ
  | [] => 0
  | j :: js => max (nesting j) (nestingItems js)

def nestingMembers : List (CString × Node) → ℕ
  | [] => 0
  | (_, j) :: ms => max (nesting j) (nestingMembers ms)

end

theorem duplicateItems_eq {depth : ℕ} {js : List Node}
    (ih : ∀ j ∈ js, ∀ d, d + j.height ≤ CJSON_CIRCULAR_LIMIT → duplicateRec d j = some j)
    (h : depth + heightItems js ≤ CJSON_CIRCULAR_LIMIT) : duplicateItems depth js = some js := by
  induction js with
  | nil => rfl
  | cons j js ihjs =>
    rw [heightItems] at h
    have hj := ih j (List.mem_cons_self ..) (depth + 1) (by omega)
    have hjs := ihjs (fun j' hj' => ih j' (List.mem_cons_of_mem _ hj')) (by omega)
    rw [duplicateItems, if_neg (by omega), hj, hjs]
    rfl

theorem duplicateMembers_eq {depth : ℕ} {ms : List (CString × Node)}
    (ih : ∀ m ∈ ms, ∀ d, d + m.2.height ≤ CJSON_CIRCULAR_LIMIT → duplicateRec d m.2 = some m.2)
    (h : depth + heightMembers ms ≤ CJSON_CIRCULAR_LIMIT) :
    duplicateMembers depth ms = some ms := by
  induction ms with
  | nil => rfl
  | cons m ms ihms =>
    obtain ⟨k, j⟩ := m
    rw [heightMembers] at h
    have hj : duplicateRec (depth + 1) j = some j :=
      ih (k, j) (List.mem_cons_self ..) (depth + 1) (show depth + 1 + j.height ≤ _ by omega)
    have hms := ihms (fun m hm => ih m (List.mem_cons_of_mem _ hm)) (by omega)
    rw [duplicateMembers, if_neg (by omega), hj, hms]
    rfl

/-- a tree within the limit is copied as it is -/
theorem duplicateRec_eq (j : Node) :
    ∀ d, d + j.height ≤ CJSON_CIRCULAR_LIMIT → duplicateRec d j = some j := by
  induction j using induct with
  | null => exact fun _ _ => rfl
  | bool b => exact fun _ _ => rfl
  | number q => exact fun _ _ => rfl
  | string s => exact fun _ _ => rfl
  | array js ih =>
    intro d h
    rw [duplicateRec, duplicateItems_eq ih h, Option.map_some]
  | object ms ih =>
    intro d h
    rw [duplicateRec, duplicateMembers_eq ih h, Option.map_some]

theorem height_le_nesting (j : Node) : j.height ≤ j.nesting := by
  induction j using induct with
  | array js ih =>
    have hjs : heightItems js ≤ nestingItems js + 1 := by
      induction js with
      | nil => exact Nat.zero_le _
      | cons j js ihjs =>
        have hj := ih j (List.mem_cons_self ..)
        have hrest := ihjs fun x hx => ih x (List.mem_cons_of_mem _ hx)
        rw [heightItems, nestingItems]
        omega
    exact hjs
  | object ms ih =>
    have hms : heightMembers ms ≤ nestingMembers ms + 1 := by
      induction ms with
      | nil => exact Nat.zero_le _
      | cons m ms ihms =>
        obtain ⟨k, j⟩ := m
        have hj : j.height ≤ j.nesting := ih (k, j) (List.mem_cons_self ..)
        have hrest := ihms fun x hx => ih x (List.mem_cons_of_mem _ hx)
        rw [heightMembers, nestingMembers]
        omega
    exact hms
  | _ => exact le_rfl

theorem nesting_le_of_mem {m : CString × Node} {ms : List (CString × Node)} (h : m ∈ ms) :
    m.2.nesting ≤ nestingMembers ms := by
  induction ms with
  | nil => cases h
  | cons x ms ih =>
    rw [nestingMembers]
    rcases List.mem_cons.mp h with rfl | h
    · exact le_max_left ..
    · exact (ih h).trans (le_max_right ..)

theorem duplicateItems_some {depth : ℕ} {js js' : List Node}
    (ih : ∀ j ∈ js, ∀ d j', duplicateRec d j = some j' → j' = j)
    (h : duplicateItems depth js = some js') : js' = js := by
  induction js generalizing js' with
  | nil => exact (Option.some.inj h).symm
  | cons j js ihjs =>
    rw [duplicateItems] at h
    split_ifs at h
    obtain ⟨j', hj, h⟩ := Option.bind_eq_some_iff.mp h
    obtain ⟨rest, hrest, rfl⟩ := Option.map_eq_some_iff.mp h
    rw [ih j (List.mem_cons_self ..) _ _ hj,
      ihjs (fun x hx => ih x (List.mem_cons_of_mem _ hx)) hrest]

theorem duplicateMembers_some {depth : ℕ} {ms ms' : List (CString × Node)}
    (ih : ∀ m ∈ ms, ∀ d j', duplicateRec d m.2 = some j' → j' = m.2)
    (h : duplicateMembers depth ms = some ms') : ms' = ms := by
  induction ms generalizing ms' with
  | nil => exact (Option.some.inj h).symm
  | cons m ms ihms =>
    obtain ⟨k, j⟩ := m
    rw [duplicateMembers] at h
    split_ifs at h
    obtain ⟨j', hj, h⟩ := Option.bind_eq_some_iff.mp h
    obtain ⟨rest, hrest, rfl⟩ := Option.map_eq_some_iff.mp h
    rw [ih (k, j) (List.mem_cons_self ..) _ _ hj,
      ihms (fun x hx => ih x (List.mem_cons_of_mem _ hx)) hrest]

/-- a copy is the tree itself -/
theorem duplicateRec_some (j : Node) : ∀ d j', duplicateRec d j = some j' → j' = j := by
  induction j using induct with
  | null => exact fun _ _ h => (Option.some.inj h).symm
  | bool b => exact fun _ _ h => (Option.some.inj h).symm
  | number q => exact fun _ _ h => (Option.some.inj h).symm
  | string s => exact fun _ _ h => (Option.some.inj h).symm
  | array js ih =>
    intro d j' h
    obtain ⟨js', hjs, rfl⟩ := Option.map_eq_some_iff.mp h
    rw [duplicateItems_some ih hjs]
  | object ms ih =>
    intro d j' h
    obtain ⟨ms', hms, rfl⟩ := Option.map_eq_some_iff.mp h
    rw [duplicateMembers_some ih hms]

theorem duplicate_some {j j' : Node} (h : j.duplicate = some j') : j' = j :=
  duplicateRec_some j 0 j' h

theorem duplicate_eq {j : Node} (h : j.height ≤ CJSON_CIRCULAR_LIMIT) : j.duplicate = some j :=
  duplicateRec_eq j 0 (by omega)

theorem duplicateItems_height {depth : ℕ} {js js' : List Node}
    (ih : ∀ j ∈ js, ∀ d j', d ≤ CJSON_CIRCULAR_LIMIT → duplicateRec d j = some j' →
      d + j.height ≤ CJSON_CIRCULAR_LIMIT)
    (hd : depth ≤ CJSON_CIRCULAR_LIMIT) (h : duplicateItems depth js = some js') :
    depth + heightItems js ≤ CJSON_CIRCULAR_LIMIT := by
  induction js generalizing js' with
  | nil => exact hd
  | cons j js ihjs =>
    rw [duplicateItems] at h
    split_ifs at h
    obtain ⟨j', hj, h⟩ := Option.bind_eq_some_iff.mp h
    obtain ⟨rest, hrest, -⟩ := Option.map_eq_some_iff.mp h
    have hchild := ih j (List.mem_cons_self ..) (depth + 1) j' (by omega) hj
    have hothers := ihjs (fun x hx => ih x (List.mem_cons_of_mem _ hx)) hrest
    rw [heightItems]
    omega

theorem duplicateMembers_height {depth : ℕ} {ms ms' : List (CString × Node)}
    (ih : ∀ m ∈ ms, ∀ d j', d ≤ CJSON_CIRCULAR_LIMIT → duplicateRec d m.2 = some j' →
      d + m.2.height ≤ CJSON_CIRCULAR_LIMIT)
    (hd : depth ≤ CJSON_CIRCULAR_LIMIT) (h : duplicateMembers depth ms = some ms') :
    depth + heightMembers ms ≤ CJSON_CIRCULAR_LIMIT := by
  induction ms generalizing ms' with
  | nil => exact hd
  | cons m ms ihms =>
    obtain ⟨k, j⟩ := m
    rw [duplicateMembers] at h
    split_ifs at h
    obtain ⟨j', hj, h⟩ := Option.bind_eq_some_iff.mp h
    obtain ⟨rest, hrest, -⟩ := Option.map_eq_some_iff.mp h
    have hchild : depth + 1 + j.height ≤ CJSON_CIRCULAR_LIMIT :=
      ih (k, j) (List.mem_cons_self ..) (depth + 1) j' (by omega) hj
    have hothers := ihms (fun x hx => ih x (List.mem_cons_of_mem _ hx)) hrest
    rw [heightMembers]
    omega

/-- only a tree within the limit is copied -/
theorem duplicateRec_height (j : Node) : ∀ d j', d ≤ CJSON_CIRCULAR_LIMIT →
    duplicateRec d j = some j' → d + j.height ≤ CJSON_CIRCULAR_LIMIT := by
  induction j using induct with
  | array js ih =>
    intro d j' hd h
    obtain ⟨js', hjs, -⟩ := Option.map_eq_some_iff.mp h
    exact duplicateItems_height ih hd hjs
  | object ms ih =>
    intro d j' hd h
    obtain ⟨ms', hms, -⟩ := Option.map_eq_some_iff.mp h
    exact duplicateMembers_height ih hd hms
  | _ => exact fun d j' hd _ => hd

/-- a tree beyond the limit is not copied -/
theorem duplicate_of_tall {j : Node} (h : CJSON_CIRCULAR_LIMIT < j.height) :
    j.duplicate = none := by
  cases hj : j.duplicate with
  | none => rfl
  | some j' =>
    have := duplicateRec_height j 0 j' (Nat.zero_le _) hj
    omega

end Node

/-- a member that is found is one of the children -/
theorem mem_of_getObjectItemWith {same : CString → CString → Bool} {name : CString}
    {ms : List (CString × Node)} {j : Node}
    (h : getObjectItemWith same name (.object ms) = some j) : ∃ k, (k, j) ∈ ms := by
  obtain ⟨⟨k, j'⟩, hfind, rfl⟩ := Option.map_eq_some_iff.mp h
  exact ⟨k, List.mem_of_find?_eq_some hfind⟩

end CJSON
