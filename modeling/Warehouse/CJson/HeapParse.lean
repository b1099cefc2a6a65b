import Warehouse.CJson.HeapValues
import Warehouse.CJson.Grammar

/-!
# Parsing into memory

The parser with the items it allocates.  A value is parsed into an item that is there already; an
array or an object allocates its items one by one, hangs each behind the last one before its value
is parsed, and deletes them all when one of them fails.

* `parseStringInto`, `parseNumberInto`, `parseArrayInto`, `parseObjectInto`, `parseValueInto`,
  `Heap.parse`           the code;
* `Row`                  the items of a list in the making; `Row.snoc`, `Row.fill`, `Row.delete`,
                         `Row.finish`;
* `Fills`                an item that got its value.
-/

namespace CJSON.Heap
open Machine Memory Text Numeric

/-! ## the code -/

/-- the fields of an item after its type was assigned -/
def Fields.setType (f : Fields) (kind : Kind) : Fields :=
  { f with kind := kind, isReference := false, stringIsConst := false }

/-- `parse_string`; what is left of the input, or none where it fails -/
def parseStringInto (a : ℕ) : Bytes → Prog Block (Option Bytes)
  | [] => pure none
  | c :: rest =>
    if c = 34 then
      match closingQuote rest with
      | none => pure none
      | some (body, r) => do
        match ← alloc (.text (CString.ofBuffer [])) with
        | none => return none
        | some output => do
          match unescape body with
          | none => do
            free output
            return none
          | some out => do
            store output (.text (CString.ofBuffer out))
            setFields a { (← fields a).setType .string with valuestring := some output }
            return some r
    else pure none

/-- `parse_number` -/
def parseNumberInto (a : ℕ) (rest : Bytes) : Prog Block (Option Bytes) :=
  match strtod (numberBytes rest) with
  | none => pure none
  | some (v, after) => do
    setFields a { (← fields a).setType .number with
      valuedouble := v, valueint := CJSON.valueint v }
    return some (rest.drop ((numberBytes rest).length - after.length))

/-- a new item is attached to the list; what is returned is its head -/
def attach (head current : Option ℕ) (new : ℕ) : Prog Block (Option ℕ) :=
  match head with
  | none => pure (some new)
  | some head => do
    suffixObject (← deref current) new
    return some head

/-- the loop of `parse_array` and of `parse_object`: the head and the end of the list, and what is
left of the input behind the closing bracket, if it is reached -/
def parseList (element : ℕ → Bytes → Prog Block (Option Bytes)) (close : UInt8) :
    ℕ → Option ℕ → Option ℕ → Bytes → Prog Block (Option ℕ × Option ℕ × Option Bytes)
  | 0, _, _, _ => throw .bound
  | n + 1, head, current, rest => do
    match ← newItem with
    | none => return (head, current, none)
    | some new => do
      let head ← attach head current new
      match ← element new rest with
      | none => return (head, some new, none)
      | some r =>
        match skipWhitespace r with
        | [] => return (head, some new, none)
        | c :: r =>
          if c = 44 then parseList element close n head (some new) r
          else return (head, some new, if c = close then some r else none)

/-- the end of `parse_array` and of `parse_object` -/
def finish (kind : Kind) (a : ℕ) (head current : Option ℕ) : Prog Block Unit := do
  match head with
  | none => pure ()
  | some head => setPrev head current
  setFields a ((← fields a).setType kind)
  setChild a head

/-- `parse_array` and `parse_object`, after the opening bracket -/
def parseContainer (kind : Kind) (element : ℕ → Bytes → Prog Block (Option Bytes)) (close : UInt8)
    (n a : ℕ) (rest : Bytes) : Prog Block (Option Bytes) :=
  match skipWhitespace rest with
  | [] => pure none
  | c :: r =>
    if c = close then do
      finish kind a none none
      return some r
    else do
      let (head, current, after) ← parseList element close n none none (c :: r)
      match after with
      | some r => do
        finish kind a head current
        return some r
      | none => do
        delete n head
        return none

/-- the name, the colon and the value of a member -/
def parseMemberInto (value : ℕ → Bytes → Prog Block (Option Bytes)) (a : ℕ) :
    Bytes → Prog Block (Option Bytes)
  -- nothing comes after the comma
  | [] => pure none
  | c :: rest => do
    match ← parseStringInto a (skipWhitespace (c :: rest)) with
    | none => return none
    | some r => do
      let f ← fields a
      setFields a { f with string := f.valuestring, valuestring := none }
      match skipWhitespace r with
      | [] => return none
      | c :: r => if c = 58 then value a (skipWhitespace r) else return none

def parseArrayInto (value : ℕ → Bytes → Prog Block (Option Bytes)) :
    ℕ → ℕ → Bytes → Prog Block (Option Bytes) :=
  parseContainer .array (fun a rest => value a (skipWhitespace rest)) 93

def parseObjectInto (value : ℕ → Bytes → Prog Block (Option Bytes)) :
    ℕ → ℕ → Bytes → Prog Block (Option Bytes) :=
  parseContainer .object (parseMemberInto value) 125

/-- the choice of `parse_value` -/
def parseByFirstInto (array object : Bytes → Prog Block (Option Bytes)) (a : ℕ) (rest : Bytes) :
    Prog Block (Option Bytes) :=
  if rest.take 4 = ascii ['n', 'u', 'l', 'l'] then do
    setFields a ((← fields a).setType .null)
    return some (rest.drop 4)
  else if rest.take 5 = ascii ['f', 'a', 'l', 's', 'e'] then do
    setFields a ((← fields a).setType .false)
    return some (rest.drop 5)
  else if rest.take 4 = ascii ['t', 'r', 'u', 'e'] then do
    setFields a { (← fields a).setType .true with valueint := 1 }
    return some (rest.drop 4)
  else match rest with
    | [] => pure none
    | c :: after =>
      if c = 34 then parseStringInto a rest
      else if c = 45 ∨ isDigit c = true then parseNumberInto a rest
      else if c = 91 then array after
      else if c = 123 then object after
      else pure none

/-- `parse_value` with so many nesting levels left -/
def parseValueInto (n : ℕ) : ℕ → ℕ → Bytes → Prog Block (Option Bytes)
  | 0, a => parseByFirstInto (fun _ => pure none) (fun _ => pure none) a
  | levels + 1, a =>
    parseByFirstInto (parseArrayInto (parseValueInto n levels) n a)
      (parseObjectInto (parseValueInto n levels) n a) a

/-- `cJSON_Parse` -/
def parse (n : ℕ) (value : CString) : Prog Block (Option ℕ) := do
  match ← newItem with
  | none => return none
  | some a => do
    match ← parseValueInto n CJSON_NESTING_LIMIT a
        (skipWhitespace (skipUtf8Bom (value.bytes ++ [0]))) with
    | some _ => return some a
    | none => do
      delete n (some a)
      return none

/-! ## an item that gets its value -/

variable {m m' m₀ m₁ m₂ : Memory Block} {a w : ℕ} {lab lab' : Label} {t : Tree} {ts : List Tree}
  {X Y : List ℕ}

theorem records_single (t : Tree) : records [t] = t.records := by
  rw [records_cons, records_nil, List.append_nil]

theorem Label.borrowed_of_own (h : lab.stringIsConst = false) : lab.borrowed = [] := by
  unfold Label.borrowed
  rw [h]
  rfl

/-- beside new blocks only the item was written, and it is the root of a tree now; its pointers to
its neighbours stay -/
structure Fills (m m' : Memory Block) (a : ℕ) (lab : Label) (t : Tree) (X : List ℕ) : Prop where
  address : t.address = a
  nodup : X.Nodup
  fresh : ∀ b ∈ X, m.block b = none
  live : ∀ b ∈ X, m'.block b ≠ none
  kept : ∀ b, b ∉ X → b ≠ a → m'.block b = m.block b
  owned : (owned t.records).Perm (a :: (lab.owned ++ X))
  links : ∀ l, l ≠ .child → linkAt l m' a = linkAt l m a
  stored : ∀ r ∈ t.records, Stored m' r
  const : ∀ r ∈ t.records, r.label.stringIsConst = false

theorem stored_leaf (h : Stored m ⟨a, lab, []⟩) : ∀ r ∈ (Tree.node a lab []).records, Stored m r := by
  intro r hr
  rw [List.mem_singleton.mp hr]
  exact h

/-- nothing happened to the item -/
theorem Fills.refl (h : Stored m ⟨a, lab, []⟩) (hc : lab.stringIsConst = false) :
    Fills m m a lab (.node a lab []) [] where
  address := rfl
  nodup := List.nodup_nil
  fresh := by simp
  live := by simp
  kept := fun _ _ _ => rfl
  owned := by
    rw [List.append_nil]
    exact List.Perm.of_eq (List.append_nil _)
  links := fun _ _ => rfl
  stored := stored_leaf h
  const := fun r hr => by
    rw [List.mem_singleton.mp hr]
    exact hc

/-- the fields of the item are written, with the strings that were made for them -/
theorem Fills.relabel (h : Stored m ⟨a, lab, []⟩) (lab' : Label) (hg : Grown m m₁ X)
    (hi : itemAt m₁ = itemAt m) (hX : lab'.owned.Perm (lab.owned ++ X))
    (ht : ∀ e ∈ lab'.texts, textAt m₁ e.1 = some e.2) (hc : lab'.stringIsConst = false) :
    Fills m (putFields m₁ a lab'.fields) a lab (.node a lab' []) X := by
  have ha : IsItem m₁ a := by
    unfold IsItem
    rw [hi]
    exact h.isItem
  have hlink : ∀ l, linkAt l (putFields m₁ a lab'.fields) = linkAt l m := fun l => by
    rw [linkAt_putFields, linkAt_of_itemAt hi]
  have hblock : ∀ b, b ≠ a → (putFields m₁ a lab'.fields).block b = m₁.block b :=
    fun b hb => if_neg hb
  have hlive : m.block a ≠ none := h.live (List.mem_cons_self ..)
  have hnot : ∀ b ∈ X, b ≠ a := fun b hb hba => hlive (hba ▸ hg.fresh b hb)
  refine ⟨rfl, hg.nodup, hg.fresh, fun b hb => ?_, fun b hb hba => ?_, ?_, fun l _ => ?_, ?_, ?_⟩
  · rw [hblock b (hnot b hb)]
    exact hg.live b hb
  · rw [hblock b hba]
    exact hg.kept b hb
  · show (Heap.owned [⟨a, lab', []⟩]).Perm _
    rw [owned_cons, Heap.owned, List.flatMap_nil, List.append_nil]
    exact hX.cons a
  · rw [hlink]
  · refine stored_leaf ⟨?_, ?_, chain_nil, fun e he => ?_⟩
    · rw [fieldsAt_putFields ha, Function.update_self]
    · exact (congrFun (hlink .child) a).trans h.child
    · rw [textAt_putFields]
      exact ht e he
  · intro r hr
    rw [List.mem_singleton.mp hr]
    exact hc

theorem Fills.leaf (h : Fills m m' a lab (.node a lab' []) X) : Stored m' ⟨a, lab', []⟩ :=
  h.stored _ (List.mem_singleton_self _)

theorem Fills.trans (h : Fills m m₁ a lab (.node a lab' []) X) (h' : Fills m₁ m₂ a lab' t Y) :
    Fills m m₂ a lab t (X ++ Y) where
  address := h'.address
  nodup := List.nodup_append.mpr ⟨h.nodup, h'.nodup, fun b hb c hc hbc =>
    h.live b hb (h'.fresh b (hbc ▸ hc))⟩
  fresh := by
    intro b hb
    rcases List.mem_append.mp hb with hb | hb
    · exact h.fresh b hb
    · have hba : b ≠ a := fun hba =>
        h.leaf.live (List.mem_cons_self ..) (hba ▸ h'.fresh b hb)
      rw [← h.kept b (fun hX => h.live b hX (h'.fresh b hb)) hba]
      exact h'.fresh b hb
  live := by
    intro b hb
    by_cases hY : b ∈ Y
    · exact h'.live b hY
    · have hX : b ∈ X := (List.mem_append.mp hb).resolve_right hY
      by_cases hba : b = a
      · have hhead : a ∈ Heap.owned t.records := h'.owned.mem_iff.mpr (List.mem_cons_self ..)
        obtain ⟨r, hr, har⟩ := List.mem_flatMap.mp hhead
        exact hba ▸ (h'.stored r hr).live har
      · rw [h'.kept b hY hba]
        exact h.live b hX
  kept := by
    intro b hb hba
    obtain ⟨hX, hY⟩ := not_or.mp (mt List.mem_append.mpr hb)
    rw [h'.kept b hY hba, h.kept b hX hba]
  owned := by
    have hlab : lab'.owned.Perm (lab.owned ++ X) := by
      have hown := h.owned
      change (Heap.owned [⟨a, lab', []⟩]).Perm _ at hown
      rw [owned_cons, Heap.owned, List.flatMap_nil, List.append_nil] at hown
      exact hown.cons_inv
    refine h'.owned.trans (List.Perm.cons a ?_)
    rw [← List.append_assoc]
    exact hlab.append_right Y
  links := fun l hl => (h'.links l hl).trans (h.links l hl)
  stored := h'.stored
  const := h'.const

/-! ## a list in the making -/

/-- beside the blocks of `m₀` there are these trees, chained one way only -/
structure Row (m₀ m : Memory Block) (ts : List Tree) : Prop where
  grown : Grown m₀ m (owned (records ts))
  segment : Segment (linkAt .next m) (linkAt .prev m) none (ts.map Tree.address) none
  stored : ∀ r ∈ records ts, Stored m r
  const : ∀ r ∈ records ts, r.label.stringIsConst = false

namespace Row

theorem nil (m : Memory Block) : Row m m [] :=
  ⟨Grown.refl m, trivial, fun _ hr => absurd hr List.not_mem_nil,
    fun _ hr => absurd hr List.not_mem_nil⟩

theorem roots_nodup (h : Row m₀ m ts) : (ts.map Tree.address ++ kids (records ts)).Nodup :=
  records_addresses_nodup ts h.grown.nodup

theorem root_owned {b : ℕ} (hb : b ∈ ts.map Tree.address) : b ∈ owned (records ts) := by
  obtain ⟨t, ht, rfl⟩ := List.mem_map.mp hb
  exact Partial.root_mem ts ht

/-- an item of the list is written beside its children, or not at all -/
theorem stored_congr (h : Row m₀ m ts) (hb : ∀ b ∈ owned (records ts), m'.block b = m.block b) :
    ∀ r ∈ records ts, Stored m' r := by
  intro r hr
  refine (h.stored r hr).congr (fun b hb' => hb b (mem_owned hr hb'))
    (fun b hb' => hb b (Partial.kids_subset ts b (List.mem_flatMap.mpr ⟨r, hr, hb'⟩))) ?_
  rw [Label.borrowed_of_own (h.const r hr)]
  exact fun b hb' => absurd hb' List.not_mem_nil

theorem isItem_of_root (h : Row m₀ m ts) {b : ℕ} (hb : b ∈ ts.map Tree.address) : IsItem m b := by
  obtain ⟨r, hr, rfl⟩ := List.mem_map.mp
    ((records_parents ts).mem_iff.mp (List.mem_append_left _ hb))
  exact (h.stored r hr).isItem

/-- the list is deleted as it stands -/
theorem delete (h : Row m₀ m ts) : ∃ m', (∀ n ≥ (records ts).length,
    Heap.delete n (ts.map Tree.address).head? m = .ok ((), m')) ∧ m'.block = m₀.block := by
  obtain ⟨m', hrun, hm'⟩ := delete_trees ts m h.grown.nodup
    (fun r hr => (h.stored r hr).loose) h.segment.linked
  exact ⟨m', hrun, h.grown.released hm'⟩

/-- the last item gets its value -/
theorem fill (h : Row m₀ m (ts ++ [.node a lab []])) (hf : Fills m m' a lab t X) :
    Row m₀ m' (ts ++ [t]) := by
  have hrec : records (ts ++ [.node a lab []]) = records ts ++ [⟨a, lab, []⟩] := records_append ..
  have hrec' : records (ts ++ [t]) = records ts ++ t.records := by
    rw [records_append, records_single]
  have hown : owned (records (ts ++ [.node a lab []])) = owned (records ts) ++ (a :: lab.owned) := by
    rw [hrec, owned_append]
    exact congrArg _ (List.append_nil _)
  have hg := h.grown
  rw [hown] at hg
  have haX : a ∉ X := fun ha => hg.live a (List.mem_append_right _ (List.mem_cons_self ..)) (hf.fresh a ha)
  have hold : ∀ b ∈ owned (records ts), m'.block b = m.block b := by
    intro b hb
    refine hf.kept b (fun hX => hg.live b (List.mem_append_left _ hb) (hf.fresh b hX)) fun hba => ?_
    exact (List.nodup_append.mp hg.nodup).2.2 b hb a (List.mem_cons_self ..) hba
  have hperm : (owned (records ts) ++ (a :: lab.owned) ++ X).Perm (owned (records (ts ++ [t]))) := by
    rw [hrec', owned_append, List.append_assoc]
    exact (hf.owned.symm.append_left _)
  have hlive : m'.block a ≠ none := by
    have hhead : a ∈ owned t.records := hf.owned.mem_iff.mpr (List.mem_cons_self ..)
    obtain ⟨r, hr, har⟩ := List.mem_flatMap.mp hhead
    exact (hf.stored r hr).live har
  refine ⟨Grown.perm ⟨?_, ?_, ?_, ?_⟩ hperm, ?_, ?_, ?_⟩
  · exact List.nodup_append.mpr ⟨hg.nodup, hf.nodup, fun b hb c hc hbc =>
      hg.live b hb (hf.fresh b (hbc ▸ hc))⟩
  · intro b hb
    rcases List.mem_append.mp hb with hb | hb
    · exact hg.fresh b hb
    · rw [← hg.kept b fun hY => hg.live b hY (hf.fresh b hb)]
      exact hf.fresh b hb
  · intro b hb
    by_cases hX : b ∈ X
    · exact hf.live b hX
    by_cases hba : b = a
    · exact hba ▸ hlive
    · rw [hf.kept b hX hba]
      exact hg.live b ((List.mem_append.mp hb).resolve_right hX)
  · intro b hb
    obtain ⟨hY, hX⟩ := not_or.mp (mt List.mem_append.mpr hb)
    have hba : b ≠ a := fun hba => hY (hba ▸ List.mem_append_right _ (List.mem_cons_self ..))
    rw [hf.kept b hX hba, hg.kept b hY]
  · have hseg := h.segment
    rw [List.map_append, List.map_cons, List.map_nil] at hseg ⊢
    rw [hf.address]
    have hlink : ∀ l, l ≠ .child → ∀ b ∈ ts.map Tree.address ++ [a],
        linkAt l m' b = linkAt l m b := by
      intro l hl b hb
      rcases List.mem_append.mp hb with hb | hb
      · exact linkAt_congr l (hold b (root_owned hb))
      · rw [List.mem_singleton.mp hb]
        exact hf.links l hl
    exact hseg.congr (hlink .next (by simp)) (hlink .prev (by simp))
  · intro r hr
    rw [hrec'] at hr
    rcases List.mem_append.mp hr with hr | hr
    · have hst := h.stored r (by rw [hrec]; exact List.mem_append_left _ hr)
      refine hst.congr (fun b hb => hold b (mem_owned hr hb))
        (fun b hb => hold b (Partial.kids_subset ts b (List.mem_flatMap.mpr ⟨r, hr, hb⟩))) ?_
      rw [Label.borrowed_of_own (h.const r (by rw [hrec]; exact List.mem_append_left _ hr))]
      exact fun b hb => absurd hb List.not_mem_nil
    · exact hf.stored r hr
  · intro r hr
    rw [hrec'] at hr
    rcases List.mem_append.mp hr with hr | hr
    · exact h.const r (by rw [hrec]; exact List.mem_append_left _ hr)
    · exact hf.const r hr

/-- the memory with an item behind the last one -/
def tie (last : Option ℕ) (new : ℕ) (m : Memory Block) : Memory Block :=
  match last with
  | none => m
  | some last => putLink (putLink m .next last (some new)) .prev new (some last)

/-- **A new item behind the last one.** -/
theorem snoc (h : Row m₀ m ts) (hw : m.block w = none)
    (hm₁ : m₁.block = Function.update m.block w (some (.item blank))) :
    attach (ts.map Tree.address).head? (ts.map Tree.address).getLast? w m₁ =
        .ok (((ts ++ [Tree.node w (plain .invalid) []]).map Tree.address).head?,
          tie (ts.map Tree.address).getLast? w m₁) ∧
      Row m₀ (tie (ts.map Tree.address).getLast? w m₁) (ts ++ [.node w (plain .invalid) []]) := by
  have hg : Grown m m₁ [w] := Grown.of_update hw hm₁
  have hwi : itemAt m₁ w = some blank := item_of_block (by rw [hm₁, Function.update_self])
  have hwit : IsItem m₁ w := by
    unfold IsItem
    rw [hwi]
    rfl
  have hold : ∀ b ∈ owned (records ts), m₁.block b = m.block b ∧ b ≠ w := fun b hb =>
    ⟨hg.known (h.grown.live b hb), fun hbw => h.grown.live b hb (hbw ▸ hw)⟩
  have hrec : records (ts ++ [.node w (plain .invalid) []]) =
      records ts ++ [⟨w, plain .invalid, []⟩] := records_append ..
  have hown : owned (records (ts ++ [.node w (plain .invalid) []])) = owned (records ts) ++ [w] := by
    rw [hrec, owned_append]
    rfl
  have hgrown : Grown m₀ m₁ (owned (records (ts ++ [.node w (plain .invalid) []]))) := by
    rw [hown]
    exact h.grown.trans hg
  have hlinks : ∀ l, linkAt l m₁ w = none := by
    intro l
    unfold linkAt
    rw [hwi]
    cases l <;> rfl
  have hnew : Stored m₁ ⟨w, plain .invalid, []⟩ := by
    refine ⟨?_, hlinks .child, chain_nil, fun e he => absurd he List.not_mem_nil⟩
    unfold fieldsAt
    rw [hwi]
    rfl
  have hst : ∀ r ∈ records (ts ++ [.node w (plain .invalid) []]), Stored m₁ r := by
    intro r hr
    rw [hrec] at hr
    rcases List.mem_append.mp hr with hr | hr
    · exact h.stored_congr (fun b hb => (hold b hb).1) r hr
    · rw [List.mem_singleton.mp hr]
      exact hnew
  have hconst : ∀ r ∈ records (ts ++ [.node w (plain .invalid) []]),
      r.label.stringIsConst = false := by
    intro r hr
    rw [hrec] at hr
    rcases List.mem_append.mp hr with hr | hr
    · exact h.const r hr
    · rw [List.mem_singleton.mp hr]
      rfl
  have hseg : Segment (linkAt .next m₁) (linkAt .prev m₁) none (ts.map Tree.address) none :=
    h.segment.congr (fun b hb => linkAt_congr _ (hold b (root_owned hb)).1)
      (fun b hb => linkAt_congr _ (hold b (root_owned hb)).1)
  cases hlast : (ts.map Tree.address).getLast? with
  | none =>
    have hnil : ts = [] := List.map_eq_nil_iff.mp (List.getLast?_eq_none_iff.mp hlast)
    subst hnil
    exact ⟨rfl, hgrown, ⟨hlinks .prev, hlinks .next, trivial⟩, hst, hconst⟩
  | some last =>
    have hlmem : last ∈ ts.map Tree.address := List.mem_of_getLast? hlast
    have hli : IsItem m₁ last :=
      (isItem_congr (hold last (root_owned hlmem)).1).mpr (h.isItem_of_root hlmem)
    have hlw : last ≠ w := (hold last (root_owned hlmem)).2
    obtain ⟨head, hhead⟩ : ∃ head, (ts.map Tree.address).head? = some head := by
      cases ts with
      | nil => cases hlast
      | cons t ts => exact ⟨t.address, rfl⟩
    have hkids : ∀ r ∈ records (ts ++ [.node w (plain .invalid) []]), last ∉ r.kids ∧ w ∉ r.kids := by
      intro r hr
      rw [hrec] at hr
      rcases List.mem_append.mp hr with hr | hr
      · have hk : ∀ b ∈ r.kids, b ∈ kids (records ts) := fun b hb =>
          List.mem_flatMap.mpr ⟨r, hr, hb⟩
        refine ⟨fun hl => ?_, fun hw' => ?_⟩
        · exact (List.nodup_append.mp h.roots_nodup).2.2 last hlmem last (hk _ hl) rfl
        · exact (hold _ (Partial.kids_subset ts _ (hk _ hw'))).2 rfl
      · rw [List.mem_singleton.mp hr]
        exact ⟨List.not_mem_nil, List.not_mem_nil⟩
    have hmemw : w ∈ owned (records (ts ++ [.node w (plain .invalid) []])) := by
      rw [hown]
      exact List.mem_append_right _ (List.mem_singleton_self w)
    have hmeml : last ∈ owned (records (ts ++ [.node w (plain .invalid) []])) := by
      rw [hown]
      exact List.mem_append_left _ (root_owned hlmem)
    refine ⟨?_, grown_putLink (grown_putLink hgrown hmeml _ _) hmemw _ _, ?_, fun r hr => ?_, hconst⟩
    · rw [List.map_append, hhead, List.head?_append, hhead]
      simp [attach, suffixObject, tie, hli, hwit]
    · rw [List.map_append]
      refine segment_snoc (List.nodup_append.mp h.roots_nodup).1 hseg ?_ ?_ ?_
      · show linkAt .next (tie (some last) w m₁) w = none ∧
          linkAt .prev (tie (some last) w m₁) w = _
        simp [tie, linkAt_putLink, hli, hwit, hlw.symm, hlinks, hlast]
      · intro b hb
        simp [tie, linkAt_putLink, hli, hwit, hlast, Function.update_apply, Tree.address]
      · intro b hb
        have hbw : b ≠ w := (hold b (root_owned hb)).2
        simp [tie, linkAt_putLink, hli, hwit, hbw]
    · exact ((hst r hr).putLink_of_notMem (by simp) (hkids r hr).1 hli _).putLink_of_notMem (by simp)
        (hkids r hr).2 (by simpa using hwit) _

/-- the first item gets the last one -/
def crown (head last : Option ℕ) (m : Memory Block) : Memory Block :=
  match head with
  | none => m
  | some head => putLink m .prev head last

/-- the first item gets the last one, and the items are the children of one item -/
theorem crown_chain (h : Row m₀ m ts) {m₁ : Memory Block}
    (hm₁ : m₁ = crown (ts.map Tree.address).head? (ts.map Tree.address).getLast? m) :
    Grown m₀ m₁ (owned (records ts)) ∧ (∀ b, b ∉ owned (records ts) → m₁.block b = m.block b) ∧
      Chain (linkAt .next m₁) (linkAt .prev m₁) (ts.map Tree.address) ∧
      ∀ r ∈ records ts, Stored m₁ r := by
  subst hm₁
  cases ts with
  | nil => exact ⟨h.grown, fun _ _ => rfl, chain_nil, fun r hr => absurd hr List.not_mem_nil⟩
  | cons t ts =>
    have htm : t.address ∈ (t :: ts).map Tree.address := List.mem_cons_self ..
    have hti : IsItem m t.address := h.isItem_of_root htm
    have hnext : linkAt .next (putLink m .prev t.address ((t :: ts).map Tree.address).getLast?) =
        linkAt .next m := by
      rw [linkAt_putLink hti, if_neg (by simp)]
    show Grown m₀ (putLink m .prev t.address ((t :: ts).map Tree.address).getLast?) _ ∧ _
    refine ⟨grown_putLink h.grown (root_owned htm) _ _, fun b hb => ?_, ?_, fun r hr => ?_⟩
    · exact if_neg fun hbt : b = t.address => hb (hbt ▸ root_owned htm)
    · show Chain (linkAt .next (putLink m .prev t.address _)) (linkAt .prev (putLink m .prev t.address _)) _
      rw [hnext]
      refine chain_of_segment (List.nodup_append.mp h.roots_nodup).1 h.segment (fun b _ => rfl) ?_
      intro b _
      rw [linkAt_putLink hti, if_pos rfl, Function.update_apply]
      exact if_congr (by simp) rfl rfl
    · refine (h.stored r hr).putLink_of_notMem (by simp) (fun hk => ?_) hti _
      refine (List.nodup_append.mp h.roots_nodup).2.2 _ htm _ ?_ rfl
      exact List.mem_flatMap.mpr ⟨r, hr, hk⟩

/-- **The end of a list.**  The first item gets the last one, and the list is hung below its item. -/
theorem finish (h : Row m₀ m ts) (ha : Stored m₀ ⟨a, lab, []⟩) (hc : lab.stringIsConst = false)
    (kind : Kind) : ∃ m', Heap.finish kind a (ts.map Tree.address).head?
        (ts.map Tree.address).getLast? m = .ok ((), m') ∧
      Fills m₀ m' a lab (.node a { lab with kind := kind } ts) (owned (records ts)) ∧
      m'.answers = m.answers := by
  generalize hm₁ : crown (ts.map Tree.address).head? (ts.map Tree.address).getLast? m = m₁
  obtain ⟨hg, hout, hchain, hst⟩ := h.crown_chain hm₁.symm
  have halive : m₀.block a ≠ none := ha.live (List.mem_cons_self ..)
  have hnot : a ∉ owned (records ts) := fun hmem => halive (hg.fresh a hmem)
  have hab : m₁.block a = m₀.block a := hg.kept a hnot
  have hai : IsItem m₁ a := (isItem_congr hab).mpr ha.isItem
  have hfields : fieldsAt m₁ a = some lab.fields := (fieldsAt_congr hab).trans ha.fields
  generalize hf : ({ lab with kind := kind } : Label).fields = f
  have hset : lab.fields.setType kind = f := by
    rw [← hf]
    unfold Fields.setType Label.fields
    simp [hc]
  -- the three writes, the first of them only where there is a first item
  have hrun : Heap.finish kind a (ts.map Tree.address).head? (ts.map Tree.address).getLast? m =
      .ok ((), putLink (putFields m₁ a f) .child a (ts.map Tree.address).head?) := by
    have hrest : ∀ head, (do
        setFields a ((← fields a).setType kind)
        setChild a head : Prog Block Unit) m₁ =
        .ok ((), putLink (putFields m₁ a f) .child a head) := by
      intro head
      refine (bind_of_ok (fields_eq hfields) _).trans ?_
      rw [hset]
      exact (bind_of_ok (setFields_eq hai f) _).trans (setChild_eq (by simpa using hai) head)
    subst hm₁
    cases ts with
    | nil => exact hrest none
    | cons t ts =>
      have hti : IsItem m t.address := h.isItem_of_root (List.mem_cons_self ..)
      exact (bind_of_ok (setPrev_eq hti _) _).trans (hrest _)
  have hfi : IsItem (putFields m₁ a f) a := by simpa using hai
  have hlink : ∀ l, l ≠ .child → linkAt l (putLink (putFields m₁ a f) .child a
      (ts.map Tree.address).head?) = linkAt l m₁ := by
    intro l hl
    rw [linkAt_putLink hfi, if_neg hl, linkAt_putFields]
  have hother : ∀ b, b ≠ a → (putLink (putFields m₁ a f) .child a
      (ts.map Tree.address).head?).block b = m₁.block b := fun b hb =>
    (if_neg hb).trans (if_neg hb)
  have hrec : (Tree.node a { lab with kind := kind } ts).records =
      ⟨a, { lab with kind := kind }, ts.map Tree.address⟩ :: records ts := rfl
  refine ⟨_, hrun, ⟨rfl, hg.nodup, hg.fresh, fun b hb => ?_, fun b hb hba => ?_, ?_, fun l hl => ?_,
    fun r hr => ?_, fun r hr => ?_⟩, ?_⟩
  · rw [hother b fun hba => hnot (hba ▸ hb)]
    exact hg.live b hb
  · rw [hother b hba]
    exact hg.kept b hb
  · rw [hrec, owned_cons]
    exact List.Perm.refl _
  · rw [hlink l hl]
    exact linkAt_congr l hab
  · rw [hrec] at hr
    rcases List.mem_cons.mp hr with rfl | hr
    · refine ⟨?_, ?_, ?_, fun e he => ?_⟩
      · rw [fieldsAt_putLink, fieldsAt_putFields hai, Function.update_self, hf]
      · rw [linkAt_putLink hfi, if_pos rfl, Function.update_self]
      · rw [hlink .next (by simp), hlink .prev (by simp)]
        exact hchain
      · have hlive : m₀.block e.1 ≠ none := by
          rw [block_ne_none_iff, ha.texts e he]
          exact Or.inr rfl
        rw [textAt_putLink, textAt_putFields, textAt_congr (hg.known hlive)]
        exact ha.texts e he
    · have hra : a ≠ r.address := fun har => hnot (har ▸ address_mem_owned hr)
      have hfst : Stored (putFields m₁ a f) r := by
        refine ⟨?_, ?_, ?_, fun e he => ?_⟩
        · rw [fieldsAt_putFields hai, Function.update_of_ne hra.symm]
          exact (hst r hr).fields
        · rw [linkAt_putFields]
          exact (hst r hr).child
        · rw [linkAt_putFields, linkAt_putFields]
          exact (hst r hr).chain
        · rw [textAt_putFields]
          exact (hst r hr).texts e he
      exact hfst.putLink_child hra hfi _
  · rw [hrec] at hr
    rcases List.mem_cons.mp hr with rfl | hr
    · exact hc
    · exact h.const r hr
  · subst hm₁
    cases ts <;> rfl

end Row

end CJSON.Heap
