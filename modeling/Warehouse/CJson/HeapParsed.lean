import Warehouse.CJson.HeapParse

/-!
# What the parser leaves in memory

* `Node.blocks`          the allocations for a value; `length_of_tidy`, they are the blocks of its tree;
* `Tree.Parsed`          a tree that is a value, as the parser makes it;
* `parseString_into`, `parseNumber_into`   a string and a number;
* `IntoValue`, `IntoElement`   what is asked of a parser of values, and of elements;
* `parseList_step`, `parseList_ends`   the loop over the elements; `IntoElement.container`;
* `parseValue_into`      a value is parsed into an item as the parser on values parses it, or nothing
                         changes.
-/

namespace CJSON

/-! ## what is allocated -/

mutual

/-- the allocations for a value, beside that of its item -/
def Node.blocks : Node → ℕ
  | .string _ => 1
  | .array js => blocksItems js
  | .object ms => blocksMembers ms
  | _ => 0

def blocksItems : List Node → ℕ
  | [] => 0
  | j :: js => (1 + j.blocks) + blocksItems js

def blocksMembers : List (CString × Node) → ℕ
  | [] => 0
  | (_, j) :: ms => (1 + (1 + j.blocks)) + blocksMembers ms

end

end CJSON

namespace CJSON.Heap
open Machine Memory Text Numeric

/-- numbers have their integers, only strings have a text, and only members have names -/
structure Face.Tidy (f : Face) (ks : List Content) : Prop where
  int : f.kind = .number → f.valueint = CJSON.valueint f.valuedouble
  text : f.kind ≠ .string → f.valuestring = none
  own : f.stringIsConst = false
  names : f.kind ≠ .object → ∀ k ∈ ks, k.name = none

mutual

def Content.Tidy : Content → Prop
  | .node f ks => f.Tidy ks ∧ tidyAll ks

def tidyAll : List Content → Prop
  | [] => True
  | c :: cs => c.Tidy ∧ tidyAll cs

end

/-- the tree is the value, and as the parser makes it -/
def Tree.Parsed (t : Tree) (j : Node) : Prop := t.Is j ∧ t.content.Tidy

variable {m m' m₀ m₁ : Memory Block} {a w : ℕ} {lab lab' : Label} {t : Tree} {ts : List Tree}
  {X Y : List ℕ}

/-! ## the blocks of a tree that was parsed -/

theorem length_labelOwned (hc : lab.stringIsConst = false) : lab.owned.length =
    lab.valuestring.toList.length + lab.string.toList.length := by
  unfold Label.owned
  rw [hc, List.length_map, List.length_append]
  rfl

theorem length_of_tidy (ts : List Tree) : tidyAll (contents ts) → soundAll (contents ts) →
    (∀ js, toNodes (contents ts) = some js → (∀ c ∈ contents ts, c.name = none) →
      (owned (records ts)).length = blocksItems js) ∧
    ∀ ms, toMembers (contents ts) = some ms → (owned (records ts)).length = blocksMembers ms := by
  induction ts using Tree.inductList with
  | nil =>
    refine fun _ _ => ⟨fun js h _ => ?_, fun ms h => ?_⟩
    · cases h
      rfl
    · cases h
      rfl
  | cons a lab ks ts ihks ihts =>
    intro htidy hsound
    obtain ⟨⟨hf, hks⟩, hts⟩ := htidy
    obtain ⟨⟨hkind, hsks⟩, hsts⟩ := hsound
    obtain ⟨ihitems, ihmembers⟩ := ihks hks hsks
    have hlen : (owned (records (.node a lab ks :: ts))).length = 1 + (lab.valuestring.toList.length +
        (owned (records ks)).length) + lab.string.toList.length + (owned (records ts)).length := by
      show (owned (⟨a, lab, ks.map Tree.address⟩ :: records ks ++ records ts)).length = _
      rw [owned_append, owned_cons, List.length_append, List.length_append, Record.owned,
        List.length_cons, length_labelOwned hf.own]
      omega
    -- what is below the item, and its text
    have hfirst : ∀ j, (Tree.node a lab ks).content.toNode = some j →
        lab.valuestring.toList.length + (owned (records ks)).length = j.blocks := by
      intro j hj
      change Content.toNode (.node lab.face (contents ks)) = some j at hj
      rw [Content.toNode] at hj
      have htext : lab.face.kind ≠ .string → lab.valuestring.toList.length = 0 := fun h => by
        rw [Option.map_eq_none_iff.mp (hf.text h)]
        rfl
      have hleaf : lab.face.kind ≠ .array → lab.face.kind ≠ .object →
          (owned (records ks)).length = 0 := by
        intro h1 h2
        have hnil := (hkind.resolve_left h1).resolve_left h2
        cases ks with
        | nil => rfl
        | cons t ks => cases hnil
      cases hk : lab.face.kind <;> rw [hk] at hj htext hleaf
      case array =>
        obtain ⟨js, hjs, rfl⟩ := Option.map_eq_some_iff.mp hj
        rw [htext (by simp), zero_add]
        exact ihitems js hjs (hf.names (by rw [hk]; simp))
      case object =>
        obtain ⟨ms, hms, rfl⟩ := Option.map_eq_some_iff.mp hj
        rw [htext (by simp), zero_add]
        exact ihmembers ms hms
      case string =>
        obtain ⟨s, hs, rfl⟩ := Option.map_eq_some_iff.mp hj
        obtain ⟨e, he, -⟩ := Option.map_eq_some_iff.mp hs
        rw [hleaf (by simp) (by simp), he]
        rfl
      all_goals
        cases hj
        try rw [htext (by simp), hleaf (by simp) (by simp)]; rfl
    refine ⟨fun js h hnames => ?_, fun ms h => ?_⟩
    · rw [contents, toNodes] at h
      obtain ⟨j, hj, h⟩ := Option.bind_eq_some_iff.mp h
      obtain ⟨js', hjs, rfl⟩ := Option.map_eq_some_iff.mp h
      have hname : lab.string = none :=
        Option.map_eq_none_iff.mp (hnames _ (List.mem_cons_self ..))
      rw [hlen, hfirst j hj, (ihts hts hsts).1 js' hjs fun c hc => hnames c (List.mem_cons_of_mem _ hc),
        hname]
      rfl
    · rw [contents, toMembers] at h
      obtain ⟨name, hname, h⟩ := Option.bind_eq_some_iff.mp h
      obtain ⟨j, hj, h⟩ := Option.bind_eq_some_iff.mp h
      obtain ⟨ms', hms, rfl⟩ := Option.map_eq_some_iff.mp h
      obtain ⟨e, he, -⟩ := Option.map_eq_some_iff.mp hname
      rw [hlen, hfirst j hj, (ihts hts hsts).2 ms' hms, he, blocksMembers]
      simp
      omega

/-- the blocks of a member of an object -/
theorem Tree.Parsed.length_owned {j : Node} (h : t.Parsed j) (hs : t.label.string.isSome = true) :
    (owned t.records).length = 2 + j.blocks := by
  obtain ⟨e, he⟩ := Option.isSome_iff_exists.mp hs
  have hone := (length_of_tidy [t] ⟨h.2, trivial⟩ ⟨h.1.2, trivial⟩).2 [(e.2, j)] (by
    show (t.content.name.bind fun name => t.content.toNode.bind fun j =>
      (toMembers []).map ((name, j) :: ·)) = _
    rw [Tree.name_content, he, show t.content.toNode = some j from h.1.1]
    rfl)
  rw [records_single] at hone
  rw [hone, blocksMembers, blocksMembers]
  omega

/-! ## strings and numbers -/

theorem Stored.of_block {r : Record} (h : Stored m r) (hb : m'.block = m.block) : Stored m' r := by
  obtain ⟨block, answers⟩ := m
  obtain ⟨block', answers'⟩ := m'
  cases hb
  exact ⟨h.fields, h.child, h.chain, h.texts⟩

/-- an item that was given back as it was -/
theorem Fills.of_block (h : Stored m ⟨a, lab, []⟩) (hc : lab.stringIsConst = false)
    (hb : m'.block = m.block) : Fills m m' a lab (.node a lab []) [] := by
  have hr := Fills.refl (h.of_block hb) hc
  exact ⟨rfl, hr.nodup, by simp, by simp, fun b _ _ => congrFun hb b, hr.owned,
    fun l _ => linkAt_congr l (congrFun hb a), hr.stored, hr.const⟩

/-- fields without strings -/
theorem Fills.retype (h : Stored m ⟨a, lab, []⟩) (hc : lab.stringIsConst = false) (lab' : Label)
    (hv : lab'.valuestring = lab.valuestring) (hs : lab'.string = lab.string)
    (hc' : lab'.stringIsConst = false) :
    Fills m (putFields m a lab'.fields) a lab (.node a lab' []) [] := by
  refine Fills.relabel h lab' (Grown.refl m) rfl ?_ (fun e he => h.texts e ?_) hc'
  · rw [List.append_nil]
    unfold Label.owned
    rw [hv, hs, hc, hc']
  · unfold Label.texts at he ⊢
    rwa [hv, hs] at he

/-- an item that got a string -/
def Label.withText (lab : Label) (e : ℕ × CString) : Label :=
  { lab with kind := .string, valuestring := some e }

theorem parseString_into (h : Stored m ⟨a, lab, []⟩) (hc : lab.stringIsConst = false)
    (hv : lab.valuestring = none) (rest : Bytes) :
    ∃ o m', parseStringInto a rest m = .ok (o, m') ∧
      ((∃ s r k, parseString rest = some (s, r) ∧ o = some r ∧
          Fills m m' a lab (.node a (lab.withText (k, s)) []) [k] ∧
          ∀ j, Supply m (1 + j) → Supply m' j) ∨
        o = none ∧ m'.block = m.block ∧
          ∀ s r, parseString rest = some (s, r) → ¬ Supply m 1) := by
  cases rest with
  | nil => exact ⟨none, m, rfl, Or.inr ⟨rfl, rfl, fun s r hp => by cases hp⟩⟩
  | cons c rest =>
    by_cases hq : c = 34
    · subst hq
      have hparse : parseString (34 :: rest) = (closingQuote rest).bind fun e =>
          (unescape e.1).map fun out => (CString.ofBuffer out, e.2) := rfl
      rw [hparse]
      simp only [parseStringInto, if_true]
      cases hb : closingQuote rest with
      | none => exact ⟨none, m, rfl, Or.inr ⟨rfl, rfl, fun s r hp => by cases hp⟩⟩
      | some e =>
        obtain ⟨body, r⟩ := e
        rcases alloc_cases (Block.text (CString.ofBuffer [])) m with
          ⟨m', hrun, hblock, hno⟩ | ⟨k, m₁, hrun, hk, hm₁, hs⟩
        · exact ⟨none, m', bind_of_ok hrun _, Or.inr ⟨rfl, hblock, fun _ _ _ => hno⟩⟩
        · have hlive : m₁.block k = some (.text (CString.ofBuffer [])) := by
            rw [hm₁, Function.update_self]
          cases hu : unescape body with
          | none =>
            refine ⟨none, ⟨Function.update m₁.block k none, m₁.answers⟩, ?_,
              Or.inr ⟨rfl, ?_, fun s r hp => ?_⟩⟩
            · refine (bind_of_ok hrun _).trans ?_
              simp only [hu]
              exact bind_of_ok (free_of_block hlive) _
            · show Function.update m₁.block k none = m.block
              rw [hm₁, Function.update_idem, ← hk, Function.update_eq_self]
            · rw [Option.bind_some, hu] at hp
              cases hp
          | some out =>
            -- the buffer with the text in it
            generalize hm₂ : (⟨Function.update m₁.block k (some (.text (CString.ofBuffer out))),
              m₁.answers⟩ : Memory Block) = m₂
            have hm₂b : m₂.block = Function.update m.block k (some (.text (CString.ofBuffer out))) := by
              rw [← hm₂]
              show Function.update m₁.block k _ = _
              rw [hm₁, Function.update_idem]
            have hg : Grown m m₂ [k] := Grown.of_update hk hm₂b
            have hkt : textAt m₂ k = some (CString.ofBuffer out) :=
              text_of_block (by rw [hm₂b, Function.update_self])
            have hi : itemAt m₂ = itemAt m := by
              funext b
              by_cases hbk : b = k
              · rw [hbk, itemAt_of_text hkt, itemAt_of_free hk]
              · exact itemAt_congr (by rw [hm₂b, Function.update_of_ne hbk])
            have hfields : fieldsAt m₂ a = some lab.fields := by
              rw [fieldsAt_of_itemAt hi]
              exact h.fields
            have ha : IsItem m₂ a := isItem_of_fields hfields
            have hf : Fills m (putFields m₂ a (lab.withText (k, CString.ofBuffer out)).fields) a lab
                (.node a (lab.withText (k, CString.ofBuffer out)) []) [k] := by
              refine Fills.relabel h _ hg hi ?_ (fun e he => ?_) hc
              · unfold Label.withText Label.owned
                rw [hv, hc]
                cases lab.string with
                | none => exact List.Perm.refl _
                | some e => exact List.Perm.swap ..
              · rcases List.mem_append.mp he with he | he
                · cases List.mem_singleton.mp he
                  exact hkt
                · have hte := h.texts e (List.mem_append_right _ he)
                  have hel : m.block e.1 ≠ none := by
                    rw [block_ne_none_iff, hte]
                    exact Or.inr rfl
                  rw [textAt_congr (hg.known hel)]
                  exact hte
            refine ⟨some r, _, ?_, Or.inl ⟨_, r, k, by rw [Option.bind_some, hu]; rfl, rfl, hf,
              fun j hj => ?_⟩⟩
            · refine (bind_of_ok hrun _).trans ?_
              simp only [hu]
              refine (bind_of_ok (store_of_block hlive) _).trans ?_
              rw [hm₂]
              refine (bind_of_ok (fields_eq hfields) _).trans ?_
              have hset : ({ (lab.fields.setType .string) with valuestring := some k } : Fields) =
                  (lab.withText (k, CString.ofBuffer out)).fields := by
                unfold Fields.setType Label.withText Label.fields
                simp [hc]
              rw [hset]
              exact bind_of_ok (setFields_eq ha _) _
            · refine supply_putFields ?_ ha
              rw [← hm₂]
              refine (hs j hj).congr rfl fun b hb => ?_
              have hbk : b ≠ k := fun hbk => by
                rw [hbk, hlive] at hb
                cases hb
              exact (Function.update_of_ne hbk ..).trans hb
    · have hparse : parseString (c :: rest) = none := if_neg hq
      refine ⟨none, m, ?_, Or.inr ⟨rfl, rfl, fun s r hp => ?_⟩⟩
      · show (if c = 34 then _ else pure none : Prog Block (Option Bytes)) m = _
        rw [if_neg hq]
        rfl
      · rw [hparse] at hp
        cases hp

/-! ## what is asked of a parser -/

/-- the item gets this value, or the memory is as it was -/
def Becomes (into : ℕ → Prog Block (Option Bytes)) (m : Memory Block) (a : ℕ) (lab : Label)
    (value : Option (Node × Bytes)) : Prop :=
  ∃ o m', Ends into m (o, m') ∧
    ((∃ j r t X, value = some (j, r) ∧ o = some r ∧ Fills m m' a lab t X ∧ t.Parsed j ∧
        t.label.string = lab.string ∧ ∀ k, Supply m (j.blocks + k) → Supply m' k) ∨
      o = none ∧ m'.block = m.block ∧ ∀ j r, value = some (j, r) → ¬ Supply m j.blocks)

/-- a value is parsed into an item that has a name at most -/
def IntoValue (into : ℕ → ℕ → Bytes → Prog Block (Option Bytes))
    (value : Bytes → Option (Node × Bytes)) : Prop :=
  ∀ (a : ℕ) (lab : Label) (rest : Bytes) (m : Memory Block), Stored m ⟨a, lab, []⟩ →
    lab.stringIsConst = false → lab.valuestring = none →
    Becomes (fun n => into n a rest) m a lab (value rest)

/-- an element is parsed into a new item, which can be deleted also where that fails -/
def IntoElement {β : Type} (into : ℕ → ℕ → Bytes → Prog Block (Option Bytes))
    (element : Bytes → Option (β × Bytes)) (holds : Tree → β → Prop) (cost : β → ℕ) : Prop :=
  ∀ (a : ℕ) (rest : Bytes) (m : Memory Block), Stored m ⟨a, plain .invalid, []⟩ →
    ∃ o m' t X, Ends (fun n => into n a rest) m (o, m') ∧ Fills m m' a (plain .invalid) t X ∧
      ((∃ x r, element rest = some (x, r) ∧ o = some r ∧ holds t x ∧
          ∀ k, Supply m (cost x + k) → Supply m' k) ∨
        o = none ∧ ∀ x r, element rest = some (x, r) → ¬ Supply m (cost x))

/-- the fields of an item are read, and written with another type -/
theorem setFields_run (h : Stored m ⟨a, lab, []⟩) (lab' : Label) {f : Fields → Fields}
    (hf : f lab.fields = lab'.fields) (r : Option Bytes) : (do
      setFields a (f (← fields a))
      return r : Prog Block (Option Bytes)) m = .ok (r, putFields m a lab'.fields) := by
  refine (bind_of_ok (fields_eq h.fields) _).trans ?_
  rw [hf]
  exact bind_of_ok (setFields_eq h.isItem _) _

/-- a value without children and strings -/
theorem becomes_leaf (h : Stored m ⟨a, lab, []⟩) (hc : lab.stringIsConst = false)
    (ht : lab.valuestring = none) (lab' : Label) (hv : lab'.valuestring = lab.valuestring) (hs : lab'.string = lab.string)
    (hc' : lab'.stringIsConst = false) {j : Node} (hj : (Tree.node a lab' []).value = some j)
    (hi : lab'.kind = .number → lab'.valueint = CJSON.valueint lab'.valuedouble)
    (hb : j.blocks = 0) {f : Fields → Fields} (hf : f lab.fields = lab'.fields) (r : Bytes) :
    Becomes (fun _ => do
      setFields a (f (← fields a))
      return some r) m a lab (some (j, r)) := by
  refine ⟨some r, putFields m a lab'.fields, Ends.of_eq fun _ => setFields_run h lab' hf _,
    Or.inl ⟨j, r, _, [], rfl, rfl, Fills.retype h hc lab' hv hs hc',
      ⟨⟨hj, Or.inr (Or.inr rfl), trivial⟩, ⟨hi, fun _ => ?_, hc', by simp [contents]⟩, trivial⟩, hs,
      fun k hk => ?_⟩⟩
  · show lab'.valuestring.map Prod.snd = none
    rw [hv, ht]
    rfl
  · rw [hb, zero_add] at hk
    exact supply_putFields hk h.isItem

/-- nothing is parsed -/
theorem becomes_nothing (m : Memory Block) (a : ℕ) (lab : Label) :
    Becomes (fun _ => pure none) m a lab none :=
  ⟨none, m, Ends.of_eq fun _ => rfl, Or.inr ⟨rfl, rfl, fun _ _ h => by cases h⟩⟩

theorem Label.fields_setType (hc : lab.stringIsConst = false) (kind : Kind) :
    lab.fields.setType kind = ({ lab with kind := kind } : Label).fields := by
  unfold Fields.setType Label.fields
  simp [hc]

theorem parseNumber_into : IntoValue (fun _ => parseNumberInto) parseNumber := by
  intro a lab rest m h hc hv
  have hparse : parseNumber rest = (strtod (numberBytes rest)).map fun e =>
      (.number e.1, rest.drop ((numberBytes rest).length - e.2.length)) := rfl
  show Becomes (fun _ => parseNumberInto a rest) m a lab (parseNumber rest)
  rw [hparse]
  unfold parseNumberInto
  cases strtod (numberBytes rest) with
  | none => exact becomes_nothing m a lab
  | some e =>
    refine becomes_leaf (f := fun f => { f.setType .number with
      valuedouble := e.1, valueint := CJSON.valueint e.1 }) h hc hv
      { lab with kind := .number, valuedouble := e.1, valueint := CJSON.valueint e.1 } rfl rfl hc rfl
      (fun _ => rfl) rfl ?_ _
    show ({ lab.fields.setType .number with valuedouble := _, valueint := _ } : Fields) = _
    rw [Label.fields_setType hc]
    rfl

theorem parseString_value : IntoValue (fun _ => parseStringInto) fun rest =>
    (parseString rest).map fun e => (.string e.1, e.2) := by
  intro a lab rest m h hc hv
  obtain ⟨o, m', hrun, hres⟩ := parseString_into h hc hv rest
  refine ⟨o, m', Ends.of_eq fun _ => hrun, ?_⟩
  rcases hres with ⟨s, r, k, hp, ho, hf, hs⟩ | ⟨ho, hb, hno⟩
  · exact Or.inl ⟨.string s, r, _, _, congrArg _ hp, ho, hf,
      ⟨⟨rfl, Or.inr (Or.inr rfl), trivial⟩, ⟨by simp [Label.face, Label.withText],
        by simp [Label.face, Label.withText], hc, by simp [contents]⟩, trivial⟩, rfl, hs⟩
  · refine Or.inr ⟨ho, hb, fun j r hp => ?_⟩
    obtain ⟨e, he, hej⟩ := Option.map_eq_some_iff.mp hp
    cases hej
    exact hno e.1 e.2 he

/-! ## the loop over the elements -/

section
variable {β : Type} {into : ℕ → ℕ → Bytes → Prog Block (Option Bytes)}
  {element : Bytes → Option (β × Bytes)} {holds : Tree → β → Prop} {cost : β → ℕ} {close : UInt8}

/-- the loop on values -/
def elements (element : Bytes → Option (β × Bytes)) (close : UInt8) :
    ℕ → Bytes → Option (List β × Bytes)
  | 0, _ => none
  | fuel + 1, rest =>
    (element rest).bind fun e =>
      match skipWhitespace e.2 with
      | [] => none
      | c :: r =>
        if c = 44 then (elements element close fuel r).map fun es => (e.1 :: es.1, es.2)
        else if c = close then some ([e.1], r)
        else none

/-- the allocations for a list of elements -/
def costs (cost : β → ℕ) (xs : List β) : ℕ := (xs.map fun x => 1 + cost x).sum

/-- what the loop on values went through -/
theorem elements_cases {fuel : ℕ} {rest r : Bytes} {xs : List β}
    (h : elements element close fuel rest = some (xs, r)) :
    ∃ x r₁ c r₂ f, fuel = f + 1 ∧ element rest = some (x, r₁) ∧ skipWhitespace r₁ = c :: r₂ ∧
      ((c = 44 ∧ ∃ ys, elements element close f r₂ = some (ys, r) ∧ xs = x :: ys) ∨
        c ≠ 44 ∧ c = close ∧ xs = [x] ∧ r = r₂) := by
  cases fuel with
  | zero => cases h
  | succ f =>
    obtain ⟨⟨x, r₁⟩, hx, h⟩ := Option.bind_eq_some_iff.mp h
    cases hs : skipWhitespace r₁ with
    | nil =>
      dsimp only at h
      rw [hs] at h
      cases h
    | cons c r₂ =>
      dsimp only at h
      rw [hs] at h
      refine ⟨x, r₁, c, r₂, f, rfl, hx, hs, ?_⟩
      dsimp only at h
      split_ifs at h with hc hcl
      · obtain ⟨es, hes, he⟩ := Option.map_eq_some_iff.mp h
        cases he
        exact Or.inl ⟨hc, es.1, hes, rfl⟩
      · cases h
        exact Or.inr ⟨hc, hcl, rfl, rfl⟩

theorem length_skipWhitespace {r : Bytes} : (skipWhitespace r).length ≤ r.length := by
  obtain ⟨w, hw, -⟩ := skipWhitespace_sound (s := r) rfl
  have hlen := congrArg List.length hw
  rw [List.length_append] at hlen
  omega

theorem costs_cons (x : β) (xs : List β) : costs cost (x :: xs) = 1 + cost x + costs cost xs := by
  rw [costs, List.map_cons, List.sum_cons, ← costs]

/-- where the first allocation, or the one for the first element, is refused -/
theorem costs_refused {rest r : Bytes} {fuel : ℕ} {xs : List β}
    (he : elements element close fuel rest = some (xs, r))
    (hno : ∀ x r, element rest = some (x, r) → ¬ Supply m (1 + cost x)) :
    ¬ Supply m (costs cost xs) := by
  intro hall
  obtain ⟨x, r₁, c, r₂, f, -, hx, -, hmore⟩ := elements_cases he
  refine hno x r₁ hx ?_
  rcases hmore with ⟨-, ys, -, rfl⟩ | ⟨-, -, rfl, -⟩
  · rw [costs_cons] at hall
    exact hall.mono
  · exact hall

/-- the loop after an element -/
def parseRest (element : ℕ → Bytes → Prog Block (Option Bytes)) (close : UInt8) (n : ℕ)
    (head current : Option ℕ) : Option Bytes → Prog Block (Option ℕ × Option ℕ × Option Bytes)
  | none => return (head, current, none)
  | some r =>
    match skipWhitespace r with
    | [] => return (head, current, none)
    | c :: r =>
      if c = 44 then parseList element close n head current r
      else return (head, current, if c = close then some r else none)

/-- **One element.**  There is one more item in the list, or none was allocated. -/
theorem parseList_step (close : UInt8) (hE : IntoElement into element holds cost) (rest : Bytes)
    (hrow : Row m₀ m ts) :
    (∃ m', (∀ k n, parseList (into k) close (n + 1) (ts.map Tree.address).head?
        (ts.map Tree.address).getLast? rest m = .ok (((ts.map Tree.address).head?,
          (ts.map Tree.address).getLast?, none), m')) ∧ Row m₀ m' ts ∧ ¬ Supply m 1) ∨
      ∃ t o m₁ N, Row m₀ m₁ (ts ++ [t]) ∧ (∀ k ≥ N, ∀ n, parseList (into k) close (n + 1)
          (ts.map Tree.address).head? (ts.map Tree.address).getLast? rest m =
          parseRest (into k) close n ((ts ++ [t]).map Tree.address).head?
            ((ts ++ [t]).map Tree.address).getLast? o m₁) ∧
        ((∃ x r, element rest = some (x, r) ∧ o = some r ∧ holds t x ∧
            ∀ k, Supply m (1 + cost x + k) → Supply m₁ k) ∨
          o = none ∧ ∀ x r, element rest = some (x, r) → ¬ Supply m (1 + cost x)) := by
  rcases alloc_cases (Block.item blank) m with ⟨m', hrun, hblock, hno⟩ | ⟨w, m₁, hrun, hw, hm₁, hs⟩
  · refine Or.inl ⟨m', fun k n => ?_, ⟨hrow.grown.congr (fun b hb => ?_)
      (fun b _ => congrFun hblock b), hrow.segment.congr (fun b _ => linkAt_congr _ (congrFun hblock b))
      (fun b _ => linkAt_congr _ (congrFun hblock b)), fun r hr => (hrow.stored r hr).of_block hblock,
      hrow.const⟩, hno⟩
    · rw [parseList]
      exact bind_of_ok hrun _
    · rw [hblock]
      exact hrow.grown.live b hb
  · obtain ⟨hattach, hrow₂⟩ := hrow.snoc hw hm₁
    generalize hm₂ : Row.tie (ts.map Tree.address).getLast? w m₁ = m₂ at hattach hrow₂
    have hs₂ : ∀ k, Supply m (1 + k) → Supply m₂ k := by
      intro k hk
      rw [← hm₂]
      cases hlast : (ts.map Tree.address).getLast? with
      | none => exact hs k hk
      | some last =>
        have hwi : IsItem m₁ w := by
          unfold IsItem
          rw [item_of_block (by rw [hm₁, Function.update_self])]
          rfl
        have hlast : IsItem m last := hrow.isItem_of_root (List.mem_of_getLast? hlast)
        have hlw : last ≠ w := fun hlw => by
          rw [hlw, IsItem, itemAt_of_free hw] at hlast
          cases hlast
        have hli : IsItem m₁ last := by
          refine (isItem_congr ?_).mpr hlast
          rw [hm₁, Function.update_of_ne hlw]
        exact supply_putLink (supply_putLink (hs k hk) hli) (by simpa using hwi)
    have hwst : Stored m₂ ⟨w, plain .invalid, []⟩ := by
      refine hrow₂.stored _ ?_
      rw [records_append]
      exact List.mem_append_right _ (List.mem_singleton_self _)
    obtain ⟨o, m₃, t, X, ⟨N, helem⟩, hfill, hres⟩ := hE w rest m₂ hwst
    refine Or.inr ⟨t, o, m₃, N, hrow₂.fill hfill, fun k hk n => ?_, ?_⟩
    · have hlast : ((ts ++ [t]).map Tree.address).getLast? = some w := by
        rw [List.map_append, List.map_cons, List.map_nil, List.getLast?_concat, hfill.address]
      have hhead : ((ts ++ [Tree.node w (plain .invalid) []]).map Tree.address).head? =
          ((ts ++ [t]).map Tree.address).head? := by
        rw [List.map_append, List.map_append, List.map_cons, List.map_cons, hfill.address]
        rfl
      rw [parseList, hlast]
      refine (bind_of_ok hrun _).trans ((bind_of_ok hattach _).trans ?_)
      rw [hhead]
      exact (bind_of_ok (helem k hk) _).trans (by cases o <;> rfl)
    · rcases hres with ⟨x, r, hx, ho, hholds, hsup⟩ | ⟨ho, hno⟩
      · refine Or.inl ⟨x, r, hx, ho, hholds, fun k hk => hsup k (hs₂ _ ?_)⟩
        rwa [add_assoc] at hk
      · exact Or.inr ⟨ho, fun x r hx hall => hno x r hx (hs₂ _ hall)⟩

/-- **The loop over the elements.**  Each element gets a new item behind the last one; where the loop
fails, the items that it made are all in the list. -/
theorem parseList_ends (hE : IntoElement into element holds cost)
    (hlen : ∀ rest x r, element rest = some (x, r) → r.length ≤ rest.length) (fuel : ℕ) :
    ∀ (rest : Bytes) (m₀ m : Memory Block) (ts : List Tree), rest.length ≤ fuel → Row m₀ m ts →
      ∃ o m' us, (∃ N, ∀ k ≥ N, ∀ n ≥ N, parseList (into k) close n (ts.map Tree.address).head?
          (ts.map Tree.address).getLast? rest m = .ok ((((ts ++ us).map Tree.address).head?,
            ((ts ++ us).map Tree.address).getLast?, o), m')) ∧ Row m₀ m' (ts ++ us) ∧
        ((∃ xs r, elements element close fuel rest = some (xs, r) ∧ o = some r ∧
            List.Forall₂ holds us xs ∧ ∀ k, Supply m (costs cost xs + k) → Supply m' k) ∨
          o = none ∧ ∀ xs r, elements element close fuel rest = some (xs, r) →
            ¬ Supply m (costs cost xs)) := by
  induction fuel using Nat.strong_induction_on with
  | _ fuel ih =>
    intro rest m₀ m ts hfuel hrow
    have hpos : ∀ n ≥ 1, ∃ i, n = i + 1 := fun n hn => ⟨n - 1, by omega⟩
    rcases parseList_step close hE rest hrow with ⟨m', hrun, hrow', hno⟩ |
      ⟨t, o, m₁, N, hrow₁, hrun, hres⟩
    · refine ⟨none, m', [], ⟨1, fun k _ n hn => ?_⟩, ?_, Or.inr ⟨rfl, fun xs r he =>
        costs_refused he fun x _ _ hall => hno hall.mono⟩⟩
      · obtain ⟨n, rfl⟩ := hpos n hn
        rw [List.append_nil]
        exact hrun k n
      · rwa [List.append_nil]
    · -- the loop ends here, with one more item
      have hstop : ∀ (o' : Option Bytes), (∀ k n, parseRest (into k) close n
          ((ts ++ [t]).map Tree.address).head? ((ts ++ [t]).map Tree.address).getLast? o m₁ =
          .ok ((((ts ++ [t]).map Tree.address).head?, ((ts ++ [t]).map Tree.address).getLast?, o'),
            m₁)) → ∃ N, ∀ k ≥ N, ∀ n ≥ N, parseList (into k) close n (ts.map Tree.address).head?
            (ts.map Tree.address).getLast? rest m = .ok ((((ts ++ [t]).map Tree.address).head?,
              ((ts ++ [t]).map Tree.address).getLast?, o'), m₁) := by
        intro o' ho'
        refine ⟨N + 1, fun k hk n hn => ?_⟩
        obtain ⟨n, rfl⟩ := hpos n (by omega)
        rw [hrun k (by omega) n]
        exact ho' k n
      rcases hres with ⟨x, r, hx, rfl, hholds, hsup⟩ | ⟨rfl, hno⟩
      · cases hsk : skipWhitespace r with
        | nil =>
          refine ⟨none, m₁, [t], hstop none fun k n => ?_, hrow₁, Or.inr ⟨rfl, fun xs r' he => ?_⟩⟩
          · unfold parseRest
            simp only [hsk]
            rfl
          · obtain ⟨x', r₁, c, r₂, f, -, hx', hsk', -⟩ := elements_cases he
            rw [hx] at hx'
            cases hx'
            rw [hsk] at hsk'
            cases hsk'
        | cons c r₂ =>
          have hr₂ : r₂.length < fuel := by
            have h1 := length_skipWhitespace (r := r)
            have h2 := hlen rest x r hx
            rw [hsk, List.length_cons] at h1
            omega
          obtain ⟨f, rfl⟩ := hpos fuel (by omega)
          have helems : elements element close (f + 1) rest =
              if c = 44 then (elements element close f r₂).map fun es => (x :: es.1, es.2)
              else if c = close then some ([x], r₂) else none := by
            rw [elements, hx, Option.bind_some]
            simp only [hsk]
          rw [helems]
          by_cases hc : c = 44
          · obtain ⟨o, m', us, ⟨N', hloop⟩, hrow', hres⟩ := ih f (by omega) r₂ m₀ m₁ (ts ++ [t])
              (by omega) hrow₁
            rw [List.append_assoc] at hloop hrow'
            refine ⟨o, m', t :: us, ⟨max N N' + 1, fun k hk n hn => ?_⟩, hrow', ?_⟩
            · obtain ⟨n, rfl⟩ := hpos n (by omega)
              rw [hrun k (by omega) n]
              unfold parseRest
              simp only [hsk, if_pos hc]
              exact hloop k (by omega) n (by omega)
            · rw [if_pos hc]
              rcases hres with ⟨xs, r', he, ho, hall, hsup'⟩ | ⟨ho, hno⟩
              · refine Or.inl ⟨x :: xs, r', by rw [he]; rfl, ho, .cons hholds hall, fun k hk => ?_⟩
                rw [costs_cons, add_assoc] at hk
                exact hsup' k (hsup _ hk)
              · refine Or.inr ⟨ho, fun xs r' he hall => ?_⟩
                obtain ⟨es, hes, he⟩ := Option.map_eq_some_iff.mp he
                cases he
                rw [costs_cons] at hall
                exact hno es.1 es.2 hes (hsup _ hall)
          · rw [if_neg hc]
            refine ⟨if c = close then some r₂ else none, m₁, [t], hstop _ fun k n => ?_, hrow₁, ?_⟩
            · unfold parseRest
              simp only [hsk, if_neg hc]
              rfl
            · by_cases hcl : c = close
              · exact Or.inl ⟨[x], r₂, if_pos hcl, if_pos hcl, .cons hholds .nil, hsup⟩
              · refine Or.inr ⟨if_neg hcl, fun xs r' he => ?_⟩
                rw [if_neg hcl] at he
                cases he
      · exact ⟨none, m₁, [t], hstop none fun k n => rfl, hrow₁,
          Or.inr ⟨rfl, fun xs r' he => costs_refused he hno⟩⟩

/-! ## arrays and objects -/

/-- an array or an object on values, after the opening bracket -/
def container (mk : List β → Node) (element : Bytes → Option (β × Bytes)) (close : UInt8)
    (rest : Bytes) : Option (Node × Bytes) :=
  match skipWhitespace rest with
  | [] => none
  | c :: r =>
    if c = close then some (mk [], r)
    else (elements element close rest.length (c :: r)).map fun es => (mk es.1, es.2)

/-- **An array or an object.**  The items are hung below their item, or none of them is left. -/
theorem IntoElement.container (hE : IntoElement into element holds cost)
    (hlen : ∀ rest x r, element rest = some (x, r) → r.length ≤ rest.length) (kind : Kind)
    {mk : List β → Node} (hblocks : ∀ xs, (mk xs).blocks = costs cost xs)
    (hvalue : ∀ (a : ℕ) (lab : Label) (us : List Tree) (xs : List β), lab.stringIsConst = false →
      lab.valuestring = none → List.Forall₂ holds us xs → (Tree.node a { lab with kind := kind } us).Parsed (mk xs)) :
    IntoValue (fun n a rest => parseContainer kind (into n) close n a rest)
      (Heap.container mk element close) := by
  intro a lab rest m h hc hv
  -- the list is hung below the item
  have hfinish : ∀ {m₁ : Memory Block} {us : List Tree}, Row m m₁ us → ∃ m', finish kind a
      (us.map Tree.address).head? (us.map Tree.address).getLast? m₁ = .ok ((), m') ∧
      Fills m m' a lab (.node a { lab with kind := kind } us) (owned (records us)) ∧
      ∀ k, Supply m₁ k → Supply m' k := by
    intro m₁ us hrow
    obtain ⟨m', hrun, hf, hans⟩ := hrow.finish h hc kind
    refine ⟨m', hrun, hf, fun k hk => hk.congr hans fun b hb => ?_⟩
    have hbX : b ∉ owned (records us) := fun hmem => hrow.grown.live b hmem hb
    have hba : b ≠ a := fun hba => by
      have hlive := h.live (List.mem_cons_self ..)
      rw [← hrow.grown.kept a fun hmem => hlive (hrow.grown.fresh a hmem)] at hlive
      exact hlive (hba ▸ hb)
    rw [hf.kept b hbX hba, ← hrow.grown.kept b hbX]
    exact hb
  unfold Heap.container
  cases hsk : skipWhitespace rest with
  | nil =>
    refine ⟨none, m, Ends.of_eq fun n => ?_, Or.inr ⟨rfl, rfl, fun j r hp => by cases hp⟩⟩
    show parseContainer kind (into n) close n a rest m = _
    unfold parseContainer
    rw [hsk]
    rfl
  | cons c r =>
    by_cases hcl : c = close
    · obtain ⟨m', hrun, hf, hsup⟩ := hfinish (Row.nil m)
      refine ⟨some r, m', Ends.of_eq fun n => ?_, Or.inl ⟨mk [], r, _, _, ?_, rfl, hf,
        hvalue a lab [] [] hc hv .nil, rfl, fun k hk => ?_⟩⟩
      · show parseContainer kind (into n) close n a rest m = _
        unfold parseContainer
        rw [hsk]
        simp only [if_pos hcl]
        exact bind_of_ok hrun _
      · exact if_pos hcl
      · rw [hblocks] at hk
        refine hsup k ?_
        have hzero : costs cost ([] : List β) = 0 := rfl
        rwa [hzero, zero_add] at hk
    · have hle : (c :: r).length ≤ rest.length := by
        rw [← hsk]
        exact length_skipWhitespace
      obtain ⟨o, m₁, us, ⟨N, hloop⟩, hrow, hres⟩ :=
        parseList_ends hE hlen rest.length (c :: r) m m [] hle (Row.nil m)
      rw [List.nil_append] at hrow hloop
      rcases hres with ⟨xs, r', he, rfl, hall, hsup⟩ | ⟨rfl, hno⟩
      · obtain ⟨m', hrun, hf, hsup'⟩ := hfinish hrow
        refine ⟨some r', m', ⟨N, fun n hn => ?_⟩, Or.inl ⟨mk xs, r', _, _, ?_, rfl, hf,
          hvalue a lab us xs hc hv hall, rfl, fun k hk => hsup' k (hsup k ?_)⟩⟩
        · show parseContainer kind (into n) close n a rest m = _
          unfold parseContainer
          rw [hsk]
          simp only [if_neg hcl]
          exact (bind_of_ok (hloop n hn n hn) _).trans (bind_of_ok hrun _)
        · refine (if_neg hcl).trans ?_
          rw [he]
          rfl
        · rwa [hblocks] at hk
      · obtain ⟨m', hdel, hblock⟩ := hrow.delete
        refine ⟨none, m', ⟨max N (records us).length, fun n hn => ?_⟩, Or.inr ⟨rfl, hblock,
          fun j r' hp => ?_⟩⟩
        · show parseContainer kind (into n) close n a rest m = _
          unfold parseContainer
          rw [hsk]
          simp only [if_neg hcl]
          refine (bind_of_ok (hloop n (le_of_max_le_left hn) n (le_of_max_le_left hn)) _).trans ?_
          exact bind_of_ok (hdel n (le_of_max_le_right hn)) _
        · obtain ⟨es, hes, hp⟩ := Option.map_eq_some_iff.mp ((if_neg hcl).symm.trans hp)
          cases hp
          rw [hblocks]
          exact hno es.1 es.2 hes

end

/-! ## values -/

variable {into : ℕ → ℕ → Bytes → Prog Block (Option Bytes)} {value : Bytes → Option (Node × Bytes)}

/-- an element of an array -/
theorem IntoValue.element (hV : IntoValue into value) :
    IntoElement (fun n a rest => into n a (skipWhitespace rest)) (fun rest => value (skipWhitespace rest))
      (fun t j => t.Parsed j ∧ t.label.string = none) Node.blocks := by
  intro a rest m h
  obtain ⟨o, m', hrun, hres⟩ := hV a (plain .invalid) (skipWhitespace rest) m h rfl rfl
  rcases hres with ⟨j, r, t, X, hp, ho, hf, his, hname, hs⟩ | ⟨ho, hb, hno⟩
  · exact ⟨o, m', t, X, hrun, hf, Or.inl ⟨j, r, hp, ho, ⟨his, hname⟩, hs⟩⟩
  · exact ⟨o, m', _, [], hrun, Fills.of_block h rfl hb, Or.inr ⟨ho, hno⟩⟩

/-- a member, unless nothing is left of the input -/
def memberOf (value : Bytes → Option (Node × Bytes)) : Bytes → Option ((CString × Node) × Bytes)
  | [] => none
  | c :: rest => parseMember value (c :: rest)

/-- a tree that is a member: its name, and its value -/
def Tree.IsMember (t : Tree) (e : CString × Node) : Prop :=
  t.label.string.map Prod.snd = some e.1 ∧ t.Parsed e.2

/-- the label of a member whose value is not there yet -/
def awaiting (e : ℕ × CString) : Label := { plain .string with string := some e }

/-- a name becomes the name of its item -/
theorem Fills.name {k : ℕ} {s : CString}
    (h : Fills m m₁ a (plain .invalid) (.node a ((plain .invalid).withText (k, s)) []) [k]) :
    Fills m (putFields m₁ a (awaiting (k, s)).fields) a (plain .invalid)
      (.node a (awaiting (k, s)) []) [k] := by
  refine h.trans (Y := []) (Fills.relabel h.leaf _ (Grown.refl m₁) rfl (List.Perm.refl _)
    (fun e he => h.leaf.texts e ?_) rfl)
  exact he

theorem IntoValue.member (hV : IntoValue into value) :
    IntoElement (fun n => parseMemberInto (into n)) (memberOf value) Tree.IsMember
      fun e => 1 + e.2.blocks := by
  intro a rest m h
  cases rest with
  | nil =>
    exact ⟨none, m, _, [], Ends.of_eq fun _ => rfl, Fills.refl h rfl,
      Or.inr ⟨rfl, fun x r hx => by cases hx⟩⟩
  | cons c rest =>
    obtain ⟨o, m₁, hrun, hres⟩ := parseString_into h rfl rfl (skipWhitespace (c :: rest))
    rcases hres with ⟨s, r, k, hp, rfl, hf, hs⟩ | ⟨rfl, hb, hno⟩
    · have hmember : memberOf value (c :: rest) = match skipWhitespace r with
          | [] => none
          | d :: r => if d = 58 then (value (skipWhitespace r)).map fun e => ((s, e.1), e.2)
            else none := by
        show (parseString (skipWhitespace (c :: rest))).bind _ = _
        rw [hp]
        rfl
      have hstep : ∀ n, parseMemberInto (into n) a (c :: rest) m = (match skipWhitespace r with
          | [] => return none
          | d :: r => if d = 58 then into n a (skipWhitespace r) else return none :
          Prog Block (Option Bytes)) (putFields m₁ a (awaiting (k, s)).fields) := fun n =>
        (bind_of_ok hrun _).trans ((bind_of_ok (fields_eq hf.leaf.fields) _).trans
          (bind_of_ok (setFields_eq hf.leaf.isItem _) _))
      have hf₂ := hf.name
      have hs₂ : ∀ i, Supply m (1 + i) → Supply (putFields m₁ a (awaiting (k, s)).fields) i :=
        fun i hi => supply_putFields (hs i hi) hf.leaf.isItem
      generalize putFields m₁ a (awaiting (k, s)).fields = m₂ at hstep hf₂ hs₂
      rw [hmember]
      cases hsk : skipWhitespace r with
      | nil =>
        refine ⟨none, m₂, _, [k], Ends.of_eq fun n => ?_, hf₂, Or.inr ⟨rfl, fun x r hx => by cases hx⟩⟩
        show parseMemberInto (into n) a (c :: rest) m = _
        rw [hstep, hsk]
        rfl
      | cons d r₂ =>
        simp only [hsk] at hstep
        by_cases hd : d = 58
        · obtain ⟨o, m', ⟨N, hval⟩, hres⟩ :=
            hV a (awaiting (k, s)) (skipWhitespace r₂) m₂ hf₂.leaf rfl rfl
          have hends : Ends (fun n => parseMemberInto (into n) a (c :: rest)) m (o, m') := by
            refine ⟨N, fun n hn => (hstep n).trans ?_⟩
            rw [if_pos hd]
            exact hval n hn
          simp only [if_pos hd]
          rcases hres with ⟨j, r', t, X, hj, ho, hft, his, hname, hs'⟩ | ⟨ho, hb, hno⟩
          · refine ⟨o, m', t, [k] ++ X, hends, hf₂.trans hft,
              Or.inl ⟨(s, j), r', by rw [hj]; rfl, ho, ⟨by rw [hname]; rfl, his⟩, fun i hi => ?_⟩⟩
            rw [add_assoc] at hi
            exact hs' i (hs₂ _ hi)
          · refine ⟨o, m', _, [k] ++ [], hends, hf₂.trans (Fills.of_block hf₂.leaf rfl hb),
              Or.inr ⟨ho, fun x r' hx hall => ?_⟩⟩
            obtain ⟨e, he, hx⟩ := Option.map_eq_some_iff.mp hx
            cases hx
            exact hno e.1 e.2 he (hs₂ _ hall)
        · refine ⟨none, m₂, _, [k], Ends.of_eq fun n => ?_, hf₂, Or.inr ⟨rfl, fun x r hx => ?_⟩⟩
          · show parseMemberInto (into n) a (c :: rest) m = _
            rw [hstep, if_neg hd]
            rfl
          · simp only [if_neg hd] at hx
            cases hx
    · refine ⟨none, m₁, _, [], Ends.of_eq fun n => (bind_of_ok hrun _).trans rfl,
        Fills.of_block h rfl hb, Or.inr ⟨rfl, fun x r hx hall => ?_⟩⟩
      obtain ⟨e, he, -⟩ := Option.bind_eq_some_iff.mp hx
      exact hno e.1 e.2 he hall.mono

/-! ## the choice between the values -/

/-- the loops of the parser on values -/
theorem parseItems_eq (value : Bytes → Option (Node × Bytes)) :
    parseItems value = elements (fun rest => value (skipWhitespace rest)) 93 := by
  funext fuel
  induction fuel with
  | zero => rfl
  | succ fuel ih =>
    funext rest
    rewrite [parseItems, elements, ih]
    rfl

theorem parseMembers_eq (value : Bytes → Option (Node × Bytes)) :
    parseMembers value = elements (memberOf value) 125 := by
  funext fuel
  induction fuel with
  | zero => rfl
  | succ fuel ih =>
    funext rest
    cases rest with
    | nil => rfl
    | cons c rest =>
      rewrite [parseMembers, elements, ih]
      · rfl
      · exact List.cons_ne_nil c rest

theorem parseArray_eq (value : Bytes → Option (Node × Bytes)) : parseArray value =
    Heap.container .array (fun rest => value (skipWhitespace rest)) 93 := by
  funext rest
  unfold parseArray Heap.container
  rewrite [parseItems_eq]
  rfl

theorem parseObject_eq (value : Bytes → Option (Node × Bytes)) :
    parseObject value = Heap.container .object (memberOf value) 125 := by
  funext rest
  unfold parseObject Heap.container
  rewrite [parseMembers_eq]
  rfl

theorem blocks_items (js : List Node) : blocksItems js = costs Node.blocks js := by
  induction js with
  | nil => rfl
  | cons j js ih =>
    show 1 + j.blocks + blocksItems js = _
    rw [ih]
    rfl

theorem blocks_members (ms : List (CString × Node)) :
    blocksMembers ms = costs (fun e => 1 + e.2.blocks) ms := by
  induction ms with
  | nil => rfl
  | cons e ms ih =>
    show 1 + (1 + e.2.blocks) + blocksMembers ms = _
    rw [ih]
    rfl

/-- trees that are the elements -/
theorem toNodes_of_parsed {us : List Tree} {js : List Node}
    (h : List.Forall₂ (fun t j => t.Parsed j ∧ t.label.string = none) us js) :
    toNodes (contents us) = some js ∧ soundAll (contents us) ∧ tidyAll (contents us) ∧
      ∀ c ∈ contents us, c.name = none := by
  induction h with
  | nil => exact ⟨rfl, trivial, trivial, fun c hc => absurd hc List.not_mem_nil⟩
  | @cons t j us js hj _ ih =>
    obtain ⟨⟨⟨hval, hsound⟩, htidy⟩, hname⟩ := hj
    obtain ⟨ih, ihsound, ihtidy, ihname⟩ := ih
    refine ⟨?_, ⟨hsound, ihsound⟩, ⟨htidy, ihtidy⟩, fun c hc => ?_⟩
    · rw [contents, toNodes, ih, show t.content.toNode = some j from hval]
      rfl
    · rcases List.mem_cons.mp hc with rfl | hc
      · rw [Tree.name_content, hname]
        rfl
      · exact ihname c hc

/-- trees that are the members -/
theorem toMembers_of_parsed {us : List Tree} {ms : List (CString × Node)}
    (h : List.Forall₂ Tree.IsMember us ms) :
    toMembers (contents us) = some ms ∧ soundAll (contents us) ∧ tidyAll (contents us) := by
  induction h with
  | nil => exact ⟨rfl, trivial, trivial⟩
  | @cons t e us ms hj _ ih =>
    obtain ⟨hname, ⟨hval, hsound⟩, htidy⟩ := hj
    obtain ⟨ih, ihsound, ihtidy⟩ := ih
    refine ⟨?_, ⟨hsound, ihsound⟩, htidy, ihtidy⟩
    rw [contents, toMembers, ih, Tree.name_content, hname, Option.bind_some,
      show t.content.toNode = some e.2 from hval]
    rfl

theorem IntoValue.array (hV : IntoValue into value)
    (hlen : ∀ rest x r, value rest = some (x, r) → r.length ≤ rest.length) :
    IntoValue (fun n => parseArrayInto (into n) n) (parseArray value) := by
  rw [parseArray_eq]
  refine hV.element.container (fun rest x r hx => ?_) .array blocks_items ?_
  · exact (hlen _ x r hx).trans length_skipWhitespace
  · intro a lab us js hc hv hus
    obtain ⟨hjs, hsound, htidy, hname⟩ := toNodes_of_parsed hus
    refine ⟨⟨?_, Or.inl rfl, hsound⟩, ⟨by simp [Label.face], by simp [Label.face, hv], hc, fun _ => hname⟩, htidy⟩
    show (toNodes (contents us)).map Node.array = _
    rw [hjs]
    rfl

theorem IntoValue.object (hV : IntoValue into value)
    (hlen : ∀ rest x r, memberOf value rest = some (x, r) → r.length ≤ rest.length) :
    IntoValue (fun n => parseObjectInto (into n) n) (parseObject value) := by
  rw [parseObject_eq]
  refine hV.member.container hlen .object blocks_members ?_
  intro a lab us ms hc hv hus
  obtain ⟨hms, hsound, htidy⟩ := toMembers_of_parsed hus
  refine ⟨⟨?_, Or.inr (Or.inl rfl), hsound⟩, ⟨by simp [Label.face], by simp [Label.face, hv], hc, by simp [Label.face]⟩,
    htidy⟩
  show (toMembers (contents us)).map Node.object = _
  rw [hms]
  rfl

variable {arrayInto objectInto : ℕ → ℕ → Bytes → Prog Block (Option Bytes)}
  {array object : Bytes → Option (Node × Bytes)}

theorem IntoValue.byFirst (hA : IntoValue arrayInto array) (hO : IntoValue objectInto object) :
    IntoValue (fun n a => parseByFirstInto (arrayInto n a) (objectInto n a) a)
      (parseByFirst array object) := by
  intro a lab rest m h hc hv
  show Becomes (fun n => parseByFirstInto (arrayInto n a) (objectInto n a) a rest) m a lab
    (parseByFirst array object rest)
  unfold parseByFirstInto parseByFirst
  by_cases hn : rest.take 4 = ascii ['n', 'u', 'l', 'l']
  · simp only [if_pos hn]
    exact becomes_leaf h hc hv { lab with kind := .null } rfl rfl hc rfl (by simp) rfl
      (Label.fields_setType hc .null) _
  by_cases hf : rest.take 5 = ascii ['f', 'a', 'l', 's', 'e']
  · simp only [if_neg hn, if_pos hf]
    exact becomes_leaf h hc hv { lab with kind := .false } rfl rfl hc rfl (by simp) rfl
      (Label.fields_setType hc .false) _
  by_cases ht : rest.take 4 = ascii ['t', 'r', 'u', 'e']
  · simp only [if_neg hn, if_neg hf, if_pos ht]
    refine becomes_leaf (f := fun f => { f.setType .true with valueint := 1 }) h hc hv
      { lab with kind := .true, valueint := 1 } rfl rfl hc rfl (by simp) rfl ?_ _
    show ({ lab.fields.setType .true with valueint := 1 } : Fields) = _
    rw [Label.fields_setType hc]
    rfl
  simp only [if_neg hn, if_neg hf, if_neg ht]
  cases rest with
  | nil => exact becomes_nothing m a lab
  | cons c after =>
    by_cases hq : c = 34
    · simp only [if_pos hq]
      exact parseString_value a lab (c :: after) m h hc hv
    by_cases hd : c = 45 ∨ isDigit c = true
    · simp only [if_neg hq, if_pos hd]
      exact parseNumber_into a lab (c :: after) m h hc hv
    by_cases ha : c = 91
    · simp only [if_neg hq, if_neg hd, if_pos ha]
      exact hA a lab after m h hc hv
    by_cases ho : c = 123
    · simp only [if_neg hq, if_neg hd, if_neg ha, if_pos ho]
      exact hO a lab after m h hc hv
    · simp only [if_neg hq, if_neg hd, if_neg ha, if_neg ho]
      exact becomes_nothing m a lab

theorem length_parseValue {levels : ℕ} {rest r : Bytes} {j : Node}
    (h : parseValue levels rest = some (j, r)) : r.length ≤ rest.length := by
  obtain ⟨b, rfl, -⟩ := parseValue_sound levels h
  rw [List.length_append]
  omega

theorem length_memberOf {levels : ℕ} {rest r : Bytes} {e : CString × Node}
    (h : memberOf (parseValue levels) rest = some (e, r)) : r.length ≤ rest.length := by
  cases rest with
  | nil => cases h
  | cons c rest =>
    obtain ⟨w, kb, w1, w2, b, hs, -⟩ := parseMember_sound (parseValue_sound levels) (k := e.1)
      (j := e.2) h
    rw [hs]
    simp only [List.length_append, List.length_cons]
    omega

/-- **A value is parsed into an item.**  On every text it gets the value that the parser on values
finds, or nothing is allocated any more; the latter where there is no value, or not the memory. -/
theorem parseValue_into (levels : ℕ) :
    IntoValue (fun n => parseValueInto n levels) (parseValue levels) := by
  induction levels with
  | zero =>
    have hnothing : IntoValue (fun _ _ _ => pure none) fun _ => none :=
      fun a lab _ m _ _ _ => becomes_nothing m a lab
    exact hnothing.byFirst hnothing
  | succ levels ih =>
    exact (ih.array fun _ _ _ => length_parseValue).byFirst (ih.object fun _ _ _ => length_memberOf)

end CJSON.Heap
