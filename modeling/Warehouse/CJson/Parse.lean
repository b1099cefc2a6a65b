import Warehouse.CJson.Number
import Warehouse.CJson.Strings

/-!
# The parser

`cJSON_Parse` on what is left of its buffer; the buffer ends with the terminating NUL of the
string.  The nesting counter is given as the number of levels that may still be opened.

* `skipWhitespace`    up to the next byte above 32, or to the last byte of the buffer;
* `parseItems`, `parseMembers`   the loops of `parse_array` and `parse_object`;
* `parseValue`        `parse_value`, by recursion on the levels left;
* `parse`             `cJSON_Parse`: what follows the value is not looked at.

The loops run on a fuel that bounds the number of elements by the bytes left.
-/

namespace CJSON
open Text

/-- `buffer_skip_whitespace` -/
def skipWhitespace (rest : Bytes) : Bytes :=
  match rest.dropWhile fun c => c ≤ 32 with
  -- back to the last byte
  | [] => rest.drop (rest.length - 1)
  | c :: r => c :: r

/-- `skip_utf8_bom` -/
def skipUtf8Bom (content : Bytes) : Bytes :=
  if 5 ≤ content.length ∧ content.take 3 = [0xEF, 0xBB, 0xBF] then content.drop 3 else content

/-- the elements after an opening bracket or a comma, up to the closing bracket -/
def parseItems (value : Bytes → Option (Node × Bytes)) : ℕ → Bytes → Option (List Node × Bytes)
  | 0, _ => none
  | fuel + 1, rest =>
    (value (skipWhitespace rest)).bind fun (j, r) =>
      match skipWhitespace r with
      | [] => none
      | c :: r =>
        if c = 44 then (parseItems value fuel r).map fun (js, r) => (j :: js, r)
        else if c = 93 then some ([j], r)
        else none

/-- the name, the colon and the value of a member -/
def parseMember (value : Bytes → Option (Node × Bytes)) (rest : Bytes) :
    Option ((CString × Node) × Bytes) :=
  (parseString (skipWhitespace rest)).bind fun (k, r) =>
    match skipWhitespace r with
    | [] => none
    | c :: r =>
      if c = 58 then (value (skipWhitespace r)).map fun (j, r) => ((k, j), r)
      else none

def parseMembers (value : Bytes → Option (Node × Bytes)) :
    ℕ → Bytes → Option (List (CString × Node) × Bytes)
  | 0, _ => none
  -- nothing comes after the comma
  | _ + 1, [] => none
  | fuel + 1, rest =>
    (parseMember value rest).bind fun (m, r) =>
      match skipWhitespace r with
      | [] => none
      | c :: r =>
        if c = 44 then (parseMembers value fuel r).map fun (ms, r) => (m :: ms, r)
        else if c = 125 then some ([m], r)
        else none

/-- `parse_array`, after the opening bracket -/
def parseArray (value : Bytes → Option (Node × Bytes)) (rest : Bytes) : Option (Node × Bytes) :=
  match skipWhitespace rest with
  | [] => none
  | c :: r =>
    if c = 93 then some (.array [], r)
    else (parseItems value rest.length (c :: r)).map fun (js, r) => (.array js, r)

/-- `parse_object`, after the opening brace -/
def parseObject (value : Bytes → Option (Node × Bytes)) (rest : Bytes) : Option (Node × Bytes) :=
  match skipWhitespace rest with
  | [] => none
  | c :: r =>
    if c = 125 then some (.object [], r)
    else (parseMembers value rest.length (c :: r)).map fun (ms, r) => (.object ms, r)

/-- the choice `parse_value` makes on the first bytes -/
def parseByFirst (array object : Bytes → Option (Node × Bytes)) (rest : Bytes) :
    Option (Node × Bytes) :=
  if rest.take 4 = ascii ['n', 'u', 'l', 'l'] then some (.null, rest.drop 4)
  else if rest.take 5 = ascii ['f', 'a', 'l', 's', 'e'] then some (.bool false, rest.drop 5)
  else if rest.take 4 = ascii ['t', 'r', 'u', 'e'] then some (.bool true, rest.drop 4)
  else match rest with
    | [] => none
    | c :: after =>
      if c = 34 then (parseString rest).map fun (s, r) => (.string s, r)
      else if c = 45 ∨ isDigit c = true then parseNumber rest
      else if c = 91 then array after
      else if c = 123 then object after
      else none

/-- `parse_value` with so many nesting levels left -/
def parseValue : ℕ → Bytes → Option (Node × Bytes)
  | 0 => parseByFirst (fun _ => none) (fun _ => none)
  | levels + 1 => parseByFirst (parseArray (parseValue levels)) (parseObject (parseValue levels))

/-- `cJSON_Parse` -/
def parse (value : CString) : Option Node :=
  (parseValue CJSON_NESTING_LIMIT (skipWhitespace (skipUtf8Bom (value.bytes ++ [0])))).map Prod.fst

/-! ## whitespace -/

/-- bytes the parser passes over -/
def Blank (w : Bytes) : Prop := ∀ c ∈ w, c ≤ 32

theorem blank_nil : Blank [] := fun _ h => nomatch h

theorem skipWhitespace_append {w : Bytes} (hw : Blank w) {c : UInt8} (hc : 32 < c) (r : Bytes) :
    skipWhitespace (w ++ c :: r) = c :: r := by
  have hdrop : (w ++ c :: r).dropWhile (fun c => c ≤ 32) = c :: r := by
    rw [List.dropWhile_append_of_pos fun x hx => decide_eq_true (hw x hx),
      List.dropWhile_cons_of_neg (by rw [decide_eq_true_iff]; exact UInt8.not_le.mpr hc)]
  unfold skipWhitespace
  rw [hdrop]

theorem skipWhitespace_cons {c : UInt8} (hc : 32 < c) (r : Bytes) :
    skipWhitespace (c :: r) = c :: r := skipWhitespace_append blank_nil hc r

/-- only blanks are passed over -/
theorem skipWhitespace_sound {s r : Bytes} (h : skipWhitespace s = r) :
    ∃ w, s = w ++ r ∧ Blank w := by
  have hblank : Blank (s.takeWhile fun c => c ≤ 32) := fun x hx =>
    of_decide_eq_true (List.mem_takeWhile_imp (p := fun c : UInt8 => decide (c ≤ 32)) hx)
  have hs : s.takeWhile (fun c => c ≤ 32) ++ s.dropWhile (fun c => c ≤ 32) = s :=
    List.takeWhile_append_dropWhile
  unfold skipWhitespace at h
  split at h
  · next heq =>
    rw [heq, List.append_nil] at hs
    rw [hs] at hblank
    exact ⟨s.take (s.length - 1), by rw [← h, List.take_append_drop],
      fun c hc => hblank c (List.mem_of_mem_take hc)⟩
  · next c r' heq =>
    rw [heq, h] at hs
    exact ⟨_, hs.symm, hblank⟩

/-- the loops skip whitespace first, so a skip before them changes nothing -/
theorem parseItems_skip {s r : Bytes} {c : UInt8} (hc : 32 < c) (h : skipWhitespace s = c :: r)
    (value : Bytes → Option (Node × Bytes)) (fuel : ℕ) :
    parseItems value fuel (c :: r) = parseItems value fuel s := by
  cases fuel with
  | zero => rfl
  | succ fuel => rw [parseItems, parseItems, skipWhitespace_cons hc, h]

theorem parseMembers_skip {s r : Bytes} {c : UInt8} (hc : 32 < c) (h : skipWhitespace s = c :: r)
    (value : Bytes → Option (Node × Bytes)) (fuel : ℕ) :
    parseMembers value fuel (c :: r) = parseMembers value fuel s := by
  cases fuel with
  | zero => cases s <;> rfl
  | succ fuel =>
    cases s with
    | nil => cases h
    | cons d s =>
      simp only [parseMembers, parseMember]
      rw [skipWhitespace_cons hc, h]

end CJSON
