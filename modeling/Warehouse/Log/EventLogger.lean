import Warehouse.Machine.Run
import Warehouse.Text.Lines

/-!
# `EventLogger`

The log of `server/EventLogger.cpp`.  An entry joins the time, the component, the level and the
message with brackets and blanks, as they are.

* `logEvent`             the code, on the text of the log file;
* `lines_entries`, `length_lines_iff`   the entries are the lines of the log exactly when no field
                         has a newline;
* `line_eq_iff`          the calls whose lines are the same;
* `audit_lines`          both together, for every sequence of calls;
* `ambiguous_calls`      a call that makes two lines, and two calls that make the same line.
-/

namespace Hub
open Machine Text

/-- `LogLevel`: an enumeration, to which any `int` can be cast -/
structure LogLevel where
  value : ℤ
deriving DecidableEq

namespace LogLevel

def INFO : LogLevel := ⟨0⟩
def WARNING : LogLevel := ⟨1⟩
def ERROR : LogLevel := ⟨2⟩

end LogLevel

/-- a text of the form `YYYY-MM-DD HH:MM:SS` -/
def IsTimestamp (text : Bytes) : Prop :=
  List.Forall₂ (fun c t => if isDigit t then isDigit c = true else c = t) text
    (ascii "0000-00-00 00:00:00".toList)

/-- what `getCurrentTimestamp` prints -/
structure Timestamp where
  text : Bytes
  form : IsTimestamp text

/-- the arguments of a call -/
structure LogCall where
  component : Bytes
  level : LogLevel
  message : Bytes
deriving DecidableEq

namespace EventLogger
open LogLevel

/-! ## the code -/

def logLevelToString (level : LogLevel) : Bytes :=
  if level = INFO then ascii ['I', 'N', 'F', 'O']
  else if level = WARNING then ascii ['W', 'A', 'R', 'N', 'I', 'N', 'G']
  else if level = ERROR then ascii ['E', 'R', 'R', 'O', 'R']
  else ascii ['U', 'N', 'K', 'N', 'O', 'W', 'N']

/-- a call, at the time the clock shows -/
def logEvent (logFile : Bytes) : Timestamp × LogCall → Bytes
  | (timestamp, call) =>
    let logFile := logFile ++ ascii ['['] ++ timestamp.text ++ ascii [']', ' ']
    let logFile := logFile ++ ascii ['['] ++ call.component ++ ascii [']', ' ']
    let logFile := logFile ++ ascii ['['] ++ logLevelToString call.level ++ ascii [']', ' ']
    logFile ++ call.message ++ [newline]

/-! ## entries -/

/-- what follows the time in an entry -/
def fields (call : LogCall) : Bytes :=
  call.component ++ ascii [']', ' ', '['] ++ logLevelToString call.level ++ ascii [']', ' ']
    ++ call.message

/-- an entry without its newline -/
def line (timestamp : Timestamp) (call : LogCall) : Bytes :=
  ascii ['['] ++ timestamp.text ++ ascii [']', ' ', '['] ++ fields call

theorem logEvent_eq (logFile : Bytes) (e : Timestamp × LogCall) :
    logEvent logFile e = logFile ++ (line e.1 e.2 ++ [newline]) := by
  unfold logEvent line fields ascii
  simp

/-- the text of some calls -/
def entries (calls : List (Timestamp × LogCall)) : Bytes :=
  calls.flatMap fun e => line e.1 e.2 ++ [newline]

theorem entries_cons (e : Timestamp × LogCall) (calls : List (Timestamp × LogCall)) :
    entries (e :: calls) = line e.1 e.2 ++ newline :: entries calls := by
  unfold entries
  rw [List.flatMap_cons, List.append_assoc, List.singleton_append]

/-- the entries stand in the order of the calls -/
theorem run_logEvent (logFile : Bytes) (calls : List (Timestamp × LogCall)) :
    run logEvent logFile calls = logFile ++ entries calls := by
  induction calls generalizing logFile with
  | nil => exact (List.append_nil logFile).symm
  | cons e calls ih =>
    rw [run_cons, ih, logEvent_eq, entries_cons, List.append_assoc, List.append_assoc,
      List.singleton_append]

/-! ## lines -/

theorem notMem_of_form {text template : Bytes} {b : UInt8} (hdigit : isDigit b = false)
    (hb : b ∉ template)
    (h : List.Forall₂ (fun c t => if isDigit t then isDigit c = true else c = t) text template) :
    b ∉ text := by
  induction h with
  | nil => exact List.not_mem_nil
  | @cons c t text template hct _ ih =>
    rw [List.mem_cons, not_or] at hb ⊢
    refine ⟨?_, ih hb.2⟩
    rintro rfl
    split_ifs at hct
    · rw [hdigit] at hct
      cases hct
    · exact hb.1 hct

theorem newline_notMem_timestamp (t : Timestamp) : newline ∉ t.text :=
  notMem_of_form (by decide) (by decide) t.form

theorem newline_notMem_level (l : LogLevel) : newline ∉ logLevelToString l := by
  unfold logLevelToString
  split_ifs <;> decide

/-- no field has a newline -/
def OneLine (call : LogCall) : Prop := newline ∉ call.component ∧ newline ∉ call.message

theorem newline_notMem_line (t : Timestamp) {call : LogCall} (h : OneLine call) :
    newline ∉ line t call := by
  have hpunctuation : newline ∉ ascii ['['] ∧ newline ∉ ascii [']', ' ', '['] ∧
      newline ∉ ascii [']', ' '] := by decide
  obtain ⟨h1, h2, h3⟩ := hpunctuation
  unfold line fields
  simp only [List.mem_append, not_or]
  exact ⟨⟨⟨h1, newline_notMem_timestamp t⟩, h2⟩,
    ⟨⟨⟨h.1, h2⟩, newline_notMem_level call.level⟩, h3⟩, h.2⟩

/-- the newlines of an entry are those of the component and the message -/
theorem count_newline_line (t : Timestamp) (call : LogCall) :
    (line t call).count newline = call.component.count newline + call.message.count newline := by
  have hpunctuation : (ascii ['[']).count newline = 0 ∧ (ascii [']', ' ', '[']).count newline = 0 ∧
      (ascii [']', ' ']).count newline = 0 := by decide
  obtain ⟨h1, h2, h3⟩ := hpunctuation
  have htime := List.count_eq_zero.mpr (newline_notMem_timestamp t)
  have hlevel := List.count_eq_zero.mpr (newline_notMem_level call.level)
  unfold line fields
  simp only [List.count_append, h1, h2, h3, htime, hlevel]
  omega

/-- with a newline in it, an entry is more than one line -/
theorem oneLine_iff (t : Timestamp) (call : LogCall) :
    OneLine call ↔ (line t call).count newline = 0 := by
  rw [count_newline_line, Nat.add_eq_zero_iff, List.count_eq_zero, List.count_eq_zero]
  rfl

theorem lines_entries {calls : List (Timestamp × LogCall)} (h : ∀ e ∈ calls, OneLine e.2) :
    lines (entries calls) = calls.map fun e => line e.1 e.2 := by
  induction calls with
  | nil => rfl
  | cons e calls ih =>
    have hfirst := newline_notMem_line e.1 (h e (List.mem_cons_self ..))
    rw [entries_cons, lines_ended hfirst, ih fun x hx => h x (List.mem_cons_of_mem _ hx),
      List.map_cons]

/-- there is at least one line for each call -/
theorem length_le_lines (calls : List (Timestamp × LogCall)) :
    calls.length ≤ (lines (entries calls)).length := by
  induction calls with
  | nil => exact Nat.zero_le _
  | cons e calls ih =>
    rw [entries_cons, length_lines_ended, List.length_cons]
    omega

/-- ... and one only, as long as no field has a newline -/
theorem length_lines_iff (calls : List (Timestamp × LogCall)) :
    (lines (entries calls)).length = calls.length ↔ ∀ e ∈ calls, OneLine e.2 := by
  constructor
  · intro hlen
    induction calls with
    | nil => exact fun e he => absurd he List.not_mem_nil
    | cons e calls ih =>
      have hrest := length_le_lines calls
      rw [entries_cons, length_lines_ended, List.length_cons] at hlen
      rw [List.forall_mem_cons, oneLine_iff e.1]
      exact ⟨by omega, ih (by omega)⟩
  · intro h
    rw [lines_entries h, List.length_map]

/-! ## calls with the same line -/

/-- the same arguments, but for the levels that are no enumerators -/
def SameEvent (x y : LogCall) : Prop :=
  x.component = y.component ∧ x.message = y.message ∧
    (x.level = y.level ∨ x.level ∉ [INFO, WARNING, ERROR] ∧ y.level ∉ [INFO, WARNING, ERROR])

/-- The component of `y` goes on where `x` has its level and a part `z` of its message; the message
of `x` goes on with the level and the message of `y`. -/
def Shifted (x y : LogCall) : Prop :=
  ∃ z, y.component ++ ascii [']', ' ']
      = x.component ++ ascii [']', ' ', '['] ++ logLevelToString x.level ++ ascii [']', ' '] ++ z ∧
    x.message = z ++ ascii ['['] ++ logLevelToString y.level ++ ascii [']', ' '] ++ y.message

theorem logLevelToString_unknown {l : LogLevel} (h : l ∉ [INFO, WARNING, ERROR]) :
    logLevelToString l = ascii ['U', 'N', 'K', 'N', 'O', 'W', 'N'] := by
  simp only [List.mem_cons, List.not_mem_nil, or_false, not_or] at h
  obtain ⟨h0, h1, h2⟩ := h
  rw [logLevelToString, if_neg h0, if_neg h1, if_neg h2]

theorem logLevelToString_eq_iff (l l' : LogLevel) : logLevelToString l = logLevelToString l' ↔
    l = l' ∨ l ∉ [INFO, WARNING, ERROR] ∧ l' ∉ [INFO, WARNING, ERROR] := by
  have hknown : ∀ l ∈ [INFO, WARNING, ERROR], ∀ l' ∈ [INFO, WARNING, ERROR],
      logLevelToString l = logLevelToString l' → l = l' := by decide
  have hunknown : ∀ l ∈ [INFO, WARNING, ERROR],
      logLevelToString l ≠ ascii ['U', 'N', 'K', 'N', 'O', 'W', 'N'] := by decide
  constructor
  · intro h
    by_cases hl : l ∈ [INFO, WARNING, ERROR]
    · by_cases hl' : l' ∈ [INFO, WARNING, ERROR]
      · exact Or.inl (hknown l hl l' hl' h)
      · exact absurd (h.trans (logLevelToString_unknown hl')) (hunknown l hl)
    · by_cases hl' : l' ∈ [INFO, WARNING, ERROR]
      · exact absurd (h.symm.trans (logLevelToString_unknown hl)) (hunknown l' hl')
      · exact Or.inr ⟨hl, hl'⟩
  · rintro (rfl | ⟨hl, hl'⟩)
    · rfl
    · rw [logLevelToString_unknown hl, logLevelToString_unknown hl']

/-- `]` -/
def bracket : UInt8 := 93

theorem bracket_notMem_level (l : LogLevel) : bracket ∉ logLevelToString l := by
  unfold logLevelToString
  split_ifs <;> decide

theorem fields_of_sameEvent {x y : LogCall} (h : SameEvent x y) : fields x = fields y := by
  obtain ⟨hc, hm, hl⟩ := h
  unfold fields
  rw [hc, hm, (logLevelToString_eq_iff _ _).mpr hl]

theorem fields_of_shifted {x y : LogCall} (h : Shifted x y) : fields x = fields y := by
  obtain ⟨z, hy, hx⟩ := h
  have hcut : fields y = (y.component ++ ascii [']', ' ']) ++ ascii ['['] ++
      logLevelToString y.level ++ ascii [']', ' '] ++ y.message := by
    unfold fields
    simp [ascii]
  rw [hcut, hy, fields, hx]
  simp only [List.append_assoc]

/-- the component of the second call is that of the first with a text behind it -/
theorem sameEvent_or_shifted {x y : LogCall} {w : Bytes} (hw : y.component = x.component ++ w)
    (h : fields x = fields y) : SameEvent x y ∨ Shifted x y := by
  -- what follows the component of `x`, cut at each bracket that closes
  have htail : bracket :: (ascii [' ', '['] ++ logLevelToString x.level ++ bracket :: 32 :: x.message)
      = w ++ bracket :: (ascii [' ', '['] ++ logLevelToString y.level ++
        bracket :: 32 :: y.message) := by
    have h' := h
    unfold fields at h'
    rw [hw] at h'
    simp only [List.append_assoc] at h'
    have htail := List.append_cancel_left h'
    simpa [ascii, bracket] using htail
  cases w with
  | nil =>
    left
    rw [List.append_nil] at hw
    have hlevels := (List.cons.inj htail).2
    rw [List.append_assoc, List.append_assoc] at hlevels
    rcases append_cons_eq (bracket_notMem_level x.level) (List.append_cancel_left hlevels) with
      ⟨hl, hm⟩ | ⟨v, hv, -⟩
    · exact ⟨hw.symm, (List.cons.inj hm).2, (logLevelToString_eq_iff _ _).mp hl⟩
    · have hmem : bracket ∈ logLevelToString y.level := by
        rw [hv]
        exact List.mem_append_right _ (List.mem_cons_self ..)
      exact absurd hmem (bracket_notMem_level y.level)
  | cons c w =>
    right
    rw [List.cons_append] at htail
    obtain ⟨rfl, hcut⟩ := List.cons.inj htail
    have hno : bracket ∉ ascii [' ', '['] ++ logLevelToString x.level := by
      rw [List.mem_append, not_or]
      exact ⟨by decide, bracket_notMem_level x.level⟩
    rcases append_cons_eq hno hcut with ⟨rfl, hm⟩ | ⟨v, rfl, hm⟩
    · -- the component of `y` ends with the level of `x`
      refine ⟨[], ?_, ?_⟩
      · rw [hw]
        simp [ascii, bracket]
      · rw [(List.cons.inj hm).2]
        simp [ascii, bracket]
    · cases v with
      | nil => cases (List.cons.inj hm).1
      | cons c v =>
        obtain ⟨rfl, hmessage⟩ := List.cons.inj hm
        refine ⟨v ++ ascii [']', ' '], ?_, ?_⟩
        · rw [hw]
          simp [ascii, bracket]
        · apply hmessage.trans
          simp [ascii, bracket]

/-- **The calls whose lines are the same** at one time: the same event, or one shifted into the
other. -/
theorem line_eq_iff (t : Timestamp) (x y : LogCall) :
    line t x = line t y ↔ SameEvent x y ∨ Shifted x y ∨ Shifted y x := by
  have hfields : line t x = line t y ↔ fields x = fields y :=
    ⟨fun h => List.append_cancel_left h, fun h => by rw [line, line, h]⟩
  rw [hfields]
  constructor
  · intro h
    have hcut := h
    unfold fields at hcut
    simp only [List.append_assoc] at hcut
    rcases List.append_eq_append_iff.mp hcut with ⟨w, hw, -⟩ | ⟨w, hw, -⟩
    · exact (sameEvent_or_shifted hw h).imp_right Or.inl
    · rcases sameEvent_or_shifted hw h.symm with ⟨hc, hm, hl⟩ | hshift
      · exact Or.inl ⟨hc.symm, hm.symm, hl.imp Eq.symm And.symm⟩
      · exact Or.inr (Or.inr hshift)
  · rintro (hsame | hshift | hshift)
    · exact fields_of_sameEvent hsame
    · exact fields_of_shifted hshift
    · exact (fields_of_shifted hshift).symm

/-- a component without a closing bracket is not a shifted one -/
theorem not_shifted {x y : LogCall} (h : bracket ∉ y.component) : ¬ Shifted x y := by
  rintro ⟨z, hy, -⟩
  have hcut : y.component ++ bracket :: [32] = x.component ++ bracket ::
      (32 :: 91 :: (logLevelToString x.level ++ ascii [']', ' '] ++ z)) := by
    simpa [ascii, bracket] using hy
  rcases append_cons_eq h hcut with ⟨-, he⟩ | ⟨v, -, he⟩
  · cases (List.cons.inj he).2
  · cases v with
    | nil => cases (List.cons.inj he).1
    | cons c v =>
      have hlen := congrArg List.length (List.cons.inj he).2
      simp at hlen

/-- **The audit trail.**  Every sequence of calls appends one entry for each call, in the order of
the calls.  The entries are the lines of what is appended exactly when no component and no message
has a newline, and there are more lines than calls otherwise.  Two calls have the same line for the
same time exactly when they are the same event or one is shifted into the other, so that calls
whose components have no closing bracket are told apart. -/
theorem audit_lines (logFile : Bytes) (calls : List (Timestamp × LogCall)) :
    (run logEvent logFile calls = logFile ++ entries calls ∧
      (lines (entries calls) = calls.map (fun e => line e.1 e.2) ↔ ∀ e ∈ calls, OneLine e.2) ∧
      ((lines (entries calls)).length = calls.length ↔ ∀ e ∈ calls, OneLine e.2)) ∧
    ∀ t x y, (line t x = line t y ↔ SameEvent x y ∨ Shifted x y ∨ Shifted y x) ∧
      (bracket ∉ x.component → bracket ∉ y.component → (line t x = line t y ↔ SameEvent x y)) := by
  refine ⟨⟨run_logEvent logFile calls, ?_, length_lines_iff calls⟩, ?_⟩
  · constructor
    · intro h
      rw [← length_lines_iff, h, List.length_map]
    · exact lines_entries
  · intro t x y
    refine ⟨line_eq_iff t x y, fun hx hy => ?_⟩
    rw [line_eq_iff]
    exact ⟨fun h => h.resolve_right (not_or.mpr ⟨not_shifted hy, not_shifted hx⟩), Or.inl⟩

theorem isTimestamp_noon : IsTimestamp (ascii "2024-01-31 12:00:00".toList) := by
  unfold IsTimestamp ascii
  decide

def noon : Timestamp := ⟨ascii "2024-01-31 12:00:00".toList, isTimestamp_noon⟩

/-- A message with a newline makes two lines; and two calls that differ in component and message
make the same line. -/
theorem ambiguous_calls :
    (lines (run logEvent [] [(noon, ⟨ascii ['a'], INFO, [newline]⟩)])).length ≠ 1 ∧
    (⟨ascii ['a'], INFO, ascii "[b] [INFO] m".toList⟩ : LogCall)
      ≠ ⟨ascii "a] [INFO] [b".toList, INFO, ascii ['m']⟩ ∧
    line noon ⟨ascii ['a'], INFO, ascii "[b] [INFO] m".toList⟩
      = line noon ⟨ascii "a] [INFO] [b".toList, INFO, ascii ['m']⟩ := by
  decide

end EventLogger

end Hub
