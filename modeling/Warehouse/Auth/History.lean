import Warehouse.Auth.Model
import Mathlib.Data.Finset.Card
import Mathlib.Data.Finset.Range
import Mathlib.Data.List.Induction
import Mathlib.Tactic.Tauto

/-!
# `authenticate` read off the history

A history is the list of all operations since construction; a position in it stands for a moment.
The answer of `authenticate` is determined by four facts about the history:

* `Registration h c r p`    `r` is the effective registration of `c`, made with the password `p`;
* `EmergencyPending h c r`  an emergency block after `r` that no successful unlock answered;
* `strikes h c r p`         the evaluated wrong attempts after `r` and after the last reset;
* the hash of the password.

`Matches` says that a stored record carries exactly these facts, `tracks` that it always does, and
`authenticate_iff` reads the answer off.
-/

namespace Hub
open Machine Text

namespace Authentication

section
variable (hashPassword : Bytes → Bytes)

/-- the store before the operation at position `k` -/
def stateBefore (h : List AuthOp) (k : Nat) : Authentication :=
  run (step hashPassword) init (h.take k)

/-- `op` is at position `k` and returned true -/
def Succeeded (h : List AuthOp) (k : Nat) (op : AuthOp) : Prop :=
  h[k]? = some op ∧ (stateBefore hashPassword h k).returned hashPassword op = true

/-- the first `addCredentials c` after the start or after the last `removeCredentials c` -/
structure Registration (h : List AuthOp) (c : Int) (r : Nat) (p : Bytes) : Prop where
  made : h[r]? = some (.addCredentials c p)
  kept : ∀ k, r < k → h[k]? ≠ some (.removeCredentials c)
  first : ∀ j q, j < r → h[j]? = some (.addCredentials c q) →
    ∃ i, j < i ∧ i < r ∧ h[i]? = some (.removeCredentials c)

/-- a `blockDueToEmergency c` after `r` and after the last successful `unlockWithSecretPhrase c` -/
def EmergencyPending (h : List AuthOp) (c : Int) (r : Nat) : Prop :=
  ∃ k, r < k ∧ h[k]? = some (.blockDueToEmergency c) ∧
    ∀ u s, k < u → ¬ Succeeded hashPassword h u (.unlockWithSecretPhrase c s)

/-- a wrong password for `c`, tried while `c` was neither blocked nor emergency-blocked -/
def Strike (h : List AuthOp) (c : Int) (p : Bytes) (k : Nat) : Prop :=
  ∃ q d, h[k]? = some (.authenticate c q) ∧ hashPassword q ≠ hashPassword p ∧
    (stateBefore hashPassword h k).record c = some d ∧
    d.isBlocked = false ∧ d.emergencyBlocked = false

/-- a successful `authenticate c` or `unblockWithFingerprint c` -/
def Reset (h : List AuthOp) (c : Int) (k : Nat) : Prop :=
  (∃ q, Succeeded hashPassword h k (.authenticate c q)) ∨
    Succeeded hashPassword h k (.unblockWithFingerprint c)

/-- a strike after the registration and after the last reset -/
def LiveStrike (h : List AuthOp) (c : Int) (r : Nat) (p : Bytes) (k : Nat) : Prop :=
  r < k ∧ Strike hashPassword h c p k ∧ ∀ u, k < u → ¬ Reset hashPassword h c u

open Classical in
/-- how many strikes count against `c` -/
noncomputable def strikes (h : List AuthOp) (c : Int) (r : Nat) (p : Bytes) : Nat :=
  ((Finset.range h.length).filter (LiveStrike hashPassword h c r p)).card

end

/-! ## one more operation -/

section
variable {hashPassword : Bytes → Bytes} {h : List AuthOp} {x op : AuthOp} {c : Int} {r k : Nat}
  {p : Bytes} {d : AuthData}

theorem at_lt (hk : h[k]? = some op) : k < h.length := (List.getElem?_eq_some_iff.mp hk).1

theorem at_snoc : (h ++ [x])[k]? = some op ↔ h[k]? = some op ∨ (k = h.length ∧ x = op) := by
  rcases lt_trichotomy k h.length with hk | hk | hk
  · rw [List.getElem?_append_left hk]
    exact ⟨Or.inl, fun e => e.elim id fun e => absurd e.1 (by omega)⟩
  · subst hk
    rw [List.getElem?_concat_length, Option.some_inj]
    exact ⟨fun e => Or.inr ⟨rfl, e⟩, fun e => e.elim (fun e => absurd (at_lt e) (by omega)) And.right⟩
  · have hno : (h ++ [x])[k]? = none := List.getElem?_eq_none (by simp; omega)
    rw [hno]
    exact ⟨fun e => (by cases e), fun e => e.elim (fun e => absurd (at_lt e) (by omega))
      fun e => absurd e.1 (by omega)⟩

theorem stateBefore_snoc (hk : k ≤ h.length) :
    stateBefore hashPassword (h ++ [x]) k = stateBefore hashPassword h k := by
  unfold stateBefore
  rw [List.take_append_of_le_length hk]

theorem stateBefore_length :
    stateBefore hashPassword h h.length = run (step hashPassword) init h := by
  unfold stateBefore
  rw [List.take_length]

theorem succeeded_snoc : Succeeded hashPassword (h ++ [x]) k op ↔ Succeeded hashPassword h k op ∨
    (k = h.length ∧ x = op ∧ (run (step hashPassword) init h).returned hashPassword op = true) := by
  unfold Succeeded
  rw [at_snoc]
  constructor
  · rintro ⟨hk | ⟨rfl, rfl⟩, hs⟩
    · rw [stateBefore_snoc (at_lt hk).le] at hs
      exact Or.inl ⟨hk, hs⟩
    · rw [stateBefore_snoc le_rfl, stateBefore_length] at hs
      exact Or.inr ⟨rfl, rfl, hs⟩
  · rintro (⟨hk, hs⟩ | ⟨rfl, rfl, hs⟩)
    · exact ⟨Or.inl hk, by rwa [stateBefore_snoc (at_lt hk).le]⟩
    · exact ⟨Or.inr ⟨rfl, rfl⟩, by rwa [stateBefore_snoc le_rfl, stateBefore_length]⟩

/-! ### registrations -/

theorem Registration.lt (hr : Registration h c r p) : r < h.length := at_lt hr.made

/-- there is at most one effective registration -/
theorem Registration.unique {r' : Nat} {p' : Bytes} (hr : Registration h c r p)
    (hr' : Registration h c r' p') : r = r' ∧ p = p' := by
  rcases lt_trichotomy r r' with hlt | rfl | hlt
  · obtain ⟨i, hi, _, hrem⟩ := hr'.first r p hlt hr.made
    exact absurd hrem (hr.kept i hi)
  · have he := hr.made.symm.trans hr'.made
    cases he
    exact ⟨rfl, rfl⟩
  · obtain ⟨i, hi, _, hrem⟩ := hr.first r' p' hlt hr'.made
    exact absurd hrem (hr'.kept i hi)

theorem Registration.snoc (hr : Registration h c r p) (hx : x ≠ .removeCredentials c) :
    Registration (h ++ [x]) c r p where
  made := at_snoc.mpr (Or.inl hr.made)
  kept := fun k hk e => (at_snoc.mp e).elim (hr.kept k hk) fun e => hx e.2
  first := fun j q hj e => by
    have hjh : h[j]? = some (.addCredentials c q) :=
      (at_snoc.mp e).resolve_right fun e => absurd hr.lt (by omega)
    obtain ⟨i, h1, h2, h3⟩ := hr.first j q hj hjh
    exact ⟨i, h1, h2, at_snoc.mpr (Or.inl h3)⟩

theorem Registration.of_snoc (hr : Registration (h ++ [x]) c r p)
    (hx : ∀ q, x ≠ .addCredentials c q) : Registration h c r p where
  made := (at_snoc.mp hr.made).resolve_right fun e => hx p e.2
  kept := fun k hk e => hr.kept k hk (at_snoc.mpr (Or.inl e))
  first := fun j q hj e => by
    obtain ⟨i, h1, h2, h3⟩ := hr.first j q hj (at_snoc.mpr (Or.inl e))
    have hrl : r < h.length := at_lt ((at_snoc.mp hr.made).resolve_right fun e => hx p e.2)
    exact ⟨i, h1, h2, (at_snoc.mp h3).resolve_right fun e => absurd e.1 (by omega)⟩

theorem not_registration_remove : ¬ Registration (h ++ [.removeCredentials c]) c r p := fun hr =>
  match at_snoc.mp hr.made with
  | Or.inl e => hr.kept h.length (at_lt e) (at_snoc.mpr (Or.inr ⟨rfl, rfl⟩))
  | Or.inr e => by cases e.2

/-- an `addCredentials c` that no `removeCredentials c` follows makes a registration -/
theorem exists_registration (hk : h[k]? = some (.addCredentials c p))
    (hno : ∀ i, k < i → h[i]? ≠ some (.removeCredentials c)) : ∃ r q, Registration h c r q := by
  classical
  have hex : ∃ k, (∃ p, h[k]? = some (AuthOp.addCredentials c p)) ∧
      ∀ i, k < i → h[i]? ≠ some (AuthOp.removeCredentials c) := ⟨k, ⟨p, hk⟩, hno⟩
  obtain ⟨⟨q, hq⟩, hkeep⟩ := Nat.find_spec hex
  refine ⟨Nat.find hex, q, hq, hkeep, fun j q' hj hjadd => ?_⟩
  have hmin := Nat.find_min hex hj
  push Not at hmin
  obtain ⟨i, hi, hrem⟩ := hmin ⟨q', hjadd⟩
  refine ⟨i, hi, ?_, hrem⟩
  rcases lt_trichotomy i (Nat.find hex) with hlt | heq | hgt
  · exact hlt
  · rw [heq, hq] at hrem
    cases hrem
  · exact absurd hrem (hkeep i hgt)

theorem registration_new (hno : ∀ r p, ¬ Registration h c r p) :
    Registration (h ++ [.addCredentials c p]) c h.length p where
  made := at_snoc.mpr (Or.inr ⟨rfl, rfl⟩)
  kept := fun k hk e => absurd (at_lt e) (by simp; omega)
  first := fun j q hj e => by
    have hjh : h[j]? = some (.addCredentials c q) :=
      (at_snoc.mp e).resolve_right fun e => absurd e.1 (by omega)
    by_contra hcon
    push Not at hcon
    have hkeep : ∀ i, j < i → h[i]? ≠ some (.removeCredentials c) := fun i hi e =>
      hcon i hi (at_lt e) (at_snoc.mpr (Or.inl e))
    obtain ⟨r, q, hreg⟩ := exists_registration hjh hkeep
    exact hno r q hreg

/-! ### emergencies -/

/-- the operation is an `unlockWithSecretPhrase c` that succeeds -/
def Unlocks (hashPassword : Bytes → Bytes) (h : List AuthOp) (c : Int) (x : AuthOp) : Prop :=
  ∃ s, x = .unlockWithSecretPhrase c s ∧
    (run (step hashPassword) init h).returned hashPassword x = true

theorem emergencyPending_snoc (hr : r < h.length) :
    EmergencyPending hashPassword (h ++ [x]) c r ↔ x = .blockDueToEmergency c ∨
      (EmergencyPending hashPassword h c r ∧ ¬ Unlocks hashPassword h c x) := by
  constructor
  · rintro ⟨k, hrk, hk, hno⟩
    rcases at_snoc.mp hk with hkh | ⟨rfl, rfl⟩
    · refine Or.inr ⟨⟨k, hrk, hkh, fun u s hu hs => hno u s hu (succeeded_snoc.mpr (Or.inl hs))⟩, ?_⟩
      rintro ⟨s, rfl, hs⟩
      exact hno h.length s (at_lt hkh) (succeeded_snoc.mpr (Or.inr ⟨rfl, rfl, hs⟩))
    · exact Or.inl rfl
  · rintro (rfl | ⟨⟨k, hrk, hk, hno⟩, hnu⟩)
    · refine ⟨h.length, hr, at_snoc.mpr (Or.inr ⟨rfl, rfl⟩), fun u s hu hs => ?_⟩
      exact absurd (at_lt hs.1) (by simp; omega)
    · refine ⟨k, hrk, at_snoc.mpr (Or.inl hk), fun u s hu hs => ?_⟩
      rcases succeeded_snoc.mp hs with hold | ⟨-, rfl, hnew⟩
      · exact hno u s hu hold
      · exact hnu ⟨s, rfl, hnew⟩

/-! ### strikes -/

theorem strike_snoc_of_lt (hk : k < h.length) :
    Strike hashPassword (h ++ [x]) c p k ↔ Strike hashPassword h c p k := by
  unfold Strike
  rw [List.getElem?_append_left hk, stateBefore_snoc hk.le]

theorem reset_snoc_of_lt (hk : k < h.length) :
    Reset hashPassword (h ++ [x]) c k ↔ Reset hashPassword h c k := by
  have hs : ∀ op, Succeeded hashPassword (h ++ [x]) k op ↔ Succeeded hashPassword h k op :=
    fun op => by rw [succeeded_snoc]; exact or_iff_left fun e => absurd e.1 (by omega)
  unfold Reset
  simp only [hs]

theorem reset_lt (hk : Reset hashPassword h c k) : k < h.length := by
  rcases hk with ⟨q, hk⟩ | hk
  · exact at_lt hk.1
  · exact at_lt hk.1

theorem liveStrike_snoc_of_lt (hk : k < h.length) :
    LiveStrike hashPassword (h ++ [x]) c r p k ↔
      LiveStrike hashPassword h c r p k ∧ ¬ Reset hashPassword (h ++ [x]) c h.length := by
  unfold LiveStrike
  rw [strike_snoc_of_lt hk]
  constructor
  · rintro ⟨hrk, hs, hno⟩
    exact ⟨⟨hrk, hs, fun u hu hres => hno u hu ((reset_snoc_of_lt (reset_lt hres)).mpr hres)⟩,
      hno h.length hk⟩
  · rintro ⟨⟨hrk, hs, hno⟩, hlast⟩
    refine ⟨hrk, hs, fun u hu hres => ?_⟩
    have hu' : u < h.length + 1 := by simpa using reset_lt hres
    rcases Nat.lt_succ_iff_lt_or_eq.mp hu' with hu' | rfl
    · exact hno u hu ((reset_snoc_of_lt hu').mp hres)
    · exact hlast hres

theorem strikes_snoc_reset (hres : Reset hashPassword (h ++ [x]) c h.length)
    (hs : ¬ Strike hashPassword (h ++ [x]) c p h.length) :
    strikes hashPassword (h ++ [x]) c r p = 0 := by
  classical
  unfold strikes
  rw [Finset.card_eq_zero, Finset.filter_eq_empty_iff]
  intro k hk hlive
  have hk' : k < h.length + 1 := by simpa using hk
  rcases Nat.lt_succ_iff_lt_or_eq.mp hk' with hk' | rfl
  · exact ((liveStrike_snoc_of_lt hk').mp hlive).2 hres
  · exact hs hlive.2.1

theorem filter_live_snoc [DecidablePred (LiveStrike hashPassword (h ++ [x]) c r p)]
    [DecidablePred (LiveStrike hashPassword h c r p)]
    (hres : ¬ Reset hashPassword (h ++ [x]) c h.length) :
    (Finset.range h.length).filter (LiveStrike hashPassword (h ++ [x]) c r p)
      = (Finset.range h.length).filter (LiveStrike hashPassword h c r p) :=
  Finset.filter_congr fun k hk => by
    rw [liveStrike_snoc_of_lt (Finset.mem_range.mp hk)]
    exact and_iff_left hres

theorem strikes_snoc_same (hres : ¬ Reset hashPassword (h ++ [x]) c h.length)
    (hs : ¬ Strike hashPassword (h ++ [x]) c p h.length) :
    strikes hashPassword (h ++ [x]) c r p = strikes hashPassword h c r p := by
  classical
  unfold strikes
  rw [List.length_append, List.length_singleton, Finset.range_add_one, Finset.filter_insert,
    if_neg fun hl => hs hl.2.1, filter_live_snoc hres]

theorem strikes_snoc_strike (hr : r < h.length)
    (hres : ¬ Reset hashPassword (h ++ [x]) c h.length)
    (hs : Strike hashPassword (h ++ [x]) c p h.length) :
    strikes hashPassword (h ++ [x]) c r p = strikes hashPassword h c r p + 1 := by
  classical
  have hlive : LiveStrike hashPassword (h ++ [x]) c r p h.length :=
    ⟨hr, hs, fun u hu hu' => absurd (reset_lt hu') (by simp; omega)⟩
  unfold strikes
  rw [List.length_append, List.length_singleton, Finset.range_add_one, Finset.filter_insert,
    if_pos hlive, Finset.card_insert_of_notMem (by simp), filter_live_snoc hres]

theorem strikes_new : strikes hashPassword (h ++ [x]) c h.length p = 0 := by
  classical
  unfold strikes
  rw [Finset.card_eq_zero, Finset.filter_eq_empty_iff]
  intro k hk hlive
  have h1 : k < h.length + 1 := by simpa using hk
  exact absurd hlive.1 (by omega)

/-! ## the record carries the facts -/

/-- the record `d` says what the history `h` says about `c` since its registration at `r` -/
structure Matches (hashPassword : Bytes → Bytes) (h : List AuthOp) (c : Int) (r : Nat) (p : Bytes)
    (d : AuthData) : Prop where
  hash : d.hashedPassword = hashPassword p
  emergency : d.emergencyBlocked = true ↔ EmergencyPending hashPassword h c r
  attempts : d.failedAttempts = strikes hashPassword h c r p
  blocked : d.isBlocked = true ↔ MAX_FAILED_ATTEMPTS ≤ d.failedAttempts

/-- the store agrees with the history on `c` -/
def Tracks (hashPassword : Bytes → Bytes) (h : List AuthOp) (c : Int) : Prop :=
  match (run (step hashPassword) init h).record c with
  | none => ∀ r p, ¬ Registration h c r p
  | some d => ∃ r p, Registration h c r p ∧ Matches hashPassword h c r p d

theorem tracks_of_none (hd : (run (step hashPassword) init h).record c = none) :
    Tracks hashPassword h c ↔ ∀ r p, ¬ Registration h c r p := by
  unfold Tracks
  rw [hd]

theorem tracks_of_some (hd : (run (step hashPassword) init h).record c = some d) :
    Tracks hashPassword h c ↔ ∃ r p, Registration h c r p ∧ Matches hashPassword h c r p d := by
  unfold Tracks
  rw [hd]

theorem tracks_next_none
    (hd : ((run (step hashPassword) init h).step hashPassword x).record c = none) :
    Tracks hashPassword (h ++ [x]) c ↔ ∀ r p, ¬ Registration (h ++ [x]) c r p :=
  tracks_of_none (by rw [run_snoc, hd])

theorem tracks_next_some
    (hd : ((run (step hashPassword) init h).step hashPassword x).record c = some d) :
    Tracks hashPassword (h ++ [x]) c ↔
      ∃ r p, Registration (h ++ [x]) c r p ∧ Matches hashPassword (h ++ [x]) c r p d :=
  tracks_of_some (by rw [run_snoc, hd])

theorem reset_last : Reset hashPassword (h ++ [x]) c h.length ↔
    ((∃ q, x = .authenticate c q) ∨ x = .unblockWithFingerprint c) ∧
      (run (step hashPassword) init h).returned hashPassword x = true := by
  have hs : ∀ op, Succeeded hashPassword (h ++ [x]) h.length op ↔
      x = op ∧ (run (step hashPassword) init h).returned hashPassword op = true := fun op => by
    rw [succeeded_snoc]
    exact ⟨fun e => e.elim (fun e => absurd (at_lt e.1) (by omega)) And.right,
      fun e => Or.inr ⟨rfl, e⟩⟩
  unfold Reset
  simp only [hs]
  constructor
  · rintro (⟨q, rfl, hq⟩ | ⟨rfl, hq⟩)
    · exact ⟨Or.inl ⟨q, rfl⟩, hq⟩
    · exact ⟨Or.inr rfl, hq⟩
  · rintro ⟨⟨q, rfl⟩ | rfl, hq⟩
    · exact Or.inl ⟨q, rfl, hq⟩
    · exact Or.inr ⟨rfl, hq⟩

theorem strike_last : Strike hashPassword (h ++ [x]) c p h.length ↔
    ∃ q d, x = .authenticate c q ∧ hashPassword q ≠ hashPassword p ∧
      (run (step hashPassword) init h).record c = some d ∧
      d.isBlocked = false ∧ d.emergencyBlocked = false := by
  unfold Strike
  rw [List.getElem?_concat_length, stateBefore_snoc le_rfl, stateBefore_length]
  simp only [Option.some_inj]

theorem not_reset_last (ha : ∀ q, x ≠ .authenticate c q) (hu : x ≠ .unblockWithFingerprint c) :
    ¬ Reset hashPassword (h ++ [x]) c h.length := by
  rw [reset_last]
  intro hreset
  obtain ⟨e, -⟩ := hreset
  rcases e with ⟨q, e⟩ | e
  · exact ha q e
  · exact hu e

theorem not_strike_last (ha : ∀ q, x ≠ .authenticate c q) :
    ¬ Strike hashPassword (h ++ [x]) c p h.length := by
  rw [strike_last]
  intro hstrike
  obtain ⟨q, -, e, -⟩ := hstrike
  exact ha q e

theorem not_unlocks (hs : ∀ s, x ≠ .unlockWithSecretPhrase c s) : ¬ Unlocks hashPassword h c x := by
  intro hunlocks
  obtain ⟨s, e, -⟩ := hunlocks
  exact hs s e

theorem not_max_le_zero : ¬ MAX_FAILED_ATTEMPTS ≤ 0 := by decide

/-- an operation that neither begins nor ends an emergency -/
theorem Matches.pending (hm : Matches hashPassword h c r p d) (hr : r < h.length)
    (hb : x ≠ .blockDueToEmergency c) (hu : ¬ Unlocks hashPassword h c x) :
    d.emergencyBlocked = true ↔ EmergencyPending hashPassword (h ++ [x]) c r := by
  rw [emergencyPending_snoc hr, ← hm.emergency]
  constructor
  · intro e
    exact Or.inr ⟨e, hu⟩
  · intro e
    rcases e with e | ⟨e, _⟩
    · exact absurd e hb
    · exact e

/-- an operation that is no emergency block or unlock, no reset and no strike of `c` -/
theorem Matches.quiet {d' : AuthData} (hm : Matches hashPassword h c r p d) (hr : r < h.length)
    (hb : x ≠ .blockDueToEmergency c) (hu : ¬ Unlocks hashPassword h c x)
    (hres : ¬ Reset hashPassword (h ++ [x]) c h.length)
    (hs : ¬ Strike hashPassword (h ++ [x]) c p h.length)
    (hd : d' = { d with isLogged := d'.isLogged }) : Matches hashPassword (h ++ [x]) c r p d' := by
  rw [hd]
  refine ⟨hm.hash, hm.pending hr hb hu, ?_, hm.blocked⟩
  rw [strikes_snoc_same hres hs]
  exact hm.attempts

/-- a reset of `c` -/
theorem Matches.reset {d' : AuthData} (hm : Matches hashPassword h c r p d) (hr : r < h.length)
    (hb : x ≠ .blockDueToEmergency c) (hu : ¬ Unlocks hashPassword h c x)
    (hres : Reset hashPassword (h ++ [x]) c h.length)
    (hs : ¬ Strike hashPassword (h ++ [x]) c p h.length)
    (hd : d' = { d with isLogged := d'.isLogged, failedAttempts := 0, isBlocked := false }) :
    Matches hashPassword (h ++ [x]) c r p d' := by
  rw [hd]
  refine ⟨hm.hash, hm.pending hr hb hu, ?_, iff_of_false Bool.false_ne_true not_max_le_zero⟩
  rw [strikes_snoc_reset hres hs]
  rfl

/-! ### one operation on a registered client -/

theorem tracks_snoc_addCredentials (q : Bytes)
    (hd : (run (step hashPassword) init h).record c = some d) (hr : Registration h c r p)
    (hm : Matches hashPassword h c r p d) : Tracks hashPassword (h ++ [.addCredentials c q]) c := by
  have hrec : ((run (step hashPassword) init h).step hashPassword (.addCredentials c q)).record c
      = some d := record_addCredentials_known q hd
  rw [tracks_next_some hrec]
  refine ⟨r, p, hr.snoc (by simp), hm.quiet hr.lt (by simp) ?_ ?_ ?_ rfl⟩
  · exact not_unlocks (by simp)
  · exact not_reset_last (by simp) (by simp)
  · exact not_strike_last (by simp)

theorem tracks_snoc_removeCredentials (h : List AuthOp) (c : Int) :
    Tracks hashPassword (h ++ [.removeCredentials c]) c := by
  have hrec : ((run (step hashPassword) init h).step hashPassword (.removeCredentials c)).record c
      = none := record_removeCredentials _ c
  rw [tracks_next_none hrec]
  intro r p
  exact not_registration_remove

/-- a password that is not evaluated is neither a reset nor a strike -/
theorem tracks_snoc_authenticate_blocked (q : Bytes)
    (hd : (run (step hashPassword) init h).record c = some d) (hr : Registration h c r p)
    (hm : Matches hashPassword h c r p d) (hb : (d.isBlocked || d.emergencyBlocked) = true) :
    Tracks hashPassword (h ++ [.authenticate c q]) c := by
  have happ : (run (step hashPassword) init h).apply hashPassword (.authenticate c q)
      = (false, run (step hashPassword) init h) := apply_authenticate_blocked q hd hb
  have hrec : ((run (step hashPassword) init h).step hashPassword (.authenticate c q)).record c
      = some d := by
    rw [step, happ, hd]
  rw [tracks_next_some hrec]
  refine ⟨r, p, hr.snoc (by simp), hm.quiet hr.lt (by simp) (not_unlocks (by simp)) ?_ ?_ rfl⟩
  · rw [reset_last, returned, happ]
    intro e
    exact Bool.false_ne_true e.2
  · rw [strike_last]
    intro hstrike
    obtain ⟨q', d', -, -, hd', h1, h2⟩ := hstrike
    obtain rfl := Option.some.inj (hd.symm.trans hd')
    rw [h1, h2] at hb
    cases hb

theorem tracks_snoc_authenticate_right {q : Bytes}
    (hd : (run (step hashPassword) init h).record c = some d) (hr : Registration h c r p)
    (hm : Matches hashPassword h c r p d) (hb : (d.isBlocked || d.emergencyBlocked) = false)
    (hp : d.hashedPassword = hashPassword q) :
    Tracks hashPassword (h ++ [.authenticate c q]) c := by
  have happ := apply_authenticate_right hd hb hp
  have hrec : ((run (step hashPassword) init h).step hashPassword (.authenticate c q)).record c
      = some { d with failedAttempts := 0, isLogged := true } := by
    rw [step, happ, record_put_self]
  have hunblocked : d.isBlocked = false := (Bool.or_eq_false_iff.mp hb).1
  rw [tracks_next_some hrec]
  refine ⟨r, p, hr.snoc (by simp), hm.reset hr.lt (by simp) (not_unlocks (by simp)) ?_ ?_
    (by simp [hunblocked])⟩
  · rw [reset_last, returned, happ]
    exact ⟨Or.inl ⟨q, rfl⟩, rfl⟩
  · rw [strike_last]
    intro hstrike
    obtain ⟨q', d', e, hne, -⟩ := hstrike
    cases e
    exact hne (hp.symm.trans hm.hash)

theorem tracks_snoc_authenticate_wrong {q : Bytes}
    (hd : (run (step hashPassword) init h).record c = some d) (hr : Registration h c r p)
    (hm : Matches hashPassword h c r p d) (hb : (d.isBlocked || d.emergencyBlocked) = false)
    (hp : ¬ d.hashedPassword = hashPassword q) :
    Tracks hashPassword (h ++ [.authenticate c q]) c := by
  have happ := apply_authenticate_wrong hd hb hp
  have hrec : ((run (step hashPassword) init h).step hashPassword (.authenticate c q)).record c
      = some { d with
          failedAttempts := d.failedAttempts + 1,
          isBlocked := decide (MAX_FAILED_ATTEMPTS ≤ d.failedAttempts + 1) } := by
    rw [step, happ, record_put_self]
  have hnres : ¬ Reset hashPassword (h ++ [.authenticate c q]) c h.length := by
    rw [reset_last, returned, happ]
    intro e
    exact Bool.false_ne_true e.2
  have hstrike : Strike hashPassword (h ++ [.authenticate c q]) c p h.length := by
    obtain ⟨hb1, hb2⟩ := Bool.or_eq_false_iff.mp hb
    rw [strike_last]
    exact ⟨q, d, rfl, fun e => hp (hm.hash.trans e.symm), hd, hb1, hb2⟩
  rw [tracks_next_some hrec]
  refine ⟨r, p, hr.snoc (by simp), hm.hash, ?_, ?_, by simp⟩
  · exact hm.pending hr.lt (by simp) (not_unlocks (by simp))
  · rw [strikes_snoc_strike hr.lt hnres hstrike, Nat.cast_add, ← hm.attempts]
    rfl

theorem tracks_snoc_setLoggedOut (hd : (run (step hashPassword) init h).record c = some d)
    (hr : Registration h c r p) (hm : Matches hashPassword h c r p d) :
    Tracks hashPassword (h ++ [.setLoggedOut c]) c := by
  have hrec : ((run (step hashPassword) init h).step hashPassword (.setLoggedOut c)).record c
      = some { d with isLogged := false } := record_setLoggedOut hd
  rw [tracks_next_some hrec]
  refine ⟨r, p, hr.snoc (by simp), hm.quiet hr.lt (by simp) ?_ ?_ ?_ rfl⟩
  · exact not_unlocks (by simp)
  · exact not_reset_last (by simp) (by simp)
  · exact not_strike_last (by simp)

theorem tracks_snoc_unblockWithFingerprint
    (hd : (run (step hashPassword) init h).record c = some d) (hr : Registration h c r p)
    (hm : Matches hashPassword h c r p d) :
    Tracks hashPassword (h ++ [.unblockWithFingerprint c]) c := by
  have hnu : ¬ Unlocks hashPassword h c (.unblockWithFingerprint c) := not_unlocks (by simp)
  have hns : ¬ Strike hashPassword (h ++ [.unblockWithFingerprint c]) c p h.length :=
    not_strike_last (by simp)
  cases hb : d.isBlocked with
  | false =>
    have happ : (run (step hashPassword) init h).apply hashPassword (.unblockWithFingerprint c)
        = (false, run (step hashPassword) init h) := apply_unblock_of_not_blocked hd hb
    have hrec : ((run (step hashPassword) init h).step hashPassword
        (.unblockWithFingerprint c)).record c = some d := by
      rw [step, happ, hd]
    rw [tracks_next_some hrec]
    refine ⟨r, p, hr.snoc (by simp), hm.quiet hr.lt (by simp) hnu ?_ hns rfl⟩
    rw [reset_last, returned, happ]
    intro e
    exact Bool.false_ne_true e.2
  | true =>
    have happ : (run (step hashPassword) init h).apply hashPassword (.unblockWithFingerprint c)
        = (true, (run (step hashPassword) init h).put c
          { d with isBlocked := false, failedAttempts := 0, isLogged := true }) :=
      apply_unblock_of_blocked hd hb
    have hrec : ((run (step hashPassword) init h).step hashPassword
        (.unblockWithFingerprint c)).record c
          = some { d with isBlocked := false, failedAttempts := 0, isLogged := true } := by
      rw [step, happ, record_put_self]
    rw [tracks_next_some hrec]
    refine ⟨r, p, hr.snoc (by simp), hm.reset hr.lt (by simp) hnu ?_ hns rfl⟩
    rw [reset_last, returned, happ]
    exact ⟨Or.inr rfl, rfl⟩

theorem tracks_snoc_blockDueToEmergency
    (hd : (run (step hashPassword) init h).record c = some d) (hr : Registration h c r p)
    (hm : Matches hashPassword h c r p d) :
    Tracks hashPassword (h ++ [.blockDueToEmergency c]) c := by
  have hrec : ((run (step hashPassword) init h).step hashPassword
      (.blockDueToEmergency c)).record c = some { d with emergencyBlocked := true } :=
    record_blockDueToEmergency hd
  rw [tracks_next_some hrec]
  refine ⟨r, p, hr.snoc (by simp), hm.hash, ?_, ?_, hm.blocked⟩
  · rw [emergencyPending_snoc hr.lt]
    exact iff_of_true rfl (Or.inl rfl)
  · rw [strikes_snoc_same (not_reset_last (by simp) (by simp)) (not_strike_last (by simp))]
    exact hm.attempts

theorem tracks_snoc_unlockWithSecretPhrase (s : Bytes)
    (hd : (run (step hashPassword) init h).record c = some d) (hr : Registration h c r p)
    (hm : Matches hashPassword h c r p d) :
    Tracks hashPassword (h ++ [.unlockWithSecretPhrase c s]) c := by
  have hnres : ¬ Reset hashPassword (h ++ [.unlockWithSecretPhrase c s]) c h.length :=
    not_reset_last (by simp) (by simp)
  have hns : ¬ Strike hashPassword (h ++ [.unlockWithSecretPhrase c s]) c p h.length :=
    not_strike_last (by simp)
  cases hs : (d.emergencyBlocked && s == emergencyUnlock) with
  | false =>
    have happ : (run (step hashPassword) init h).apply hashPassword (.unlockWithSecretPhrase c s)
        = (false, run (step hashPassword) init h) := apply_unlock_wrong hd hs
    have hrec : ((run (step hashPassword) init h).step hashPassword
        (.unlockWithSecretPhrase c s)).record c = some d := by
      rw [step, happ, hd]
    rw [tracks_next_some hrec]
    refine ⟨r, p, hr.snoc (by simp), hm.quiet hr.lt (by simp) ?_ hnres hns rfl⟩
    intro hunlocks
    obtain ⟨s', e, hret⟩ := hunlocks
    rw [returned, happ] at hret
    cases hret
  | true =>
    have happ : (run (step hashPassword) init h).apply hashPassword (.unlockWithSecretPhrase c s)
        = (true, (run (step hashPassword) init h).put c { d with emergencyBlocked := false }) :=
      apply_unlock_right hd hs
    have hrec : ((run (step hashPassword) init h).step hashPassword
        (.unlockWithSecretPhrase c s)).record c = some { d with emergencyBlocked := false } := by
      rw [step, happ, record_put_self]
    have hunlocks : Unlocks hashPassword h c (.unlockWithSecretPhrase c s) :=
      ⟨s, rfl, by rw [returned, happ]⟩
    rw [tracks_next_some hrec]
    refine ⟨r, p, hr.snoc (by simp), hm.hash, ?_, ?_, hm.blocked⟩
    · rw [emergencyPending_snoc hr.lt]
      refine iff_of_false Bool.false_ne_true ?_
      intro e
      rcases e with e | ⟨_, hnu⟩
      · cases e
      · exact hnu hunlocks
    · rw [strikes_snoc_same hnres hns]
      exact hm.attempts

/-- one operation on a registered client keeps record and history together -/
theorem tracks_snoc_registered (hx : x.client = c)
    (hd : (run (step hashPassword) init h).record c = some d)
    (hr : Registration h c r p) (hm : Matches hashPassword h c r p d) :
    Tracks hashPassword (h ++ [x]) c := by
  cases x with
  | addCredentials c' q =>
    obtain rfl : c' = c := hx
    exact tracks_snoc_addCredentials q hd hr hm
  | removeCredentials c' =>
    obtain rfl : c' = c := hx
    exact tracks_snoc_removeCredentials h c'
  | authenticate c' q =>
    obtain rfl : c' = c := hx
    cases hb : (d.isBlocked || d.emergencyBlocked) with
    | true => exact tracks_snoc_authenticate_blocked q hd hr hm hb
    | false =>
      by_cases hp : d.hashedPassword = hashPassword q
      · exact tracks_snoc_authenticate_right hd hr hm hb hp
      · exact tracks_snoc_authenticate_wrong hd hr hm hb hp
  | setLoggedOut c' =>
    obtain rfl : c' = c := hx
    exact tracks_snoc_setLoggedOut hd hr hm
  | unblockWithFingerprint c' =>
    obtain rfl : c' = c := hx
    exact tracks_snoc_unblockWithFingerprint hd hr hm
  | blockDueToEmergency c' =>
    obtain rfl : c' = c := hx
    exact tracks_snoc_blockDueToEmergency hd hr hm
  | unlockWithSecretPhrase c' s =>
    obtain rfl : c' = c := hx
    exact tracks_snoc_unlockWithSecretPhrase s hd hr hm

/-! ### any operation -/

/-- one operation on an unregistered client -/
theorem tracks_snoc_unregistered (hx : x.client = c)
    (hd : (run (step hashPassword) init h).record c = none)
    (hno : ∀ r p, ¬ Registration h c r p) : Tracks hashPassword (h ++ [x]) c := by
  by_cases hadd : ∃ q, x = .addCredentials c q
  · obtain ⟨q, rfl⟩ := hadd
    have hrec : ((run (step hashPassword) init h).step hashPassword (.addCredentials c q)).record c
        = some ⟨hashPassword q, false, 0, false, false⟩ := record_addCredentials_new q hd
    rw [tracks_next_some hrec]
    refine ⟨h.length, q, registration_new hno, rfl, ?_, ?_,
      fun e => (by cases e), fun e => absurd e not_max_le_zero⟩
    · refine ⟨fun e => (by cases e), fun ⟨k, hk, hblock, _⟩ => ?_⟩
      exact absurd (at_lt hblock) (by rw [List.length_append, List.length_singleton]; omega)
    · rw [strikes_new]
      rfl
  · have hadd' : ∀ q, x ≠ .addCredentials c q := fun q e => hadd ⟨q, e⟩
    rw [tracks_next_none (record_step_of_none x hx hd hadd')]
    exact fun r p hreg => hno r p (hreg.of_snoc hadd')

/-- an operation on another client -/
theorem tracks_snoc_other (hx : x.client ≠ c) (ht : Tracks hashPassword h c) :
    Tracks hashPassword (h ++ [x]) c := by
  have hrun : run (step hashPassword) init (h ++ [x])
      = (run (step hashPassword) init h).step hashPassword x := run_snoc ..
  have hrec : (run (step hashPassword) init (h ++ [x])).record c
      = (run (step hashPassword) init h).record c := by
    rw [hrun, record_step_of_ne x hx]
  have hne : ∀ op : AuthOp, op.client = c → x ≠ op := fun op hop e => hx (e ▸ hop)
  cases hd : (run (step hashPassword) init h).record c with
  | none =>
    rw [tracks_of_none hd] at ht
    rw [tracks_of_none (hrec.trans hd)]
    exact fun r p hreg => ht r p (hreg.of_snoc fun q => hne _ rfl)
  | some d =>
    rw [tracks_of_some hd] at ht
    obtain ⟨r, p, hr, hm⟩ := ht
    rw [tracks_of_some (hrec.trans hd)]
    refine ⟨r, p, hr.snoc (hne _ rfl), hm.quiet hr.lt (hne _ rfl) ?_ ?_ ?_ rfl⟩
    · exact not_unlocks fun s => hne _ rfl
    · exact not_reset_last (fun q => hne _ rfl) (hne _ rfl)
    · exact not_strike_last fun q => hne _ rfl

/-- the store agrees with every history on every client -/
theorem tracks (hashPassword : Bytes → Bytes) (h : List AuthOp) (c : Int) :
    Tracks hashPassword h c := by
  induction h using List.reverseRecOn with
  | nil => exact fun r p hr => absurd hr.lt (by simp)
  | append_singleton h x ih =>
    by_cases hx : x.client = c
    · cases hd : (run (step hashPassword) init h).record c with
      | none => exact tracks_snoc_unregistered hx hd ((tracks_of_none hd).mp ih)
      | some d =>
        obtain ⟨r, p, hr, hm⟩ := (tracks_of_some hd).mp ih
        exact tracks_snoc_registered hx hd hr hm
    · exact tracks_snoc_other hx ih

/-! ## the answer of `authenticate` -/

theorem authenticate_of_record (q : Bytes) {a : Authentication} (hd : a.record c = some d) :
    (a.authenticate hashPassword c q).1 = true ↔
      d.isBlocked = false ∧ d.emergencyBlocked = false ∧ d.hashedPassword = hashPassword q := by
  show (a.apply hashPassword (.authenticate c q)).1 = true ↔ _
  cases hb : (d.isBlocked || d.emergencyBlocked) with
  | true =>
    rw [apply_authenticate_blocked q hd hb]
    refine ⟨fun e => (by cases e), fun e => ?_⟩
    rw [e.1, e.2.1] at hb
    cases hb
  | false =>
    obtain ⟨hb1, hb2⟩ := Bool.or_eq_false_iff.mp hb
    by_cases hp : d.hashedPassword = hashPassword q
    · rw [apply_authenticate_right hd hb hp]
      exact ⟨fun _ => ⟨hb1, hb2, hp⟩, fun _ => rfl⟩
    · rw [apply_authenticate_wrong hd hb hp]
      exact ⟨fun e => (by cases e), fun e => absurd e.2.2 hp⟩

/-- **The exact meaning of `authenticate`.**  After any history, `authenticate c p` returns true
exactly when `c` has an effective registration, no emergency block is pending since then, fewer
than three evaluated wrong attempts count against it, and `p` has the hash of the password of that
registration. -/
theorem authenticate_iff (hashPassword : Bytes → Bytes) (h : List AuthOp) (c : Int) (p : Bytes) :
    ((run (step hashPassword) init h).authenticate hashPassword c p).1 = true ↔
      ∃ r p0, Registration h c r p0 ∧ ¬ EmergencyPending hashPassword h c r ∧
        strikes hashPassword h c r p0 < 3 ∧ hashPassword p = hashPassword p0 := by
  cases hd : (run (step hashPassword) init h).record c with
  | none =>
    rw [authenticate_of_none p hd]
    have hno := (tracks_of_none hd).mp (tracks hashPassword h c)
    exact ⟨fun e => (by cases e), fun ⟨r, p0, hr, _⟩ => absurd hr (hno r p0)⟩
  | some d =>
    obtain ⟨r, p0, hr, hm⟩ := (tracks_of_some hd).mp (tracks hashPassword h c)
    rw [authenticate_of_record p hd]
    have hblocked : d.isBlocked = false ↔ strikes hashPassword h c r p0 < 3 := by
      rw [← Bool.not_eq_true, hm.blocked, hm.attempts, MAX_FAILED_ATTEMPTS]
      omega
    have hemergency : d.emergencyBlocked = false ↔ ¬ EmergencyPending hashPassword h c r := by
      rw [← Bool.not_eq_true, hm.emergency]
    rw [hblocked, hemergency, hm.hash]
    constructor
    · rintro ⟨h1, h2, h3⟩
      exact ⟨r, p0, hr, h2, h1, h3.symm⟩
    · rintro ⟨r', p', hr', h2, h1, h3⟩
      obtain ⟨rfl, rfl⟩ := hr.unique hr'
      exact ⟨h1, h2, h3.symm⟩

end

end Authentication

end Hub
