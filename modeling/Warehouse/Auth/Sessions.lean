import Warehouse.Auth.History

/-!
# Where sessions come from

* `Session h c r`        a successful `authenticate c` or `unblockWithFingerprint c` after `r` that no
                         `setLoggedOut c` follows;
* `isLogged_step`        what one operation does to the login flag of a registered client;
* `isLogged_iff`         the flag is set exactly during a session;
* `isAuthorized_iff`     the answer of `isAuthorized`, read off the history.
-/

namespace Hub
open Machine Text

namespace Authentication

section
variable {hashPassword : Bytes → Bytes} {h : List AuthOp} {x : AuthOp} {a : Authentication}
  {c : Int} {r k : Nat} {p q : Bytes} {d d' : AuthData}

/-- a reset of `c` after `r` that no `setLoggedOut c` follows -/
def Session (hashPassword : Bytes → Bytes) (h : List AuthOp) (c : Int) (r : Nat) : Prop :=
  ∃ k, r < k ∧ Reset hashPassword h c k ∧ ∀ i, k < i → h[i]? ≠ some (.setLoggedOut c)

theorem session_snoc (hr : r < h.length) : Session hashPassword (h ++ [x]) c r ↔
    Reset hashPassword (h ++ [x]) c h.length ∨
      (x ≠ .setLoggedOut c ∧ Session hashPassword h c r) := by
  constructor
  · intro hsession
    obtain ⟨k, hrk, hres, hno⟩ := hsession
    have hk : k < h.length + 1 := by simpa using reset_lt hres
    rcases Nat.lt_succ_iff_lt_or_eq.mp hk with hk | rfl
    · refine Or.inr ⟨fun e => ?_, k, hrk, (reset_snoc_of_lt hk).mp hres, fun i hi e => ?_⟩
      · exact hno h.length hk (at_snoc.mpr (Or.inr ⟨rfl, e⟩))
      · exact hno i hi (at_snoc.mpr (Or.inl e))
    · exact Or.inl hres
  · intro hor
    rcases hor with hres | ⟨hx, k, hrk, hres, hno⟩
    · refine ⟨h.length, hr, hres, fun i hi e => ?_⟩
      exact absurd (at_lt e) (by simp; omega)
    · refine ⟨k, hrk, (reset_snoc_of_lt (reset_lt hres)).mpr hres, fun i hi e => ?_⟩
      rcases at_snoc.mp e with e | ⟨-, e⟩
      · exact hno i hi e
      · exact hx e

/-! ## the login flag -/

/-- the operation is an `authenticate c` or an `unblockWithFingerprint c` that succeeds -/
def Grants (hashPassword : Bytes → Bytes) (a : Authentication) (c : Int) (x : AuthOp) : Prop :=
  ((∃ q, x = .authenticate c q) ∨ x = .unblockWithFingerprint c) ∧
    a.returned hashPassword x = true

theorem not_grants (ha : ∀ q, x ≠ .authenticate c q) (hu : x ≠ .unblockWithFingerprint c) :
    ¬ Grants hashPassword a c x := by
  intro hgrants
  obtain ⟨⟨q, e⟩ | e, -⟩ := hgrants
  · exact ha q e
  · exact hu e

/-- where the flag stays, nothing is granted -/
theorem isLogged_same (hd' : d'.isLogged = d.isLogged) (hx : x ≠ .setLoggedOut c)
    (hno : ¬ Grants hashPassword a c x) :
    d'.isLogged = true ↔ Grants hashPassword a c x ∨ (x ≠ .setLoggedOut c ∧ d.isLogged = true) := by
  rw [hd']
  exact ⟨fun e => Or.inr ⟨hx, e⟩, fun e => e.elim (fun e => absurd e hno) And.right⟩

theorem isLogged_authenticate (hd : a.record c = some d)
    (hd' : (a.step hashPassword (.authenticate c q)).record c = some d') :
    d'.isLogged = true ↔ Grants hashPassword a c (.authenticate c q) ∨
      (AuthOp.authenticate c q ≠ .setLoggedOut c ∧ d.isLogged = true) := by
  have hx : AuthOp.authenticate c q ≠ .setLoggedOut c := by simp
  have hrefused : (a.apply hashPassword (.authenticate c q)).1 = false →
      ¬ Grants hashPassword a c (.authenticate c q) := by
    intro hr hgrants
    exact Bool.false_ne_true (hr.symm.trans hgrants.2)
  cases hb : (d.isBlocked || d.emergencyBlocked) with
  | true =>
    have happ : a.apply hashPassword (.authenticate c q) = (false, a) :=
      apply_authenticate_blocked q hd hb
    rw [step, happ, hd] at hd'
    cases hd'
    exact isLogged_same rfl hx (hrefused (by rw [happ]))
  | false =>
    by_cases hp : d.hashedPassword = hashPassword q
    · have happ := apply_authenticate_right hd hb hp
      rw [step, happ, record_put_self] at hd'
      cases hd'
      exact iff_of_true rfl (Or.inl ⟨Or.inl ⟨q, rfl⟩, by rw [returned, happ]⟩)
    · have happ := apply_authenticate_wrong hd hb hp
      rw [step, happ, record_put_self] at hd'
      cases hd'
      exact isLogged_same rfl hx (hrefused (by rw [happ]))

theorem isLogged_unblock (hd : a.record c = some d)
    (hd' : (a.step hashPassword (.unblockWithFingerprint c)).record c = some d') :
    d'.isLogged = true ↔ Grants hashPassword a c (.unblockWithFingerprint c) ∨
      (AuthOp.unblockWithFingerprint c ≠ .setLoggedOut c ∧ d.isLogged = true) := by
  cases hb : d.isBlocked with
  | false =>
    have happ : a.apply hashPassword (.unblockWithFingerprint c) = (false, a) :=
      apply_unblock_of_not_blocked hd hb
    rw [step, happ, hd] at hd'
    cases hd'
    refine isLogged_same rfl (by simp) ?_
    intro hgrants
    have hr := hgrants.2
    rw [returned, happ] at hr
    cases hr
  | true =>
    have happ : a.apply hashPassword (.unblockWithFingerprint c) = (true, a.put c
        { d with isBlocked := false, failedAttempts := 0, isLogged := true }) :=
      apply_unblock_of_blocked hd hb
    rw [step, happ, record_put_self] at hd'
    cases hd'
    exact iff_of_true rfl (Or.inl ⟨Or.inr rfl, by rw [returned, happ]⟩)

/-- one operation, on the flag of a client that is registered before and after it -/
theorem isLogged_step (x : AuthOp) (hd : a.record c = some d)
    (hd' : (a.step hashPassword x).record c = some d') :
    d'.isLogged = true ↔ Grants hashPassword a c x ∨ (x ≠ .setLoggedOut c ∧ d.isLogged = true) := by
  by_cases hx : x.client = c
  · cases x with
    | addCredentials c' q =>
      obtain rfl : c' = c := hx
      rw [step, apply, record_addCredentials_known q hd] at hd'
      cases hd'
      exact isLogged_same rfl (by simp) (not_grants (by simp) (by simp))
    | removeCredentials c' =>
      obtain rfl : c' = c := hx
      rw [step, apply, record_removeCredentials] at hd'
      cases hd'
    | authenticate c' q =>
      obtain rfl : c' = c := hx
      exact isLogged_authenticate hd hd'
    | setLoggedOut c' =>
      obtain rfl : c' = c := hx
      rw [step, apply, record_setLoggedOut hd] at hd'
      cases hd'
      refine iff_of_false Bool.false_ne_true ?_
      intro e
      rcases e with e | e
      · exact not_grants (by simp) (by simp) e
      · exact e.1 rfl
    | unblockWithFingerprint c' =>
      obtain rfl : c' = c := hx
      exact isLogged_unblock hd hd'
    | blockDueToEmergency c' =>
      obtain rfl : c' = c := hx
      rw [step, apply, record_blockDueToEmergency hd] at hd'
      cases hd'
      exact isLogged_same rfl (by simp) (not_grants (by simp) (by simp))
    | unlockWithSecretPhrase c' s =>
      obtain rfl : c' = c := hx
      refine isLogged_same ?_ (by simp) (not_grants (by simp) (by simp))
      cases hs : (d.emergencyBlocked && s == emergencyUnlock) with
      | false =>
        rw [step, apply_unlock_wrong hd hs, hd] at hd'
        cases hd'
        rfl
      | true =>
        rw [step, apply_unlock_right hd hs, record_put_self] at hd'
        cases hd'
        rfl
  · have hne : ∀ op : AuthOp, op.client = c → x ≠ op := fun op hop e => hx (e ▸ hop)
    rw [record_step_of_ne x hx, hd] at hd'
    cases hd'
    exact isLogged_same rfl (hne _ rfl) (not_grants (fun q => hne _ rfl) (hne _ rfl))

/-! ## sessions -/

/-- a registration that appears where there was none -/
theorem Registration.last (hr : Registration (h ++ [x]) c r p)
    (hno : ∀ r p, ¬ Registration h c r p) : r = h.length := by
  rcases at_snoc.mp hr.made with hmade | ⟨hlast, -⟩
  · exfalso
    have hkeep : ∀ i, r < i → h[i]? ≠ some (.removeCredentials c) := fun i hi e =>
      hr.kept i hi (at_snoc.mpr (Or.inl e))
    obtain ⟨r', q, hr'⟩ := exists_registration hmade hkeep
    exact hno r' q hr'
  · exact hlast

/-- the flag of a registered client is set exactly during a session -/
theorem isLogged_iff (hashPassword : Bytes → Bytes) (h : List AuthOp)
    (hd : (run (step hashPassword) init h).record c = some d) (hr : Registration h c r p) :
    d.isLogged = true ↔ Session hashPassword h c r := by
  induction h using List.reverseRecOn generalizing d r p with
  | nil => exact absurd hr.lt (by simp)
  | append_singleton h x ih =>
    rw [run_snoc] at hd
    cases hd0 : (run (step hashPassword) init h).record c with
    | none =>
      have hno := (tracks_of_none hd0).mp (tracks hashPassword h c)
      obtain rfl := hr.last hno
      have hx : x.client = c := by
        by_contra hx
        rw [record_step_of_ne x hx, hd0] at hd
        cases hd
      have hadd : ∃ q, x = .addCredentials c q := by
        by_contra hadd
        push Not at hadd
        rw [record_step_of_none x hx hd0 hadd] at hd
        cases hd
      obtain ⟨q, rfl⟩ := hadd
      rw [step, apply, record_addCredentials_new q hd0] at hd
      cases hd
      refine iff_of_false Bool.false_ne_true ?_
      intro hsession
      obtain ⟨k, hk, hres, -⟩ := hsession
      exact absurd (reset_lt hres) (by simp; omega)
    | some d0 =>
      obtain ⟨r0, p0, hr0, -⟩ := (tracks_of_some hd0).mp (tracks hashPassword h c)
      have hx : x ≠ .removeCredentials c := by
        intro hx
        rw [hx, step, apply, record_removeCredentials] at hd
        cases hd
      obtain ⟨rfl, rfl⟩ := (hr0.snoc hx).unique hr
      rw [isLogged_step x hd0 hd, session_snoc hr0.lt, ih hd0 hr0, reset_last]
      rfl

/-- a registration is in force from the moment it is made -/
theorem Registration.take (hr : Registration h c r p) (hrk : r < k) :
    Registration (h.take k) c r p := by
  have hat : ∀ {i : ℕ} {op : AuthOp}, (h.take k)[i]? = some op → h[i]? = some op := by
    intro i op e
    rw [List.getElem?_take] at e
    split_ifs at e
    exact e
  refine ⟨?_, fun i hi e => hr.kept i hi (hat e), fun j q hj e => ?_⟩
  · rw [List.getElem?_take, if_pos hrk]
    exact hr.made
  · obtain ⟨i, h1, h2, h3⟩ := hr.first j q hj (hat e)
    refine ⟨i, h1, h2, ?_⟩
    rw [List.getElem?_take, if_pos (h2.trans hrk)]
    exact h3

/-- the password of a successful attempt has the hash of the registration in force -/
theorem hash_of_succeeded (hr : Registration h c r p) (hrk : r < k)
    (hs : Succeeded hashPassword h k (.authenticate c q)) :
    hashPassword q = hashPassword p := by
  have hanswer : ((stateBefore hashPassword h k).authenticate hashPassword c q).1 = true := hs.2
  have htracks : Tracks hashPassword (h.take k) c := tracks hashPassword (h.take k) c
  cases hd : (stateBefore hashPassword h k).record c with
  | none =>
    rw [authenticate_of_none q hd] at hanswer
    cases hanswer
  | some d =>
    obtain ⟨r', p', hr', hm⟩ := (tracks_of_some hd).mp htracks
    obtain ⟨-, rfl⟩ := (hr.take hrk).unique hr'
    have hq := ((authenticate_of_record q hd).mp hanswer).2.2
    rw [← hq, hm.hash]

/-- **Where a session comes from.**  A client is authorized exactly when it is registered and, since
then, a password with the registered hash or a fingerprint opened a session which no logout ended,
and fewer than three strikes count against the client. -/
theorem isAuthorized_iff (hashPassword : Bytes → Bytes) (h : List AuthOp) (c : Int) :
    (run (step hashPassword) init h).isAuthorized c = true ↔
      ∃ r p0 k, Registration h c r p0 ∧ r < k ∧
        ((∃ p, Succeeded hashPassword h k (.authenticate c p) ∧
            hashPassword p = hashPassword p0) ∨
          Succeeded hashPassword h k (.unblockWithFingerprint c)) ∧
        (∀ i, k < i → h[i]? ≠ some (.setLoggedOut c) ∧ h[i]? ≠ some (.removeCredentials c)) ∧
        strikes hashPassword h c r p0 < 3 := by
  cases hd : (run (step hashPassword) init h).record c with
  | none =>
    have hno := (tracks_of_none hd).mp (tracks hashPassword h c)
    refine iff_of_false ?_ fun ⟨r, p0, k, hr, _⟩ => hno r p0 hr
    unfold isAuthorized
    rw [hd]
    exact Bool.false_ne_true
  | some d =>
    obtain ⟨r, p0, hr, hm⟩ := (tracks_of_some hd).mp (tracks hashPassword h c)
    have hblocked : d.isBlocked = false ↔ strikes hashPassword h c r p0 < 3 := by
      rw [← Bool.not_eq_true, hm.blocked, hm.attempts, MAX_FAILED_ATTEMPTS]
      omega
    rw [isAuthorized_of_record hd, Bool.and_eq_true, Bool.not_eq_true', hblocked,
      isLogged_iff hashPassword h hd hr]
    constructor
    · rintro ⟨⟨k, hrk, hres, hno⟩, hstrikes⟩
      refine ⟨r, p0, k, hr, hrk, ?_, fun i hi => ⟨hno i hi, hr.kept i (hrk.trans hi)⟩, hstrikes⟩
      rcases hres with ⟨q, hq⟩ | hu
      · exact Or.inl ⟨q, hq, hash_of_succeeded hr hrk hq⟩
      · exact Or.inr hu
    · rintro ⟨r', p', k, hr', hrk, hres, hno, hstrikes⟩
      obtain ⟨rfl, rfl⟩ := hr.unique hr'
      refine ⟨⟨k, hrk, ?_, fun i hi => (hno i hi).1⟩, hstrikes⟩
      rcases hres with ⟨q, hq, -⟩ | hu
      · exact Or.inl ⟨q, hq⟩
      · exact Or.inr hu

end

end Authentication

end Hub
