import Warehouse.Auth.Model

/-!
# What an emergency block shuts out

`blockDueToEmergency` sets a flag of its own; `isAuthorized` reads only the login flag and the
lockout flag.  So a client that is logged in when the emergency begins stays authorized.

* `record_during`        one operation during an emergency: what it can do to the record;
* `unauthorized_iff`     from the emergency on, `isAuthorized` is false in every state exactly
                         when the client was not an unlocked session at the start and no
                         fingerprint is accepted meanwhile;
* `emergency_keeps_session`   a logged-in client in an emergency;
* `emergency_leaves_no_trace`   attempts during an emergency fail and are not counted: the phrase
                         that ends it gives back the record the emergency began with.
-/

namespace Hub
open Machine Text

namespace Authentication

/-- the operation does not end the emergency of `c`: it does not remove `c`, and it is no
successful `unlockWithSecretPhrase` -/
def Continues (hashPassword : Bytes → Bytes) (c : Int) (a : Authentication) (op : AuthOp) : Prop :=
  op ≠ .removeCredentials c ∧
    ∀ s, op = .unlockWithSecretPhrase c s → a.returned hashPassword op = false

/-- `c` has the lockout flag -/
def LockedOut (c : Int) (a : Authentication) : Prop :=
  ∃ d, a.record c = some d ∧ d.isBlocked = true

/-- no fingerprint of `c` is taken while it is locked out -/
def NoFingerprint (c : Int) (a : Authentication) (op : AuthOp) : Prop :=
  op = .unblockWithFingerprint c → ¬ a.LockedOut c

/-- what an operation makes of the record of a client in an emergency -/
def duringEmergency (c : Int) (d : AuthData) (op : AuthOp) : AuthData :=
  if op = .unblockWithFingerprint c ∧ d.isBlocked = true then
    { d with isBlocked := false, failedAttempts := 0, isLogged := true }
  else if op = .setLoggedOut c then { d with isLogged := false }
  else d

section
variable {hashPassword : Bytes → Bytes} {a : Authentication} {c : Int} {d : AuthData}

theorem duringEmergency_of_ne (d : AuthData) {op : AuthOp} (h : op.client ≠ c) :
    duringEmergency c d op = d := by
  unfold duringEmergency
  rw [if_neg (fun e => h (by rw [e.1]; rfl)), if_neg (fun e => h (by rw [e]; rfl))]

theorem duringEmergency_emergency (c : Int) (d : AuthData) (op : AuthOp) :
    (duringEmergency c d op).emergencyBlocked = d.emergencyBlocked := by
  unfold duringEmergency
  split_ifs <;> rfl

/-- **One step of an emergency.**  Only a fingerprint on a locked-out client and a logout change
the record; everything else on `c` is refused, everything on other clients passes it by. -/
theorem record_during {op : AuthOp} (h : a.record c = some d) (he : d.emergencyBlocked = true)
    (hop : Continues hashPassword c a op) :
    (a.step hashPassword op).record c = some (duringEmergency c d op) := by
  by_cases hc : op.client = c
  swap
  · rw [record_step_of_ne op hc, duringEmergency_of_ne d hc, h]
  cases op with
  | addCredentials c' p =>
    obtain rfl : c' = c := hc
    show (a.addCredentials hashPassword c' p).record c' = _
    rw [record_addCredentials_known p h]
    simp [duringEmergency]
  | removeCredentials c' =>
    obtain rfl : c' = c := hc
    exact absurd rfl hop.1
  | authenticate c' p =>
    obtain rfl : c' = c := hc
    have hb : (d.isBlocked || d.emergencyBlocked) = true := by rw [he, Bool.or_true]
    rw [step, apply_authenticate_blocked p h hb, h]
    simp [duringEmergency]
  | setLoggedOut c' =>
    obtain rfl : c' = c := hc
    show (a.setLoggedOut c').record c' = _
    rw [record_setLoggedOut h]
    simp [duringEmergency]
  | unblockWithFingerprint c' =>
    obtain rfl : c' = c := hc
    cases hb : d.isBlocked with
    | false =>
      rw [step, apply_unblock_of_not_blocked h hb, h]
      simp [duringEmergency, hb]
    | true =>
      rw [step, apply_unblock_of_blocked h hb, record_put_self]
      simp [duringEmergency, hb]
  | blockDueToEmergency c' =>
    obtain rfl : c' = c := hc
    show (a.blockDueToEmergency c').record c' = _
    rw [record_blockDueToEmergency h, ← he]
    simp [duringEmergency]
  | unlockWithSecretPhrase c' s =>
    obtain rfl : c' = c := hc
    have hfail := hop.2 s rfl
    cases hs : (d.emergencyBlocked && s == emergencyUnlock) with
    | false =>
      rw [step, apply_unlock_wrong h hs, h]
      simp [duringEmergency]
    | true =>
      rw [returned, apply_unlock_right h hs] at hfail
      cases hfail

/-! ## the whole emergency -/

/-- `c` is registered and in an emergency -/
def InEmergency (c : Int) (a : Authentication) : Prop :=
  ∃ d, a.record c = some d ∧ d.emergencyBlocked = true

/-- ... and has no open session -/
def ShutOut (c : Int) (a : Authentication) : Prop :=
  InEmergency c a ∧ a.isAuthorized c = false

theorem isAuthorized_eq_false_iff (h : a.record c = some d) :
    a.isAuthorized c = false ↔ d.isLogged = false ∨ d.isBlocked = true := by
  rw [isAuthorized_of_record h]
  cases d.isLogged <;> cases d.isBlocked <;> decide

theorem inEmergency_step (a : Authentication) (op : AuthOp) (h : InEmergency c a)
    (hop : Continues hashPassword c a op) : InEmergency c (a.step hashPassword op) := by
  obtain ⟨d, hd, he⟩ := h
  exact ⟨_, record_during hd he hop, by rw [duringEmergency_emergency, he]⟩

/-- one step keeps the client shut out exactly when it is no fingerprint on a locked-out client -/
theorem shutOut_step (a : Authentication) (op : AuthOp) (h : ShutOut c a)
    (hop : Continues hashPassword c a op) :
    ShutOut c (a.step hashPassword op) ↔ NoFingerprint c a op := by
  obtain ⟨⟨d, hd, he⟩, hau⟩ := h
  have hau' := (isAuthorized_eq_false_iff hd).mp hau
  have hnext := record_during hd he hop
  have hlock : a.LockedOut c ↔ d.isBlocked = true :=
    ⟨fun ⟨d', hd', hb⟩ => by rw [hd] at hd'; cases hd'; exact hb, fun hb => ⟨d, hd, hb⟩⟩
  have hem : InEmergency c (a.step hashPassword op) := inEmergency_step a op ⟨d, hd, he⟩ hop
  unfold ShutOut NoFingerprint
  rw [isAuthorized_eq_false_iff hnext, hlock]
  unfold duringEmergency
  split_ifs with h1 h2
  · simp [h1.1, h1.2]
  · simpa [h2] using h2 ▸ hem
  · simp only [hem, true_and]
    refine ⟨fun _ hf hb => h1 ⟨hf, hb⟩, fun _ => hau'⟩

theorem inEmergency_block (h : a.record c = some d) : InEmergency c (a.blockDueToEmergency c) :=
  ⟨_, record_blockDueToEmergency h, rfl⟩

theorem isAuthorized_block (h : a.record c = some d) :
    (a.blockDueToEmergency c).isAuthorized c = false ↔ d.isLogged = false ∨ d.isBlocked = true :=
  isAuthorized_eq_false_iff (d := { d with emergencyBlocked := true })
    (record_blockDueToEmergency h)

/-- throughout an emergency that is not ended, being shut out is being unauthorized -/
theorem always_unauthorized_iff {seg : List AuthOp} (h : InEmergency c a)
    (hseg : Along (step hashPassword) (Continues hashPassword c) a seg) :
    Always (step hashPassword) (fun a => a.isAuthorized c = false) a seg
      ↔ Always (step hashPassword) (ShutOut c) a seg := by
  have hem : Always (step hashPassword) (InEmergency c) a seg :=
    always_of_along inEmergency_step h hseg
  rw [always_iff_initial_runs] at hem ⊢
  rw [always_iff_initial_runs]
  exact ⟨fun hu pre hp => ⟨hem pre hp, hu pre hp⟩, fun hs pre hp => (hs pre hp).2⟩

/-- **When an emergency shuts its client out.**  After any run, let the emergency of a registered
client begin and go on for any operations.  The client is unauthorized in every state of it exactly
when its record was logged out or locked out at the start, and no fingerprint of the client is
taken while it is locked out. -/
theorem unauthorized_iff (hashPassword : Bytes → Bytes) (pre seg : List AuthOp) (c : Int)
    (d : AuthData) (hreg : (run (step hashPassword) init pre).record c = some d)
    (hseg : Along (step hashPassword) (Continues hashPassword c)
      ((run (step hashPassword) init pre).blockDueToEmergency c) seg) :
    Always (step hashPassword) (fun a => a.isAuthorized c = false)
        ((run (step hashPassword) init pre).blockDueToEmergency c) seg
      ↔ (d.isLogged = false ∨ d.isBlocked = true) ∧
        Along (step hashPassword) (NoFingerprint c)
          ((run (step hashPassword) init pre).blockDueToEmergency c) seg := by
  rw [always_unauthorized_iff (inEmergency_block hreg) hseg, ← isAuthorized_block hreg]
  constructor
  · intro h
    exact ⟨h.head.2, (always_iff_along shutOut_step h.head hseg).mp h⟩
  · rintro ⟨hstart, hno⟩
    exact (always_iff_along shutOut_step ⟨inEmergency_block hreg, hstart⟩ hseg).mpr hno

end

/-- the hypotheses can be met: a client that never logged in, with attempts during the emergency -/
theorem unauthorized_iff_example :
    Always (step id) (fun a => a.isAuthorized 1 = false)
        ((run (step id) init [.addCredentials 1 [112]]).blockDueToEmergency 1)
        [.authenticate 1 [112], .unlockWithSecretPhrase 1 [119], .setLoggedOut 1]
      ↔ ((false : Bool) = false ∨ (false : Bool) = true) ∧
        Along (step id) (NoFingerprint 1)
          ((run (step id) init [.addCredentials 1 [112]]).blockDueToEmergency 1)
          [.authenticate 1 [112], .unlockWithSecretPhrase 1 [119], .setLoggedOut 1] :=
  unauthorized_iff id [.addCredentials 1 [112]]
    [.authenticate 1 [112], .unlockWithSecretPhrase 1 [119], .setLoggedOut 1] 1
    ⟨[112], false, 0, false, false⟩ rfl
    ⟨⟨by decide, fun _ h => by cases h⟩, ⟨by decide, fun s h => by cases h; rfl⟩,
      ⟨by decide, fun _ h => by cases h⟩, trivial⟩

/-- A client that logs in before the emergency: registered, in an emergency, and authorized. -/
theorem emergency_keeps_session :
    ¬ ∀ (hashPassword : Bytes → Bytes) (pre seg : List AuthOp) (c : Int) (d : AuthData),
      (run (step hashPassword) init pre).record c = some d →
      Along (step hashPassword) (Continues hashPassword c)
        ((run (step hashPassword) init pre).blockDueToEmergency c) seg →
      Always (step hashPassword) (fun a => a.isAuthorized c = false)
        ((run (step hashPassword) init pre).blockDueToEmergency c) seg := by
  intro h
  have h1 := h id [.addCredentials 1 [112], .authenticate 1 [112]] [] 1
    ⟨[112], true, 0, false, false⟩ rfl trivial
  exact absurd h1.head (by decide)

/-! ## attempts during an emergency -/

/-- an operation on another client, a login attempt of `c`, or a wrong phrase for `c` -/
inductive Attempt (c : Int) : AuthOp → Prop
  | elsewhere {op : AuthOp} (h : op.client ≠ c) : Attempt c op
  | authenticate (password : Bytes) : Attempt c (.authenticate c password)
  | phrase {s : Bytes} (h : s ≠ emergencyUnlock) : Attempt c (.unlockWithSecretPhrase c s)

section
variable (hashPassword : Bytes → Bytes) {a : Authentication} {c : Int} {d : AuthData}

/-- One attempt during an emergency: the record stays, and a call on `c` returns false. -/
theorem attempt_step {op : AuthOp} (h : a.record c = some d) (he : d.emergencyBlocked = true)
    (hop : Attempt c op) :
    (a.step hashPassword op).record c = some d ∧
      (op.client = c → a.returned hashPassword op = false) := by
  cases hop with
  | elsewhere hne => exact ⟨by rw [record_step_of_ne op hne, h], fun hc => absurd hc hne⟩
  | authenticate p =>
    have hb : (d.isBlocked || d.emergencyBlocked) = true := by rw [he, Bool.or_true]
    have happly : a.apply hashPassword (.authenticate c p) = (false, a) :=
      apply_authenticate_blocked p h hb
    exact ⟨by rw [step, happly, h], fun _ => by rw [returned, happly]⟩
  | @phrase s hs =>
    have hs' : (d.emergencyBlocked && s == emergencyUnlock) = false := by simp [hs]
    have happly : a.apply hashPassword (.unlockWithSecretPhrase c s) = (false, a) :=
      apply_unlock_wrong h hs'
    exact ⟨by rw [step, happly, h], fun _ => by rw [returned, happly]⟩

/-- any number of attempts during an emergency -/
theorem attempts_run (h : a.record c = some d) (he : d.emergencyBlocked = true)
    {seg : List AuthOp} (hseg : ∀ op ∈ seg, Attempt c op) :
    (run (step hashPassword) a seg).record c = some d ∧
      Along (step hashPassword) (fun a op => op.client = c → a.returned hashPassword op = false)
        a seg := by
  induction seg generalizing a with
  | nil => exact ⟨h, trivial⟩
  | cons op seg ih =>
    obtain ⟨hnext, hret⟩ := attempt_step hashPassword h he
      (hseg op (List.mem_cons_self ..))
    obtain ⟨hlast, halong⟩ := ih hnext fun o ho => hseg o (List.mem_cons_of_mem _ ho)
    exact ⟨hlast, hret, halong⟩

/-- **An emergency leaves no trace.**  In any reachable state where `c` is registered with the
record `d` and in no emergency, let one begin, let any attempts follow, and let a phrase end it.
Every call on `c` in between returned false, and the record of `c` is `d` again. -/
theorem emergency_leaves_no_trace (hashPassword : Bytes → Bytes) (pre seg : List AuthOp) (c : Int)
    (d : AuthData) (phrase : Bytes)
    (hreg : (run (step hashPassword) init pre).record c = some d)
    (hfree : d.emergencyBlocked = false) (hseg : ∀ op ∈ seg, Attempt c op)
    (hend : (run (step hashPassword) init (pre ++ .blockDueToEmergency c :: seg)).returned
      hashPassword (.unlockWithSecretPhrase c phrase) = true) :
    Along (step hashPassword) (fun a op => op.client = c → a.returned hashPassword op = false)
        (run (step hashPassword) init (pre ++ [.blockDueToEmergency c])) seg ∧
      (run (step hashPassword) init
        (pre ++ .blockDueToEmergency c :: seg ++ [.unlockWithSecretPhrase c phrase])).record c
        = some d := by
  have hblock : (run (step hashPassword) init (pre ++ [.blockDueToEmergency c])).record c
      = some { d with emergencyBlocked := true } := by
    rw [run_snoc]
    exact record_blockDueToEmergency hreg
  obtain ⟨hlast, halong⟩ := attempts_run hashPassword hblock rfl hseg
  rw [← run_append, List.append_assoc, List.singleton_append] at hlast
  refine ⟨halong, ?_⟩
  rw [run_snoc]
  cases hs : phrase == emergencyUnlock with
  | false =>
    have hs' : (true && phrase == emergencyUnlock) = false := by rw [hs, Bool.and_false]
    rw [returned, apply_unlock_wrong hlast hs'] at hend
    cases hend
  | true =>
    have hs' : (true && phrase == emergencyUnlock) = true := by rw [hs, Bool.and_true]
    rw [step, apply_unlock_right hlast hs', record_put_self, ← hfree]

end

/-- the hypotheses can be met: a client with one failed login, with a right and a wrong password
and a wrong phrase during its emergency, while another client is registered -/
theorem emergency_leaves_no_trace_example :
    Along (step id) (fun a op => op.client = 1 → a.returned id op = false)
        (run (step id) init
          ([.addCredentials 1 [112], .authenticate 1 [113]] ++ [.blockDueToEmergency 1]))
        [.authenticate 1 [112], .addCredentials 2 [114], .authenticate 1 [113],
          .unlockWithSecretPhrase 1 [119]] ∧
      (run (step id) init
        ([.addCredentials 1 [112], .authenticate 1 [113]] ++ .blockDueToEmergency 1 ::
          [.authenticate 1 [112], .addCredentials 2 [114], .authenticate 1 [113],
            .unlockWithSecretPhrase 1 [119]] ++
          [.unlockWithSecretPhrase 1 emergencyUnlock])).record 1
        = some ⟨[112], false, 1, false, false⟩ := by
  refine emergency_leaves_no_trace id _ _ 1 _ emergencyUnlock rfl rfl ?_ rfl
  simp only [List.forall_mem_cons]
  exact ⟨.authenticate [112], .elsewhere (by decide), .authenticate [113], .phrase (by decide),
    fun _ h => absurd h List.not_mem_nil⟩

end Authentication

end Hub
