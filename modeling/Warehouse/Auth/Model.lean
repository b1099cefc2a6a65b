import Warehouse.Machine.Run
import Warehouse.Machine.SortedMap
import Warehouse.Text.Bytes

/-!
# `Authentication`

The credential store of `server/Authentication.cpp`: one record per client (password hash, login
flag, failure counter, two block flags) and the seven operations that change it.  The hash of
`std::hash` is a parameter: nothing below depends on which function it is.

* `AuthOp`, `apply`      the operations, and what one returns together with the next store;
* `record_step_of_ne`    an operation on one client leaves the records of the others alone;
* `record_*`, `apply_*`  what each operation does to the record of its own client.
-/

namespace Hub
open Machine Text

/-- `AuthenticationConstants::MAX_FAILED_ATTEMPTS` -/
def MAX_FAILED_ATTEMPTS : Int := 3

/-- `Authentication::AuthData` -/
structure AuthData where
  hashedPassword : Bytes
  isLogged : Bool
  failedAttempts : Int
  isBlocked : Bool
  emergencyBlocked : Bool
deriving DecidableEq

structure Authentication where
  credentials : SortedMap Int AuthData
deriving DecidableEq

namespace Authentication

def init : Authentication := ⟨SortedMap.empty⟩

/-- the record of a client -/
def record (a : Authentication) (client_id : Int) : Option AuthData := a.credentials.find? client_id

/-- write through the iterator `it->second` -/
def put (a : Authentication) (client_id : Int) (d : AuthData) : Authentication :=
  ⟨a.credentials.insert client_id d⟩

/-- the literal `unlockWithSecretPhrase` compares with -/
def emergencyUnlock : Bytes :=
  ascii ['e', 'm', 'e', 'r', 'g', 'e', 'n', 'c', 'y', 'U', 'n', 'l', 'o', 'c', 'k']

section
variable (hashPassword : Bytes → Bytes)

def authenticate (a : Authentication) (client_id : Int) (password : Bytes) :
    Bool × Authentication :=
  match a.record client_id with
  | none => (false, a)
  | some auth =>
    if auth.isBlocked || auth.emergencyBlocked then (false, a)
    else if auth.hashedPassword = hashPassword password then
      (true, a.put client_id { auth with failedAttempts := 0, isLogged := true })
    else if auth.failedAttempts + 1 ≥ MAX_FAILED_ATTEMPTS then
      (false, a.put client_id
        { auth with failedAttempts := auth.failedAttempts + 1, isBlocked := true })
    else
      (false, a.put client_id { auth with failedAttempts := auth.failedAttempts + 1 })

def isAuthorized (a : Authentication) (client_id : Int) : Bool :=
  match a.record client_id with
  | none => false
  | some auth => auth.isLogged && !auth.isBlocked

def setLoggedOut (a : Authentication) (client_id : Int) : Authentication :=
  match a.record client_id with
  | none => a
  | some auth => a.put client_id { auth with isLogged := false }

def addCredentials (a : Authentication) (client_id : Int) (newPassword : Bytes) :
    Authentication :=
  if a.credentials.contains client_id then a
  else a.put client_id ⟨hashPassword newPassword, false, 0, false, false⟩

def removeCredentials (a : Authentication) (client_id : Int) : Authentication :=
  ⟨a.credentials.erase client_id⟩

def unblockWithFingerprint (a : Authentication) (client_id : Int) : Bool × Authentication :=
  match a.record client_id with
  | none => (false, a)
  | some auth =>
    if !auth.isBlocked then (false, a)
    else (true, a.put client_id
      { auth with isBlocked := false, failedAttempts := 0, isLogged := true })

def blockDueToEmergency (a : Authentication) (client_id : Int) : Authentication :=
  match a.record client_id with
  | none => a
  | some auth => a.put client_id { auth with emergencyBlocked := true }

def unlockWithSecretPhrase (a : Authentication) (client_id : Int) (secretPhrase : Bytes) :
    Bool × Authentication :=
  match a.record client_id with
  | none => (false, a)
  | some auth =>
    if auth.emergencyBlocked && secretPhrase == emergencyUnlock then
      (true, a.put client_id { auth with emergencyBlocked := false })
    else (false, a)

end

end Authentication

/-! ## operations -/

/-- the operations that change the store -/
inductive AuthOp where
  | addCredentials (client_id : Int) (newPassword : Bytes)
  | removeCredentials (client_id : Int)
  | authenticate (client_id : Int) (password : Bytes)
  | setLoggedOut (client_id : Int)
  | unblockWithFingerprint (client_id : Int)
  | blockDueToEmergency (client_id : Int)
  | unlockWithSecretPhrase (client_id : Int) (secretPhrase : Bytes)
deriving DecidableEq

/-- the client an operation is called for -/
def AuthOp.client : AuthOp → Int
  | .addCredentials c _ => c
  | .removeCredentials c => c
  | .authenticate c _ => c
  | .setLoggedOut c => c
  | .unblockWithFingerprint c => c
  | .blockDueToEmergency c => c
  | .unlockWithSecretPhrase c _ => c

namespace Authentication

section
variable (hashPassword : Bytes → Bytes)

/-- what an operation returns (`true` for the `void` ones) and the store it leaves -/
def apply (a : Authentication) : AuthOp → Bool × Authentication
  | .addCredentials c p => (true, a.addCredentials hashPassword c p)
  | .removeCredentials c => (true, a.removeCredentials c)
  | .authenticate c p => a.authenticate hashPassword c p
  | .setLoggedOut c => (true, a.setLoggedOut c)
  | .unblockWithFingerprint c => a.unblockWithFingerprint c
  | .blockDueToEmergency c => (true, a.blockDueToEmergency c)
  | .unlockWithSecretPhrase c s => a.unlockWithSecretPhrase c s

def step (a : Authentication) (op : AuthOp) : Authentication := (a.apply hashPassword op).2

/-- what the operation returned -/
def returned (a : Authentication) (op : AuthOp) : Bool := (a.apply hashPassword op).1

end

/-! ## the record of the client an operation is for -/

section
variable {hashPassword : Bytes → Bytes} {a : Authentication} {c c' : Int} {d : AuthData}

@[simp] theorem record_put_self (a : Authentication) (c : Int) (d : AuthData) :
    (a.put c d).record c = some d := SortedMap.find?_insert_self ..

theorem record_put_of_ne (a : Authentication) (d : AuthData) (h : c' ≠ c) :
    (a.put c d).record c' = a.record c' := SortedMap.find?_insert_of_ne _ _ h

theorem isAuthorized_of_record (h : a.record c = some d) :
    a.isAuthorized c = (d.isLogged && !d.isBlocked) := by
  unfold isAuthorized
  rw [h]

/-- an operation leaves the records of the other clients alone -/
theorem record_step_of_ne (op : AuthOp) (h : op.client ≠ c) :
    (a.step hashPassword op).record c = a.record c := by
  have hput : ∀ d, (a.put op.client d).record c = a.record c := fun d =>
    record_put_of_ne a d (Ne.symm h)
  unfold step apply
  cases op with
  | addCredentials c' p =>
    dsimp only [addCredentials]
    split
    · rfl
    · exact hput _
  | removeCredentials c' => exact SortedMap.find?_erase_of_ne _ (Ne.symm h)
  | authenticate c' p =>
    dsimp only [authenticate]
    split
    · rfl
    · split_ifs
      · rfl
      · exact hput _
      · exact hput _
      · exact hput _
  | setLoggedOut c' =>
    dsimp only [setLoggedOut]
    split
    · rfl
    · exact hput _
  | unblockWithFingerprint c' =>
    dsimp only [unblockWithFingerprint]
    split
    · rfl
    · split_ifs
      · rfl
      · exact hput _
  | blockDueToEmergency c' =>
    dsimp only [blockDueToEmergency]
    split
    · rfl
    · exact hput _
  | unlockWithSecretPhrase c' s =>
    dsimp only [unlockWithSecretPhrase]
    split
    · rfl
    · split_ifs
      · exact hput _
      · rfl

/-! ### an unregistered client -/

theorem record_addCredentials_new (p : Bytes) (h : a.record c = none) :
    (a.addCredentials hashPassword c p).record c
      = some ⟨hashPassword p, false, 0, false, false⟩ := by
  have hc : a.credentials.contains c = false := SortedMap.contains_eq_false.mpr h
  rw [addCredentials, hc, if_neg Bool.false_ne_true, record_put_self]

theorem record_removeCredentials (a : Authentication) (c : Int) :
    (a.removeCredentials c).record c = none := SortedMap.find?_erase_self ..

/-- nothing but `addCredentials` happens to an unregistered client, and nothing succeeds -/
theorem record_step_of_none (op : AuthOp) (hop : op.client = c) (h : a.record c = none)
    (hadd : ∀ p, op ≠ .addCredentials c p) : (a.step hashPassword op).record c = none := by
  cases op with
  | addCredentials c' p =>
    obtain rfl : c' = c := hop
    exact absurd rfl (hadd p)
  | removeCredentials c' =>
    obtain rfl : c' = c := hop
    exact record_removeCredentials a c'
  | authenticate c' p =>
    obtain rfl : c' = c := hop
    simp only [step, apply, authenticate, h]
  | setLoggedOut c' =>
    obtain rfl : c' = c := hop
    simp only [step, apply, setLoggedOut, h]
  | unblockWithFingerprint c' =>
    obtain rfl : c' = c := hop
    simp only [step, apply, unblockWithFingerprint, h]
  | blockDueToEmergency c' =>
    obtain rfl : c' = c := hop
    simp only [step, apply, blockDueToEmergency, h]
  | unlockWithSecretPhrase c' s =>
    obtain rfl : c' = c := hop
    simp only [step, apply, unlockWithSecretPhrase, h]

theorem authenticate_of_none (p : Bytes) (h : a.record c = none) :
    (a.authenticate hashPassword c p).1 = false := by
  simp only [authenticate, h]

/-! ### a registered client -/

theorem record_addCredentials_known (p : Bytes) (h : a.record c = some d) :
    (a.addCredentials hashPassword c p).record c = some d := by
  have hc : a.credentials.contains c = true := SortedMap.contains_eq_true.mpr ⟨d, h⟩
  rw [addCredentials, hc, if_pos rfl, h]

theorem record_setLoggedOut (h : a.record c = some d) :
    (a.setLoggedOut c).record c = some { d with isLogged := false } := by
  simp only [setLoggedOut, h, record_put_self]

theorem record_blockDueToEmergency (h : a.record c = some d) :
    (a.blockDueToEmergency c).record c = some { d with emergencyBlocked := true } := by
  simp only [blockDueToEmergency, h, record_put_self]

/-- an attempt that is not evaluated -/
theorem apply_authenticate_blocked (p : Bytes) (h : a.record c = some d)
    (hb : (d.isBlocked || d.emergencyBlocked) = true) :
    a.apply hashPassword (.authenticate c p) = (false, a) := by
  simp only [apply, authenticate, h, hb, if_true]

theorem apply_authenticate_right {p : Bytes} (h : a.record c = some d)
    (hb : (d.isBlocked || d.emergencyBlocked) = false) (hp : d.hashedPassword = hashPassword p) :
    a.apply hashPassword (.authenticate c p)
      = (true, a.put c { d with failedAttempts := 0, isLogged := true }) := by
  simp only [apply, authenticate, h, hb, hp, if_true, Bool.false_eq_true, if_false]

theorem apply_authenticate_wrong {p : Bytes} (h : a.record c = some d)
    (hb : (d.isBlocked || d.emergencyBlocked) = false) (hp : d.hashedPassword ≠ hashPassword p) :
    a.apply hashPassword (.authenticate c p)
      = (false, a.put c { d with
          failedAttempts := d.failedAttempts + 1,
          isBlocked := decide (MAX_FAILED_ATTEMPTS ≤ d.failedAttempts + 1) }) := by
  have hb' : d.isBlocked = false := (Bool.or_eq_false_iff.mp hb).1
  simp only [apply, authenticate, h, hb, hp, Bool.false_eq_true, if_false, ge_iff_le]
  by_cases hm : MAX_FAILED_ATTEMPTS ≤ d.failedAttempts + 1
  · rw [if_pos hm, decide_eq_true hm]
  · rw [if_neg hm, decide_eq_false hm]
    congr 3

theorem apply_unblock_of_not_blocked (h : a.record c = some d) (hb : d.isBlocked = false) :
    a.apply hashPassword (.unblockWithFingerprint c) = (false, a) := by
  simp only [apply, unblockWithFingerprint, h, hb, Bool.not_false, if_true]

theorem apply_unblock_of_blocked (h : a.record c = some d) (hb : d.isBlocked = true) :
    a.apply hashPassword (.unblockWithFingerprint c)
      = (true, a.put c { d with isBlocked := false, failedAttempts := 0, isLogged := true }) := by
  simp only [apply, unblockWithFingerprint, h, hb, Bool.not_true, Bool.false_eq_true, if_false]

theorem apply_unlock_right {s : Bytes} (h : a.record c = some d)
    (hs : (d.emergencyBlocked && s == emergencyUnlock) = true) :
    a.apply hashPassword (.unlockWithSecretPhrase c s)
      = (true, a.put c { d with emergencyBlocked := false }) := by
  simp only [apply, unlockWithSecretPhrase, h, hs, if_true]

theorem apply_unlock_wrong {s : Bytes} (h : a.record c = some d)
    (hs : (d.emergencyBlocked && s == emergencyUnlock) = false) :
    a.apply hashPassword (.unlockWithSecretPhrase c s) = (false, a) := by
  simp only [apply, unlockWithSecretPhrase, h, hs, Bool.false_eq_true, if_false]

end

end Authentication

end Hub
