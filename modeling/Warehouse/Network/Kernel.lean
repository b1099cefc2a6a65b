import Warehouse.Machine.SortedMap
import Warehouse.Text.Bytes

/-!
# The sockets of a process

What is behind the open descriptors of a process, and the calls on them.  The environment decides
which descriptor a new socket gets, what arrives, how a stream is cut, and what a sending call
returns.

* `Kernel`, `recvfrom`, `recv`, `sendto`, `send`, `accept`, `close`   the descriptors and the calls;
* `arrive`, `deliver`   a datagram or bytes come in;
* `kind?`               what a descriptor is; only opening and closing change it;
* `source?`, `pending`  who sent the bytes that a receiving call takes, and these bytes; a call on
                        one descriptor leaves those of the others.
-/

namespace Posix
open Machine Text

/-- `sockaddr_storage` with the length the kernel filled in -/
structure SockAddr where
  storage : Bytes
  length : ℕ
deriving DecidableEq

/-- equal lengths, and `memcmp` over that many bytes is zero -/
def SockAddr.same (a b : SockAddr) : Bool :=
  a.length == b.length && a.storage.take b.length == b.storage.take b.length

theorem SockAddr.same_self (a : SockAddr) : a.same a = true := by
  unfold same
  rw [beq_self_eq_true, beq_self_eq_true, Bool.and_self]

structure Datagram where
  sender : SockAddr
  payload : Bytes
deriving DecidableEq

/-- what a descriptor stands for -/
inductive File
  | listening
  | datagram (queue : List Datagram)
  | stream (peer : SockAddr) (incoming : Bytes)
  | other

/-- a file without its contents -/
inductive Kind
  | listening
  | datagram
  | stream (peer : SockAddr)
  | other
deriving DecidableEq

def File.kind : File → Kind
  | .listening => .listening
  | .datagram _ => .datagram
  | .stream peer _ => .stream peer
  | .other => .other

/-- the datagrams the process received and its sending calls, each with what it returned -/
inductive Event
  | received (fd : ℤ) (d : Datagram)
  | sentTo (fd : ℤ) (dest : SockAddr) (bytes : Bytes) (result : ℤ)
  | sent (fd : ℤ) (bytes : Bytes) (result : ℤ)
deriving DecidableEq

/-- `answers` is what the environment has ready for the sending calls to come: a number of bytes, or
`-1` where it refuses them (no buffer, a message too long, a connection that is gone) -/
structure Kernel where
  files : SortedMap ℤ File
  trace : List Event
  answers : List ℤ

namespace Kernel

/-! ## the calls -/

def isOpen (k : Kernel) (fd : ℤ) : Bool := k.files.contains fd

def openFile (k : Kernel) (fd : ℤ) (f : File) : Kernel := { k with files := k.files.insert fd f }

def close (k : Kernel) (fd : ℤ) : Kernel := { k with files := k.files.erase fd }

/-- a connection that waits on a listening socket, with the descriptor it gets -/
def accept (k : Kernel) (fd : ℤ) (connection : Option (ℤ × SockAddr)) :
    Option (ℤ × SockAddr × Kernel) :=
  match k.files.find? fd, connection with
  | some .listening, some (new, peer) => some (new, peer, k.openFile new (.stream peer []))
  | _, _ => none

/-- A datagram is cut to the size of the buffer.  A stream yields any number of the bytes that are
there, up to the size, and no address. -/
def recvfrom (k : Kernel) (fd : ℤ) (size cut : ℕ) : Option (SockAddr × Bytes × Kernel) :=
  match k.files.find? fd with
  | some (.datagram (d :: queue)) =>
    some (d.sender, d.payload.take size,
      { k with
        files := k.files.insert fd (.datagram queue)
        trace := k.trace ++ [.received fd ⟨d.sender, d.payload.take size⟩] })
  | some (.stream peer incoming) =>
    some (⟨[], 0⟩, incoming.take (min size cut),
      k.openFile fd (.stream peer (incoming.drop (min size cut))))
  | _ => none

def recv (k : Kernel) (fd : ℤ) (size cut : ℕ) : Option (Bytes × Kernel) :=
  (k.recvfrom fd size cut).map Prod.snd

/-- what a sending call returns: `-1` on a descriptor that is not open, and else the next answer
(all the bytes where none is left) -/
def answer (k : Kernel) (fd : ℤ) (bytes : Bytes) : ℤ :=
  if k.isOpen fd then k.answers.headD bytes.length else -1

def sendto (k : Kernel) (fd : ℤ) (dest : SockAddr) (bytes : Bytes) : Kernel :=
  { k with
    trace := k.trace ++ [.sentTo fd dest bytes (k.answer fd bytes)]
    answers := k.answers.tail }

def send (k : Kernel) (fd : ℤ) (bytes : Bytes) : Kernel :=
  { k with
    trace := k.trace ++ [.sent fd bytes (k.answer fd bytes)]
    answers := k.answers.tail }

/-! ## the environment -/

def arrive (k : Kernel) (fd : ℤ) (d : Datagram) : Kernel :=
  match k.files.find? fd with
  | some (.datagram queue) => k.openFile fd (.datagram (queue ++ [d]))
  | _ => k

def deliver (k : Kernel) (fd : ℤ) (bytes : Bytes) : Kernel :=
  match k.files.find? fd with
  | some (.stream peer incoming) => k.openFile fd (.stream peer (incoming ++ bytes))
  | _ => k

/-- who sent what the next receiving call takes -/
def source? (k : Kernel) (fd : ℤ) : Option SockAddr :=
  match k.files.find? fd with
  | some (.datagram (d :: _)) => some d.sender
  | some (.stream peer _) => some peer
  | _ => none

/-- the bytes the next receiving call takes -/
def pending (k : Kernel) (fd : ℤ) (size cut : ℕ) : Bytes :=
  match k.files.find? fd with
  | some (.datagram (d :: _)) => d.payload.take size
  | some (.stream _ incoming) => incoming.take (min size cut)
  | _ => []

/-! ## kinds -/

def kind? (k : Kernel) (fd : ℤ) : Option Kind := (k.files.find? fd).map File.kind

theorem isOpen_eq (k : Kernel) (fd : ℤ) : k.isOpen fd = (k.kind? fd).isSome := by
  unfold isOpen SortedMap.contains kind?
  rw [Option.isSome_map]

theorem kind?_openFile (k : Kernel) (fd : ℤ) (f : File) (x : ℤ) :
    (k.openFile fd f).kind? x = if x = fd then some f.kind else k.kind? x := by
  unfold kind? openFile
  rw [SortedMap.find?_insert]
  split_ifs <;> rfl

theorem kind?_close (k : Kernel) (fd x : ℤ) :
    (k.close fd).kind? x = if x = fd then none else k.kind? x := by
  unfold kind? close
  rw [SortedMap.find?_erase]
  split_ifs <;> rfl

/-- a file of the same kind in the place of another one -/
theorem kind?_put {k : Kernel} {fd : ℤ} {f g : File} (h : k.files.find? fd = some f)
    (hkind : g.kind = f.kind) (x : ℤ) : (k.openFile fd g).kind? x = k.kind? x := by
  rw [kind?_openFile]
  split_ifs with hx
  · rw [hx, kind?, h, hkind]
    rfl
  · rfl

theorem kind?_recvfrom {k k' : Kernel} {fd : ℤ} {size cut : ℕ} {a : SockAddr} {b : Bytes}
    (h : k.recvfrom fd size cut = some (a, b, k')) : k'.kind? = k.kind? := by
  funext x
  unfold recvfrom at h
  split at h
  · next d queue hf =>
    cases h
    exact kind?_put hf (by rfl) x
  · next peer incoming hf =>
    cases h
    exact kind?_put hf (by rfl) x
  · cases h

@[simp] theorem kind?_sendto (k : Kernel) (fd : ℤ) (dest : SockAddr) (bytes : Bytes) :
    (k.sendto fd dest bytes).kind? = k.kind? := rfl

@[simp] theorem kind?_send (k : Kernel) (fd : ℤ) (bytes : Bytes) :
    (k.send fd bytes).kind? = k.kind? := rfl

@[simp] theorem kind?_arrive (k : Kernel) (fd : ℤ) (d : Datagram) :
    (k.arrive fd d).kind? = k.kind? := by
  funext x
  unfold arrive
  split
  · next queue hf => exact kind?_put hf (by rfl) x
  · rfl

@[simp] theorem kind?_deliver (k : Kernel) (fd : ℤ) (bytes : Bytes) :
    (k.deliver fd bytes).kind? = k.kind? := by
  funext x
  unfold deliver
  split
  · next peer incoming hf => exact kind?_put hf (by rfl) x
  · rfl

theorem accept_eq_some {k k' : Kernel} {fd new : ℤ} {connection : Option (ℤ × SockAddr)}
    {peer : SockAddr} (h : k.accept fd connection = some (new, peer, k')) :
    connection = some (new, peer) ∧ k' = k.openFile new (.stream peer []) := by
  unfold accept at h
  split at h
  · cases h
    exact ⟨rfl, rfl⟩
  · cases h

/-- the bytes that are taken -/
theorem recvfrom_bytes {k k' : Kernel} {fd : ℤ} {size cut : ℕ} {a : SockAddr} {b : Bytes}
    (h : k.recvfrom fd size cut = some (a, b, k')) : b = k.pending fd size cut := by
  unfold recvfrom at h
  unfold pending
  split at h
  · next d queue hf =>
    cases h
    rfl
  · next peer incoming hf =>
    cases h
    rfl
  · cases h

/-- nothing is taken where nobody sent anything -/
theorem pending_of_none {k : Kernel} {fd : ℤ} {size cut : ℕ}
    (h : k.recvfrom fd size cut = none) : k.pending fd size cut = [] := by
  unfold recvfrom at h
  unfold pending
  split at h
  · cases h
  · cases h
  · rfl

theorem source?_of_pending {k : Kernel} {fd : ℤ} {size cut : ℕ} (h : k.pending fd size cut ≠ []) :
    ∃ peer, k.source? fd = some peer := by
  unfold pending at h
  unfold source?
  split at h
  · exact ⟨_, rfl⟩
  · exact ⟨_, rfl⟩
  · exact absurd rfl h

theorem source?_of_stream {k : Kernel} {fd : ℤ} {peer : SockAddr}
    (h : k.kind? fd = some (.stream peer)) : k.source? fd = some peer := by
  obtain ⟨f, hf, hkind⟩ := Option.map_eq_some_iff.mp h
  unfold source?
  rw [hf]
  cases f with
  | stream p incoming =>
    cases hkind
    rfl
  | _ => cases hkind

theorem recvfrom_length {k k' : Kernel} {fd : ℤ} {size cut : ℕ} {a : SockAddr} {b : Bytes}
    (h : k.recvfrom fd size cut = some (a, b, k')) : b.length ≤ size := by
  unfold recvfrom at h
  split at h
  · cases h
    exact List.length_take_le _ _
  · cases h
    exact (List.length_take_le _ _).trans (Nat.min_le_left _ _)
  · cases h

/-! ## frames -/

/-- what waits elsewhere stays -/
theorem pending_recvfrom {k k' : Kernel} {fd fd' : ℤ} {size cut : ℕ} {a : SockAddr} {b : Bytes}
    (h : k.recvfrom fd size cut = some (a, b, k')) (hne : fd' ≠ fd) (size' cut' : ℕ) :
    k'.pending fd' size' cut' = k.pending fd' size' cut' := by
  have hfiles : k'.files.find? fd' = k.files.find? fd' := by
    unfold recvfrom at h
    split at h
    · cases h
      exact SortedMap.find?_insert_of_ne _ _ hne
    · cases h
      exact SortedMap.find?_insert_of_ne _ _ hne
    · cases h
  unfold pending
  rw [hfiles]

@[simp] theorem pending_sendto (k : Kernel) (fd fd' : ℤ) (dest : SockAddr) (bytes : Bytes)
    (size cut : ℕ) : (k.sendto fd dest bytes).pending fd' size cut = k.pending fd' size cut := rfl

theorem trace_recvfrom {k k' : Kernel} {fd : ℤ} {size cut : ℕ} {a : SockAddr} {b : Bytes}
    (h : k.recvfrom fd size cut = some (a, b, k')) (hk : k.kind? fd = some .datagram) :
    k'.trace = k.trace ++ [.received fd ⟨a, b⟩] := by
  unfold recvfrom at h
  split at h
  · cases h
    rfl
  · next peer incoming hf =>
    rw [kind?, hf] at hk
    cases hk
  · cases h

@[simp] theorem trace_arrive (k : Kernel) (fd : ℤ) (d : Datagram) :
    (k.arrive fd d).trace = k.trace := by
  unfold arrive
  split <;> rfl

end Kernel

end Posix
