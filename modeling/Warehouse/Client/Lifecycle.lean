import Warehouse.Client.Model

/-!
# The socket of a client

* `Sound`               what the flag and the issued calls should be after each call;
* `Safe`                the calls that are made in time: an initialisation fails only while the flag
                        is down, a UDP message is sent only while it is up;
* `Inv`                 a UDP client whose flag is down has no open descriptor in its structure;
* `sound_step_iff`      over `Inv`, a call keeps `Sound` exactly if it is `Safe`;
* `sound_iff_safe`      the same for all the calls that follow an initialisation.
-/

namespace Device
open Machine Text CJSON

namespace Process

/-- before the first call: the structure is as the caller allocated it -/
def start (client : Client) (opened : Finset ℕ) : Process :=
  { client, opened, issued := [], latest := none }

/-- The flag says whether the socket is open and comes from the latest initialisation, and no call
was issued on a descriptor that was not open. -/
structure Sound (p : Process) : Prop where
  connected_iff : p.client.is_connected = true ↔
    p.latest = some p.client.socket_fd ∧ p.isOpen p.client.socket_fd = true
  issued_open : ∀ c ∈ p.issued, c.2 = true

/-- the initialisation with these outcomes returns false -/
def Fails (protocol socket connect : ℤ) : Prop := socket < 0 ∨ protocol = 0 ∧ connect < 0

/-- An initialisation may fail only while the flag is down, and `sendMessage` may be called for UDP
only while it is up. -/
def Safe (p : Process) : Op → Prop
  | .initializeClient _ _ protocol socket connect =>
    Fails protocol socket connect → p.client.is_connected = false
  | .sendMessage _ _ => p.client.protocol = 1 → p.client.is_connected = true
  | .receiveMessage _ _ => True
  | .closeClient => True

/-- The descriptor of a UDP client was closed, or `socket` failed, whenever its flag is down.  A TCP
client may hold an open one, after a failed `connect`. -/
def Inv (p : Process) : Prop :=
  p.client.is_connected = false → p.client.protocol = 1 → p.isOpen p.client.socket_fd = false

/-! ## the descriptors -/

theorem isOpen_iff {p : Process} {fd : ℤ} :
    p.isOpen fd = true ↔ 0 ≤ fd ∧ fd.toNat ∈ p.opened := decide_eq_true_iff

theorem isOpen_of_neg {p : Process} {fd : ℤ} (h : fd < 0) : p.isOpen fd = false := by
  rw [Bool.eq_false_iff, ne_eq, isOpen_iff]
  exact fun hopen => absurd hopen.1 (not_le.mpr h)

theorem issued_issue {p : Process} {call : Call} :
    (∀ c ∈ (p.issue call).issued, c.2 = true) ↔
      (∀ c ∈ p.issued, c.2 = true) ∧ p.isOpen call.fd = true := by
  show (∀ c ∈ p.issued ++ [(call, p.isOpen call.fd)], c.2 = true) ↔ _
  rw [List.forall_mem_append, List.forall_mem_singleton]

/-- a call is in order exactly if its descriptor is open -/
theorem sound_issue_iff {p : Process} (h : p.Sound) (call : Call) :
    (p.issue call).Sound ↔ p.isOpen call.fd = true :=
  ⟨fun hs => (issued_issue.mp hs.issued_open).2,
    fun hopen => ⟨h.connected_iff, issued_issue.mpr ⟨h.issued_open, hopen⟩⟩⟩

/-- while the flag is up, the socket is open -/
theorem Sound.isOpen_of_connected {p : Process} (h : p.Sound) (hc : p.client.is_connected = true) :
    p.isOpen p.client.socket_fd = true := (h.connected_iff.mp hc).2

/-! ## one call -/

section
variable (inet_addr : CString → UInt32)

/-- what an initialisation does: it fails and leaves the flag, or it succeeds and raises it -/
theorem initializeClient_cases (p : Process) (ip : CString) (port protocol socket connect : ℤ) :
    let q := (p.initializeClient inet_addr ip port protocol socket connect).2
    q.client.protocol = protocol ∧ q.client.socket_fd = socket ∧ q.issued = p.issued ∧
      ((Fails protocol socket connect ∧ q.client.is_connected = p.client.is_connected ∧
          q.latest = none) ∨
        (¬ Fails protocol socket connect ∧ q.client.is_connected = true ∧
          q.latest = some socket ∧ q.isOpen socket = true)) := by
  intro q
  by_cases hs : socket < 0
  · have hq : q = { p with
        client := { p.client with protocol, socket_fd := socket }, latest := none } :=
      congrArg Prod.snd (if_pos hs)
    rw [hq]
    exact ⟨rfl, rfl, rfl, Or.inl ⟨Or.inl hs, rfl, rfl⟩⟩
  by_cases hc : protocol = 0 ∧ connect < 0
  · have hq : q = { p with
        opened := insert socket.toNat p.opened
        client := { p.client with
          protocol, socket_fd := socket, server_addr := ⟨AF_INET, htons port, inet_addr ip⟩ }
        latest := none } :=
      congrArg Prod.snd ((if_neg hs).trans (if_pos hc))
    rw [hq]
    exact ⟨rfl, rfl, rfl, Or.inl ⟨Or.inr hc, rfl, rfl⟩⟩
  · have hq : q = { p with
        opened := insert socket.toNat p.opened
        client := { p.client with
          protocol, socket_fd := socket, server_addr := ⟨AF_INET, htons port, inet_addr ip⟩
          is_connected := true }
        latest := some socket } :=
      congrArg Prod.snd ((if_neg hs).trans (if_neg hc))
    rw [hq]
    have hopen : socket.toNat ∈ insert socket.toNat p.opened := Finset.mem_insert_self _ _
    refine ⟨rfl, rfl, rfl, Or.inr ⟨?_, rfl, rfl, ?_⟩⟩
    · rintro (h | h)
      · exact hs h
      · exact hc h
    · rw [isOpen_iff]
      exact ⟨not_lt.mp hs, hopen⟩

/-- an initialisation ends in order exactly if it does not fail under a raised flag, whatever the
structure was before it -/
theorem sound_initializeClient_iff {p : Process} (h : ∀ c ∈ p.issued, c.2 = true) (ip : CString)
    (port protocol socket connect : ℤ) :
    (p.initializeClient inet_addr ip port protocol socket connect).2.Sound ↔
      (Fails protocol socket connect → p.client.is_connected = false) := by
  obtain ⟨-, hfd, hissued, hcase⟩ :=
    initializeClient_cases inet_addr p ip port protocol socket connect
  rcases hcase with ⟨hf, hflag, hlatest⟩ | ⟨hf, hflag, hlatest, hopen⟩
  · constructor
    · intro hs _
      rw [Bool.eq_false_iff, ← hflag]
      intro hup
      have hsome := (hs.connected_iff.mp hup).1
      rw [hlatest] at hsome
      exact absurd hsome (by simp)
    · intro hdown
      refine ⟨?_, hissued ▸ h⟩
      rw [hflag, hdown hf, hlatest]
      simp
  · refine ⟨fun _ hf' => absurd hf' hf, fun _ => ⟨?_, hissued ▸ h⟩⟩
    rw [hfd]
    exact ⟨fun _ => ⟨hlatest, hopen⟩, fun _ => hflag⟩

theorem inv_initializeClient (p : Process) (ip : CString) (port protocol socket connect : ℤ) :
    (p.initializeClient inet_addr ip port protocol socket connect).2.Inv := by
  obtain ⟨hprotocol, hfd, -, hcase⟩ :=
    initializeClient_cases inet_addr p ip port protocol socket connect
  intro hdown hudp
  rw [hfd]
  rcases hcase with ⟨hs | ⟨htcp, -⟩, -, -⟩ | ⟨-, hup, -, -⟩
  · exact isOpen_of_neg hs
  · rw [hprotocol, htcp] at hudp
    exact absurd hudp (by norm_num)
  · rw [hup] at hdown
    exact absurd hdown (by simp)

end

theorem sendMessage_client (p : Process) (message : CString) (sent : ℤ) :
    (p.sendMessage message sent).2.client = p.client ∧
      (p.sendMessage message sent).2.isOpen = p.isOpen := by
  unfold sendMessage
  split_ifs <;> exact ⟨rfl, rfl⟩

/-- The TCP branch looks at the flag.  The UDP branch does not, and over the invariant its call is
in order exactly if the flag is up. -/
theorem sound_sendMessage_iff {p : Process} (hi : p.Inv) (h : p.Sound) (message : CString)
    (sent : ℤ) : (p.sendMessage message sent).2.Sound ↔
      (p.client.protocol = 1 → p.client.is_connected = true) := by
  unfold sendMessage
  by_cases h0 : p.client.protocol = 0
  · rw [if_pos h0, h0]
    refine iff_of_true ?_ (fun h01 => absurd h01 (by norm_num))
    cases hc : p.client.is_connected
    · exact h
    · exact (sound_issue_iff h _).mpr (h.isOpen_of_connected hc)
  rw [if_neg h0]
  by_cases h1 : p.client.protocol = 1
  · rw [if_pos h1]
    show (p.issue _).Sound ↔ _
    rw [sound_issue_iff h]
    constructor
    · intro hopen _
      by_contra hdown
      have hclosed := hi (Bool.eq_false_iff.mpr hdown) h1
      exact absurd (hclosed.symm.trans hopen) (by simp)
    · exact fun hup => h.isOpen_of_connected (hup h1)
  · rw [if_neg h1]
    exact iff_of_true h fun h' => absurd h' h1

theorem receiveMessage_client (p : Process) (buffer_size : ℤ) (received : Option Bytes) :
    (p.receiveMessage buffer_size received).2.client = p.client ∧
      (p.receiveMessage buffer_size received).2.isOpen = p.isOpen := by
  unfold receiveMessage
  split_ifs <;> exact ⟨rfl, rfl⟩

theorem sound_receiveMessage {p : Process} (h : p.Sound) (buffer_size : ℤ)
    (received : Option Bytes) : (p.receiveMessage buffer_size received).2.Sound := by
  unfold receiveMessage
  cases hc : p.client.is_connected
  · exact h
  · exact (sound_issue_iff h _).mpr (h.isOpen_of_connected hc)

/-- what a closing does: the flag goes down with the descriptor -/
theorem closeClient_cases (p : Process) :
    (p.client.is_connected = false ∧ p.closeClient = p) ∨
      (p.client.is_connected = true ∧ p.closeClient.client.is_connected = false ∧
        p.closeClient.issued = (p.issue (.close p.client.socket_fd)).issued ∧
        p.closeClient.isOpen p.closeClient.client.socket_fd = false) := by
  cases hc : p.client.is_connected with
  | false => exact Or.inl ⟨rfl, if_neg (by rw [hc]; simp)⟩
  | true =>
    have hq : p.closeClient = { p.issue (.close p.client.socket_fd) with
        opened := if 0 ≤ p.client.socket_fd then p.opened.erase p.client.socket_fd.toNat
          else p.opened
        client := { p.client with is_connected := false } } := if_pos hc
    rw [hq]
    refine Or.inr ⟨rfl, rfl, rfl, ?_⟩
    rcases lt_or_ge p.client.socket_fd 0 with hneg | hfd
    · exact isOpen_of_neg hneg
    · rw [if_pos hfd, Bool.eq_false_iff, ne_eq, isOpen_iff]
      exact fun h => absurd h.2 (Finset.notMem_erase _ _)

theorem sound_closeClient {p : Process} (h : p.Sound) : p.closeClient.Sound := by
  rcases closeClient_cases p with ⟨-, hsame⟩ | ⟨hup, hdown, hissued, hclosed⟩
  · rw [hsame]
    exact h
  · have hissue := (sound_issue_iff h (.close p.client.socket_fd)).mpr (h.isOpen_of_connected hup)
    refine ⟨?_, hissued ▸ hissue.issued_open⟩
    rw [hdown, hclosed]
    simp

theorem inv_closeClient {p : Process} (hi : p.Inv) : p.closeClient.Inv := by
  rcases closeClient_cases p with ⟨-, hsame⟩ | ⟨-, -, -, hclosed⟩
  · rw [hsame]
    exact hi
  · exact fun _ _ => hclosed

/-! ## every call, every run -/

section
variable (inet_addr : CString → UInt32)

theorem inv_step {p : Process} (hi : p.Inv) (op : Op) : (step inet_addr p op).Inv := by
  cases op with
  | initializeClient ip port protocol socket connect =>
    exact inv_initializeClient inet_addr p ip port protocol socket connect
  | sendMessage message sent =>
    obtain ⟨hclient, hopen⟩ := sendMessage_client p message sent
    show Inv (p.sendMessage message sent).2
    unfold Inv
    rw [hclient, hopen]
    exact hi
  | receiveMessage buffer_size received =>
    obtain ⟨hclient, hopen⟩ := receiveMessage_client p buffer_size received
    show Inv (p.receiveMessage buffer_size received).2
    unfold Inv
    rw [hclient, hopen]
    exact hi
  | closeClient => exact inv_closeClient hi

theorem sound_step_iff {p : Process} (hi : p.Inv) (h : p.Sound) (op : Op) :
    (step inet_addr p op).Sound ↔ p.Safe op := by
  cases op with
  | initializeClient ip port protocol socket connect =>
    exact sound_initializeClient_iff inet_addr h.issued_open ip port protocol socket connect
  | sendMessage message sent => exact sound_sendMessage_iff hi h message sent
  | receiveMessage buffer_size received =>
    exact iff_of_true (sound_receiveMessage h buffer_size received) trivial
  | closeClient => exact iff_of_true (sound_closeClient h) trivial

/-- **The life cycle of a client.**  Whatever the structure holds at first and whatever the system
calls return: after an initialisation and after each call that follows it the flag is right and no
call was issued on a descriptor that was not open, exactly if every initialisation that failed did
so while the flag was down, and every UDP message was sent while the flag was up. -/
theorem sound_iff_safe (client : Client) (opened : Finset ℕ) (ip : CString)
    (port protocol socket connect : ℤ) (ops : List Op) :
    Always (step inet_addr) Sound
        (step inet_addr (start client opened)
          (.initializeClient ip port protocol socket connect)) ops ↔
      Along (step inet_addr) Safe (start client opened)
        (.initializeClient ip port protocol socket connect :: ops) := by
  have hnone : ∀ c ∈ (start client opened).issued, c.2 = true :=
    fun c hc => absurd hc List.not_mem_nil
  have hfirst := sound_initializeClient_iff inet_addr hnone ip port protocol socket connect
  have hinv := inv_initializeClient inet_addr (start client opened) ip port protocol socket connect
  have hrest : ∀ p : Process, p.Inv → p.Sound →
      (Always (step inet_addr) Sound p ops ↔ Along (step inet_addr) Safe p ops) := by
    intro p hi h
    apply always_iff_along_of_invariant (L := fun _ _ => True) (I := Inv)
    · exact fun s op hi _ _ => inv_step inet_addr hi op
    · exact fun s op hi h _ => sound_step_iff inet_addr hi h op
    · exact hi
    · exact h
    · exact along_true p ops
  rw [along_cons]
  constructor
  · intro h
    exact ⟨hfirst.mp h.head, (hrest _ hinv h.head).mp h⟩
  · rintro ⟨hsafe, h⟩
    exact (hrest _ hinv (hfirst.mpr hsafe)).mpr h

end

/-- A UDP client that is initialised, closed and then sends: the datagram goes to descriptor 3, which
is closed; a TCP client sends nothing after the same calls.  A TCP client that is initialised a
second time, where `connect` fails: the flag still says connected. -/
theorem sendto_after_close :
    let client : Client := ⟨-1, false, 0, ⟨0, 0, 0⟩⟩
    let ip : CString := .lit ['1', '2', '7', '.', '0', '.', '0', '.', '1']
    let message : CString := .lit ['h', 'i']
    let after := run (step fun _ => 16777343) (start client ∅)
    let closed (protocol : ℤ) := after
      [.initializeClient ip 8080 protocol 3 0, .closeClient, .sendMessage message (-1)]
    let twice := after [.initializeClient ip 8080 0 3 0, .initializeClient ip 8080 0 4 (-1)]
    (closed 1).issued = [(.close 3, true),
        (.sendto 3 message.bytes ⟨AF_INET, htons 8080, 16777343⟩ (-1), false)] ∧
      ¬ (closed 1).Sound ∧
      (closed 0).issued = [(.close 3, true)] ∧
      twice.client.is_connected = true ∧ twice.latest = none ∧ ¬ twice.Sound := by
  intro client ip message after closed twice
  have hissued : (closed 1).issued = [(.close 3, true),
      (.sendto 3 message.bytes ⟨AF_INET, htons 8080, 16777343⟩ (-1), false)] := by decide
  have hup : twice.client.is_connected = true := by decide
  have hlatest : twice.latest = none := by decide
  refine ⟨hissued, ?_, by decide, hup, hlatest, ?_⟩
  · intro h
    have hopen := h.issued_open _ (hissued ▸ List.mem_cons_of_mem _ (List.mem_cons_self ..))
    exact absurd hopen (by simp)
  · intro h
    have hsome := (h.connected_iff.mp hup).1
    rw [hlatest] at hsome
    exact absurd hsome (by simp)

end Process

end Device
