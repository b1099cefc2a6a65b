import Warehouse.Network.Descriptors

/-!
# Acknowledged datagrams

`receiveUDPMessage` takes one datagram from each of its two sockets, and acknowledges each accepted
one before it looks at the next.

* `acknowledged`       the datagrams that were received and acknowledged, from the trace;
* `handleSocket_acknowledged`   one socket: a datagram is acknowledged exactly when it is appended;
* `noneLost_iff`       over a run, all acknowledged datagrams are returned exactly when no accepted
                       datagram is taken before a malformed one on the other socket.
-/

namespace Hub
open Machine Text CJSON Posix

namespace Server

/-- the datagram received last, and the acknowledged ones so far -/
def observe : Option (ℤ × Datagram) × List Datagram → Event → Option (ℤ × Datagram) × List Datagram
  | (_, ds), .received fd d => (some (fd, d), ds)
  | (some (fd, d), ds), .sentTo fd' dest bytes _ =>
    if fd' = fd ∧ dest = d.sender ∧ bytes = acknowledgment then (none, ds ++ [d])
    else (some (fd, d), ds)
  | st, _ => st

/-- the datagrams whose reception was followed by an acknowledgment to their sender, whatever the
call that sent it returned: the code looks at no result -/
def acknowledged (trace : List Event) : List Datagram := (trace.foldl observe (none, [])).2

theorem acknowledged_received (trace : List Event) (fd : ℤ) (d : Datagram) :
    acknowledged (trace ++ [.received fd d]) = acknowledged trace := by
  unfold acknowledged
  rw [List.foldl_append]
  rfl

theorem acknowledged_sentTo (trace : List Event) (fd : ℤ) (d : Datagram) (result : ℤ) :
    acknowledged (trace ++ [.received fd d] ++ [.sentTo fd d.sender acknowledgment result])
      = acknowledged trace ++ [d] := by
  unfold acknowledged
  rw [List.foldl_append, List.foldl_append]
  show (if fd = fd ∧ d.sender = d.sender ∧ acknowledgment = acknowledgment then _ else _ :
    Option (ℤ × Datagram) × List Datagram).2 = _
  rw [if_pos ⟨rfl, rfl, rfl⟩]

/-- the bytes the next call takes from a datagram socket -/
def front (s : Server) (fd : ℤ) : Bytes := s.kernel.pending fd BUFFER BUFFER

/-- the decoder returns a message -/
def Accepted (b : Bytes) : Prop := ∃ msg, Message.fromJSONString b = .ok msg

/-- the message is the one of the datagram, under an identifier of the server -/
def Delivered (d : Datagram) (m : Message) : Prop :=
  ∃ msg id, Message.fromJSONString d.payload = .ok msg ∧ m = msg.setClientID id

/-! ## one socket -/

/-- what waits elsewhere is not touched -/
theorem front_handleSocket (s : Server) {fd fd' : ℤ} (hne : fd' ≠ fd) :
    (s.handleSocket fd .UDP).1.front fd' = s.front fd' := by
  unfold front
  rcases handleSocket_cases s fd .UDP with ⟨-, e⟩ | ⟨sender, data, k, hr, ⟨-, e⟩ | ⟨-, x, -, e⟩ |
    ⟨-, msg, -, e⟩⟩
  · rw [e]
  · rw [e]
    exact Kernel.pending_recvfrom hr hne _ _
  · rw [e]
    exact Kernel.pending_recvfrom hr hne _ _
  · rw [e]
    exact (Kernel.pending_sendto ..).trans (Kernel.pending_recvfrom hr hne _ _)

theorem not_accepted_nil : ¬Accepted [] := fun ⟨msg, h⟩ => Message.fromJSONString_nil msg h

/-- A datagram is acknowledged exactly when it is accepted, and appended exactly when it is
acknowledged.  The call throws exactly on what is neither accepted nor empty. -/
theorem handleSocket_acknowledged {s : Server} {fd : ℤ} (hk : s.kernel.kind? fd = some .datagram) :
    ∃ ds, acknowledged (s.handleSocket fd .UDP).1.kernel.trace
        = acknowledged s.kernel.trace ++ ds ∧
      List.Forall₂ Delivered ds (handed (s.handleSocket fd .UDP).2) ∧
      (ds = [] ↔ ¬Accepted (s.front fd)) ∧
      ((∃ e, (s.handleSocket fd .UDP).2 = .error e) ↔
        s.front fd ≠ [] ∧ ¬Accepted (s.front fd)) := by
  unfold front
  rcases handleSocket_cases s fd .UDP with ⟨hr, e⟩ | ⟨sender, data, k, hr, h⟩
  · rw [e, Kernel.pending_of_none hr]
    exact ⟨[], (List.append_nil _).symm, .nil, iff_of_true rfl not_accepted_nil,
      iff_of_false (fun ⟨_, h⟩ => by cases h) fun h => h.1 rfl⟩
  · have htrace := Kernel.trace_recvfrom hr hk
    have hsame : acknowledged k.trace = acknowledged s.kernel.trace ++ [] := by
      rw [htrace, acknowledged_received, List.append_nil]
    rw [← Kernel.recvfrom_bytes hr]
    rcases h with ⟨rfl, e⟩ | ⟨hne, x, hx, e⟩ | ⟨-, msg, hm, e⟩
    · rw [e]
      exact ⟨[], hsame, .nil, iff_of_true rfl not_accepted_nil,
        iff_of_false (fun ⟨_, h⟩ => by cases h) fun h => h.1 rfl⟩
    · have hnot : ¬Accepted data := fun ⟨msg, h⟩ => by
        rw [hx] at h
        cases h
      rw [e]
      exact ⟨[], hsame, .nil, iff_of_true rfl hnot, iff_of_true ⟨x, rfl⟩ ⟨hne, hnot⟩⟩
    · have hyes : Accepted data := ⟨msg, hm⟩
      rw [e]
      refine ⟨[⟨sender, data⟩], ?_, .cons ⟨msg, _, hm, rfl⟩ .nil,
        iff_of_false (List.cons_ne_nil _ _) (not_not_intro hyes),
        iff_of_false (fun ⟨_, h⟩ => by cases h) fun h => h.2 hyes⟩
      show acknowledged (k.trace ++ _) = _
      rw [htrace]
      exact acknowledged_sentTo s.kernel.trace fd ⟨sender, data⟩ _

end Server

/-! ## runs -/

/-- the server with the messages its caller got so far -/
structure Caller where
  server : Server
  received : List Message

namespace Caller
open Server

def step (c : Caller) (op : Op) : Caller :=
  ⟨c.server.step op, c.received ++ c.server.returned op⟩

/-- the acknowledged datagrams are the messages that were returned, one by one -/
def NoneLost (c : Caller) : Prop :=
  List.Forall₂ Delivered (acknowledged c.server.kernel.trace) c.received

/-- datagrams come in, and are received -/
def DatagramsOnly (_ : Caller) : Op → Prop
  | .arrive _ _ => True
  | .receiveUDPMessage => True
  | _ => False

/-- behind an accepted datagram on the first socket, nothing malformed waits on the second one -/
def NoneMalformedBehind (c : Caller) : Op → Prop
  | .receiveUDPMessage =>
    Accepted (c.server.front c.server.manager.serverSocketUDPv4) →
      c.server.front c.server.manager.serverSocketUDPv6 = [] ∨
      Accepted (c.server.front c.server.manager.serverSocketUDPv6)
  | _ => True

theorem step_call {c : Caller} {s' : Server} {r : Except Exn (List Message)}
    (h : c.server.receiveUDPMessage = (s', r)) :
    c.step .receiveUDPMessage = ⟨s', c.received ++ handed r⟩ := by
  unfold step Server.step returned
  dsimp only
  rw [h]

/-- after the first socket, the second one is as it was -/
theorem second_after_first {s s' : Server} {r : Except Exn (List Message)} (hi : Inv s)
    (h : s.handleSocket s.manager.serverSocketUDPv4 .UDP = (s', r)) :
    Inv s' ∧
    s'.front s'.manager.serverSocketUDPv6 = s.front s.manager.serverSocketUDPv6 := by
  obtain ⟨hinv, hsockets⟩ := inv_handleSocket hi (Or.inl rfl)
  have hfront := front_handleSocket s hi.distinct.symm
  rw [h] at hinv hsockets hfront
  have h6 : s'.manager.serverSocketUDPv6 = s.manager.serverSocketUDPv6 := by
    simp only [serverSockets, List.cons.injEq, and_true] at hsockets
    exact hsockets.2.2.2
  rw [h6]
  exact ⟨hinv, hfront⟩

/-- more on one side only -/
theorem rel_append_nil_iff {α β : Type} {R : α → β → Prop} {as ds : List α} {bs : List β}
    (h : List.Forall₂ R as bs) : List.Forall₂ R (as ++ ds) bs ↔ ds = [] := by
  constructor
  · intro h'
    have hlen := h'.length_eq
    rw [List.length_append, h.length_eq] at hlen
    exact List.length_eq_zero_iff.mp (by omega)
  · intro hds
    rw [hds, List.append_nil]
    exact h

/-- one call: all pairs of what waits on the two sockets -/
theorem noneLost_call {c : Caller} (hi : Inv c.server) (hp : NoneLost c) :
    NoneLost (c.step .receiveUDPMessage) ↔ NoneMalformedBehind c .receiveUDPMessage := by
  obtain ⟨ds4, ht4, hd4, hyes4, hthrow4⟩ := handleSocket_acknowledged hi.udp4
  have hsecond := fun s' r => @second_after_first c.server s' r hi
  generalize hcall4 : c.server.handleSocket c.server.manager.serverSocketUDPv4 .UDP = call
    at ht4 hd4 hthrow4 hsecond
  obtain ⟨s4, r4⟩ := call
  obtain ⟨hinv4, hfront⟩ := hsecond s4 r4 rfl
  obtain ⟨ds6, ht6, hd6, -, hthrow6⟩ := handleSocket_acknowledged hinv4.udp6
  rw [hfront] at hthrow6
  generalize hcall6 : s4.handleSocket s4.manager.serverSocketUDPv6 .UDP = call at ht6 hd6 hthrow6
  obtain ⟨s6, r6⟩ := call
  dsimp only at ht4 hd4 hthrow4 ht6 hd6 hthrow6
  unfold NoneLost at hp ⊢
  cases r4 with
  | error e =>
    -- nothing was taken from the second socket
    have h4 : ¬Accepted _ := (hthrow4.mp ⟨e, rfl⟩).2
    rw [step_call (receiveUDPMessage_error hcall4), ht4]
    exact iff_of_true (List.rel_append hp hd4) fun h => absurd h h4
  | ok msgs4 =>
    rw [step_call (receiveUDPMessage_ok hcall4 hcall6)]
    dsimp only
    rw [ht6, ht4, List.append_assoc]
    cases r6 with
    | error e =>
      -- the exception takes the messages of the first socket with it
      obtain ⟨hne, h6⟩ := hthrow6.mp ⟨e, rfl⟩
      have hds6 : ds6 = [] := List.forall₂_nil_right_iff.mp hd6
      show List.Forall₂ Delivered _ (c.received ++ []) ↔ _
      rw [hds6, List.append_nil, List.append_nil, rel_append_nil_iff hp, hyes4]
      constructor
      · intro h4 h
        exact absurd h h4
      · intro h h4
        exact (h h4).elim hne h6
    | ok msgs6 =>
      refine iff_of_true (List.rel_append hp (List.rel_append hd4 hd6)) ?_
      intro _
      by_contra hno
      rw [not_or] at hno
      obtain ⟨e, he⟩ := hthrow6.mpr hno
      cases he

theorem noneLost_step (c : Caller) (op : Op) (hi : Inv c.server) (hp : NoneLost c)
    (hl : DatagramsOnly c op) : NoneLost (c.step op) ↔ NoneMalformedBehind c op := by
  cases op with
  | receiveUDPMessage => exact noneLost_call hi hp
  | arrive fd d =>
    refine iff_of_true ?_ trivial
    show List.Forall₂ Delivered (acknowledged (c.server.kernel.arrive fd d).trace) (c.received ++ [])
    rw [Kernel.trace_arrive, List.append_nil]
    exact hp
  | _ => exact hl.elim

theorem inv_step (c : Caller) (op : Op) (hi : Inv c.server) (hl : DatagramsOnly c op) :
    Inv (c.step op).server := by
  cases op with
  | receiveUDPMessage => exact Server.inv_step _ .receiveUDPMessage hi trivial trivial
  | arrive fd d => exact Server.inv_step _ (.arrive fd d) hi trivial trivial
  | _ => exact hl.elim

/-- **When every acknowledged message is returned.**  For every run of calls and every sequence of
datagrams, the acknowledged datagrams are returned one by one, in every state, exactly when no call
takes an accepted datagram from the first socket while a malformed one waits on the second. -/
theorem noneLost_iff {s : Server} (hs : Started s) (ops : List Op)
    (hl : Along step DatagramsOnly ⟨s, []⟩ ops) :
    Always step NoneLost ⟨s, []⟩ ops ↔ Along step NoneMalformedBehind ⟨s, []⟩ ops := by
  refine always_iff_along_of_invariant (I := fun c => Inv c.server)
    (fun c op hi _ hl => inv_step c op hi hl) noneLost_step (inv_started hs) ?_ hl
  obtain ⟨files, answers, tcp4, udp4, tcp6, udp6, -, -, rfl⟩ := hs
  exact .nil

/-- the hypotheses can be met: a message waits on each socket -/
theorem noneLost_iff_example :
    Always step NoneLost ⟨fresh, []⟩ [.arrive 4 greeting, .arrive 6 greeting, .receiveUDPMessage]
      ↔ Along step NoneMalformedBehind ⟨fresh, []⟩
        [.arrive 4 greeting, .arrive 6 greeting, .receiveUDPMessage] :=
  noneLost_iff started_fresh [.arrive 4 greeting, .arrive 6 greeting, .receiveUDPMessage]
    ⟨trivial, trivial, trivial, trivial⟩

/-- A message on the first socket and the letter `x` on the second one: the message is
acknowledged, and lost. -/
theorem malformed_loses_message :
    ¬ ∀ (s : Server) (ops : List Op), Started s → Along step DatagramsOnly ⟨s, []⟩ ops →
      Always step NoneLost ⟨s, []⟩ ops := by
  intro h
  have hall := h fresh [.arrive 4 greeting, .arrive 6 ⟨⟨[2], 1⟩, [120]⟩, .receiveUDPMessage]
    started_fresh ⟨trivial, trivial, trivial, trivial⟩
  have h1 := inv_step ⟨fresh, []⟩ (.arrive 4 greeting) (inv_started started_fresh) trivial
  have h2 := inv_step _ (.arrive 6 ⟨⟨[2], 1⟩, [120]⟩) h1 trivial
  have hbehind := (noneLost_call h2 hall.2.2.1).mp hall.2.2.2
  obtain ⟨htake, -, hm⟩ := greeting_payload
  have hfirst : Accepted (greeting.payload.take BUFFER) := ⟨Message.smallMessage, htake ▸ hm⟩
  have hx : Message.fromJSONString [120] = .error (.runtimeError "Invalid JSON string") := rfl
  rcases hbehind hfirst with h0 | ⟨msg, hmsg⟩
  · cases h0
  · cases hx.symm.trans hmsg

end Caller

end Hub
