import Warehouse.CJson.Node
import Warehouse.Machine.Run
import Mathlib.Data.Finset.Insert
import Mathlib.Data.Finset.Erase

/-!
# The client

`client/client.c`: one structure, and four functions that open, use and close its socket.  The
results of the system calls are parameters of the functions; `inet_addr` is one too.

* `Client`, `Process`    the structure, and the process with its open descriptors and the calls it
                         has issued on descriptors;
* `initializeClient`, `sendMessage`, `receiveMessage`, `closeClient`   the code;
* `Op`, `step`           one call; the process remembers the socket of the latest initialisation.
-/

namespace Device
open Machine Text CJSON

def AF_INET : ℤ := 2

/-- `struct sockaddr_in`; the port is in network order -/
structure SockAddrIn where
  sin_family : ℤ
  sin_port : UInt16
  sin_addr : UInt32
deriving DecidableEq

/-- `Client`, with `protocol` 0 for TCP and 1 for UDP -/
structure Client where
  socket_fd : ℤ
  is_connected : Bool
  protocol : ℤ
  server_addr : SockAddrIn
deriving DecidableEq

/-- the system calls that take a descriptor to use or to close it; the sending ones with what they
returned -/
inductive Call
  | send (fd : ℤ) (bytes : Bytes) (result : ℤ)
  | sendto (fd : ℤ) (bytes : Bytes) (dest : SockAddrIn) (result : ℤ)
  | recv (fd : ℤ) (size : ℤ)
  | close (fd : ℤ)
deriving DecidableEq

def Call.fd : Call → ℤ
  | .send fd _ _ => fd
  | .sendto fd _ _ _ => fd
  | .recv fd _ => fd
  | .close fd => fd

/-- A client in its process.  Each call is kept with whether its descriptor was open; `latest` is the
descriptor of the latest initialisation, if that one succeeded. -/
structure Process where
  client : Client
  opened : Finset ℕ
  issued : List (Call × Bool)
  latest : Option ℤ

namespace Process

def isOpen (p : Process) (fd : ℤ) : Bool := decide (0 ≤ fd ∧ fd.toNat ∈ p.opened)

/-- a system call on a descriptor -/
def issue (p : Process) (call : Call) : Process :=
  { p with issued := p.issued ++ [(call, p.isOpen call.fd)] }

/-! ## the code -/

/-- the bytes of the port the other way round, on a little-endian machine -/
def htons (port : ℤ) : UInt16 :=
  UInt16.ofNat ((port % 256).toNat * 256 + (port / 256 % 256).toNat)

section
variable (inet_addr : CString → UInt32)

/-- `socket` returns a new descriptor or a negative number -/
def initializeClient (p : Process) (ip : CString) (port protocol socket connect : ℤ) :
    Bool × Process :=
  let p := { p with client := { p.client with protocol, socket_fd := socket }, latest := none }
  if socket < 0 then (false, p)
  else
    let p := { p with
      opened := insert socket.toNat p.opened
      client := { p.client with server_addr := ⟨AF_INET, htons port, inet_addr ip⟩ } }
    if protocol = 0 ∧ connect < 0 then (false, p)
    else (true, { p with
      client := { p.client with is_connected := true }
      latest := some socket })

/-- `sent` is what `send` or `sendto` returns -/
def sendMessage (p : Process) (message : CString) (sent : ℤ) : Bool × Process :=
  if p.client.protocol = 0 then
    if !p.client.is_connected then (false, p)
    else (decide (0 ≤ sent), p.issue (.send p.client.socket_fd message.bytes sent))
  else if p.client.protocol = 1 then
    (decide (0 ≤ sent),
      p.issue (.sendto p.client.socket_fd message.bytes p.client.server_addr sent))
  else (false, p)

/-- what `recv` returns is none for a failure; the bytes are put into the buffer with a NUL -/
def receiveMessage (p : Process) (buffer_size : ℤ) (received : Option Bytes) :
    Option Bytes × Process :=
  if !p.client.is_connected then (none, p)
  else
    (received.map fun bytes => bytes ++ [0],
      p.issue (.recv p.client.socket_fd (buffer_size - 1)))

/-- `close` of a negative descriptor fails and closes nothing -/
def closeClient (p : Process) : Process :=
  if p.client.is_connected then
    let p := p.issue (.close p.client.socket_fd)
    { p with
      opened := if 0 ≤ p.client.socket_fd then p.opened.erase p.client.socket_fd.toNat else p.opened
      client := { p.client with is_connected := false } }
  else p

end

/-! ## runs -/

inductive Op
  | initializeClient (ip : CString) (port protocol socket connect : ℤ)
  | sendMessage (message : CString) (sent : ℤ)
  | receiveMessage (buffer_size : ℤ) (received : Option Bytes)
  | closeClient

/-- the process after a call -/
def step (inet_addr : CString → UInt32) (p : Process) : Op → Process
  | .initializeClient ip port protocol socket connect =>
    (p.initializeClient inet_addr ip port protocol socket connect).2
  | .sendMessage message sent => (p.sendMessage message sent).2
  | .receiveMessage buffer_size received => (p.receiveMessage buffer_size received).2
  | .closeClient => p.closeClient

end Process

end Device
