import Obz.Foundation.Memory

/-!
# `tcp_socket`

Sending and receiving over the native calls of a POSIX system. A call is cut
where it enters the kernel: it says what it asks for next, and goes on with
what the kernel gives back, so that the two ends of a connection can take turns.
-/
namespace Obz.Transport

open Foundation

inductive Error where
  | runtimeError (what : String)
  | invalidArgument (what : String)
  | systemError (code : ℕ) (what : String)
  deriving DecidableEq, Repr

inductive ReceiveStatus where
  | completed
  | peerClosed
  deriving DecidableEq, Repr

structure ReceiveResult where
  bytesReceived : ℕ := 0
  status : ReceiveStatus := .peerClosed
  deriving DecidableEq, Repr

/-- What a native call returns: a count, or less than zero with `errno` set. -/
inductive NativeResult where
  | failed (errno : ℕ)
  | transferred (count : ℕ)
  deriving DecidableEq, Repr

def NativeResult.count : NativeResult → ℕ
  | .failed _ => 0
  | .transferred count => count

def sendTcp : NativeResult → Except Error ℕ
  | .failed errno => .error (.systemError errno "failed to send TCP data")
  | .transferred count => .ok count

def receiveTcp : NativeResult → Except Error ℕ
  | .failed errno => .error (.systemError errno "failed to receive TCP data")
  | .transferred count => .ok count

def notOpen : Error := .runtimeError "TCP socket is not open"
def wroteZero : Error := .runtimeError "TCP socket send wrote zero bytes"
def emptyDestination : Error := .invalidArgument "TCP receive destination must not be empty"

/-- An invalid handle is `none`. -/
structure TcpSocket where
  socketHandle : Option ℕ := none
  deriving DecidableEq, Repr

namespace TcpSocket

def isOpen (socket : TcpSocket) : Bool := socket.socketHandle.isSome

def close (_ : TcpSocket) : TcpSocket := { socketHandle := none }

/-- What `send` hands to the kernel. -/
def send {β : Type*} (socket : TcpSocket) (data : List β) : Except Error (List β) :=
  if socket.isOpen then .ok data else .error notOpen

/-- Where `receive_some` lets the kernel write. -/
def receiveSome (socket : TcpSocket) (destination : Span) : Except Error Span :=
  if destination.size = 0 then .error emptyDestination
  else if socket.isOpen then .ok destination
  else .error notOpen

/-- What `receive_some` makes of the count it gets. -/
def receivedSome (native : NativeResult) : Except Error ReceiveResult :=
  match receiveTcp native with
  | .error e => .error e
  | .ok bytesReceived =>
    if bytesReceived = 0 then .ok ⟨0, .peerClosed⟩ else .ok ⟨bytesReceived, .completed⟩

end TcpSocket

/-- What a call does next. -/
inductive Next (ρ α : Type*) where
  | native (request : ρ)
  | returns (value : α)
  | throws (e : Error)
  deriving DecidableEq, Repr

def Next.ofRequest {ρ α : Type*} : Except Error ρ → Next ρ α
  | .ok request => .native request
  | .error e => .throws e

/-- The locals of `send_all`. -/
structure SendAll (β : Type*) where
  data : List β
  bytesSent : ℕ := 0
  deriving DecidableEq, Repr

namespace SendAll

variable {β : Type*}

def next (l : SendAll β) (socket : TcpSocket) : Next (List β) Unit :=
  if l.bytesSent < l.data.length then
    .ofRequest (socket.send (l.data.drop l.bytesSent))
  else .returns ()

/-- The rest of the loop body, after the native call. -/
def resume (l : SendAll β) (native : NativeResult) : Except Error (SendAll β) :=
  match sendTcp native with
  | .error e => .error e
  | .ok sent =>
    if sent = 0 then .error wroteZero else .ok { l with bytesSent := l.bytesSent + sent }

end SendAll

/-- The locals of `receive_exactly`. -/
structure ReceiveExactly where
  destination : Span
  totalReceived : ℕ := 0
  deriving DecidableEq, Repr

namespace ReceiveExactly

def enter (destination : Span) : Except Error ReceiveExactly :=
  if destination.size = 0 then .error emptyDestination else .ok { destination }

def next (l : ReceiveExactly) (socket : TcpSocket) : Next Span ReceiveResult :=
  if l.totalReceived < l.destination.size then
    .ofRequest (socket.receiveSome (l.destination.subspan l.totalReceived))
  else .returns ⟨l.totalReceived, .completed⟩

/-- The rest of the loop body: the loop goes on, or the call returns. -/
def resume (l : ReceiveExactly) (native : NativeResult) :
    Except Error (ReceiveExactly ⊕ ReceiveResult) :=
  match TcpSocket.receivedSome native with
  | .error e => .error e
  | .ok result =>
    if result.status = .peerClosed then .ok (.inr ⟨l.totalReceived, .peerClosed⟩)
    else .ok (.inl { l with totalReceived := l.totalReceived + result.bytesReceived })

end ReceiveExactly

/-! The equations the rest of the development rests on. -/

namespace SendAll

variable {β : Type*} {l : SendAll β} {socket : TcpSocket}

theorem next_of_lt (hopen : socket.isOpen = true) (h : l.bytesSent < l.data.length) :
    l.next socket = .native (l.data.drop l.bytesSent) := by
  simp [next, h, TcpSocket.send, hopen, Next.ofRequest]

theorem next_of_ge (h : l.data.length ≤ l.bytesSent) : l.next socket = .returns () :=
  if_neg (Nat.not_lt.mpr h)

/-- A failed native call, or one that takes nothing, ends the call with an exception. -/
theorem resume_of_zero {native : NativeResult} (h : native.count = 0) :
    ∃ e, l.resume native = .error e := by
  cases native with
  | failed errno => exact ⟨_, rfl⟩
  | transferred count =>
    cases h
    exact ⟨wroteZero, rfl⟩

theorem resume_of_pos {result : NativeResult} (h : 0 < result.count) :
    l.resume result = .ok { l with bytesSent := l.bytesSent + result.count } := by
  cases result with
  | failed errno => cases h
  | transferred count => exact if_neg (Nat.pos_iff_ne_zero.mp h)

end SendAll

namespace ReceiveExactly

variable {l : ReceiveExactly} {socket : TcpSocket}

theorem next_of_lt (hopen : socket.isOpen = true) (h : l.totalReceived < l.destination.size) :
    l.next socket = .native (l.destination.subspan l.totalReceived) := by
  have hsize : ¬ l.destination.size - l.totalReceived = 0 := by omega
  simp [next, h, TcpSocket.receiveSome, Span.subspan, hsize, hopen, Next.ofRequest]

theorem next_of_ge (h : l.destination.size ≤ l.totalReceived) :
    l.next socket = .returns ⟨l.totalReceived, .completed⟩ :=
  if_neg (Nat.not_lt.mpr h)

theorem resume_zero :
    l.resume (.transferred 0) = .ok (.inr ⟨l.totalReceived, .peerClosed⟩) := rfl

theorem resume_of_pos {count : ℕ} (h : 0 < count) :
    l.resume (.transferred count) =
      .ok (.inl { l with totalReceived := l.totalReceived + count }) := by
  have hne : count ≠ 0 := Nat.pos_iff_ne_zero.mp h
  simp [resume, TcpSocket.receivedSome, receiveTcp, hne]

end ReceiveExactly
end Obz.Transport
