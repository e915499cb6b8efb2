import Obz.Foundation.Transition
import Obz.Transport.Addresses

/-!
# `udp_socket`

Sockets that send datagrams to one another over a network that may lose, repeat
and reorder them. What the system answers to a native call is an argument of the
call. What has been sent, has arrived and has been received is recorded.
-/
namespace Obz.Transport.Datagrams

open Foundation Addresses

inductive DatagramStatus where
  | complete
  | truncated
  deriving DecidableEq, Repr

structure UdpReceiveResult where
  sender : Endpoint
  bytesReceived : ℕ := 0
  status : DatagramStatus := .complete
  deriving DecidableEq, Repr

inductive UdpError where
  | socket (e : Transport.Error)
  | address (e : AddressError)
  deriving DecidableEq, Repr

def notOpen : UdpError := .socket (.runtimeError "UDP socket is not open")
def alreadyOpen : UdpError := .socket (.runtimeError "UDP socket is already open")

def emptyDestination : UdpError :=
  .socket (.invalidArgument "UDP receive destination must not be empty")

structure Datagram where
  source : SockaddrIn
  payload : Bytes
  deriving DecidableEq, Repr

/-! ### The native calls -/

def wsaemsgsize : ℕ := 10040

/-- What `recvmsg` or `recvfrom` leaves behind; `truncated` is `MSG_TRUNC` in `msg_flags`. -/
structure NativeMessage where
  result : NativeResult
  senderAddress : SockaddrIn
  truncated : Bool := false
  deriving DecidableEq, Repr

/-- The system stores as much of the datagram as fits. POSIX sets a flag if that is not all of
it, Winsock reports an error. -/
def nativeReceive (platform : Platform) (size : ℕ) (d : Datagram) : NativeMessage :=
  match platform with
  | .posix =>
    ⟨.transferred (min size d.payload.length), d.source, decide (size < d.payload.length)⟩
  | .winsock =>
    if size < d.payload.length then ⟨.failed wsaemsgsize, d.source, false⟩
    else ⟨.transferred d.payload.length, d.source, false⟩

section Calls

variable (platform : Platform) (native : NativeAddresses)

def failedToReceive (code : ℕ) : AddressError :=
  socketError platform code (ascii "failed to receive UDP datagram")

/-- What `receive_udp` makes of the native call for a destination of this size. -/
def receiveUdp (size : ℕ) (message : NativeMessage) : Except AddressError UdpReceiveResult :=
  match platform, message.result with
  | .posix, .failed errno => .error (failedToReceive platform errno)
  | .posix, .transferred bytesReceived => do
    let status := if message.truncated then DatagramStatus.truncated else .complete
    let sender ← fromSockaddrIn platform native message.senderAddress
    .ok ⟨sender, bytesReceived, status⟩
  | .winsock, .failed code =>
    if code = wsaemsgsize then do
      let sender ← fromSockaddrIn platform native message.senderAddress
      .ok ⟨sender, size, .truncated⟩
    else .error (failedToReceive platform code)
  | .winsock, .transferred bytesReceived => do
    let sender ← fromSockaddrIn platform native message.senderAddress
    .ok ⟨sender, bytesReceived, .complete⟩

/-- A call of `receive_from` that returned, with the size of its destination and the bytes its
caller finds there. -/
structure Received where
  result : UdpReceiveResult
  size : ℕ
  bytes : Bytes
  deriving DecidableEq, Repr

/-- A socket of the system. -/
structure KernelSocket where
  inbox : List Datagram := []
  memberships : List IpMreq := []
  arrived : List Datagram := []
  received : List Received := []
  deriving DecidableEq, Repr

def createUdpSocket (created : Except ℕ Unit) : Except AddressError KernelSocket := do
  start platform native
  checked platform (ascii "failed to create UDP socket") (created.map fun _ => {})

def joinMulticastGroup (socket : KernelSocket) (groupAddress interfaceAddress : Bytes)
    (joined : Except ℕ Unit) : Except AddressError KernelSocket := do
  let request ← multicastRequest platform native groupAddress interfaceAddress
  checked platform (ascii "failed to join IPv4 multicast group")
    (joined.map fun _ => { socket with memberships := socket.memberships.insert request })

def leaveMulticastGroup (socket : KernelSocket) (groupAddress interfaceAddress : Bytes)
    (left : Except ℕ Unit) : Except AddressError KernelSocket := do
  let request ← multicastRequest platform native groupAddress interfaceAddress
  checked platform (ascii "failed to leave IPv4 multicast group")
    (left.map fun _ => { socket with memberships := socket.memberships.erase request })

end Calls

/-! ### The objects -/

/-- A call of `send_to` that returned; the system has chosen the source address. -/
structure Sent where
  source : SockaddrIn
  remoteEndpoint : Endpoint
  data : Bytes
  deriving DecidableEq, Repr

def Sent.datagram (x : Sent) : Datagram := ⟨x.source, x.data⟩

/-- A socket object is closed if nothing is behind its handle. -/
structure World (ι : Type*) where
  sockets : ι → Option KernelSocket
  network : List Sent
  memory : Memory UInt8

inductive Answer where
  | done
  | sent (count : ℕ)
  | received (result : UdpReceiveResult)
  deriving DecidableEq, Repr

/-- The system fails with another code than the one for a datagram that does not fit. -/
abbrev Failure := { code : ℕ // code ≠ wsaemsgsize }

inductive Action (ι : Type*) where
  | open (i : ι) (created : Except ℕ Unit)
  | bind (i : ι) (localEndpoint : Endpoint) (created bound : Except ℕ Unit)
  | joinMulticastGroup (i : ι) (groupAddress interfaceAddress : Bytes) (joined : Except ℕ Unit)
  | leaveMulticastGroup (i : ι) (groupAddress interfaceAddress : Bytes) (left : Except ℕ Unit)
  | sendTo (i : ι) (remoteEndpoint : Endpoint) (data : Bytes) (source : SockaddrIn)
      (sent : Except ℕ Unit)
  | receiveFrom (i : ι) (destination : Span) (failed : Option Failure)
  | close (i : ι)
  | moveAssign (this other : ι)
  | arrive (i : ι) (k : ℕ)

namespace World

variable {ι : Type*} [DecidableEq ι]

def initial (memory : Memory UInt8) : World ι := ⟨fun _ => none, [], memory⟩

def set (w : World ι) (i : ι) (socket : Option KernelSocket) : World ι :=
  { w with sockets := Function.update w.sockets i socket }

def close (w : World ι) (i : ι) : World ι := w.set i none

def moveAssign (w : World ι) (this other : ι) : World ι :=
  if this = other then w else (w.set this (w.sockets other)).set other none

/-- A native function that changes the socket, or fails. -/
def change (w : World ι) (i : ι) : Except AddressError KernelSocket →
    Except UdpError Answer × World ι
  | .error e => (.error (.address e), w)
  | .ok socket => (.ok .done, w.set i (some socket))

variable (platform : Platform) (native : NativeAddresses) (w : World ι) (i : ι)

def «open» (created : Except ℕ Unit) : Except UdpError Answer × World ι :=
  match w.sockets i with
  | some _ => (.error alreadyOpen, w)
  | none => w.change i (createUdpSocket platform native created)

def bind (localEndpoint : Endpoint) (created bound : Except ℕ Unit) :
    Except UdpError Answer × World ι :=
  match (w.close i).open platform native i created with
  | (.error e, opened) => (.error e, opened)
  | (.ok _, opened) =>
    match bindSocket platform native localEndpoint fun _ => bound with
    | .error e => (.error (.address e), opened.close i)
    | .ok _ => (.ok .done, opened)

def joinMulticastGroup (groupAddress interfaceAddress : Bytes) (joined : Except ℕ Unit) :
    Except UdpError Answer × World ι :=
  match w.sockets i with
  | none => (.error notOpen, w)
  | some socket =>
    w.change i
      (Datagrams.joinMulticastGroup platform native socket groupAddress interfaceAddress joined)

def leaveMulticastGroup (groupAddress interfaceAddress : Bytes) (left : Except ℕ Unit) :
    Except UdpError Answer × World ι :=
  match w.sockets i with
  | none => (.error notOpen, w)
  | some socket =>
    w.change i
      (Datagrams.leaveMulticastGroup platform native socket groupAddress interfaceAddress left)

/-- The system takes a datagram whole or not at all. -/
def sendTo (remoteEndpoint : Endpoint) (data : Bytes) (source : SockaddrIn)
    (sent : Except ℕ Unit) : Except UdpError Answer × World ι :=
  match w.sockets i with
  | none => (.error notOpen, w)
  | some _ =>
    match sendUdp platform native remoteEndpoint data
        fun data _ => sent.map fun _ => data.length with
    | .error e => (.error (.address e), w)
    | .ok count =>
      (.ok (.sent count), { w with network := w.network ++ [⟨source, remoteEndpoint, data⟩] })

/-- The next datagram is taken out of the inbox and stored as far as it fits. -/
def take (socket : KernelSocket) (destination : Span) (d : Datagram) (rest : List Datagram) :
    Except UdpError Answer × World ι :=
  let memory := w.memory.write destination.start (d.payload.take destination.size)
  match receiveUdp platform native destination.size
      (nativeReceive platform destination.size d) with
  | .error e => (.error (.address e), { w.set i (some { socket with inbox := rest }) with memory })
  | .ok result =>
    let bytes := memory.read destination.start result.bytesReceived
    (.ok (.received result),
      { w.set i (some { socket with
          inbox := rest
          received := socket.received ++ [⟨result, destination.size, bytes⟩] }) with memory })

/-- With nothing in the inbox the call blocks until it fails. -/
def receiveFrom (destination : Span) (failed : Option Failure) :
    Option (Except UdpError Answer × World ι) :=
  if destination.size = 0 then some (.error emptyDestination, w)
  else match w.sockets i with
  | none => some (.error notOpen, w)
  | some socket =>
    match platform.nativeSize destination.size with
    | .error e => some (.error (.socket e), w)
    | .ok size =>
      match failed, socket.inbox with
      | some code, _ =>
        match receiveUdp platform native size ⟨.failed code, ⟨0, 0, anyAddress⟩, false⟩ with
        | .error e => some (.error (.address e), w)
        | .ok result => some (.ok (.received result), w)
      | none, d :: rest => some (w.take platform native i socket destination d rest)
      | none, [] => none

/-- The network delivers a datagram that was sent, to some open socket. -/
def arrive (k : ℕ) : Option (World ι) :=
  match w.sockets i, w.network[k]? with
  | some socket, some x =>
    some (w.set i (some { socket with
      inbox := socket.inbox ++ [x.datagram]
      arrived := socket.arrived ++ [x.datagram] }))
  | _, _ => none

/-- What a call answers and leaves behind. -/
def call (w : World ι) : Action ι → Option (Except UdpError Answer × World ι)
  | .open i created => some (w.open platform native i created)
  | .bind i localEndpoint created bound =>
    some (w.bind platform native i localEndpoint created bound)
  | .joinMulticastGroup i groupAddress interfaceAddress joined =>
    some (w.joinMulticastGroup platform native i groupAddress interfaceAddress joined)
  | .leaveMulticastGroup i groupAddress interfaceAddress left =>
    some (w.leaveMulticastGroup platform native i groupAddress interfaceAddress left)
  | .sendTo i remoteEndpoint data source sent =>
    some (w.sendTo platform native i remoteEndpoint data source sent)
  | .receiveFrom i destination failed => w.receiveFrom platform native i destination failed
  | .close i => some (.ok .done, w.close i)
  | .moveAssign this other => some (.ok .done, w.moveAssign this other)
  | .arrive i k => (w.arrive i k).map fun w => (.ok .done, w)

end World

def sockets (platform : Platform) (native : NativeAddresses) (ι : Type*) [DecidableEq ι]
    (memory : Memory UInt8) : System (World ι) (Action ι) where
  start := .initial memory
  step w a := (w.call platform native a).map Prod.snd

end Obz.Transport.Datagrams
