import Obz.Transport.NativeHandles

/-!
# `tcp_socket`, `udp_socket` and `tcp_listener` as owners of handles

The member functions that create, hand over and close handles, and programs
that make, use and destroy any number of objects. Moving and closing are written
alike in the three classes.
-/
namespace Obz.Transport.Handles

open Foundation

variable {ι : Type} [DecidableEq ι]

namespace World

def setObject (w : World ι) (i : ι) (object : Option Object) : World ι :=
  { w with objects := Function.update w.objects i object }

/-- Assign to the handle member of object `i`. -/
def setHandle (w : World ι) (i : ι) (handle : NativeSocketHandle) : World ι :=
  w.setObject i ((w.objects i).map fun object => { object with handle })

/-- Object `i` takes over a handle that nobody holds. -/
def adopted (w : World ι) (i : ι) (handle : NativeSocketHandle) : World ι :=
  match handle with
  | none => w.setHandle i none
  | some d =>
    { w.setHandle i (some d) with custody := w.custody ++ [.adopt i (w.descriptors d)] }

/-- `handle_ = other.handle_; other.handle_ = invalid_socket()` -/
def moved (w : World ι) (other this : ι) : World ι :=
  match w.handle other with
  | none => (w.setHandle this none).setHandle other none
  | some d =>
    { (w.setHandle this (some d)).setHandle other none with
      custody := w.custody ++ [.move other this (w.descriptors d)] }

def isOpen (w : World ι) (i : ι) : Bool := isValid (w.handle i)

end World

def closeHandle (this : ι) : Native ι Unit := do
  let w ← get
  if w.isOpen this then
    closeSocket this (w.handle this)
    modify fun w => w.setHandle this invalidSocket

/-- `operator=(T&& other)`, the same in the three classes. -/
def moveAssign (this other : ι) : Native ι Unit := do
  if this ≠ other then
    closeHandle this
    modify fun w => w.moved other this

/-- `T(T&& other)` and the default constructor, the same in the three classes. -/
def moveConstruct (kind : Kind) (this other : ι) : Native ι Unit :=
  modify fun w => (w.setObject this (some { kind })).moved other this

def construct (kind : Kind) (this : ι) : Native ι Unit :=
  modify fun w => w.setObject this (some { kind })

/-- `~T() { close(); }`, and the object is gone. -/
def destroy (this : ι) : Native ι Unit := do
  closeHandle this
  modify fun w => w.setObject this none

namespace TcpSocket

def moveConstruct (this other : ι) : Native ι Unit := Handles.moveConstruct .tcpSocket this other
def moveAssign (this other : ι) : Native ι Unit := Handles.moveAssign this other
def close (this : ι) : Native ι Unit := closeHandle this
def destroy (this : ι) : Native ι Unit := Handles.destroy this

/-- `tcp_socket(native_socket_handle socket_handle)` -/
def ofHandle (this : ι) (socketHandle : NativeSocketHandle) : Native ι Unit :=
  modify fun w => (w.setObject this (some { kind := .tcpSocket })).adopted this socketHandle

def connect (K : Kernel ι) (this : ι) (remoteEndpoint : Endpoint) : Native ι Unit := do
  close this
  let socketHandle ← createTcpSocket K
  modify fun w => w.adopted this socketHandle
  tryCatch (connectSocket K socketHandle remoteEndpoint) fun error => do
    close this
    throw error

end TcpSocket

namespace UdpSocket

def alreadyOpen : Error := .runtimeError "UDP socket is already open"

def moveConstruct (this other : ι) : Native ι Unit := Handles.moveConstruct .udpSocket this other
def moveAssign (this other : ι) : Native ι Unit := Handles.moveAssign this other
def close (this : ι) : Native ι Unit := closeHandle this
def destroy (this : ι) : Native ι Unit := Handles.destroy this

def «open» (K : Kernel ι) (this : ι) : Native ι Unit := do
  if (← get).isOpen this then
    throw alreadyOpen
  else
    let socketHandle ← createUdpSocket K
    modify fun w => w.adopted this socketHandle

def bind (K : Kernel ι) (this : ι) (localEndpoint : Endpoint) : Native ι Unit := do
  close this
  «open» K this
  let socketHandle := (← get).handle this
  tryCatch (bindSocket K socketHandle localEndpoint) fun error => do
    close this
    throw error

end UdpSocket

namespace TcpListener

def invalidBacklog : Error :=
  .invalidArgument "TCP listener backlog must be greater than zero"

def notOpen : Error := .runtimeError "TCP listener is not open"

def moveConstruct (this other : ι) : Native ι Unit := Handles.moveConstruct .tcpListener this other
def moveAssign (this other : ι) : Native ι Unit := Handles.moveAssign this other
def close (this : ι) : Native ι Unit := closeHandle this
def destroy (this : ι) : Native ι Unit := Handles.destroy this

def listen (K : Kernel ι) (this : ι) (localEndpoint : Endpoint) (backlog : ℤ) :
    Native ι Unit := do
  if backlog ≤ 0 then
    throw invalidBacklog
  else
    close this
    let listenHandle ← createTcpSocket K
    modify fun w => w.adopted this listenHandle
    tryCatch (do
        setReuseAddress K listenHandle
        bindSocket K listenHandle localEndpoint
        listenSocket K listenHandle backlog)
      fun error => do
        close this
        throw error

/-- The new `tcp_socket` is `result`. -/
def accept (K : Kernel ι) (this result : ι) : Native ι Unit := do
  let w ← get
  if w.isOpen this then
    let clientHandle ← acceptSocket K (w.handle this)
    TcpSocket.ofHandle result clientHandle
  else
    throw notOpen

end TcpListener

/-- What a program does with its objects; the last two are other code of the process
that opens and closes descriptors of its own. -/
inductive Action (ι : Type) where
  | construct (kind : Kind) (this : ι)
  | moveConstruct (kind : Kind) (this other : ι)
  | moveAssign (kind : Kind) (this other : ι)
  | close (kind : Kind) (this : ι)
  | destroy (kind : Kind) (this : ι)
  | connect (this : ι) (remoteEndpoint : Endpoint)
  | «open» (this : ι)
  | bind (this : ι) (localEndpoint : Endpoint)
  | listen (this : ι) (localEndpoint : Endpoint) (backlog : ℤ)
  | accept (this result : ι)
  | foreignOpen (descriptor : ℕ)
  | foreignClose (descriptor : ℕ)
  deriving DecidableEq

namespace World

/-- Object `i` exists and is of the given class. -/
def isA (w : World ι) (kind : Kind) (i : ι) : Bool := (w.objects i).map Object.kind = some kind

end World

namespace Action

/-- The calls that C++ lets a program make. -/
def WellTyped (w : World ι) : Action ι → Prop
  | construct _ this => w.objects this = none
  | moveConstruct kind this other => w.objects this = none ∧ w.isA kind other
  | moveAssign kind this other => w.isA kind this ∧ w.isA kind other
  | close kind this => w.isA kind this
  | destroy kind this => w.isA kind this
  | connect this _ => w.isA .tcpSocket this
  | «open» this => w.isA .udpSocket this
  | bind this _ => w.isA .udpSocket this
  | listen this _ _ => w.isA .tcpListener this
  | accept this result => w.isA .tcpListener this ∧ w.objects result = none
  | foreignOpen d => w.descriptors d = .nobody
  | foreignClose d => w.descriptors d = .foreign

instance (w : World ι) : DecidablePred (WellTyped w)
  | construct _ this => inferInstanceAs (Decidable (w.objects this = none))
  | moveConstruct kind this other =>
    inferInstanceAs (Decidable (w.objects this = none ∧ w.isA kind other))
  | moveAssign kind this other => inferInstanceAs (Decidable (w.isA kind this ∧ w.isA kind other))
  | close kind this | destroy kind this => inferInstanceAs (Decidable (w.isA kind this))
  | connect this _ => inferInstanceAs (Decidable (w.isA .tcpSocket this))
  | «open» this | bind this _ => inferInstanceAs (Decidable (w.isA .udpSocket this))
  | listen this _ _ => inferInstanceAs (Decidable (w.isA .tcpListener this))
  | accept this result =>
    inferInstanceAs (Decidable (w.isA .tcpListener this ∧ w.objects result = none))
  | foreignOpen d => inferInstanceAs (Decidable (w.descriptors d = .nobody))
  | foreignClose d => inferInstanceAs (Decidable (w.descriptors d = .foreign))

def call (K : Kernel ι) : Action ι → Native ι Unit
  | construct kind this => Handles.construct kind this
  | moveConstruct .tcpSocket this other => TcpSocket.moveConstruct this other
  | moveConstruct .udpSocket this other => UdpSocket.moveConstruct this other
  | moveConstruct .tcpListener this other => TcpListener.moveConstruct this other
  | moveAssign .tcpSocket this other => TcpSocket.moveAssign this other
  | moveAssign .udpSocket this other => UdpSocket.moveAssign this other
  | moveAssign .tcpListener this other => TcpListener.moveAssign this other
  | close .tcpSocket this => TcpSocket.close this
  | close .udpSocket this => UdpSocket.close this
  | close .tcpListener this => TcpListener.close this
  | destroy .tcpSocket this => TcpSocket.destroy this
  | destroy .udpSocket this => UdpSocket.destroy this
  | destroy .tcpListener this => TcpListener.destroy this
  | connect this remoteEndpoint => TcpSocket.connect K this remoteEndpoint
  | «open» this => UdpSocket.open K this
  | bind this localEndpoint => UdpSocket.bind K this localEndpoint
  | listen this localEndpoint backlog => TcpListener.listen K this localEndpoint backlog
  | accept this result => TcpListener.accept K this result
  | foreignOpen d =>
    modify fun w => { w with descriptors := Function.update w.descriptors d .foreign }
  | foreignClose d =>
    modify fun w => { w with descriptors := Function.update w.descriptors d .nobody }

end Action

/-- Programs, whose calls may throw, over any kernel. -/
def system (K : Kernel ι) : System (World ι) (Action ι) where
  start := {}
  step w a := if a.WellTyped w then some ((a.call K).call w).2 else none

end Obz.Transport.Handles
