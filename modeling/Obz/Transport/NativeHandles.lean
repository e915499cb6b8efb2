import Obz.Foundation.Custody
import Obz.Foundation.Program
import Obz.Transport.TcpSocket
import Mathlib.Data.UInt

/-!
# Native handles

The descriptors of the process, the kernel that hands them out, and the
functions of the POSIX platform layer that create, configure and close them.
The kernel may fail any call and may hand out a number again once it is closed.
-/
namespace Obz.Transport.Handles

open Foundation

/-- `-1` is `none`. -/
abbrev NativeSocketHandle := Option ℕ

def invalidSocket : NativeSocketHandle := none

def isValid (handle : NativeSocketHandle) : Bool := handle != invalidSocket

structure Endpoint where
  host : String
  port : UInt16 := 0
  deriving DecidableEq, Repr

/-- Whom an open descriptor belongs to; the library counts its own. -/
inductive Owner where
  | nobody
  | foreign
  | library (creation : ℕ)
  deriving DecidableEq, Repr

inductive SocketType where
  | stream
  | datagram
  deriving DecidableEq, Repr

inductive NativeCall where
  | socket (type : SocketType)
  | accept (handle : NativeSocketHandle)
  | setNoSigpipe (handle : NativeSocketHandle)
  | setReuseAddress (handle : NativeSocketHandle)
  | inetPton (host : String)
  | connect (handle : NativeSocketHandle) (address : Endpoint)
  | bind (handle : NativeSocketHandle) (address : Endpoint)
  | listen (handle : NativeSocketHandle) (backlog : ℤ)
  | close (handle : NativeSocketHandle)
  deriving DecidableEq, Repr

inductive Kind where
  | tcpSocket
  | udpSocket
  | tcpListener
  deriving DecidableEq, Repr

/-- An object of one of the three classes: its `socket_handle_` or `listen_handle_`. -/
structure Object where
  kind : Kind
  handle : NativeSocketHandle := invalidSocket
  deriving DecidableEq, Repr

/-- The objects of the program and the descriptors of its process. `custody` records
what became of each handle the library got. -/
structure World (ι : Type) where
  objects : ι → Option Object := fun _ => none
  descriptors : ℕ → Owner := fun _ => .nobody
  creations : ℕ := 0
  errno : ℕ := 0
  custody : List (Custody.Event ι Owner) := []
  calls : List NativeCall := []

/-- The kernel answers as it likes, out of everything that has happened, but never
gives out a descriptor that is open. An error is the value of `errno`. -/
structure Kernel (ι : Type) where
  apple : Bool
  handleFor : World ι → NativeCall → Except ℕ ℕ
  outcome : World ι → NativeCall → Except ℕ Unit
  unused : ∀ w c d, handleFor w c = .ok d → w.descriptors d = .nobody

abbrev Native (ι α : Type) := Program Error (World ι) α

variable {ι : Type}

namespace World

def handle (w : World ι) (i : ι) : NativeSocketHandle :=
  ((w.objects i).map Object.handle).getD invalidSocket

def perform (w : World ι) (c : NativeCall) : World ι := { w with calls := c :: w.calls }

def fail (w : World ι) (errno : ℕ) : World ι := { w with errno }

/-- The kernel gives out `d`. -/
def opened (w : World ι) (d : ℕ) : World ι :=
  { w with
    descriptors := Function.update w.descriptors d (.library w.creations)
    creations := w.creations + 1
    custody := w.custody ++ [.create (.library w.creations)] }

/-- `d` is closed on behalf of `caller`. -/
def closed (w : World ι) (caller : Option ι) (d : ℕ) : World ι :=
  { w with
    descriptors := Function.update w.descriptors d .nobody
    custody := w.custody ++ [.release caller (w.descriptors d)] }

end World

/-- A native call that returns a handle or `-1`. -/
def nativeOpen (K : Kernel ι) (c : NativeCall) : Native ι NativeSocketHandle := do
  match K.handleFor (← get) c with
  | .error errno =>
    modify fun w => (w.perform c).fail errno
    return invalidSocket
  | .ok d =>
    modify fun w => (w.perform c).opened d
    return some d

/-- A native call that returns zero or `-1`: whether it succeeded. -/
def nativeTry (K : Kernel ι) (c : NativeCall) : Native ι Bool := do
  match K.outcome (← get) c with
  | .error errno =>
    modify fun w => (w.perform c).fail errno
    return false
  | .ok _ =>
    modify fun w => w.perform c
    return true

/-- `::close` -/
def nativeClose (caller : Option ι) (handle : NativeSocketHandle) : Native ι Unit :=
  modify fun w =>
    match handle with
    | none => w.perform (.close handle)
    | some d => (w.perform (.close handle)).closed caller d

def lastSocketError (message : String) : Native ι Error := do
  return .systemError (← get).errno message

def toSockaddrIn (K : Kernel ι) (value : Endpoint) : Native ι Endpoint := do
  if ← nativeTry K (.inetPton value.host) then
    return value
  else
    throw (.invalidArgument ("invalid IPv4 endpoint host: " ++ value.host))

def configureTcpSocket (K : Kernel ι) (handle : NativeSocketHandle) :
    Native ι NativeSocketHandle := do
  if K.apple then
    if ← nativeTry K (.setNoSigpipe handle) then
      return handle
    else
      let error ← lastSocketError "failed to disable SIGPIPE on TCP socket"
      nativeClose none handle
      throw error
  else
    return handle

/-- `caller` is the object whose member function calls. -/
def closeSocket (caller : ι) (handle : NativeSocketHandle) : Native ι Unit := do
  if isValid handle then
    nativeClose (some caller) handle

def createTcpSocket (K : Kernel ι) : Native ι NativeSocketHandle := do
  let handle ← nativeOpen K (.socket .stream)
  if isValid handle then
    configureTcpSocket K handle
  else
    throw (← lastSocketError "failed to create TCP socket")

def createUdpSocket (K : Kernel ι) : Native ι NativeSocketHandle := do
  let handle ← nativeOpen K (.socket .datagram)
  if isValid handle then
    return handle
  else
    throw (← lastSocketError "failed to create UDP socket")

def acceptSocket (K : Kernel ι) (handle : NativeSocketHandle) : Native ι NativeSocketHandle := do
  let clientHandle ← nativeOpen K (.accept handle)
  if isValid clientHandle then
    configureTcpSocket K clientHandle
  else
    throw (← lastSocketError "failed to accept TCP connection")

def connectSocket (K : Kernel ι) (handle : NativeSocketHandle) (remoteEndpoint : Endpoint) :
    Native ι Unit := do
  let address ← toSockaddrIn K remoteEndpoint
  if ← nativeTry K (.connect handle address) then
    return ()
  else
    throw (← lastSocketError
      ("failed to connect to " ++ remoteEndpoint.host ++ ":" ++ toString remoteEndpoint.port))

def bindSocket (K : Kernel ι) (handle : NativeSocketHandle) (localEndpoint : Endpoint) :
    Native ι Unit := do
  let address ← toSockaddrIn K localEndpoint
  if ← nativeTry K (.bind handle address) then
    return ()
  else
    throw (← lastSocketError
      ("failed to bind socket to " ++ localEndpoint.host ++ ":" ++ toString localEndpoint.port))

def setReuseAddress (K : Kernel ι) (handle : NativeSocketHandle) : Native ι Unit := do
  if ← nativeTry K (.setReuseAddress handle) then
    return ()
  else
    throw (← lastSocketError "failed to set SO_REUSEADDR on TCP listener")

def listenSocket (K : Kernel ι) (handle : NativeSocketHandle) (backlog : ℤ) : Native ι Unit := do
  if ← nativeTry K (.listen handle backlog) then
    return ()
  else
    throw (← lastSocketError "failed to listen on TCP socket")

end Obz.Transport.Handles
