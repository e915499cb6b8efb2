import Obz.Foundation.Transition
import Obz.Transport.ReceivingSide

/-!
# A connection in use

One thread sends payloads and closes, another receives into destinations, and
their steps interleave in any order. The kernel is free to take and to return
any non-empty part of what is asked for.
-/
namespace Obz.Transport

open Foundation

variable {β : Type*}

/-- What the two callers are given: both sockets are open and no destination is empty. -/
structure Setup (β : Type*) where
  payloads : List (List β)
  destinations : List Span
  memory : Memory β
  sendSocket : TcpSocket
  receiveSocket : TcpSocket
  sendOpen : sendSocket.isOpen = true
  receiveOpen : receiveSocket.isOpen = true
  sizes : ∀ d ∈ destinations, 0 < d.size

structure Conversation (β : Type*) where
  sender : Sender β
  receiver : Receiver β
  stream : ByteStream β

inductive Action where
  | sender (a : SenderAction)
  | receiver (a : ReceiverAction)
  deriving DecidableEq, Repr

namespace Conversation

def step (s : Conversation β) : Action → Option (Conversation β)
  | .sender a => (s.sender.step s.stream a).map fun next =>
    { s with sender := next.1, stream := next.2 }
  | .receiver a => (s.receiver.step s.stream a).map fun next =>
    { s with receiver := next.1, stream := next.2 }

def start (c : Setup β) : Conversation β where
  sender := { socket := c.sendSocket, upcoming := c.payloads }
  receiver := { socket := c.receiveSocket, upcoming := c.destinations, memory := c.memory }
  stream := ByteStream.start

def system (c : Setup β) : System (Conversation β) Action where
  start := start c
  step := step

/-- Both ends agree with the stream between them. -/
structure Inv (c : Setup β) (s : Conversation β) : Prop where
  sender : s.sender.Inv c.payloads s.stream
  receiver : s.receiver.Inv c.destinations s.stream

theorem step_sender_iff {s t : Conversation β} {a : SenderAction} :
    s.step (.sender a) = some t ↔ ∃ sender stream,
      s.sender.step s.stream a = some (sender, stream) ∧ t = { s with sender, stream } := by
  simp [step, eq_comm]

theorem step_receiver_iff {s t : Conversation β} {a : ReceiverAction} :
    s.step (.receiver a) = some t ↔ ∃ receiver stream,
      s.receiver.step s.stream a = some (receiver, stream) ∧ t = { s with receiver, stream } := by
  simp [step, eq_comm]

theorem Inv.start (c : Setup β) : Inv c (start c) where
  sender := .start c.payloads c.sendOpen
  receiver := .start c.destinations c.receiveOpen c.memory

theorem Inv.step {c : Setup β} {s t : Conversation β} (h : Inv c s) {a : Action}
    (hstep : s.step a = some t) : Inv c t := by
  cases a with
  | sender a =>
    obtain ⟨sender, stream, hsender, rfl⟩ := step_sender_iff.mp hstep
    exact ⟨h.sender.step hsender, h.receiver.writes (Sender.step_writes h.sender hsender)⟩
  | receiver a =>
    obtain ⟨receiver, stream, hreceiver, rfl⟩ := step_receiver_iff.mp hstep
    obtain ⟨-, hwritten, hclosed⟩ := Receiver.step_effect h.receiver hreceiver
    exact ⟨h.sender.congr hwritten hclosed, h.receiver.step c.sizes hreceiver⟩

theorem inv_of_reachable {c : Setup β} {s : Conversation β} (h : (system c).Reachable s) :
    Inv c s :=
  h.invariant (Inv.start c) fun _ _ _ hu hstep => hu.step hstep

/-! Termination. -/

def work (s : Conversation β) : ℕ := s.sender.work + s.receiver.work

theorem work_step {c : Setup β} {s t : Conversation β} (h : Inv c s) {a : Action}
    (hstep : s.step a = some t) : t.work < s.work := by
  cases a with
  | sender a =>
    obtain ⟨sender, stream, hsender, rfl⟩ := step_sender_iff.mp hstep
    exact Nat.add_lt_add_right (Sender.work_step h.sender hsender) _
  | receiver a =>
    obtain ⟨receiver, stream, hreceiver, rfl⟩ := step_receiver_iff.mp hstep
    exact Nat.add_lt_add_left (Receiver.step_effect h.receiver hreceiver).1 _

/-- The sender has closed and the receiver has made all its calls. -/
def Finished (s : Conversation β) : Prop :=
  s.sender.socket.isOpen = false ∧ s.sender.Finished ∧ s.receiver.Finished

end Conversation
end Obz.Transport
