import Obz.Transport.InterruptedSend
import Obz.Transport.ReceivingSide

/-!
# Repeating an interrupted `receive_exactly`

The caller passes the same destination again each time the call throws
`std::errc::interrupted`. What the interrupted call had taken out of the stream
stays taken, and the next call fills the destination from the front.
-/
namespace Obz.Transport

open Foundation

variable {β : Type*}

/-- `abandoned` records `total_received` of the calls that were interrupted. -/
structure RepeatedReceive (β : Type*) where
  socket : TcpSocket
  destination : Span
  memory : Memory β
  stream : ByteStream β
  attempt : Attempt ReceiveExactly ReceiveResult
  abandoned : List ℕ := []

namespace RepeatedReceive

inductive Action (β : Type*) where
  | native (result : NativeResult)
  | finish
  | peerWrites (bytes : List β)
  | peerCloses

def enter (destination : Span) : Attempt ReceiveExactly ReceiveResult :=
  match ReceiveExactly.enter destination with
  | .ok l => .calling l
  | .error e => .threw { destination } e

/-- The caller calls again after `std::errc::interrupted` and gives up after any
other exception. -/
def thrown (s : RepeatedReceive β) (l : ReceiveExactly) (e : Error) : RepeatedReceive β :=
  if e.isInterrupted then
    { s with attempt := enter s.destination, abandoned := s.abandoned ++ [l.totalReceived] }
  else
    { s with attempt := .threw l e }

/-- What the loop does with a chunk, or with the end of the stream. -/
def resumed (s : RepeatedReceive β) (l : ReceiveExactly) (result : NativeResult) :
    RepeatedReceive β :=
  match l.resume result with
  | .ok (.inl l') => { s with attempt := .calling l' }
  | .ok (.inr value) => { s with attempt := .returned value }
  | .error e => s.thrown l e

def step (s : RepeatedReceive β) : Action β → Option (RepeatedReceive β)
  | .native result =>
    match s.attempt with
    | .calling l =>
      match l.next s.socket, result with
      | .native destination, .transferred count =>
        if h : Receiver.Available s.stream destination.size count then
          let memory := s.memory.write destination.start (s.stream.chunk count)
          some (resumed { s with memory, stream := s.stream.read count h.2.1 } l result)
        else none
      | .native _, .failed _ => some (s.resumed l result)
      | _, _ => none
    | _ => none
  | .finish =>
    match s.attempt with
    | .calling l =>
      match l.next s.socket with
      | .returns value => some { s with attempt := .returned value }
      | .throws e => some (s.thrown l e)
      | .native _ => none
    | _ => none
  | .peerWrites bytes =>
    if s.stream.closed then none else some { s with stream := s.stream.write bytes }
  | .peerCloses => some { s with stream := s.stream.close }

/-- The first call, on a connection that has been in use. -/
def system (socket : TcpSocket) (destination : Span) (memory : Memory β) (stream : ByteStream β) :
    System (RepeatedReceive β) (Action β) where
  start := { socket, destination, memory, stream, attempt := enter destination }
  step := step

/-- How much the last call has placed in the destination. -/
def transferred : Attempt ReceiveExactly ReceiveResult → ℕ
  | .calling l => l.totalReceived
  | .returned r => r.bytesReceived
  | .threw l _ => l.totalReceived

/-- Where in the stream the last call began. -/
def first (stream : ByteStream β) (s : RepeatedReceive β) : ℕ := stream.taken + s.abandoned.sum

structure Inv (destination : Span) (memory : Memory β) (stream : ByteStream β)
    (s : RepeatedReceive β) : Prop where
  destination_eq : s.destination = destination
  taken_eq : s.stream.taken = s.first stream + transferred s.attempt
  placed : s.memory.read destination.start (transferred s.attempt) =
    (s.stream.written.drop (s.first stream)).take (transferred s.attempt)
  frame : ∀ i, i < destination.start ∨ destination.start + destination.size ≤ i →
    s.memory i = memory i
  calling : ∀ l, s.attempt = .calling l →
    l.destination = destination ∧ l.totalReceived ≤ destination.size
  returned : ∀ r, s.attempt = .returned r → r = ⟨destination.size, .completed⟩ ∨
    (s.stream.closed = true ∧ s.stream.taken = s.stream.written.length ∧
      r.bytesReceived < destination.size ∧ r.status = .peerClosed)

theorem next_native {l : ReceiveExactly} {socket : TcpSocket} {request : Span}
    (h : l.next socket = .native request) : l.totalReceived < l.destination.size ∧
      request = l.destination.subspan l.totalReceived := by
  unfold ReceiveExactly.next at h
  split_ifs at h with hlt
  refine ⟨hlt, ?_⟩
  unfold TcpSocket.receiveSome at h
  split_ifs at h
  · cases h
  · exact (Next.native.inj h).symm
  · cases h

theorem next_returns {l : ReceiveExactly} {socket : TcpSocket} {r : ReceiveResult}
    (h : l.next socket = .returns r) :
    l.destination.size ≤ l.totalReceived ∧ r = ⟨l.totalReceived, .completed⟩ := by
  unfold ReceiveExactly.next at h
  split_ifs at h with hlt
  · unfold TcpSocket.receiveSome at h
    split_ifs at h <;> cases h
  · exact ⟨not_lt.mp hlt, (Next.returns.inj h).symm⟩

variable {destination : Span} {memory : Memory β} {stream : ByteStream β}
  {s t : RepeatedReceive β}

theorem transferred_enter (destination : Span) : transferred (enter destination) = 0 := by
  unfold enter ReceiveExactly.enter
  split_ifs <;> rfl

/-- After an exception what was received is lost, and the next call starts from the front. -/
theorem Inv.thrown (h : s.Inv destination memory stream) {l : ReceiveExactly}
    (hl : s.attempt = .calling l) (e : Error) : (s.thrown l e).Inv destination memory stream := by
  have htaken := h.taken_eq
  have hplaced := h.placed
  simp only [transferred, hl] at htaken hplaced
  unfold RepeatedReceive.thrown
  split_ifs with he
  · refine ⟨h.destination_eq, ?_, ?_, h.frame, ?_, ?_⟩
    · simp only [transferred_enter, htaken, first, List.sum_append, List.sum_singleton]
      omega
    · simp only [transferred_enter]
      rfl
    · intro l' hl'
      simp only [enter, ReceiveExactly.enter, h.destination_eq] at hl'
      split_ifs at hl' with hsize
      cases hl'
      exact ⟨rfl, Nat.zero_le _⟩
    · intro r hr
      simp only [enter, ReceiveExactly.enter] at hr
      split_ifs at hr
  · refine ⟨h.destination_eq, htaken, hplaced, h.frame, ?_, ?_⟩
    · intro l' hl'
      cases hl'
    · intro r hr
      cases hr

theorem Inv.start (socket : TcpSocket) (destination : Span) (memory : Memory β)
    (stream : ByteStream β) :
    (system socket destination memory stream).start.Inv destination memory stream where
  destination_eq := rfl
  taken_eq := by simp [system, transferred_enter, first]
  placed := by
    simp only [system, transferred_enter]
    rfl
  frame := fun _ _ => rfl
  calling := by
    intro l hl
    simp only [system, enter, ReceiveExactly.enter] at hl
    split_ifs at hl with hsize
    cases hl
    exact ⟨rfl, Nat.zero_le _⟩
  returned := by
    intro r hr
    simp only [system, enter, ReceiveExactly.enter] at hr
    split_ifs at hr

/-- One pass of the loop: a chunk is placed behind the others, or the end of the stream is
met, or the call throws. -/
theorem step_native {result : NativeResult} (h : s.Inv destination memory stream)
    (hstep : s.step (.native result) = some t) :
    ∃ l, s.attempt = .calling l ∧ l.totalReceived < destination.size ∧
      ((∃ count, ∃ hfits : count ≤ s.stream.inFlight.length, 0 < count ∧
          l.totalReceived + count ≤ destination.size ∧ t = { s with
            memory := s.memory.write (destination.start + l.totalReceived) (s.stream.chunk count)
            stream := s.stream.read count hfits
            attempt := .calling { l with totalReceived := l.totalReceived + count } }) ∨
        (s.stream.closed = true ∧ s.stream.taken = s.stream.written.length ∧
          t = { s with attempt := .returned ⟨l.totalReceived, .peerClosed⟩ }) ∨
        ∃ e, t = s.thrown l e) := by
  unfold step at hstep
  rcases hs : s.attempt with l | _ | _ <;> simp only [hs] at hstep
  · obtain ⟨rfl, -⟩ := h.calling l hs
    rcases hn : l.next s.socket with request | _ | _ <;> simp only [hn] at hstep
    · obtain ⟨hlt, rfl⟩ := next_native hn
      refine ⟨l, rfl, hlt, ?_⟩
      rcases result with errno | count
      · exact Or.inr (Or.inr ⟨_, (Option.some.inj hstep).symm⟩)
      · dsimp only at hstep
        split_ifs at hstep with havailable
        obtain ⟨hrequest, hfits, hend⟩ := havailable
        have hsize : count ≤ l.destination.size - l.totalReceived := hrequest
        rcases Nat.eq_zero_or_pos count with hzero | hpos
        · subst hzero
          obtain ⟨hclosed, hdrained⟩ := hend rfl
          refine Or.inr (Or.inl ⟨hclosed, hdrained, ?_⟩)
          have hkept : s.memory.write (l.destination.subspan l.totalReceived).start
              (s.stream.chunk 0) = s.memory := Memory.write_nil _ _
          rw [hkept] at hstep
          simp only [resumed, ReceiveExactly.resume_zero] at hstep
          exact (Option.some.inj hstep).symm
        · refine Or.inl ⟨count, hfits, hpos, by omega, ?_⟩
          simp only [resumed, ReceiveExactly.resume_of_pos hpos] at hstep
          exact (Option.some.inj hstep).symm
    · cases hstep
    · cases hstep
  · cases hstep
  · cases hstep

/-- After the loop the call returns; before it ends, one that cannot go on throws. -/
theorem step_finish (hstep : s.step .finish = some t) :
    ∃ l, s.attempt = .calling l ∧
      ((l.destination.size ≤ l.totalReceived ∧
          t = { s with attempt := .returned ⟨l.totalReceived, .completed⟩ }) ∨
        ∃ e, t = s.thrown l e) := by
  unfold step at hstep
  rcases hs : s.attempt with l | _ | _ <;> simp only [hs] at hstep
  · refine ⟨l, rfl, ?_⟩
    rcases hn : l.next s.socket with _ | r | e <;> simp only [hn] at hstep
    · cases hstep
    · obtain ⟨hge, rfl⟩ := next_returns hn
      exact Or.inl ⟨hge, (Option.some.inj hstep).symm⟩
    · exact Or.inr ⟨e, (Option.some.inj hstep).symm⟩
  · cases hstep
  · cases hstep

/-- The peer may write more or close; what was read stays as it is. -/
theorem Inv.peer (h : s.Inv destination memory stream) {after : ByteStream β}
    (hw : Sender.Writes s.stream after) :
    Inv destination memory stream { s with stream := after } := by
  have htaken : after.taken = s.stream.taken := by cases hw <;> rfl
  refine ⟨h.destination_eq, htaken.trans h.taken_eq, ?_, h.frame, h.calling, ?_⟩
  · have hplaced := h.placed
    cases hw with
    | write bytes hopen =>
      refine hplaced.trans (s.stream.segment_write bytes ?_).symm
      exact h.taken_eq.ge
    | _ => exact hplaced
  · intro r hr
    have hreturned := h.returned r hr
    cases hw with
    | keep => exact hreturned
    | write bytes hopen =>
      rcases hreturned with hfull | ⟨hclosed, -⟩
      · exact Or.inl hfull
      · exact absurd (hclosed.symm.trans hopen) (by simp)
    | close =>
      rcases hreturned with hfull | ⟨-, hend⟩
      · exact Or.inl hfull
      · exact Or.inr ⟨rfl, hend⟩

theorem Inv.chunk (h : s.Inv destination memory stream) {l : ReceiveExactly}
    (hl : s.attempt = .calling l) {count : ℕ} (hfits : count ≤ s.stream.inFlight.length)
    (hle : l.totalReceived + count ≤ destination.size) :
    Inv destination memory stream { s with
      memory := s.memory.write (destination.start + l.totalReceived) (s.stream.chunk count)
      stream := s.stream.read count hfits
      attempt := .calling { l with totalReceived := l.totalReceived + count } } := by
  have htaken := h.taken_eq
  have hplaced := h.placed
  simp only [transferred, hl] at htaken hplaced
  have hchunk := ByteStream.length_chunk hfits
  refine ⟨h.destination_eq, ?_, ?_, fun i hi => ?_, ?_, nofun⟩
  · simp only [ByteStream.read_taken, transferred, htaken, first]
    omega
  · have happend := s.memory.read_write_append destination.start l.totalReceived
      (s.stream.chunk count)
    rw [hchunk] at happend
    simp only [transferred, first]
    rw [happend, hplaced]
    exact s.stream.segment_append_chunk count htaken.symm
  · rw [← h.frame i hi]
    rcases hi with hbelow | habove
    · exact Memory.write_of_lt _ _ (by omega)
    · exact Memory.write_of_ge _ _ (by omega)
  · rintro l' ⟨⟩
    exact ⟨(h.calling l hl).1, hle⟩

theorem Inv.step (h : s.Inv destination memory stream) {a : Action β}
    (hstep : s.step a = some t) : t.Inv destination memory stream := by
  cases a with
  | native result =>
    obtain ⟨l, hl, hlt, ⟨count, hfits, hpos, hle, rfl⟩ | ⟨hclosed, hdrained, rfl⟩ | ⟨e, rfl⟩⟩ :=
      step_native h hstep
    · exact h.chunk hl hfits hle
    · have htaken := h.taken_eq
      have hplaced := h.placed
      simp only [transferred, hl] at htaken hplaced
      refine ⟨h.destination_eq, htaken, hplaced, h.frame, nofun, ?_⟩
      rintro r ⟨⟩
      exact Or.inr ⟨hclosed, hdrained, hlt, rfl⟩
    · exact h.thrown hl e
  | finish =>
    obtain ⟨l, hl, ⟨hge, rfl⟩ | ⟨e, rfl⟩⟩ := step_finish hstep
    · obtain ⟨hdestination, hle⟩ := h.calling l hl
      have htaken := h.taken_eq
      have hplaced := h.placed
      simp only [transferred, hl] at htaken hplaced
      refine ⟨h.destination_eq, htaken, hplaced, h.frame, nofun, ?_⟩
      rintro r ⟨⟩
      rw [hdestination] at hge
      exact Or.inl (by rw [le_antisymm hle hge])
    · exact h.thrown hl e
  | peerWrites bytes =>
    simp only [RepeatedReceive.step] at hstep
    split_ifs at hstep with hclosed
    cases hstep
    exact h.peer (.write bytes (Bool.not_eq_true _ ▸ hclosed))
  | peerCloses =>
    cases hstep
    exact h.peer .close

theorem inv_of_reachable {socket : TcpSocket}
    (h : (system socket destination memory stream).Reachable s) :
    s.Inv destination memory stream :=
  h.invariant (Inv.start socket destination memory stream) fun _ _ _ hu hstep => hu.step hstep

/-! The caller makes at most so many native calls more. -/

def remaining (s : RepeatedReceive β) : ℕ :=
  match s.attempt with
  | .calling l => s.destination.size - l.totalReceived + 1
  | _ => 0

/-- What the calls that were given up may have cost. -/
def credit (s : RepeatedReceive β) : ℕ := s.abandoned.length * (s.destination.size + 1)

end RepeatedReceive
end Obz.Transport
