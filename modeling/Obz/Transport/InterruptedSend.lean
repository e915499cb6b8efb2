import Obz.Foundation.ByteStream
import Obz.Foundation.Transition
import Obz.Transport.TcpSocket

/-!
# Repeating an interrupted `send_all`

Any native call may fail with `EINTR` and take nothing. The caller passes the
same payload to `send_all` again each time the call throws
`std::errc::interrupted`. The locals of the call are gone by then.
-/
namespace Obz.Transport

open Foundation

/-- `EINTR` -/
def interruptedCode : ℕ := 4

/-- `error.code() == std::errc::interrupted` -/
def Error.isInterrupted : Error → Bool
  | .systemError code _ => code = interruptedCode
  | _ => false

/-- Where the caller is: in a call with these locals, or at the end of its loop. -/
inductive Attempt (L α : Type*) where
  | calling (l : L)
  | returned (value : α)
  | threw (l : L) (e : Error)
  deriving DecidableEq, Repr

variable {β : Type*}

/-- `abandoned` records `bytes_sent` of the calls that were interrupted. -/
structure RepeatedSend (β : Type*) where
  socket : TcpSocket
  payload : List β
  stream : ByteStream β
  attempt : Attempt (SendAll β) Unit
  abandoned : List ℕ := []

namespace RepeatedSend

inductive Action where
  | native (result : NativeResult)
  | finish
  | peerReads (count : ℕ)
  deriving DecidableEq, Repr

/-- The caller calls again after `std::errc::interrupted` and gives up after any
other exception. -/
def thrown (s : RepeatedSend β) (l : SendAll β) (e : Error) : RepeatedSend β :=
  if e.isInterrupted then
    { s with attempt := .calling { data := s.payload }, abandoned := s.abandoned ++ [l.bytesSent] }
  else
    { s with attempt := .threw l e }

def step (s : RepeatedSend β) : Action → Option (RepeatedSend β)
  | .native result =>
    match s.attempt with
    | .calling l =>
      match l.next s.socket with
      | .native remaining =>
        if result.count ≤ remaining.length then
          let s' := { s with stream := s.stream.write (remaining.take result.count) }
          match l.resume result with
          | .ok l' => some { s' with attempt := .calling l' }
          | .error e => some (s'.thrown l e)
        else none
      | _ => none
    | _ => none
  | .finish =>
    match s.attempt with
    | .calling l =>
      match l.next s.socket with
      | .returns value => some { s with attempt := .returned value }
      | .throws e => some (s.thrown l e)
      | .native _ => none
    | _ => none
  | .peerReads count =>
    if h : count ≤ s.stream.inFlight.length then
      some { s with stream := s.stream.read count h }
    else none

/-- The first call, on a connection that has been in use. -/
def system (socket : TcpSocket) (payload : List β) (stream : ByteStream β) :
    System (RepeatedSend β) Action where
  start := { socket, payload, stream, attempt := .calling { data := payload } }
  step := step

/-- What the interrupted calls had put into the stream. -/
def leftOver (s : RepeatedSend β) : List β :=
  (s.abandoned.map fun bytesSent => s.payload.take bytesSent).flatten

/-- What the last call has put there. -/
def progress (s : RepeatedSend β) : List β :=
  match s.attempt with
  | .calling l => s.payload.take l.bytesSent
  | .returned _ => s.payload
  | .threw l _ => s.payload.take l.bytesSent

structure Inv (payload : List β) (stream : ByteStream β) (s : RepeatedSend β) : Prop where
  payload_eq : s.payload = payload
  written_eq : s.stream.written = stream.written ++ s.leftOver ++ s.progress
  calling : ∀ l, s.attempt = .calling l → l.data = payload ∧ l.bytesSent ≤ payload.length
  abandoned : ∀ k ∈ s.abandoned, k ≤ payload.length

theorem next_native {l : SendAll β} {socket : TcpSocket} {remaining : List β}
    (h : l.next socket = .native remaining) :
    l.bytesSent < l.data.length ∧ remaining = l.data.drop l.bytesSent := by
  unfold SendAll.next TcpSocket.send at h
  split_ifs at h with hlt hopen
  · exact ⟨hlt, (Next.native.inj h).symm⟩
  · cases h

theorem next_returns {l : SendAll β} {socket : TcpSocket} {value : Unit}
    (h : l.next socket = .returns value) : l.data.length ≤ l.bytesSent := by
  unfold SendAll.next TcpSocket.send at h
  split_ifs at h with hlt hopen
  · cases h
  · cases h
  · exact not_lt.mp hlt

/-- One pass of the loop: bytes go into the stream, or the call throws. -/
theorem step_native {payload : List β} {stream : ByteStream β} {s t : RepeatedSend β}
    {result : NativeResult} (h : s.Inv payload stream) (hstep : s.step (.native result) = some t) :
    ∃ l, s.attempt = .calling l ∧ l.bytesSent + result.count ≤ payload.length ∧
      l.bytesSent < payload.length ∧
      ((0 < result.count ∧
          t = { s with
            stream := s.stream.write ((payload.drop l.bytesSent).take result.count)
            attempt := .calling { l with bytesSent := l.bytesSent + result.count } }) ∨
        (result.count = 0 ∧ ∃ e, l.resume result = .error e ∧
          t = RepeatedSend.thrown { s with stream := s.stream.write [] } l e)) := by
  unfold step at hstep
  rcases hs : s.attempt with l | _ | _ <;> simp only [hs] at hstep
  · rcases hn : l.next s.socket with remaining | _ | _ <;> simp only [hn] at hstep
    · obtain ⟨hlt, rfl⟩ := next_native hn
      rw [(h.calling l hs).1] at hlt hstep
      simp only [List.length_drop] at hstep
      split_ifs at hstep with hcount
      refine ⟨l, rfl, by omega, hlt, ?_⟩
      rcases Nat.eq_zero_or_pos result.count with hzero | hpos
      · obtain ⟨e, he⟩ := SendAll.resume_of_zero (l := l) hzero
        simp only [he, hzero, List.take_zero, Option.some.injEq] at hstep
        exact Or.inr ⟨hzero, e, he, hstep.symm⟩
      · simp only [SendAll.resume_of_pos hpos, Option.some.injEq] at hstep
        exact Or.inl ⟨hpos, hstep.symm⟩
    · cases hstep
    · cases hstep
  · cases hstep
  · cases hstep

/-- After the loop the call returns; before it ends, one that cannot go on throws. -/
theorem step_finish {s t : RepeatedSend β} (hstep : s.step .finish = some t) :
    ∃ l, s.attempt = .calling l ∧
      ((l.data.length ≤ l.bytesSent ∧ t = { s with attempt := .returned () }) ∨
        ∃ e, t = s.thrown l e) := by
  unfold step at hstep
  rcases hs : s.attempt with l | _ | _ <;> simp only [hs] at hstep
  · refine ⟨l, rfl, ?_⟩
    rcases hn : l.next s.socket with _ | _ | e <;> simp only [hn] at hstep
    · cases hstep
    · exact Or.inl ⟨next_returns hn, (Option.some.inj hstep).symm⟩
    · exact Or.inr ⟨e, (Option.some.inj hstep).symm⟩
  · cases hstep
  · cases hstep

/-- After an exception the stream holds what the call had got into it, and the next call
starts from the front. -/
theorem Inv.thrown {payload : List β} {stream : ByteStream β} {s : RepeatedSend β}
    (h : s.Inv payload stream) {l : SendAll β} (hl : s.attempt = .calling l) (e : Error) :
    (s.thrown l e).Inv payload stream := by
  have hwritten := h.written_eq
  simp only [progress, hl] at hwritten
  unfold RepeatedSend.thrown
  split_ifs with he
  · refine ⟨h.payload_eq, ?_, ?_, ?_⟩
    · simpa [leftOver, progress] using hwritten
    · rintro l' ⟨⟩
      exact ⟨h.payload_eq, Nat.zero_le _⟩
    · simpa [or_imp, forall_and] using And.intro h.abandoned (h.calling l hl).2
  · exact ⟨h.payload_eq, hwritten, nofun, h.abandoned⟩

theorem Inv.start (socket : TcpSocket) (payload : List β) (stream : ByteStream β) :
    (system socket payload stream).start.Inv payload stream where
  payload_eq := rfl
  written_eq := by simp [system, leftOver, progress]
  calling := by
    rintro l ⟨⟩
    exact ⟨rfl, Nat.zero_le _⟩
  abandoned := nofun

theorem Inv.step {payload : List β} {stream : ByteStream β} {s t : RepeatedSend β}
    (h : s.Inv payload stream) {a : Action} (hstep : s.step a = some t) : t.Inv payload stream := by
  cases a with
  | native result =>
    obtain ⟨l, hl, hle, hlt, ⟨hpos, rfl⟩ | ⟨hzero, e, -, rfl⟩⟩ := step_native h hstep
    · have hwritten := h.written_eq
      simp only [progress, hl] at hwritten
      refine ⟨h.payload_eq, ?_, ?_, h.abandoned⟩
      · rw [ByteStream.write_written, hwritten, List.append_assoc]
        simp only [progress, h.payload_eq, leftOver]
        rw [List.take_add]
      · rintro l' ⟨⟩
        exact ⟨(h.calling l hl).1, hle⟩
    · have hempty : Inv payload stream { s with stream := s.stream.write [] } :=
        ⟨h.payload_eq, by simpa [leftOver, progress] using h.written_eq, h.calling, h.abandoned⟩
      exact hempty.thrown hl e
  | finish =>
    obtain ⟨l, hl, ⟨hge, rfl⟩ | ⟨e, rfl⟩⟩ := step_finish hstep
    · have hwritten := h.written_eq
      rw [(h.calling l hl).1] at hge
      simp only [progress, hl, h.payload_eq, List.take_of_length_le hge] at hwritten
      refine ⟨h.payload_eq, ?_, nofun, h.abandoned⟩
      rw [hwritten]
      simp only [progress, leftOver, h.payload_eq]
    · exact h.thrown hl e
  | peerReads count =>
    simp only [RepeatedSend.step] at hstep
    split_ifs at hstep with hcount
    cases hstep
    exact ⟨h.payload_eq, h.written_eq, h.calling, h.abandoned⟩

theorem inv_of_reachable {socket : TcpSocket} {payload : List β} {stream : ByteStream β}
    {s : RepeatedSend β} (h : (system socket payload stream).Reachable s) :
    s.Inv payload stream :=
  h.invariant (Inv.start socket payload stream) fun _ _ _ hu hstep => hu.step hstep

def remaining (s : RepeatedSend β) : ℕ :=
  match s.attempt with
  | .calling l => s.payload.length - l.bytesSent + 1
  | _ => 0

/-- What the calls that were given up may have cost. -/
def credit (s : RepeatedSend β) : ℕ := s.abandoned.length * (s.payload.length + 1)

end RepeatedSend
end Obz.Transport
