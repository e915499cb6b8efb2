import Obz.Foundation.ByteStream
import Obz.Transport.TcpSocket

/-!
# The sending side of a connection

The caller passes its payloads to `send_all`, one after the other, and then
closes the socket. It gives up after an exception. What is in the stream is, at
every moment, the payloads that were sent and the part of the current one.
-/
namespace Obz.Transport

open Foundation

variable {β : Type*}

inductive Sending (β : Type*) where
  | idle
  | calling (l : SendAll β)
  | threw (l : SendAll β) (e : Error)
  deriving DecidableEq, Repr

/-- The payload that is not finished. -/
def Sending.data : Sending β → List (List β)
  | .idle => []
  | .calling l => [l.data]
  | .threw l _ => [l.data]

/-- What of it was accepted. -/
def Sending.progress : Sending β → List β
  | .idle => []
  | .calling l => l.data.take l.bytesSent
  | .threw l _ => l.data.take l.bytesSent

/-- `returned` holds the payloads whose calls returned, in their order. -/
structure Sender (β : Type*) where
  socket : TcpSocket
  upcoming : List (List β)
  sending : Sending β := .idle
  returned : List (List β) := []

inductive SenderAction where
  | begin
  | native (result : NativeResult)
  | finish
  | close
  deriving DecidableEq, Repr

namespace Sender

/-- A native call takes at most what it is given, and from the front. -/
def step (s : Sender β) (stream : ByteStream β) :
    SenderAction → Option (Sender β × ByteStream β)
  | .begin =>
    match s.sending, s.upcoming with
    | .idle, data :: rest =>
      some ({ s with upcoming := rest, sending := .calling { data } }, stream)
    | _, _ => none
  | .native result =>
    match s.sending with
    | .calling l =>
      match l.next s.socket with
      | .native remaining =>
        if result.count ≤ remaining.length then
          match l.resume result with
          | .ok l' =>
            some ({ s with sending := .calling l' }, stream.write (remaining.take result.count))
          | .error e =>
            some ({ s with sending := .threw l e }, stream.write (remaining.take result.count))
        else none
      | _ => none
    | _ => none
  | .finish =>
    match s.sending with
    | .calling l =>
      match l.next s.socket with
      | .returns _ =>
        some ({ s with sending := .idle, returned := s.returned ++ [l.data] }, stream)
      | .throws e => some ({ s with sending := .threw l e }, stream)
      | .native _ => none
    | _ => none
  | .close =>
    match s.sending, s.upcoming with
    | .idle, _ :: _ => none
    | .calling _, _ => none
    | _, _ =>
      if s.socket.isOpen then some ({ s with socket := s.socket.close }, stream.close) else none

/-- All payloads were passed on, or a call has thrown. -/
def Finished (s : Sender β) : Prop :=
  (s.sending = .idle ∧ s.upcoming = []) ∨ ∃ l e, s.sending = .threw l e

/-- The stream holds the payloads sent so far and the accepted part of the current one. -/
structure Inv (payloads : List (List β)) (s : Sender β) (stream : ByteStream β) : Prop where
  payloads_eq : s.returned ++ s.sending.data ++ s.upcoming = payloads
  written_eq : stream.written = s.returned.flatten ++ s.sending.progress
  calling : ∀ l, s.sending = .calling l → s.socket.isOpen = true ∧ l.bytesSent ≤ l.data.length
  threw : ∀ l e, s.sending = .threw l e → l.bytesSent < l.data.length
  closed : stream.closed = !s.socket.isOpen
  finished : s.socket.isOpen = false → s.Finished

/-- What the steps of a sender do to the stream. -/
inductive Writes (stream : ByteStream β) : ByteStream β → Prop
  | keep : Writes stream stream
  | write (bytes : List β) : stream.closed = false → Writes stream (stream.write bytes)
  | close : Writes stream stream.close

theorem step_begin_iff {s t : Sender β} {stream after : ByteStream β} :
    s.step stream .begin = some (t, after) ↔
      ∃ data rest, s.sending = .idle ∧ s.upcoming = data :: rest ∧
        t = { s with upcoming := rest, sending := .calling { data } } ∧ after = stream := by
  unfold step
  rcases hs : s.sending with _ | l | ⟨l, e⟩ <;> rcases hu : s.upcoming with _ | ⟨data, rest⟩ <;>
    simp [eq_comm]

/-- One pass of the loop: bytes are taken and it goes on, or nothing is and it throws. -/
theorem step_native {payloads : List (List β)} {s t : Sender β} {stream after : ByteStream β}
    {result : NativeResult} (h : s.Inv payloads stream)
    (hstep : s.step stream (.native result) = some (t, after)) :
    ∃ l, s.sending = .calling l ∧ l.bytesSent + result.count ≤ l.data.length ∧
      l.bytesSent < l.data.length ∧
      ((0 < result.count ∧
          t = { s with sending := .calling { l with bytesSent := l.bytesSent + result.count } } ∧
          after = stream.write ((l.data.drop l.bytesSent).take result.count)) ∨
        (result.count = 0 ∧ (∃ e, l.resume result = .error e ∧
          t = { s with sending := .threw l e }) ∧ after = stream.write [])) := by
  unfold step at hstep
  rcases hs : s.sending with _ | l | ⟨l, e⟩ <;> simp only [hs] at hstep
  · cases hstep
  · obtain ⟨hopen, hle⟩ := h.calling l hs
    rcases Nat.lt_or_ge l.bytesSent l.data.length with hlt | hge
    · rw [SendAll.next_of_lt hopen hlt] at hstep
      simp only [List.length_drop] at hstep
      split_ifs at hstep with hcount
      refine ⟨l, rfl, by omega, hlt, ?_⟩
      rcases Nat.eq_zero_or_pos result.count with hzero | hpos
      · obtain ⟨e, he⟩ := SendAll.resume_of_zero (l := l) hzero
        simp only [he, hzero, List.take_zero, Option.some.injEq, Prod.mk.injEq] at hstep
        exact Or.inr ⟨hzero, ⟨e, he, hstep.1.symm⟩, hstep.2.symm⟩
      · simp only [SendAll.resume_of_pos hpos, Option.some.injEq, Prod.mk.injEq] at hstep
        exact Or.inl ⟨hpos, hstep.1.symm, hstep.2.symm⟩
    · rw [SendAll.next_of_ge hge] at hstep
      cases hstep
  · cases hstep

theorem step_finish {payloads : List (List β)} {s t : Sender β} {stream after : ByteStream β}
    (h : s.Inv payloads stream) (hstep : s.step stream .finish = some (t, after)) :
    ∃ l, s.sending = .calling l ∧ l.bytesSent = l.data.length ∧
      t = { s with sending := .idle, returned := s.returned ++ [l.data] } ∧ after = stream := by
  unfold step at hstep
  rcases hs : s.sending with _ | l | ⟨l, e⟩ <;> simp only [hs] at hstep
  · cases hstep
  · obtain ⟨hopen, hle⟩ := h.calling l hs
    rcases Nat.lt_or_ge l.bytesSent l.data.length with hlt | hge
    · rw [SendAll.next_of_lt hopen hlt] at hstep
      cases hstep
    · rw [SendAll.next_of_ge hge] at hstep
      simp only [Option.some.injEq, Prod.mk.injEq] at hstep
      exact ⟨l, rfl, Nat.le_antisymm hle hge, hstep.1.symm, hstep.2.symm⟩
  · cases hstep

theorem step_close {s t : Sender β} {stream after : ByteStream β}
    (hstep : s.step stream .close = some (t, after)) :
    s.socket.isOpen = true ∧ s.Finished ∧
      t = { s with socket := s.socket.close } ∧ after = stream.close := by
  unfold step at hstep
  rcases hs : s.sending with _ | l | ⟨l, e⟩ <;> rcases hu : s.upcoming with _ | ⟨data, rest⟩ <;>
    simp only [hs, hu] at hstep
  all_goals first
    | cases hstep
    | split_ifs at hstep with hopen
      simp only [Option.some.injEq, Prod.mk.injEq] at hstep
      exact ⟨hopen, by simp [Finished, hs, hu], hstep.1.symm, hstep.2.symm⟩

theorem step_writes {payloads : List (List β)} {s t : Sender β} {stream after : ByteStream β}
    (h : s.Inv payloads stream) {a : SenderAction} (hstep : s.step stream a = some (t, after)) :
    Writes stream after := by
  cases a with
  | begin =>
    obtain ⟨-, -, -, -, -, rfl⟩ := step_begin_iff.mp hstep
    exact .keep
  | native result =>
    obtain ⟨l, hl, -, -, hcase⟩ := step_native h hstep
    have hclosed : stream.closed = false := by
      rw [h.closed, (h.calling l hl).1]
      rfl
    rcases hcase with ⟨-, -, rfl⟩ | ⟨-, -, rfl⟩
    · exact .write _ hclosed
    · exact .write _ hclosed
  | finish =>
    obtain ⟨-, -, -, -, rfl⟩ := step_finish h hstep
    exact .keep
  | close =>
    obtain ⟨-, -, -, rfl⟩ := step_close hstep
    exact .close

theorem Inv.start (payloads : List (List β)) {socket : TcpSocket} (hopen : socket.isOpen = true) :
    Inv payloads { socket, upcoming := payloads } ByteStream.start where
  payloads_eq := rfl
  written_eq := rfl
  calling := nofun
  threw := nofun
  closed := by rw [hopen]; rfl
  finished hclosed := absurd (hopen.symm.trans hclosed) (by simp)

/-- During a call the socket is open, whatever the state the call leaves. -/
theorem Inv.open_of_calling {payloads : List (List β)} {s : Sender β} {stream : ByteStream β}
    (h : s.Inv payloads stream) {l : SendAll β} (hl : s.sending = .calling l) {P : Prop}
    (hclosed : s.socket.isOpen = false) : P :=
  absurd ((h.calling l hl).1.symm.trans hclosed) (by simp)

theorem Inv.step {payloads : List (List β)} {s t : Sender β} {stream after : ByteStream β}
    (h : s.Inv payloads stream) {a : SenderAction} (hstep : s.step stream a = some (t, after)) :
    t.Inv payloads after := by
  cases a with
  | begin =>
    obtain ⟨data, rest, hs, hu, rfl, rfl⟩ := step_begin_iff.mp hstep
    have hpayloads := h.payloads_eq
    have hwritten := h.written_eq
    have hopen : s.socket.isOpen = true := by
      by_contra hclosed
      simpa [Finished, hs, hu] using h.finished (Bool.not_eq_true _ ▸ hclosed)
    refine ⟨?_, ?_, ?_, nofun, h.closed, fun hno => absurd (hopen.symm.trans hno) (by simp)⟩
    · simpa [hs, hu, Sending.data] using hpayloads
    · simpa [hs, Sending.progress] using hwritten
    · rintro l ⟨⟩
      exact ⟨hopen, Nat.zero_le _⟩
  | native result =>
    obtain ⟨l, hl, hle, hlt, ⟨hpos, rfl, rfl⟩ | ⟨hzero, ⟨e, he, rfl⟩, rfl⟩⟩ := step_native h hstep
    · have hpayloads := h.payloads_eq
      have hwritten := h.written_eq
      refine ⟨?_, ?_, ?_, nofun, h.closed, h.open_of_calling hl⟩
      · simpa [hl, Sending.data] using hpayloads
      · simp only [hl, Sending.progress] at hwritten
        rw [ByteStream.write_written, hwritten, List.append_assoc]
        exact congrArg (s.returned.flatten ++ ·) List.take_add.symm
      · rintro l' ⟨⟩
        exact ⟨(h.calling l hl).1, hle⟩
    · have hpayloads := h.payloads_eq
      have hwritten := h.written_eq
      refine ⟨?_, ?_, nofun, ?_, h.closed, fun _ => Or.inr ⟨_, _, rfl⟩⟩
      · simpa [hl, Sending.data] using hpayloads
      · simpa [hl, Sending.progress] using hwritten
      · rintro l' e' ⟨⟩
        exact hlt
  | finish =>
    obtain ⟨l, hl, heq, rfl, rfl⟩ := step_finish h hstep
    have hpayloads := h.payloads_eq
    have hwritten := h.written_eq
    refine ⟨?_, ?_, nofun, nofun, h.closed, h.open_of_calling hl⟩
    · simpa [hl, Sending.data] using hpayloads
    · simpa [hl, heq, Sending.progress] using hwritten
  | close =>
    obtain ⟨hopen, hfinished, rfl, rfl⟩ := step_close hstep
    refine ⟨h.payloads_eq, h.written_eq, ?_, h.threw, rfl, fun _ => hfinished⟩
    intro l hl
    rcases hfinished with ⟨hidle, -⟩ | ⟨l', e, hthrew⟩
    · exact absurd (hl.symm.trans hidle) (by simp)
    · exact absurd (hl.symm.trans hthrew) (by simp)

/-- Reading does not concern the sender. -/
theorem Inv.congr {payloads : List (List β)} {s : Sender β} {stream after : ByteStream β}
    (h : s.Inv payloads stream) (hwritten : after.written = stream.written)
    (hclosed : after.closed = stream.closed) : s.Inv payloads after :=
  ⟨h.payloads_eq, hwritten.trans h.written_eq, h.calling, h.threw, hclosed.trans h.closed,
    h.finished⟩

/-! The steps a sender has left. -/

def remaining : Sending β → ℕ
  | .calling l => l.data.length - l.bytesSent + 1
  | _ => 0

def work (s : Sender β) : ℕ :=
  (s.upcoming.map fun data => data.length + 2).sum + remaining s.sending +
    if s.socket.isOpen then 1 else 0

theorem work_step {payloads : List (List β)} {s t : Sender β} {stream after : ByteStream β}
    (h : s.Inv payloads stream) {a : SenderAction} (hstep : s.step stream a = some (t, after)) :
    t.work < s.work := by
  cases a with
  | begin =>
    obtain ⟨data, rest, hs, hu, rfl, rfl⟩ := step_begin_iff.mp hstep
    simp only [work, hs, hu, remaining, List.map_cons, List.sum_cons]
    omega
  | native result =>
    obtain ⟨l, hl, hle, hlt, ⟨hpos, rfl, rfl⟩ | ⟨hzero, ⟨e, he, rfl⟩, rfl⟩⟩ := step_native h hstep
    · simp only [work, hl, remaining]
      omega
    · simp only [work, hl, remaining]
      omega
  | finish =>
    obtain ⟨l, hl, heq, rfl, rfl⟩ := step_finish h hstep
    simp only [work, hl, remaining]
    omega
  | close =>
    obtain ⟨hopen, hcall, rfl, rfl⟩ := step_close hstep
    have hclosed : s.socket.close.isOpen = false := rfl
    simp only [work, hopen, hclosed, if_true, Bool.false_eq_true, if_false]
    omega

end Sender
end Obz.Transport
