import Obz.Transport.SendingSide

/-!
# The receiving side of a connection

The caller passes its destinations to `receive_exactly`, one after the other.
Each call is reported with its result and with the memory before and after it,
which shows what was placed in the destination and that nothing else changed.
-/
namespace Obz.Transport

open Foundation

variable {β : Type*}

/-- During a call `before` is the memory as the call found it. -/
inductive Receiving (β : Type*) where
  | idle
  | calling (l : ReceiveExactly) (before : Memory β)

structure Report (β : Type*) where
  destination : Span
  result : ReceiveResult
  before : Memory β
  after : Memory β

/-- The bytes that the caller finds in its destination. -/
def Report.placed (r : Report β) : List β := r.after.read r.destination.start r.result.bytesReceived

structure Receiver (β : Type*) where
  socket : TcpSocket
  upcoming : List Span
  memory : Memory β
  receiving : Receiving β := .idle
  reports : List (Report β) := []

inductive ReceiverAction where
  | begin
  | native (result : NativeResult)
  | finish
  deriving DecidableEq, Repr

namespace Receiver

/-- The sizes of the destinations whose calls are over. -/
def begun (reports : List (Report β)) : ℕ := (reports.map fun r => r.destination.size).sum

def current : Receiving β → List Span
  | .idle => []
  | .calling l _ => [l.destination]

def total : Receiving β → ℕ
  | .idle => 0
  | .calling l _ => l.totalReceived

/-- A native call returns a chunk of what is in flight, at most as long as asked
for, and zero only when the writer has closed and everything was read. -/
def Available (stream : ByteStream β) (request count : ℕ) : Prop :=
  count ≤ request ∧ count ≤ stream.inFlight.length ∧
    (count = 0 → stream.closed = true ∧ stream.taken = stream.written.length)

instance (stream : ByteStream β) (request count : ℕ) :
    Decidable (Available stream request count) :=
  inferInstanceAs (Decidable (_ ∧ _ ∧ _))

/-- A call on an empty destination is over at once, with an exception. -/
def step (s : Receiver β) (stream : ByteStream β) :
    ReceiverAction → Option (Receiver β × ByteStream β)
  | .begin =>
    match s.receiving, s.upcoming with
    | .idle, destination :: rest =>
      match ReceiveExactly.enter destination with
      | .ok l => some ({ s with upcoming := rest, receiving := .calling l s.memory }, stream)
      | .error _ => some ({ s with upcoming := rest }, stream)
    | _, _ => none
  | .native (.transferred count) =>
    match s.receiving with
    | .calling l before =>
      match l.next s.socket with
      | .native destination =>
        if h : Available stream destination.size count then
          let memory := s.memory.write destination.start (stream.chunk count)
          match l.resume (.transferred count) with
          | .ok (.inl l') =>
            some ({ s with memory, receiving := .calling l' before }, stream.read count h.2.1)
          | .ok (.inr result) =>
            some ({ s with
              memory
              receiving := .idle
              reports := s.reports ++ [⟨l.destination, result, before, memory⟩] },
              stream.read count h.2.1)
          | .error _ => none
        else none
      | _ => none
    | _ => none
  | .native (.failed _) => none
  | .finish =>
    match s.receiving with
    | .calling l before =>
      match l.next s.socket with
      | .returns result =>
        some ({ s with
          receiving := .idle
          reports := s.reports ++ [⟨l.destination, result, before, s.memory⟩] }, stream)
      | _ => none
    | _ => none

/-- The result, the bytes and the frame of a call that began at position `first`
of the stream: it fills its destination, or it gets what is left after a close. -/
structure ReportOk (stream : ByteStream β) (first : ℕ) (r : Report β) : Prop where
  result :
    (first + r.destination.size ≤ stream.taken ∧
      r.result = ⟨r.destination.size, .completed⟩) ∨
    (stream.closed = true ∧ stream.taken = stream.written.length ∧
      stream.written.length < first + r.destination.size ∧
      r.result = ⟨stream.written.length - first, .peerClosed⟩)
  placed : r.placed = (stream.written.drop first).take r.result.bytesReceived
  frame : ∀ i, i < r.destination.start ∨ r.destination.start + r.result.bytesReceived ≤ i →
    r.after i = r.before i

def Reported (stream : ByteStream β) : ℕ → List (Report β) → Prop
  | _, [] => True
  | first, r :: rs => ReportOk stream first r ∧ Reported stream (first + r.destination.size) rs

theorem reported_append (stream : ByteStream β) (first : ℕ) (rs : List (Report β))
    (r : Report β) :
    Reported stream first (rs ++ [r]) ↔
      Reported stream first rs ∧ ReportOk stream (first + begun rs) r := by
  induction rs generalizing first with
  | nil => simp [Reported, begun]
  | cons r' rs ih =>
    simp only [List.cons_append, Reported, ih, begun, List.map_cons, List.sum_cons, and_assoc,
      Nat.add_assoc]

theorem Reported.mono {stream after : ByteStream β}
    (h : ∀ first r, ReportOk stream first r → ReportOk after first r) {first : ℕ}
    {rs : List (Report β)} (hrs : Reported stream first rs) : Reported after first rs := by
  induction rs generalizing first with
  | nil => trivial
  | cons r rs ih => exact ⟨h _ _ hrs.1, ih hrs.2⟩

theorem Reported.of_append {stream : ByteStream β} {first : ℕ} {before later : List (Report β)}
    (h : Reported stream first (before ++ later)) : Reported stream first before := by
  induction before generalizing first with
  | nil => trivial
  | cons r before ih => exact ⟨h.1, ih h.2⟩

theorem Reported.of_split {stream : ByteStream β} {first : ℕ} {before later : List (Report β)}
    {r : Report β} (h : Reported stream first (before ++ r :: later)) :
    ReportOk stream (first + begun before) r := by
  induction before generalizing first with
  | nil => exact h.1
  | cons r' before ih =>
    have hr := ih h.2
    rwa [Nat.add_assoc] at hr

/-- The bytes of the call that is not over. -/
def currentBytes (s : Receiver β) : List β :=
  match s.receiving with
  | .idle => []
  | .calling l _ => s.memory.read l.destination.start l.totalReceived

/-- Everything placed in destinations so far, in order. -/
def received (s : Receiver β) : List β :=
  (s.reports.map Report.placed).flatten ++ s.currentBytes

/-- The reports are right, and the position in the stream is that of the calls so
far; or the stream is at its end and some call has found it too short. -/
structure Inv (destinations : List Span) (s : Receiver β) (stream : ByteStream β) : Prop where
  opened : s.socket.isOpen = true
  destinations_eq :
    s.reports.map Report.destination ++ current s.receiving ++ s.upcoming = destinations
  position : stream.taken = begun s.reports + total s.receiving ∨
    (stream.closed = true ∧ stream.taken = stream.written.length ∧
      stream.written.length < begun s.reports ∧ total s.receiving = 0)
  reported : Reported stream 0 s.reports
  received_eq : s.received = stream.written.take stream.taken
  calling : ∀ l before, s.receiving = .calling l before →
    0 < l.destination.size ∧ l.totalReceived ≤ l.destination.size ∧
      s.memory.read l.destination.start l.totalReceived =
        (stream.written.drop (begun s.reports)).take l.totalReceived ∧
      ∀ i, i < l.destination.start ∨ l.destination.start + l.totalReceived ≤ i →
        s.memory i = before i

theorem Inv.start (destinations : List Span) {socket : TcpSocket} (hopen : socket.isOpen = true)
    (memory : Memory β) :
    Inv destinations { socket, upcoming := destinations, memory } ByteStream.start where
  opened := hopen
  destinations_eq := rfl
  position := Or.inl rfl
  reported := trivial
  received_eq := rfl
  calling := nofun

/-! What the steps of the sender mean for the receiver. -/

theorem ReportOk.writes {stream after : ByteStream β} (hw : Sender.Writes stream after)
    {first : ℕ} {r : Report β} (h : ReportOk stream first r) : ReportOk after first r := by
  cases hw with
  | keep => exact h
  | write bytes hopen =>
    rcases h.result with ⟨hle, hr⟩ | ⟨hclosed, -⟩
    · refine ⟨Or.inl ⟨hle, hr⟩, ?_, h.frame⟩
      rw [h.placed, hr, stream.segment_write bytes hle]
    · exact absurd (hclosed.symm.trans hopen) (by simp)
  | close =>
    refine ⟨?_, h.placed, h.frame⟩
    rcases h.result with hfilled | ⟨-, hend⟩
    · exact Or.inl hfilled
    · exact Or.inr ⟨rfl, hend⟩

theorem Inv.writes {destinations : List Span} {s : Receiver β} {stream after : ByteStream β}
    (h : s.Inv destinations stream) (hw : Sender.Writes stream after) :
    s.Inv destinations after := by
  refine ⟨h.opened, h.destinations_eq, ?_, h.reported.mono fun _ _ => ReportOk.writes hw, ?_, ?_⟩
  · cases hw with
    | keep => exact h.position
    | write bytes hopen =>
      rcases h.position with hp | ⟨hclosed, -⟩
      · exact Or.inl hp
      · exact absurd (hclosed.symm.trans hopen) (by simp)
    | close =>
      rcases h.position with hp | ⟨-, hend⟩
      · exact Or.inl hp
      · exact Or.inr ⟨rfl, hend⟩
  · rw [h.received_eq]
    cases hw with
    | write bytes _ => exact (List.take_append_of_le_length stream.taken_le).symm
    | _ => rfl
  · intro l before hl
    obtain ⟨hpos, hle, hread, hframe⟩ := h.calling l before hl
    refine ⟨hpos, hle, ?_, hframe⟩
    cases hw with
    | keep => exact hread
    | write bytes hopen =>
      rcases h.position with hp | ⟨hclosed, -⟩
      · rw [hl, total] at hp
        rw [hread, stream.segment_write bytes hp.ge]
      · exact absurd (hclosed.symm.trans hopen) (by simp)
    | close => exact hread

/-! The steps of the receiver. -/

theorem step_begin {s t : Receiver β} {stream after : ByteStream β}
    (hstep : s.step stream .begin = some (t, after)) :
    ∃ destination rest, s.receiving = .idle ∧ s.upcoming = destination :: rest ∧
      after = stream ∧
      ((destination.size = 0 ∧ t = { s with upcoming := rest }) ∨
        (0 < destination.size ∧
          t = { s with upcoming := rest, receiving := .calling { destination } s.memory })) := by
  unfold step at hstep
  rcases hs : s.receiving with _ | ⟨l, before⟩ <;>
    rcases hu : s.upcoming with _ | ⟨destination, rest⟩ <;> simp only [hs, hu] at hstep
  · cases hstep
  · refine ⟨destination, rest, rfl, rfl, ?_⟩
    rcases Nat.eq_zero_or_pos destination.size with hzero | hpos
    · simp only [ReceiveExactly.enter, if_pos hzero, Option.some.injEq, Prod.mk.injEq] at hstep
      exact ⟨hstep.2.symm, Or.inl ⟨hzero, hstep.1.symm⟩⟩
    · simp only [ReceiveExactly.enter, if_neg (Nat.pos_iff_ne_zero.mp hpos), Option.some.injEq,
        Prod.mk.injEq] at hstep
      exact ⟨hstep.2.symm, Or.inr ⟨hpos, hstep.1.symm⟩⟩
  · cases hstep
  · cases hstep

/-- One pass of the loop: a chunk is placed behind the others and the call goes on,
or the end of the stream is met and it reports what it has. -/
theorem step_native {destinations : List Span} {s t : Receiver β} {stream after : ByteStream β}
    {result : NativeResult} (h : s.Inv destinations stream)
    (hstep : s.step stream (.native result) = some (t, after)) :
    ∃ count l before, ∃ hfits : count ≤ stream.inFlight.length,
      s.receiving = .calling l before ∧ l.totalReceived + count ≤ l.destination.size ∧
      l.totalReceived < l.destination.size ∧ after = stream.read count hfits ∧
      ((0 < count ∧ t = { s with
            memory := s.memory.write (l.destination.start + l.totalReceived) (stream.chunk count)
            receiving := .calling { l with totalReceived := l.totalReceived + count } before }) ∨
        (count = 0 ∧ stream.closed = true ∧ stream.taken = stream.written.length ∧
          t = { s with
            receiving := .idle
            reports := s.reports ++
              [⟨l.destination, ⟨l.totalReceived, .peerClosed⟩, before, s.memory⟩] })) := by
  unfold step at hstep
  rcases result with errno | count
  · cases hstep
  rcases hs : s.receiving with _ | ⟨l, before⟩ <;> simp only [hs] at hstep
  · cases hstep
  rcases Nat.lt_or_ge l.totalReceived l.destination.size with hlt | hge
  · rw [ReceiveExactly.next_of_lt h.opened hlt] at hstep
    dsimp only at hstep
    split_ifs at hstep with havailable
    obtain ⟨hrequest, hfits, hend⟩ := havailable
    have hsize : count ≤ l.destination.size - l.totalReceived := hrequest
    refine ⟨count, l, before, hfits, rfl, by omega, hlt, ?_⟩
    rcases Nat.eq_zero_or_pos count with hzero | hpos
    · subst hzero
      simp only [ReceiveExactly.resume_zero, Option.some.injEq, Prod.mk.injEq] at hstep
      obtain ⟨hclosed, hdrained⟩ := hend rfl
      have hkept : s.memory.write (l.destination.subspan l.totalReceived).start
          (stream.chunk 0) = s.memory := Memory.write_nil _ _
      rw [hkept] at hstep
      exact ⟨hstep.2.symm, Or.inr ⟨rfl, hclosed, hdrained, hstep.1.symm⟩⟩
    · simp only [ReceiveExactly.resume_of_pos hpos, Option.some.injEq, Prod.mk.injEq] at hstep
      exact ⟨hstep.2.symm, Or.inl ⟨hpos, hstep.1.symm⟩⟩
  · rw [ReceiveExactly.next_of_ge hge] at hstep
    cases hstep

theorem step_finish {destinations : List Span} {s t : Receiver β} {stream after : ByteStream β}
    (h : s.Inv destinations stream) (hstep : s.step stream .finish = some (t, after)) :
    ∃ l before, s.receiving = .calling l before ∧ l.totalReceived = l.destination.size ∧
      after = stream ∧ t = { s with
        receiving := .idle
        reports := s.reports ++
          [⟨l.destination, ⟨l.destination.size, .completed⟩, before, s.memory⟩] } := by
  unfold step at hstep
  rcases hs : s.receiving with _ | ⟨l, before⟩ <;> simp only [hs] at hstep
  · cases hstep
  obtain ⟨-, hle, -⟩ := h.calling l before hs
  rcases Nat.lt_or_ge l.totalReceived l.destination.size with hlt | hge
  · rw [ReceiveExactly.next_of_lt h.opened hlt] at hstep
    cases hstep
  · rw [ReceiveExactly.next_of_ge hge] at hstep
    have heq := Nat.le_antisymm hle hge
    simp only [Option.some.injEq, Prod.mk.injEq] at hstep
    exact ⟨l, before, rfl, heq, hstep.2.symm, by rw [← hstep.1, heq]⟩

theorem ReportOk.read {stream : ByteStream β} {count : ℕ} (hfits : count ≤ stream.inFlight.length)
    {first : ℕ} {r : Report β} (h : ReportOk stream first r) :
    ReportOk (stream.read count hfits) first r := by
  refine ⟨?_, h.placed, h.frame⟩
  rcases h.result with ⟨hle, hr⟩ | ⟨hclosed, hdrained, hrest⟩
  · exact Or.inl ⟨hle.trans (Nat.le_add_right _ _), hr⟩
  · refine Or.inr ⟨hclosed, ?_, hrest⟩
    rw [ByteStream.length_inFlight] at hfits
    rw [ByteStream.read_taken, ByteStream.read_written]
    omega

theorem begun_append (rs : List (Report β)) (r : Report β) :
    begun (rs ++ [r]) = begun rs + r.destination.size := by
  simp [begun]

theorem Inv.begin {destinations : List Span} (hsizes : ∀ d ∈ destinations, 0 < d.size)
    {s t : Receiver β} {stream after : ByteStream β} (h : s.Inv destinations stream)
    (hstep : s.step stream .begin = some (t, after)) : t.Inv destinations after := by
  obtain ⟨destination, rest, hs, hu, rfl, ⟨hzero, -⟩ | ⟨hpos, rfl⟩⟩ := step_begin hstep
  · have hmem : destination ∈ destinations := by
      rw [← h.destinations_eq, hu]
      simp
    exact absurd hzero (hsizes destination hmem).ne'
  · have hdestinations := h.destinations_eq
    have hposition := h.position
    have hreceived := h.received_eq
    rw [hs] at hposition
    rw [received, currentBytes, hs] at hreceived
    refine ⟨h.opened, ?_, hposition, h.reported, hreceived, ?_⟩
    · simpa [hs, hu, current] using hdestinations
    · rintro l before ⟨⟩
      exact ⟨hpos, Nat.zero_le _, rfl, fun _ _ => rfl⟩

theorem Inv.native {destinations : List Span} {s t : Receiver β} {stream after : ByteStream β}
    {result : NativeResult} (h : s.Inv destinations stream)
    (hstep : s.step stream (.native result) = some (t, after)) : t.Inv destinations after := by
  obtain ⟨count, l, before, hfits, hs, hle, hlt, rfl,
    ⟨hpos, rfl⟩ | ⟨hzero, hclosed, hdrained, rfl⟩⟩ := step_native h hstep
  all_goals
    obtain ⟨hsize, -, hread, hframe⟩ := h.calling l before hs
    have hdestinations := h.destinations_eq
    have hposition := h.position
    have hreceived := h.received_eq
    rw [hs, total] at hposition
    rw [received, currentBytes, hs] at hreceived
  · -- bytes in flight: the stream is not at its end, so the calls so far were filled
    have hhere : begun s.reports + l.totalReceived = stream.taken := by
      rcases hposition with hp | ⟨-, hend, -⟩
      · exact hp.symm
      · rw [ByteStream.length_inFlight] at hfits
        omega
    have hchunk := ByteStream.length_chunk hfits
    have happend := s.memory.read_write_append l.destination.start l.totalReceived
      (stream.chunk count)
    rw [hchunk] at happend
    refine ⟨h.opened, ?_, Or.inl ?_, h.reported.mono fun _ _ => ReportOk.read hfits, ?_, ?_⟩
    · simpa [hs, current] using hdestinations
    · simp only [ByteStream.read_taken, total]
      omega
    · rw [received, currentBytes]
      dsimp only
      rw [happend, ← List.append_assoc, hreceived]
      exact stream.segment_append_chunk count (Nat.zero_add _)
    · rintro l' before' ⟨⟩
      refine ⟨hsize, hle, ?_, fun i hi => ?_⟩
      · rw [happend, hread]
        exact stream.segment_append_chunk count hhere
      · rw [← hframe i (by dsimp only at hi; omega)]
        dsimp only at hi
        rcases hi with hbelow | habove
        · exact Memory.write_of_lt _ _ (by omega)
        · exact Memory.write_of_ge _ _ (by omega)
  · -- the end of the stream: this call is the first that is too long, or a later one
    subst hzero
    have hshort : stream.written.length < begun s.reports + l.destination.size := by
      rcases hposition with hp | ⟨-, -, hend, -⟩ <;> omega
    have hleft : l.totalReceived = stream.written.length - begun s.reports := by
      rcases hposition with hp | ⟨-, -, hend, hnone⟩ <;> omega
    refine ⟨h.opened, ?_, Or.inr ⟨hclosed, hdrained, ?_, rfl⟩, ?_, ?_, nofun⟩
    · simpa [hs, current] using hdestinations
    · rw [begun_append]
      exact hshort
    · rw [reported_append, Nat.zero_add]
      refine ⟨h.reported.mono fun _ _ => ReportOk.read hfits, ?_, hread, hframe⟩
      refine Or.inr ⟨hclosed, hdrained, hshort, ?_⟩
      rw [hleft]
      rfl
    · simpa [received, currentBytes, Report.placed] using hreceived

theorem Inv.finish {destinations : List Span} {s t : Receiver β} {stream after : ByteStream β}
    (h : s.Inv destinations stream) (hstep : s.step stream .finish = some (t, after)) :
    t.Inv destinations after := by
  obtain ⟨l, before, hs, hfilled, rfl, rfl⟩ := step_finish h hstep
  obtain ⟨hsize, -, hread, hframe⟩ := h.calling l before hs
  have hdestinations := h.destinations_eq
  have hposition := h.position
  have hreceived := h.received_eq
  rw [hs, total] at hposition
  rw [received, currentBytes, hs] at hreceived
  dsimp only at hreceived
  rw [hfilled] at hposition hread hframe hreceived
  have hhere : after.taken = begun s.reports + l.destination.size := by
    rcases hposition with hp | ⟨-, -, -, hnone⟩ <;> omega
  refine ⟨h.opened, ?_, Or.inl ?_, ?_, ?_, nofun⟩
  · simpa [hs, current] using hdestinations
  · rw [begun_append]
    exact hhere
  · rw [reported_append, Nat.zero_add]
    exact ⟨h.reported, Or.inl ⟨hhere.ge, rfl⟩, hread, hframe⟩
  · simpa [received, currentBytes, Report.placed] using hreceived

theorem Inv.step {destinations : List Span} (hsizes : ∀ d ∈ destinations, 0 < d.size)
    {s t : Receiver β} {stream after : ByteStream β} (h : s.Inv destinations stream)
    {a : ReceiverAction} (hstep : s.step stream a = some (t, after)) :
    t.Inv destinations after := by
  cases a with
  | begin => exact h.begin hsizes hstep
  | native result => exact h.native hstep
  | finish => exact h.finish hstep

/-! The steps a receiver has left. -/

def remaining : Receiving β → ℕ
  | .idle => 0
  | .calling l _ => l.destination.size - l.totalReceived + 1

def work (s : Receiver β) : ℕ := (s.upcoming.map fun d => d.size + 2).sum + remaining s.receiving

def Finished (s : Receiver β) : Prop := s.receiving = .idle ∧ s.upcoming = []

theorem step_effect {destinations : List Span} {s t : Receiver β} {stream after : ByteStream β}
    (h : s.Inv destinations stream) {a : ReceiverAction}
    (hstep : s.step stream a = some (t, after)) :
    t.work < s.work ∧ after.written = stream.written ∧ after.closed = stream.closed := by
  cases a with
  | begin =>
    obtain ⟨destination, rest, hs, hu, rfl, ⟨-, rfl⟩ | ⟨-, rfl⟩⟩ := step_begin hstep
    · simp only [work, hs, hu, remaining, List.map_cons, List.sum_cons, and_self, and_true]
      omega
    · simp only [work, hs, hu, remaining, List.map_cons, List.sum_cons, and_self, and_true]
      omega
  | native result =>
    obtain ⟨count, l, before, hfits, hs, hle, hlt, rfl,
      ⟨hpos, rfl⟩ | ⟨hzero, -, -, rfl⟩⟩ := step_native h hstep
    · refine ⟨?_, rfl, rfl⟩
      simp only [work, hs, remaining]
      omega
    · refine ⟨?_, rfl, rfl⟩
      simp only [work, hs, remaining]
      omega
  | finish =>
    obtain ⟨l, before, hs, -, rfl, rfl⟩ := step_finish h hstep
    refine ⟨?_, rfl, rfl⟩
    simp only [work, hs, remaining]
    omega

end Receiver
end Obz.Transport
