import Obz.Transport.Conversation

/-!
# The byte stream from end to end

Payload boundaries, destination boundaries and the pieces the kernel makes have
nothing to do with one another. The receiver gets the bytes the sender put into
the stream, in order, into its destinations and nowhere else.
-/
namespace Obz.Transport

open Foundation

variable {β : Type*}

namespace Receiver

/-- The positions of a finished call, said with the sizes of the calls before it. -/
theorem ReportOk.result_eq {stream : ByteStream β} {first : ℕ} {r : Report β}
    (h : ReportOk stream first r) :
    r.result = if first + r.destination.size ≤ stream.written.length then
      ⟨r.destination.size, .completed⟩ else ⟨stream.written.length - first, .peerClosed⟩ := by
  rcases h.result with ⟨hle, hr⟩ | ⟨-, -, hlt, hr⟩
  · rw [hr, if_pos (hle.trans stream.taken_le)]
  · rw [hr, if_neg (Nat.not_le.mpr hlt)]

theorem ReportOk.completed_iff {stream : ByteStream β} {first : ℕ} {r : Report β}
    (h : ReportOk stream first r) (hsize : 0 < r.destination.size) :
    r.result.status = .completed ↔ r.result.bytesReceived = r.destination.size := by
  rcases h.result with ⟨-, hr⟩ | ⟨-, -, hlt, hr⟩
  · simp [hr]
  · simp only [hr, reduceCtorEq, false_iff]
    omega

theorem ReportOk.closed_of_peerClosed {stream : ByteStream β} {first : ℕ} {r : Report β}
    (h : ReportOk stream first r) (hr : r.result.status = .peerClosed) :
    stream.closed = true ∧ stream.written.length < first + r.destination.size ∧
      r.result.bytesReceived = stream.written.length - first := by
  rcases h.result with ⟨-, hc⟩ | ⟨hclosed, -, hlt, hc⟩
  · rw [hc] at hr
    cases hr
  · exact ⟨hclosed, hlt, by rw [hc]⟩

/-- As long as all calls are filled, the bytes add up to the sizes. -/
theorem sum_bytes_of_completed {stream : ByteStream β} {first : ℕ} {rs : List (Report β)}
    (h : Reported stream first rs) (hsizes : ∀ r ∈ rs, 0 < r.destination.size)
    (hall : ∀ r ∈ rs, r.result.status = .completed) :
    (rs.map fun r => r.result.bytesReceived).sum = begun rs := by
  induction rs generalizing first with
  | nil => rfl
  | cons r rs ih =>
    have hr := (h.1.completed_iff (hsizes r (by simp))).mp (hall r (by simp))
    have hrest := ih h.2 (fun q hq => hsizes q (List.mem_cons_of_mem r hq))
      fun q hq => hall q (List.mem_cons_of_mem r hq)
    rw [begun] at hrest ⊢
    simp only [List.map_cons, List.sum_cons, hr, hrest]

end Receiver

/-- What holds of a connection in use, at every moment. -/
structure Delivered (c : Setup β) (s : Conversation β) : Prop where
  /-- What has arrived is a prefix of what was to be sent. -/
  in_order : s.receiver.received <+: c.payloads.flatten
  /-- What was sent is the payloads whose calls returned and a part of the next. -/
  sent : s.stream.written = s.sender.returned.flatten ++ s.sender.sending.progress ∧
    s.sender.returned ++ s.sender.sending.data ++ s.sender.upcoming = c.payloads
  sent_all : s.sender.sending = .idle → s.sender.upcoming = [] →
    s.stream.written = c.payloads.flatten
  /-- Where a send fails or takes nothing, the call throws and has sent what it had. -/
  threw : ∀ l, s.sender.sending = .calling l → l.bytesSent < l.data.length →
    ∀ native : NativeResult, native.count = 0 →
      ∃ e t, l.resume native = .error e ∧ s.step (.sender (.native native)) = some t ∧
        t.sender.sending = .threw l e ∧
        t.stream.written = s.sender.returned.flatten ++ l.data.take l.bytesSent
  /-- Calls are reported in the order of their destinations. -/
  reports : s.receiver.reports.map Report.destination <+: c.destinations
  /-- A call gets the bytes behind those of the calls before it. -/
  report : ∀ before r later, s.receiver.reports = before ++ r :: later →
    r.result = (if Receiver.begun before + r.destination.size ≤ s.stream.written.length then
      ⟨r.destination.size, .completed⟩
      else ⟨s.stream.written.length - Receiver.begun before, .peerClosed⟩) ∧
    r.placed = (s.stream.written.drop (Receiver.begun before)).take r.result.bytesReceived
  completed_iff : ∀ r ∈ s.receiver.reports,
    r.result.status = .completed ↔ r.result.bytesReceived = r.destination.size
  /-- Nothing is written outside the bytes that are reported. -/
  frame : ∀ r ∈ s.receiver.reports, ∀ i,
    i < r.destination.start ∨ r.destination.start + r.result.bytesReceived ≤ i →
      r.after i = r.before i
  /-- The first call that is not filled gets what is left after the close. -/
  closed_first : ∀ before r later, s.receiver.reports = before ++ r :: later →
    (∀ q ∈ before, q.result.status = .completed) → r.result.status = .peerClosed →
      s.stream.closed = true ∧ r.result.bytesReceived =
        s.stream.written.length - (before.map fun q => q.result.bytesReceived).sum
  /-- And every later call gets nothing. -/
  closed_later : ∀ before r middle r' later,
    s.receiver.reports = before ++ r :: middle ++ r' :: later →
      r.result.status = .peerClosed → r'.result = ⟨0, .peerClosed⟩

namespace Conversation

theorem Inv.in_order {c : Setup β} {s : Conversation β} (h : Inv c s) :
    s.receiver.received <+: c.payloads.flatten := by
  have hwritten : s.stream.written <+: c.payloads.flatten := by
    rw [h.sender.written_eq, ← h.sender.payloads_eq, List.append_assoc, List.flatten_append]
    refine (List.prefix_append_right_inj _).mpr ?_
    rw [List.flatten_append]
    refine List.IsPrefix.trans ?_ (List.prefix_append _ _)
    cases s.sender.sending with
    | idle => exact List.nil_prefix
    | calling l => simpa [Sending.progress, Sending.data] using List.take_prefix _ _
    | threw l e => simpa [Sending.progress, Sending.data] using List.take_prefix _ _
  rw [h.receiver.received_eq]
  exact (List.take_prefix _ _).trans hwritten

theorem Inv.sent_all {c : Setup β} {s : Conversation β} (h : Inv c s)
    (hidle : s.sender.sending = .idle) (hnone : s.sender.upcoming = []) :
    s.stream.written = c.payloads.flatten := by
  have hpayloads := h.sender.payloads_eq
  have hwritten := h.sender.written_eq
  simp only [hidle, hnone, Sending.data, List.append_nil] at hpayloads
  simpa [hidle, Sending.progress, hpayloads] using hwritten

theorem Inv.threw {c : Setup β} {s : Conversation β} (h : Inv c s) {l : SendAll β}
    (hl : s.sender.sending = .calling l) (hlt : l.bytesSent < l.data.length)
    {native : NativeResult} (hzero : native.count = 0) :
    ∃ e t, l.resume native = .error e ∧ s.step (.sender (.native native)) = some t ∧
      t.sender.sending = .threw l e ∧
      t.stream.written = s.sender.returned.flatten ++ l.data.take l.bytesSent := by
  obtain ⟨e, he⟩ := SendAll.resume_of_zero (l := l) hzero
  have hwritten := h.sender.written_eq
  rw [hl, Sending.progress] at hwritten
  have hsender : s.sender.step s.stream (.native native) =
      some ({ s.sender with sending := .threw l e }, s.stream.write []) := by
    simp [Sender.step, hl, SendAll.next_of_lt (h.sender.calling l hl).1 hlt, hzero, he]
  refine ⟨e, _, he, step_sender_iff.mpr ⟨_, _, hsender, rfl⟩, rfl, ?_⟩
  exact (List.append_nil _).trans hwritten

theorem Inv.reports {c : Setup β} {s : Conversation β} (h : Inv c s) :
    s.receiver.reports.map Report.destination <+: c.destinations := by
  rw [← h.receiver.destinations_eq, List.append_assoc]
  exact List.prefix_append _ _

theorem Inv.size_pos {c : Setup β} {s : Conversation β} (h : Inv c s) {r : Report β}
    (hr : r ∈ s.receiver.reports) : 0 < r.destination.size :=
  c.sizes _ (h.reports.subset (List.mem_map_of_mem hr))

theorem Inv.reportOk {c : Setup β} {s : Conversation β} (h : Inv c s)
    {before later : List (Report β)} {r : Report β}
    (hr : s.receiver.reports = before ++ r :: later) :
    Receiver.ReportOk s.stream (Receiver.begun before) r := by
  have hreported := h.receiver.reported
  rw [hr] at hreported
  simpa using hreported.of_split

theorem Inv.delivered {c : Setup β} {s : Conversation β} (h : Inv c s) : Delivered c s where
  in_order := h.in_order
  sent := ⟨h.sender.written_eq, h.sender.payloads_eq⟩
  sent_all := h.sent_all
  threw _ hl hlt _ hzero := h.threw hl hlt hzero
  reports := h.reports
  report before r later hr := ⟨(h.reportOk hr).result_eq, (h.reportOk hr).placed⟩
  completed_iff r hr := by
    obtain ⟨before, later, hsplit⟩ := List.append_of_mem hr
    exact (h.reportOk hsplit).completed_iff (h.size_pos hr)
  frame r hr := by
    obtain ⟨before, later, hsplit⟩ := List.append_of_mem hr
    exact (h.reportOk hsplit).frame
  closed_first before r later hr hall hstatus := by
    obtain ⟨hclosed, -, hbytes⟩ := (h.reportOk hr).closed_of_peerClosed hstatus
    have hmem : ∀ q ∈ before, q ∈ s.receiver.reports := fun q hq => by
      rw [hr]
      exact List.mem_append_left _ hq
    have hbefore : Receiver.Reported s.stream 0 before := by
      have hreported := h.receiver.reported
      rw [hr] at hreported
      exact hreported.of_append
    rw [Receiver.sum_bytes_of_completed hbefore (fun q hq => h.size_pos (hmem q hq)) hall]
    exact ⟨hclosed, hbytes⟩
  closed_later before r middle r' later hr hstatus := by
    have hfirst : s.receiver.reports = before ++ r :: (middle ++ r' :: later) := by
      simpa using hr
    obtain ⟨-, hlt, -⟩ := (h.reportOk hfirst).closed_of_peerClosed hstatus
    have hlater := (h.reportOk hr).result_eq
    have hpast : s.stream.written.length < Receiver.begun (before ++ r :: middle) := by
      simp only [Receiver.begun, List.map_append, List.map_cons, List.sum_append,
        List.sum_cons] at hlt ⊢
      omega
    rw [hlater, if_neg (by omega), Nat.sub_eq_zero_of_le hpast.le]

end Conversation

end Obz.Transport
