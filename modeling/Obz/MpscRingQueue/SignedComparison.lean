import Obz.Foundation.Words
import Obz.MpscRingQueue.Refusals
import Obz.MpscRingQueue.Sequential
import Obz.MpscRingQueue.Session
import Obz.MpscRingQueue.SoloRuns

/-!
# Stamps and positions compared through `std::ptrdiff_t`

Both operands of `diff` are converted before they are subtracted. A position
and a stamp that are close to each other, but on different sides of half the
range of `size_t`, have signed readings almost the whole range apart.
-/
namespace Obz.MpscRingQueue

open Foundation

variable {w : ℕ} {P T O : Type*} {N : ℕ} [NeZero N]

namespace Session

/-- The stamp and the position whose signed difference an action computes. -/
inductive Compares (s : Session w P N T O) : SessionAction P T O → ℕ → ℕ → Prop
  | tryEmplace {p spurious value write}
      (hpc : s.use.state.producers p = .loadSequence value write) :
      Compares s (.use (.operate (.produce p spurious))) (s.use.state.queue.stamps.get write) write
  | tryPop {read} (hpc : s.use.state.consumer = .loadSequence read) :
      Compares s (.use (.operate .consume)) (s.use.state.queue.stamps.get read) (read + 1)
  | full {i write} (hpc : s.use.reading i = .fullLoadSequence write) :
      Compares s (.use (.read i)) (s.use.state.queue.stamps.get write) write
  | clear {read} (hpc : s.clearing = some read) :
      Compares s .clearPass (s.use.state.queue.stamps.get read) (read + 1)

/-- Below or above `half` together: the stamp of a cell and the position a producer or
`full` compares it with. The consumer and `clear` always compare the next position with
its own stamp, so only an unpublished position just below `half` separates the two. -/
def OnOneSide (half : ℕ) (s : Session w P N T O) : SessionAction P T O → Prop
  | .use (.operate (.produce p _)) => ∀ value write,
      s.use.state.producers p = .loadSequence value write →
        (s.use.state.queue.stamps.get write < half ↔ write < half)
  | .use (.read i) => ∀ write, s.use.reading i = .fullLoadSequence write →
      (s.use.state.queue.stamps.get write < half ↔ write < half)
  | .use (.operate .consume) => ∀ read, s.use.state.consumer = .loadSequence read →
      s.use.state.NextUnpublished → s.use.state.released + 1 ≠ half
  | .clearPass => ∀ read, s.clearing = some read →
      s.use.state.NextUnpublished → s.use.state.released + 1 ≠ half
  | _ => True

namespace Compares

variable {s : Session w P N T O} {C : ℕ → ℕ → Prop}

theorem forall_tryEmplace {p : P} {spurious : Bool} :
    (∀ m n, s.Compares (.use (.operate (.produce p spurious))) m n → C m n) ↔
      ∀ value write, s.use.state.producers p = .loadSequence value write →
        C (s.use.state.queue.stamps.get write) write := by
  refine ⟨fun h _ _ hpc => h _ _ (.tryEmplace hpc), fun h m n hcompares => ?_⟩
  cases hcompares with
  | tryEmplace hpc => exact h _ _ hpc

theorem forall_tryPop :
    (∀ m n, s.Compares (.use (.operate .consume)) m n → C m n) ↔
      ∀ read, s.use.state.consumer = .loadSequence read →
        C (s.use.state.queue.stamps.get read) (read + 1) := by
  refine ⟨fun h _ hpc => h _ _ (.tryPop hpc), fun h m n hcompares => ?_⟩
  cases hcompares with
  | tryPop hpc => exact h _ hpc

theorem forall_full {i : Thread P O} :
    (∀ m n, s.Compares (.use (.read i)) m n → C m n) ↔
      ∀ write, s.use.reading i = .fullLoadSequence write →
        C (s.use.state.queue.stamps.get write) write := by
  refine ⟨fun h _ hpc => h _ _ (.full hpc), fun h m n hcompares => ?_⟩
  cases hcompares with
  | full hpc => exact h _ hpc

theorem forall_clear :
    (∀ m n, s.Compares .clearPass m n → C m n) ↔
      ∀ read, s.clearing = some read → C (s.use.state.queue.stamps.get read) (read + 1) := by
  refine ⟨fun h _ hpc => h _ _ (.clear hpc), fun h m n hcompares => ?_⟩
  cases hcompares with
  | clear hpc => exact h _ hpc

end Compares
end Session

namespace Invariant

variable {s : State P N T}

/-- The stamp of the next position says whether it is published. -/
theorem stamp_released (h : Invariant s) (hcons : s.consumer.claim = none) :
    s.queue.stamps.get s.released = s.released ∧ s.NextUnpublished ∨
      s.queue.stamps.get s.released = s.released + 1 ∧ ¬ s.NextUnpublished := by
  have hN : 0 < N := Nat.pos_of_ne_zero (NeZero.ne N)
  by_cases hnext : s.NextUnpublished
  · refine Or.inl ⟨?_, hnext⟩
    rcases hnext with hnone | ⟨p, value, hres, hclaim⟩
    · have hle := h.released_le
      have hge : s.queue.writeIndex ≤ s.released := by
        rw [← h.reserved]
        exact List.getElem?_eq_none_iff.mp hnone
      exact (h.free _ hge (by omega)).1
    · exact ((h.producer p).of_claim hclaim).2.2
  · refine Or.inr ⟨?_, hnext⟩
    by_contra hne
    exact hnext (h.nextUnpublished_of_stamp_ne hcons hne)

/-- When the comparison of `try_pop` and `clear` is sound. -/
theorem pop_comparable_iff (h : Invariant s) (hcons : s.consumer.claim = none) (hw : 0 < w)
    (hstamp : s.queue.stamps.get s.released < 2 ^ w) (hnext : s.released + 1 < 2 ^ w) :
    Words.Comparable w (s.queue.stamps.get s.released) (s.released + 1) ↔
      (s.NextUnpublished → s.released + 1 ≠ 2 ^ (w - 1)) := by
  rw [Words.comparable_iff hw hstamp hnext]
  rcases h.stamp_released hcons with ⟨hseq, hun⟩ | ⟨hseq, hpub⟩
  · rw [hseq]
    simp only [hun, true_implies]
    omega
  · simp [hseq, hpub]

end Invariant

variable [DecidableEq P] [DecidableEq O] {s : Session w P N T O}

/-- A run without queries and without `clear` is a session. -/
theorem session_of_reachable {s : State P N T} (h : (protocol P N T).Reachable s) :
    (session w P N T O).Follows Session.Exclusive (session w P N T O).start
      ⟨⟨s, fun _ => .idle⟩, none⟩ := by
  refine h.invariant (P := fun u => (session w P N T O).Follows Session.Exclusive
    (session w P N T O).start ⟨⟨u, fun _ => .idle⟩, none⟩) (.refl _) fun u a v hu hv => ?_
  refine hu.snoc (a := .use (.operate a)) rfl ?_
  have hstep : u.step a = some v := hv
  simp [session, Session.step, Observed.step, ReadingPc.outside, hstep]

/-- In every run, with `clear` between uses: a step computes only differences that
`std::ptrdiff_t` represents, with the right sign, exactly if it compares on one side
of half the range. -/
theorem comparisons_sound_iff (hN : 2 ≤ N) (hcapacity : N < 2 ^ (w - 1))
    (h : (session w P N T O).Follows Session.Exclusive (session w P N T O).start s)
    (a : SessionAction P T O) (hrange : ∀ sequence position, s.Compares a sequence position →
      sequence < 2 ^ w ∧ position < 2 ^ w) :
    (∀ sequence position, s.Compares a sequence position →
      Words.Comparable w sequence position) ↔ s.OnOneSide (2 ^ (w - 1)) a := by
  have hinv := sessionInvariant_of_follows hN h
  have hw := Words.pos_of_one_lt_half (lt_trans hN hcapacity)
  cases a with
  | callClear => exact ⟨fun _ => trivial, fun _ _ _ hcompares => by cases hcompares⟩
  | clearPass =>
    refine Session.Compares.forall_clear.trans (forall₂_congr fun read hread => ?_)
    have hr := hrange _ _ (.clear hread)
    obtain ⟨rfl, hrest⟩ := hinv.clearing read hread
    exact hinv.state.pop_comparable_iff (ConsumerPc.claim_of_outside (hrest .consumer).1) hw
      hr.1 hr.2
  | use a =>
    cases a with
    | ask i query => exact ⟨fun _ => trivial, fun _ _ _ hcompares => by cases hcompares⟩
    | read i =>
      refine Session.Compares.forall_full.trans (forall₂_congr fun write hpc => ?_)
      have hr := hrange _ _ (.full hpc)
      exact Words.comparable_iff hw hr.1 hr.2
    | operate a =>
      cases a with
      | callEmplace p value =>
        exact ⟨fun _ => trivial, fun _ _ _ hcompares => by cases hcompares⟩
      | callPop => exact ⟨fun _ => trivial, fun _ _ _ hcompares => by cases hcompares⟩
      | produce p spurious =>
        refine Session.Compares.forall_tryEmplace.trans (forall₃_congr fun value write hpc => ?_)
        have hr := hrange _ _ (.tryEmplace hpc)
        exact Words.comparable_iff hw hr.1 hr.2
      | consume =>
        refine Session.Compares.forall_tryPop.trans (forall₂_congr fun read hpc => ?_)
        have hr := hrange _ _ (.tryPop hpc)
        have hread : read = s.use.state.released := hinv.state.consumerOk hpc
        subst hread
        exact hinv.state.pop_comparable_iff (by rw [hpc]; rfl) hw hr.1 hr.2

/-- A producer compares position 2 with the stamp 1 of the full queue. -/
theorem comparisons_sound_iff_full : Words.Comparable 64 1 2 := by
  let pushes : List (Action Unit ℕ) :=
    [.callEmplace () 7, .produce () false, .produce () false, .produce () false,
      .produce () false, .produce () false, .callEmplace () 9, .produce () false,
      .produce () false, .produce () false, .produce () false, .produce () false,
      .callEmplace () 5, .produce () false]
  have hs := session_of_reachable (w := 64) (O := Unit)
    (System.reachable_after (M := protocol Unit 2 ℕ) pushes)
  have hpc : ((protocol Unit 2 ℕ).after pushes).producers () = .loadSequence 5 2 := rfl
  let s : Session 64 Unit 2 ℕ Unit :=
    ⟨⟨(protocol Unit 2 ℕ).after pushes, fun _ => .idle⟩, none⟩
  have hcompares : s.Compares (.use (.operate (.produce () false)))
      (s.use.state.queue.stamps.get 2) 2 := .tryEmplace hpc
  refine (comparisons_sound_iff le_rfl (by norm_num) hs _ ?_).mpr ?_ _ _ hcompares
  · intro sequence position hcompares
    cases hcompares with
    | tryEmplace h =>
      cases hpc.symm.trans h
      exact ⟨show 1 < 2 ^ 64 by norm_num, by norm_num⟩
  · intro value write h
    cases hpc.symm.trans h
    exact iff_of_true (show 1 < 2 ^ (64 - 1) by norm_num) (by norm_num)

/-! ### A run that reaches half the range -/

/-- What a producer does alone leaves the consumer where it is. -/
theorem consumer_of_produce {p : P} {s t : State P N T}
    (h : (protocol P N T).Follows (fun _ a => a.isProduce p) s t) :
    t.consumer = s.consumer ∧ t.queue.readIndex = s.queue.readIndex := by
  refine h.preserves (P := fun u => u.consumer = s.consumer ∧
    u.queue.readIndex = s.queue.readIndex) ⟨rfl, rfl⟩ fun u a v hu ha hv => ?_
  cases a with
  | produce q b =>
    have hstep : u.step (.produce q b) = some v := hv
    cases step_effect hstep <;> exact hu
  | _ => cases ha

/-- Pairs of a push and a pop take an empty queue to any position. -/
theorem exists_empty_at (p : P) (value : T) (k : ℕ) :
    ∃ s : State P N T, (protocol P N T).Reachable s ∧ (s.producers p).outside = true ∧
      s.consumer.outside = true ∧ s.queue.Represents [] ∧ s.queue.readIndex = k := by
  induction k with
  | zero => exact ⟨.initial, .start, rfl, rfl, Queue.represents_new, rfl⟩
  | succ k ih =>
    obtain ⟨s, hs, hproducer, hconsumer, hrep, hread⟩ := ih
    obtain ⟨q, hpush, hq⟩ :=
      hrep.tryEmplace_room (Nat.pos_of_ne_zero (NeZero.ne N)) value 0
    obtain ⟨u, t, hcall, hloop, rfl, hpc⟩ := tryEmplace_solo hproducer hpush
    obtain ⟨hcons, hindex⟩ := consumer_of_produce hloop
    cases step_effect hcall with
    | callEmplace hout =>
      have ht : (protocol P N T).Reachable t :=
        (reachable_step hs hcall).trans (hloop.mono fun _ _ _ => trivial)
      obtain ⟨actions, v, hrun, -, hqueue, hv, hproducers⟩ :=
        tryPop_solo (by rw [hcons]; exact hconsumer) hq.tryPop_cons
      refine ⟨v, ht.trans (System.follows_of_run (fun _ _ _ => trivial) hrun), ?_, ?_, ?_, ?_⟩
      · rw [hproducers, hpc]
        rfl
      · rw [hv]
        rfl
      · rw [hqueue]
        exact hq.release
      · rw [hqueue, Queue.readIndex_release, hindex]
        exact congrArg (· + 1) hread

/-- A consumer can poll an empty queue at any position; every counter is close to it. -/
theorem exists_poll (p : P) (value : T) (k : ℕ) :
    ∃ s : Session w P N T O,
      (session w P N T O).Follows Session.Exclusive (session w P N T O).start s ∧
      s.Compares (.use (.operate .consume)) k (k + 1) ∧
      (∀ i, s.use.state.queue.stamps i < k + N) ∧ s.use.state.queue.writeIndex = k := by
  obtain ⟨s, hs, -, hconsumer, hrep, hread⟩ := exists_empty_at (N := N) p value k
  have hcall : s.step .callPop = some (s.setConsumer .loadRead) := if_pos hconsumer
  have hload : (s.setConsumer .loadRead).step .consume =
      some (s.setConsumer (.loadSequence k)) := by
    rw [← hread]
    rfl
  have hwrite : s.queue.writeIndex = k := hrep.writeIndex.trans hread
  have hfree : ∀ n, k ≤ n → n < k + N → s.queue.stamps.get n = n := by
    intro n hn hn'
    exact hrep.free n (hwrite.trans_le hn) (hread.symm ▸ hn')
  refine ⟨⟨⟨s.setConsumer (.loadSequence k), fun _ => .idle⟩, none⟩,
    session_of_reachable (reachable_step (reachable_step hs hcall) hload), ?_, fun i => ?_, hwrite⟩
  · have hcompares : Session.Compares _ (.use (.operate .consume)) _ (k + 1) :=
      .tryPop (w := w) (O := O) (s := ⟨⟨s.setConsumer (.loadSequence k), fun _ => .idle⟩, none⟩) rfl
    have hstamp : (s.setConsumer (.loadSequence k)).queue.stamps.get k = k :=
      hfree k le_rfl (Nat.lt_add_of_pos_right (Nat.pos_of_ne_zero (NeZero.ne N)))
    rwa [hstamp] at hcompares
  · obtain ⟨m, hm, hm', rfl⟩ := CyclicBuffer.exists_position k i
    exact (hfree m hm hm').trans_lt hm'

/-- At the last position below half the range that poll subtracts the least number of
`std::ptrdiff_t` from the greatest. -/
theorem exists_overflow (hcapacity : N < 2 ^ (w - 1)) (p : P) (value : T) :
    ∃ (s : Session w P N T O) (a : SessionAction P T O) (sequence position : ℕ),
      (session w P N T O).Follows Session.Exclusive (session w P N T O).start s ∧
      (∀ i, s.use.state.queue.stamps i < 2 ^ w) ∧ s.use.state.queue.writeIndex + 1 < 2 ^ w ∧
      s.Compares a sequence position ∧
      ¬ Words.Representable w (Words.signed w sequence - Words.signed w position) := by
  have hN : 0 < N := Nat.pos_of_ne_zero (NeZero.ne N)
  have hw := Words.pos_of_one_lt_half (Nat.lt_of_le_of_lt hN hcapacity)
  have hpow := Words.two_pow_eq hw
  obtain ⟨s, hs, hcompares, hstamps, hwrite⟩ :=
    exists_poll (w := w) (N := N) (O := O) p value (2 ^ (w - 1) - 1)
  refine ⟨s, _, _, _, hs, fun i => (hstamps i).trans_le (by omega), by omega, hcompares, ?_⟩
  exact Words.not_representable_at_half hw

/-- After `2 ^ 31 - 1` or `2 ^ 63 - 1` pairs of a push and a pop, all made by one thread,
`try_pop` on the empty queue overflows. -/
theorem comparison_overflows :
    (¬ ∀ s : Session 32 Unit 2 ℕ Unit,
      (session 32 Unit 2 ℕ Unit).Follows Session.Exclusive (session 32 Unit 2 ℕ Unit).start s →
      (∀ i, s.use.state.queue.stamps i < 2 ^ 32) → s.use.state.queue.writeIndex + 1 < 2 ^ 32 →
      ∀ a sequence position, s.Compares a sequence position →
        Words.Representable 32 (Words.signed 32 sequence - Words.signed 32 position)) ∧
    ¬ ∀ s : Session 64 Unit 2 ℕ Unit,
      (session 64 Unit 2 ℕ Unit).Follows Session.Exclusive (session 64 Unit 2 ℕ Unit).start s →
      (∀ i, s.use.state.queue.stamps i < 2 ^ 64) → s.use.state.queue.writeIndex + 1 < 2 ^ 64 →
      ∀ a sequence position, s.Compares a sequence position →
        Words.Representable 64 (Words.signed 64 sequence - Words.signed 64 position) := by
  constructor
  · intro h
    obtain ⟨s, a, sequence, position, hs, hstamps, hwrite, hcompares, hnot⟩ :=
      exists_overflow (w := 32) (P := Unit) (N := 2) (O := Unit) (by norm_num) () 7
    exact hnot (h s hs hstamps hwrite a sequence position hcompares)
  · intro h
    obtain ⟨s, a, sequence, position, hs, hstamps, hwrite, hcompares, hnot⟩ :=
      exists_overflow (w := 64) (P := Unit) (N := 2) (O := Unit) (by norm_num) () 7
    exact hnot (h s hs hstamps hwrite a sequence position hcompares)

end Obz.MpscRingQueue
