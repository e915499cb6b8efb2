import Obz.MpscRingQueue.Snapshots
import Obz.SpscRingQueue.Snapshots

/-!
# Polling an owned ring queue

A thread that owns one end of a ring queue polls it and then calls. What it has
seen of the queue cannot be taken back by the other side.
-/
namespace Obz.RingQueues

open Foundation

/-- If the consumer sees `empty` return false, its next `try_pop` returns an element, and if
the producer sees `full` return false, its next `try_emplace` stores its element, within a
fixed number of own operations and unless the element throws. `size` is at most the capacity
for both, whichever index is loaded first. -/
theorem owner_snapshots_hold {w N M : ℕ} [NeZero N] [NeZero M] {P T O : Type*} [DecidableEq P]
    [DecidableEq O] (hM : 2 ≤ M) :
    (∀ s t, (SpscRingQueue.observed w N T).Reachable s →
      (SpscRingQueue.observed w N T).step s (.read .consumer) = some t →
      t.reading .consumer = .returnedEmpty false →
      (SpscRingQueue.observed w N T).Assures (SpscRingQueue.popCall w N T) 5 t) ∧
    (∀ s t, (SpscRingQueue.observed w N T).Reachable s →
      (SpscRingQueue.observed w N T).step s (.read .producer) = some t →
      t.reading .producer = .returnedFull false →
      (SpscRingQueue.observed w N T).Assures (SpscRingQueue.emplaceCall w N T) 4 t) ∧
    (∀ s i count, (SpscRingQueue.observed w N T).Reachable s →
      s.reading i = .returnedSize count → count.toNat ≤ N) ∧
    ∀ s t, (MpscRingQueue.observed w P M T O).Reachable s →
      (MpscRingQueue.observed w P M T O).step s (.read .consumer) = some t →
      t.reading .consumer = .returnedEmpty false →
      (MpscRingQueue.observed w P M T O).Assures (MpscRingQueue.popCall w P M T O) 6 t := by
  refine ⟨?_, ?_, ?_, ?_⟩
  · intro s t hs hstep hanswer
    exact SpscRingQueue.pop_assured (hs.snoc hstep)
      (SpscRingQueue.lt_of_empty_false hs hstep hanswer)
  · intro s t hs hstep hanswer
    exact SpscRingQueue.emplace_assured (hs.snoc hstep)
      (SpscRingQueue.lt_of_full_false hs hstep hanswer)
  · intro s i count hs hpc
    have hok := (SpscRingQueue.readingInvariant_of_reachable hs).loaded i
    rw [hpc] at hok
    cases i <;> exact hok
  · intro s t hs hstep hanswer
    exact MpscRingQueue.pop_assured hM (hs.snoc hstep)
      (MpscRingQueue.seen_of_empty_false hs hstep hanswer)

/-- One element is published while the consumer is between its two loads. -/
theorem owner_snapshots_hold_published :
    let stored : List (SpscRingQueue.ObservedAction ℕ) :=
      [.ask .consumer .empty .read, .read .consumer, .operate (.callEmplace 7),
        .operate .produce, .operate .produce, .operate .produce, .operate .produce]
    let published : List (MpscRingQueue.ObservedAction Bool ℕ Unit) :=
      [.ask .consumer .empty, .read .consumer, .operate (.callEmplace true 7),
        .operate (.produce true false), .operate (.produce true false),
        .operate (.produce true false), .operate (.produce true false),
        .operate (.produce true false)]
    (SpscRingQueue.observed 64 2 ℕ).Assures (SpscRingQueue.popCall 64 2 ℕ) 5
      ((SpscRingQueue.observed 64 2 ℕ).after (stored ++ [.read .consumer])) ∧
    (MpscRingQueue.observed 64 Bool 2 ℕ Unit).Assures (MpscRingQueue.popCall 64 Bool 2 ℕ Unit) 6
      ((MpscRingQueue.observed 64 Bool 2 ℕ Unit).after (published ++ [.read .consumer])) := by
  intro stored published
  have h := owner_snapshots_hold (w := 64) (N := 2) (M := 2) (P := Bool) (T := ℕ) (O := Unit) le_rfl
  exact ⟨h.1 _ _ (System.reachable_after stored) rfl rfl,
    h.2.2.2 _ _ (System.reachable_after published) rfl rfl⟩

end Obz.RingQueues
