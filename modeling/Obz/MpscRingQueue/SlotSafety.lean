import Obz.MpscRingQueue.Preservation
import Obz.MpscRingQueue.Sequential

/-!
# Slot safety of `mpsc_ring_queue` under any interleaving

Every slot operation meets the storage it expects, no two threads work on one
cell, and a queue at rest is in a state its single-threaded operations handle.
-/
namespace Obz.MpscRingQueue

open Foundation

variable {P T : Type*} {N : ℕ} [NeZero N] {s : State P N T}

namespace Invariant

/-- Between calls the queue represents what is reserved and not yet popped. -/
theorem represents (h : Invariant s) (hq : s.Quiescent) : s.queue.Represents s.stored := by
  have hclaim : ∀ p, (s.producers p).claim = none := fun p =>
    ProducerPc.claim_of_outside (hq.1 p)
  have hcons : s.consumer.claim = none := ConsumerPc.claim_of_outside hq.2
  have hread : s.queue.readIndex = s.released := by
    rw [h.readIndex, ConsumerPc.advanced_of_claim hcons, Nat.add_zero]
  have hlen := h.length_stored
  have hle := h.released_le
  have hb := h.reserved_le
  have hcell : ∀ i (hi : i < s.stored.length), s.CellIs (s.released + i) (s.released + i + 1)
      (.live (s.stored[i])) := by
    intro i hi
    have hn : s.released + i < s.reservations.length := by rw [h.reserved]; omega
    refine h.published _ _ (Nat.le_add_right _ _) ?_ (by simp [hcons])
    refine ⟨(s.reservations[s.released + i]).1, ?_, by simp [hclaim]⟩
    simp [State.stored, List.getElem?_eq_getElem hn]
  refine ⟨by omega, ⟨by omega, ?_, ?_⟩, ?_, ?_⟩
  · intro i hi
    rw [hread]
    exact (hcell i hi).2
  · intro n hn hn'
    rw [hread] at hn hn'
    exact (h.free n (by omega) hn').2
  · intro i hi
    rw [hread]
    exact (hcell i hi).1
  · intro n hn hn'
    rw [hread] at hn'
    exact (h.free n hn hn').1

/-- A position of the window is the only one of the window in its cell. -/
theorem index_ne (h : Invariant s) {m n : ℕ} (hm : s.released ≤ m) (hm' : m < s.queue.writeIndex)
    (hn : s.released ≤ n) (hn' : n < s.queue.writeIndex) (hne : m ≠ n) :
    (CyclicBuffer.index m : Fin N) ≠ CyclicBuffer.index n := by
  have hb := h.reserved_le
  exact fun heq => hne (CyclicBuffer.eq_of_index_eq hm (by omega) hn (by omega) heq)

/-- No operation of the consumer touches storage without an object. -/
theorem consume_defined (h : Invariant s) (hin : s.consumer.outside = false) :
    ∃ t, s.consume = some t := by
  have hok := h.consumer
  unfold State.consume
  cases hpc : s.consumer with
  | idle => simp [hpc, ConsumerPc.outside] at hin
  | returned value => simp [hpc, ConsumerPc.outside] at hin
  | loadSequence read =>
    dsimp only
    split_ifs
    · exact ⟨_, rfl⟩
    · exact ⟨_, rfl⟩
  | moveOut read =>
    rw [hpc] at hok
    obtain ⟨_, value, _, hcell⟩ := hok
    simp [Queue.cell_slot, hcell.2]
  | destroy read value =>
    rw [hpc] at hok
    simp [Queue.cell_slot, hok.2.2.2]
  | loadRead => exact ⟨_, rfl⟩
  | storeRead read value => exact ⟨_, rfl⟩
  | release read value => exact ⟨_, rfl⟩

end Invariant

variable [DecidableEq P]

/-- In every reachable state: constructions meet empty storage, moves and
destructions meet an object, claimed cells are distinct, at most `N` positions
are reserved and not released; and at rest `clear` returns, having destroyed
every object once and nothing else. -/
theorem slots_are_safe (hN : 2 ≤ N) (h : (protocol P N T).Reachable s) :
    (∀ p value write, s.producers p = .construct value write →
      (s.queue.cell write).slot = .vacant) ∧
    (∀ read, s.consumer = .moveOut read → ∃ value, (s.queue.cell read).slot = .live value) ∧
    (∀ read value, s.consumer = .destroy read value → (s.queue.cell read).slot = .movedFrom) ∧
    (∀ p q m n, p ≠ q → (s.producers p).claim = some m → (s.producers q).claim = some n →
      (CyclicBuffer.index m : Fin N) ≠ CyclicBuffer.index n) ∧
    (∀ p m n, (s.producers p).claim = some m → s.consumer.claim = some n →
      (CyclicBuffer.index m : Fin N) ≠ CyclicBuffer.index n) ∧
    (s.released ≤ s.queue.writeIndex ∧ s.queue.writeIndex ≤ s.released + N) ∧
    (s.Quiescent → ∀ fuel, s.stored.length < fuel → ∃ destroyed last,
      s.queue.clear fuel = some (destroyed, last) ∧
      (destroyed.map Prod.fst).Nodup ∧
      (∀ i object, (i, object) ∈ destroyed ↔
        (s.queue.buffer i).slot = object ∧ object ≠ .vacant) ∧
      destroyed.map Prod.snd = s.stored.map .live ∧
      ∀ i, (last.buffer i).slot = .vacant) := by
  have hinv := invariant_of_reachable hN h
  refine ⟨?_, ?_, ?_, ?_, ?_, ⟨hinv.released_le, hinv.reserved_le⟩, ?_⟩
  · intro p value write hpc
    have hok := hinv.producerOk hpc
    exact hok.2.2.2
  · intro read hpc
    have hok := hinv.consumerOk hpc
    obtain ⟨_, value, _, hcell⟩ := hok
    exact ⟨value, hcell.2⟩
  · intro read value hpc
    have hok := hinv.consumerOk hpc
    exact hok.2.2.2
  · intro p q m n hne hp hq
    obtain ⟨hm, hm', _⟩ := hinv.claim_window hp
    obtain ⟨hn, hn', _⟩ := hinv.claim_window hq
    refine hinv.index_ne hm hm' hn hn' ?_
    rintro rfl
    exact hne (hinv.claim_unique hp hq)
  · intro p m n hp hc
    obtain ⟨hm, hm', _⟩ := hinv.claim_window hp
    obtain ⟨hn, hn', _⟩ := hinv.consumer_window hc
    exact hinv.index_ne hm hm' hn.ge hn' (hinv.consumer_claim_ne hp hc)
  · intro hq fuel hfuel
    have hrep := hinv.represents hq
    obtain ⟨last, hclear, hlast⟩ := hrep.clear hfuel
    exact ⟨_, last, hclear, hrep.slots.nodup_objects, hrep.slots.mem_objects_iff,
      CyclicBuffer.objects_slots _ _, hlast.slots.vacant_of_nil⟩

/-- Two producers have each claimed a position of a queue of capacity two. -/
theorem slots_are_safe_two_claims :
    let s := (protocol Bool 2 ℕ).after
      [.callEmplace true 7, .produce true false, .produce true false, .produce true true,
        .produce true false, .produce true false, .callEmplace false 9, .produce false false,
        .produce false false, .produce false false]
    (s.queue.cell 0).slot = .vacant ∧ (s.queue.cell 1).slot = .vacant ∧
      (CyclicBuffer.index 0 : Fin 2) ≠ CyclicBuffer.index 1 :=
  have h := slots_are_safe le_rfl (System.reachable_after (M := protocol Bool 2 ℕ)
    [.callEmplace true 7, .produce true false, .produce true false, .produce true true,
      .produce true false, .produce true false, .callEmplace false 9, .produce false false,
      .produce false false, .produce false false])
  ⟨h.1 true 7 0 rfl, h.1 false 9 1 rfl, h.2.2.2.1 true false 0 1 (by decide) rfl rfl⟩

end Obz.MpscRingQueue
