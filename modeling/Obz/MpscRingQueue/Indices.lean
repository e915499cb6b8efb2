import Obz.MpscRingQueue.Effect

/-!
# The two indices at any capacity

Also with a single cell, where positions may be overwritten, the consumer pops
reserved positions only, so `read_index_` never passes `write_index_`.
-/
namespace Obz.MpscRingQueue

open Foundation

variable {P T : Type*} {N : ℕ} [NeZero N]

/-- The position the consumer is popping while `read_index_` still names it. -/
def ConsumerPc.front : ConsumerPc T → Option ℕ
  | .loadSequence read | .moveOut read | .destroy read _ | .storeRead read _ => some read
  | _ => none

/-- Whatever the capacity, a stamp is that of a reserved position or marks a cell
as free, and the consumer pops reserved positions only. -/
structure Behind (s : State P N T) : Prop where
  stamp : ∀ i : Fin N, s.queue.stamps i ≤ s.queue.writeIndex ∨
    2 ≤ N ∧ CyclicBuffer.index (s.queue.stamps i) = i
  producer : ∀ p n, (s.producers p).claim = some n → n < s.queue.writeIndex
  consumer : ∀ n, s.consumer.claim = some n → n < s.queue.writeIndex
  front : ∀ n, s.consumer.front = some n → n = s.queue.readIndex
  readIndex : s.queue.readIndex ≤ s.queue.writeIndex

theorem behind_initial : Behind (State.initial : State P N T) where
  stamp := by
    intro i
    rcases Nat.lt_or_ge N 2 with hN | hN
    · have hi := i.isLt
      exact Or.inl (show i.val ≤ 0 by omega)
    · exact Or.inr ⟨hN, Fin.ext (Nat.mod_eq_of_lt i.isLt)⟩
  producer := fun _ _ hp => by cases hp
  consumer := fun _ hc => by cases hc
  front := fun _ hc => by cases hc
  readIndex := le_rfl

/-- A released cell gets the stamp of its next lap; with one cell that is also the
stamp of the position just popped. -/
theorem release_stamp {read bound : ℕ} (hread : read < bound) :
    read + N ≤ bound ∨
      2 ≤ N ∧ (CyclicBuffer.index (read + N) : Fin N) = CyclicBuffer.index read := by
  have hN := Nat.pos_of_ne_zero (NeZero.ne N)
  rcases Nat.lt_or_ge N 2 with hlt | hge
  · exact Or.inl (by omega)
  · exact Or.inr ⟨hge, CyclicBuffer.index_add read⟩

namespace Behind

variable {s : State P N T}

theorem stamp_get (h : Behind s) (n : ℕ) : s.queue.stamps.get n ≤ s.queue.writeIndex ∨
    2 ≤ N ∧ (CyclicBuffer.index (s.queue.stamps.get n) : Fin N) = CyclicBuffer.index n :=
  h.stamp (CyclicBuffer.index n)

/-- A stamp that lets the consumer pop is that of a reserved position. -/
theorem lt_of_stamp_succ (h : Behind s) {read : ℕ}
    (hseq : s.queue.stamps.get read = read + 1) : read < s.queue.writeIndex := by
  have hstamp := h.stamp_get read
  rw [hseq] at hstamp
  rcases hstamp with hle | ⟨hN, hindex⟩
  · exact hle
  · have := CyclicBuffer.eq_of_index_eq (a := read) (by omega) (by omega) le_rfl (by omega) hindex
    omega

theorem setProducer [DecidableEq P] (h : Behind s) {p : P} {pc : ProducerPc T}
    (hpc : ∀ n, pc.claim = some n → n < s.queue.writeIndex) : Behind (s.setProducer p pc) where
  stamp := h.stamp
  producer := by
    intro q n hq
    by_cases hqp : q = p
    · rw [hqp, State.setProducer_self] at hq
      exact hpc n hq
    · rw [State.setProducer_of_ne hqp] at hq
      exact h.producer q n hq
  consumer := h.consumer
  front := h.front
  readIndex := h.readIndex

theorem setConsumer (h : Behind s) {pc : ConsumerPc T}
    (hclaim : ∀ n, pc.claim = some n → n < s.queue.writeIndex)
    (hfront : ∀ n, pc.front = some n → n = s.queue.readIndex) : Behind (s.setConsumer pc) where
  stamp := h.stamp
  producer := h.producer
  consumer := hclaim
  front := hfront
  readIndex := h.readIndex

theorem storeSlot (h : Behind s) (n : ℕ) (slot : Slot T) :
    Behind { s with queue := s.queue.storeSlot n slot } where
  stamp := by
    intro i
    rw [Queue.stamps_storeSlot]
    exact h.stamp i
  producer := h.producer
  consumer := h.consumer
  front := h.front
  readIndex := h.readIndex

/-- A new stamp is that of a reserved position, or of a free cell. -/
theorem storeSequence (h : Behind s) {n x : ℕ} (hx : x ≤ s.queue.writeIndex ∨
    2 ≤ N ∧ (CyclicBuffer.index x : Fin N) = CyclicBuffer.index n) :
    Behind { s with queue := s.queue.storeSequence n x } where
  stamp := by
    intro i
    rw [Queue.stamps_storeSequence]
    by_cases hi : i = CyclicBuffer.index n
    · subst hi
      simpa [CyclicBuffer.set] using hx
    · simpa [CyclicBuffer.set, Function.update_of_ne hi] using h.stamp i
  producer := h.producer
  consumer := h.consumer
  front := h.front
  readIndex := h.readIndex

theorem grow (h : Behind s) {n : ℕ} (hn : s.queue.writeIndex ≤ n) :
    Behind { s with queue := { s.queue with writeIndex := n } } where
  stamp := fun i => (h.stamp i).imp_left fun hle => hle.trans hn
  producer := fun p m hm => (h.producer p m hm).trans_le hn
  consumer := fun m hm => (h.consumer m hm).trans_le hn
  front := h.front
  readIndex := h.readIndex.trans hn

/-- The step lemma, for every capacity. -/
theorem step [DecidableEq P] (h : Behind s) {t : State P N T} {a : Action P T}
    (hstep : s.step a = some t) : Behind t := by
  cases step_effect hstep with
  | callEmplace | loadWrite | reloadWrite | free | behind | lose =>
    exact h.setProducer (fun _ hn => by cases hn)
  | @full p value write b hpc hseq =>
    have hset : Behind (s.setProducer p (.returned false)) :=
      h.setProducer (fun _ hn => by cases hn)
    exact { hset with }
  | @reserve p value hpc =>
    have hgrow := h.grow (Nat.le_succ _)
    have hset : Behind (State.setProducer _ p (.construct value s.queue.writeIndex)) :=
      hgrow.setProducer (fun n hn => by cases hn; exact Nat.lt_succ_self _)
    exact { hset with }
  | @construct p value write b hpc =>
    have hclaim : write < s.queue.writeIndex := h.producer p write (by rw [hpc]; rfl)
    have hset : Behind (s.setProducer p (.publish value write)) :=
      h.setProducer (fun n hn => by cases hn; exact hclaim)
    exact hset.storeSlot write (.live value)
  | @publish p value write b hpc =>
    have hclaim : write < s.queue.writeIndex := h.producer p write (by rw [hpc]; rfl)
    have hset : Behind (s.setProducer p (.returned true)) :=
      h.setProducer (fun _ hn => by cases hn)
    have hstore := hset.storeSequence (n := write) (x := write + 1) (Or.inl hclaim)
    exact { hstore with }
  | callPop => exact h.setConsumer (fun _ hn => by cases hn) (fun _ hn => by cases hn)
  | loadRead => exact h.setConsumer (fun _ hn => by cases hn) (fun _ hn => by cases hn; rfl)
  | miss => exact h.setConsumer (fun _ hn => by cases hn) (fun _ hn => by cases hn)
  | @hit read hpc hseq =>
    have hfront := h.front read (by rw [hpc]; rfl)
    exact h.setConsumer (fun n hn => by cases hn; exact h.lt_of_stamp_succ hseq)
      (fun n hn => by cases hn; exact hfront)
  | @moveOut read value hpc hslot =>
    have hset : Behind (s.setConsumer (.destroy read value)) := h.setConsumer
      (fun n hn => h.consumer n (by rw [hpc]; exact hn))
      (fun n hn => h.front n (by rw [hpc]; exact hn))
    exact hset.storeSlot read .movedFrom
  | @destroy read value hpc hslot =>
    have hset : Behind (s.setConsumer (.storeRead read value)) := h.setConsumer
      (fun n hn => h.consumer n (by rw [hpc]; exact hn))
      (fun n hn => h.front n (by rw [hpc]; exact hn))
    exact hset.storeSlot read .vacant
  | @storeRead read value hpc =>
    have hclaim : read < s.queue.writeIndex := h.consumer read (by rw [hpc]; rfl)
    exact ⟨h.stamp, h.producer, fun n hn => by cases hn; exact hclaim,
      fun n hn => (by cases hn), hclaim⟩
  | @release read value hpc =>
    have hclaim : read < s.queue.writeIndex := h.consumer read (by rw [hpc]; rfl)
    have hset : Behind (s.setConsumer (.returned (some value))) :=
      h.setConsumer (fun _ hn => by cases hn) (fun _ hn => by cases hn)
    have hstore := hset.storeSequence (release_stamp hclaim)
    exact { hstore with }

end Behind

variable [DecidableEq P]

/-- What a step does to the two indices. -/
theorem State.indices_of_step {s t : State P N T} {a : Action P T} (h : s.step a = some t) :
    (t.queue.writeIndex = s.queue.writeIndex ∧ t.queue.readIndex = s.queue.readIndex) ∨
    (∃ p value, a = .produce p false ∧
      s.producers p = .compareExchange value s.queue.writeIndex ∧
      t.queue.writeIndex = s.queue.writeIndex + 1 ∧ t.queue.readIndex = s.queue.readIndex) ∨
    (∃ read value, a = .consume ∧ s.consumer = .storeRead read value ∧
      t.queue.writeIndex = s.queue.writeIndex ∧ t.queue.readIndex = read + 1) := by
  cases step_effect h with
  | @reserve p value hpc => exact Or.inr (Or.inl ⟨p, value, rfl, hpc, rfl, rfl⟩)
  | @storeRead read value hpc => exact Or.inr (Or.inr ⟨read, value, rfl, hpc, rfl, rfl⟩)
  | _ => exact Or.inl ⟨rfl, rfl⟩

/-- The run lemma. -/
theorem behind_of_reachable {s : State P N T} (h : (protocol P N T).Reachable s) : Behind s :=
  h.invariant behind_initial fun _ _ _ hu hv => hu.step hv

end Obz.MpscRingQueue
