import Obz.SpscRingQueue.Synchronisation

/-!
# `spsc_ring_queue` on memory that answers with old values

With the orders in the code the queue is race free and first-in first-out in
every run. What an old value can do is make a call give up, and then only on
what its thread knows.
-/
namespace Obz.SpscRingQueue

open Foundation Foundation.ReleaseAcquire

universe u

variable {N : ℕ} [NeZero N] {T : Type*} {I : Type u} {identity : T → I}

theorem damaged_of_effect {s t : Machine N T} {a : Move T}
    (h : Machine.Effect .source s a t) (hk : t.sequential.Keeps identity) :
    s.sequential.Keeps identity := by
  cases h with
  | moveThrows hpc hslot haccess => exact fun x hx => hk x (List.mem_append_left _ hx)
  | _ => exact hk

theorem synchronised_of_reachable {s : Machine N T} (h : (machine N T .source).Reachable s)
    {identity : T → I} (hk : s.sequential.Keeps identity) : Synchronised identity s :=
  h.invariant (P := fun u => u.sequential.Keeps identity → Synchronised identity u)
    (fun _ => synchronised_initial)
    (fun _ _ _ hu hstep hk =>
      (hu (damaged_of_effect (Machine.step_effect hstep) hk)).step hk hstep) hk

namespace Machine

variable {s : Machine N T} {i : Fin N}

theorem producer_touches (h : s.touches .producer = some i) :
    ∃ n, s.producer.claim = some n ∧ CyclicBuffer.index n = i := by
  cases hpc : s.producer <;> simp only [touches, hpc, reduceCtorEq, Option.some.injEq] at h
  exact ⟨_, rfl, h⟩

theorem consumer_touches (h : s.touches .consumer = some i) :
    ∃ n, s.consumer.claim = some n ∧ CyclicBuffer.index n = i := by
  cases hpc : s.consumer <;> simp only [touches, hpc, reduceCtorEq, Option.some.injEq] at h
  all_goals exact ⟨_, rfl, h⟩

end Machine

namespace Synchronised

variable {s : Machine N T}

theorem not_racing (h : Synchronised identity s) : ¬ s.Racing := by
  rintro ⟨θ, i, htouch, hrace⟩
  cases θ with
  | producer =>
    obtain ⟨n, hclaim, rfl⟩ := Machine.producer_touches htouch
    exact hrace (h.producer n hclaim).covers
  | consumer =>
    obtain ⟨n, hclaim, rfl⟩ := Machine.consumer_touches htouch
    exact hrace (h.consumer n hclaim).covers

/-- There is always a message to load, and always room for one more. -/
theorem can_produce (h : Synchronised identity s) (hpc : s.producer.outside = false) :
    ∃ time t, s.step .source (.produce time) = some t := by
  cases hp : s.producer with
  | idle | returned | threw => simp [hp, ProducerPc.outside] at hpc
  | loadWrite value =>
    obtain ⟨loaded, m, hload⟩ := h.shared.wellFormed.can_load .producer .write .relaxed
    exact ⟨(s.memory.views .producer).time .write,
      by simp [Machine.step, Machine.produce, hp, hload]⟩
  | loadRead value write =>
    obtain ⟨loaded, m, hload⟩ := h.shared.wellFormed.can_load .producer .read .acquire
    exact ⟨(s.memory.views .producer).time .read,
      by simp [Machine.step, Machine.produce, Orders.source, hp, hload]⟩
  | construct value write =>
    have hready := h.producer write (by rw [hp]; rfl)
    obtain ⟨m, haccess⟩ := Memory.can_access hready.covers
    exact ⟨0, by simp [Machine.step, Machine.produce, hp, haccess]⟩
  | storeWrite value write =>
    obtain ⟨m, hstore⟩ := h.shared.elements.owned.can_store .release (write + 1)
    exact ⟨(s.memory.views .producer).time .write + 1,
      by simp [Machine.step, Machine.produce, Orders.source, hp, hstore]⟩

theorem can_consume (h : Synchronised identity s) (hpc : s.consumer.outside = false) :
    ∃ time t, s.step .source (.consume time) = some t := by
  cases hc : s.consumer with
  | idle | returned | threw => simp [hc, ConsumerPc.outside] at hpc
  | loadRead =>
    obtain ⟨loaded, m, hload⟩ := h.shared.wellFormed.can_load .consumer .read .relaxed
    exact ⟨(s.memory.views .consumer).time .read,
      by simp [Machine.step, Machine.consume, hc, hload]⟩
  | loadWrite read =>
    obtain ⟨loaded, m, hload⟩ := h.shared.wellFormed.can_load .consumer .write .acquire
    exact ⟨(s.memory.views .consumer).time .write,
      by simp [Machine.step, Machine.consume, Orders.source, hc, hload]⟩
  | moveOut read =>
    have hready := h.consumer read (by rw [hc]; rfl)
    have hok : s.sequential.ConsumerOk _ (.moveOut read) := h.sequential.consumerOk hc
    obtain ⟨value, hslot, -⟩ :=
      h.sequential.live read hok.1.ge hok.2 (by simp [Machine.sequential, hc, ConsumerPc.taken])
    replace hslot : s.buffer.get read = .live value := hslot
    obtain ⟨m, haccess⟩ := Memory.can_access hready.covers
    exact ⟨0, by simp [Machine.step, Machine.consume, hc, hslot, haccess]⟩
  | destroy read value =>
    have hready := h.consumer read (by rw [hc]; rfl)
    have hok : s.sequential.ConsumerOk _ (.destroy read value) := h.sequential.consumerOk hc
    have hslot : s.buffer.get read = .movedFrom := hok.2.2.1
    obtain ⟨m, haccess⟩ := Memory.can_access hready.covers
    exact ⟨0, by simp [Machine.step, Machine.consume, hc, hslot, haccess]⟩
  | storeRead read value =>
    obtain ⟨m, hstore⟩ := h.shared.space.owned.can_store .release (read + 1)
    exact ⟨(s.memory.views .consumer).time .read + 1,
      by simp [Machine.step, Machine.consume, Orders.source, hc, hstore]⟩

/-- A push gives up only if no pop it knows of leaves room. -/
theorem refused (h : Synchronised identity s) {t : Machine N T} {value : T} {write time : ℕ}
    (hpc : s.producer = .loadRead value write) (hstep : s.step .source (.produce time) = some t)
    (hfalse : t.producer = .returned false) {time' : ℕ} {message : Message Index (Fin N) ℕ}
    (hm : s.memory.messages .read time' = some message)
    (hle : time' ≤ (s.memory.views .producer).time .read) :
    message.value + N ≤ s.pushed.length := by
  have hok : s.sequential.ProducerOk (.loadRead value write) := h.sequential.producerOk hpc
  obtain rfl : write = s.pushed.length := hok
  cases Machine.step_effect hstep with
  | full hpc' hload hfull =>
    rw [hpc] at hpc'
    cases hpc'
    exact h.shared.space.closed hload hfull hm hle
  | _ => simp_all

/-- A pop gives up only if no push it knows of left an element. -/
theorem missed (h : Synchronised identity s) {t : Machine N T} {read time : ℕ}
    (hpc : s.consumer = .loadWrite read) (hstep : s.step .source (.consume time) = some t)
    (hfalse : t.consumer = .returned none) {time' : ℕ} {message : Message Index (Fin N) ℕ}
    (hm : s.memory.messages .write time' = some message)
    (hle : time' ≤ (s.memory.views .consumer).time .write) :
    message.value ≤ s.popped.length := by
  have hok : s.sequential.ConsumerOk _ (.loadWrite read) := h.sequential.consumerOk hpc
  obtain rfl : read = s.popped.length := hok
  cases Machine.step_effect hstep with
  | miss hpc' hload hmiss =>
    rw [hpc] at hpc'
    cases hpc'
    exact h.shared.elements.closed hload hmiss hm hle
  | _ => simp_all

end Synchronised

end Obz.SpscRingQueue
