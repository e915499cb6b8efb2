import Obz.BlockingQueues.BlockingQueue
import Obz.BlockingQueues.BoundedBlockingQueue

/-!
# Wake-ups of the blocking queues

Without exceptions no wake-up is lost in either queue. A call that throws after
it was resumed by a notification keeps that notification to itself, and then a
thread can wait for something that is there; this is so exactly when no other
notification covers for the one that is gone.
-/
namespace Obz

open Foundation BlockingQueues

namespace BlockingQueues

variable {ι T : Type*}

/-- No operation of the element type throws in the step. -/
def NoThrow {σ L : Type*} (_ : σ) : MonitorAction ι L (ElementOp T) → Prop
  | .enter _ op => op = .succeeds
  | _ => True

end BlockingQueues

namespace BoundedBlockingQueue

variable {ι T : Type*} {capacity : ℕ}

abbrev State (ι T : Type*) := MonitorState ι Condition (Call T) (Storage T) (Result T)

theorem thrifty_of_noThrow {s : State ι T} {a : MonitorAction ι (Call T) (ElementOp T)}
    (h : NoThrow s a) : (books capacity T).Thrifty s a := by
  rintro c ⟨t, op, call, d, r, ns, rfl, _, hbody, hfailed⟩
  obtain rfl : op = .succeeds := h
  cases left_of_leave hbody with
  | threw hsame hop => exact hop rfl
  | inserted _ _ hcall => rcases hcall with ⟨_, rfl⟩ | ⟨_, rfl⟩ <;> cases hfailed
  | unchanged hr _ => exact hr hfailed
  | _ => cases hfailed

/-- A call that ends in an exception leaves every element in its place. -/
theorem samePlaces_of_threw [Fintype ι] [DecidableEq ι] {s s' : State ι T} {t : ι}
    {op : ElementOp T} {call : Call T} {ns : List (Notice Condition)}
    (hstep : s.step (monitor capacity T) (.enter t op) = some s')
    (hthrew : s'.phase t = .leaving call ns .threw) : s.data.SamePlaces s'.data := by
  cases monitor_effect hstep with
  | block ht hbody => simp [MonitorState.setPhase] at hthrew
  | leave ht hbody =>
    simp only [MonitorState.setPhase, Function.update_self, Phase.leaving.injEq] at hthrew
    obtain ⟨rfl, rfl, rfl⟩ := hthrew
    cases left_of_leave hbody with
    | threw hsame hop => exact hsame
    | inserted _ _ hcall => rcases hcall with ⟨_, hr⟩ | ⟨_, hr⟩ <;> cases hr
    | unchanged hr _ => exact absurd rfl hr

end BoundedBlockingQueue

namespace BlockingQueue

variable {ι T : Type*}

abbrev State (ι T : Type*) := MonitorState ι Condition (Call T) (Storage T) (Result T)

theorem thrifty_of_noThrow {s : State ι T} {a : MonitorAction ι (Call T) (ElementOp T)}
    (h : NoThrow s a) : (books T).Thrifty s a := by
  rintro c ⟨t, op, call, d, r, ns, rfl, _, hbody, hfailed⟩
  obtain rfl : op = .succeeds := h
  cases left_of_leave hbody with
  | threw hsame hop => exact hop rfl
  | unchanged hr _ => exact hr hfailed
  | _ => cases hfailed

/-- A call that ends in an exception leaves every element in its place. -/
theorem samePlaces_of_threw [Fintype ι] [DecidableEq ι] {s s' : State ι T} {t : ι}
    {op : ElementOp T} {call : Call T} {ns : List (Notice Condition)}
    (hstep : s.step (monitor T) (.enter t op) = some s')
    (hthrew : s'.phase t = .leaving call ns .threw) : s.data.SamePlaces s'.data := by
  cases monitor_effect hstep with
  | block ht hbody => simp [MonitorState.setPhase] at hthrew
  | leave ht hbody =>
    simp only [MonitorState.setPhase, Function.update_self, Phase.leaving.injEq] at hthrew
    obtain ⟨rfl, rfl, rfl⟩ := hthrew
    cases left_of_leave hbody with
    | threw hsame hop => exact hsame
    | unchanged hr _ => exact absurd rfl hr

end BlockingQueue

namespace BlockingQueues

variable {ι T : Type*} [Fintype ι] [DecidableEq ι]

/-- While no element operation throws: a producer that waits un-notified waits
for at most as many places as notified producers and notifications owed will
claim, and a consumer for at most as many elements; and whoever still waits in a
closed queue is owed a notification by a call of `close`. -/
theorem no_wakeup_lost (capacity : ℕ) :
    (∀ s : BoundedBlockingQueue.State ι T,
      (BoundedBlockingQueue.monitor capacity T).system.Follows NoThrow
        (BoundedBlockingQueue.monitor capacity T).system.start s →
      (s.data.closed = false → (∃ p call, s.phase p = .waiting call .notFull) →
        capacity - s.data.queue.length ≤ s.notified .notFull + s.pending .notFull) ∧
      (s.data.closed = false → (∃ p call, s.phase p = .waiting call .notEmpty) →
        s.data.queue.length ≤ s.notified .notEmpty + s.pending .notEmpty) ∧
      (s.data.closed = true → ∀ c, (∃ p call, s.phase p = .waiting call c) →
        ∃ u ns r, s.phase u = .leaving .close ns r ∧ .all c ∈ ns)) ∧
    (∀ s : BlockingQueue.State ι T,
      (BlockingQueue.monitor T).system.Follows NoThrow (BlockingQueue.monitor T).system.start s →
      (s.data.closed = false → (∃ p call, s.phase p = .waiting call .condition) →
        s.data.queue.length ≤ s.notified .condition + s.pending .condition) ∧
      (s.data.closed = true → (∃ p call, s.phase p = .waiting call .condition) →
        ∃ u ns r, s.phase u = .leaving .close ns r ∧ .all .condition ∈ ns)) := by
  constructor
  · intro s h
    obtain ⟨hphased, hbooks⟩ :=
      Books.safe_of_follows (B := BoundedBlockingQueue.books capacity T)
        (h.mono fun _ _ ha => BoundedBlockingQueue.thrifty_of_noThrow ha)
    refine ⟨fun hopen hwait => Books.available_le (hbooks .notFull).1 hopen hwait,
      fun hopen hwait => Books.available_le (hbooks .notEmpty).1 hopen hwait,
      fun hshut c hwait => ?_⟩
    obtain ⟨u, call, ns, r, hu, hmem, rfl⟩ :=
      Books.exists_closer hphased (hbooks c).2 hshut hwait
    exact ⟨u, ns, r, hu, hmem⟩
  · intro s h
    obtain ⟨hphased, hbooks⟩ :=
      Books.safe_of_follows (B := BlockingQueue.books T)
        (h.mono fun _ _ ha => BlockingQueue.thrifty_of_noThrow ha)
    refine ⟨fun hopen hwait => Books.available_le (hbooks .condition).1 hopen hwait,
      fun hshut hwait => ?_⟩
    obtain ⟨u, call, ns, r, hu, hmem, rfl⟩ :=
      Books.exists_closer hphased (hbooks .condition).2 hshut hwait
    exact ⟨u, ns, r, hu, hmem⟩

/-- Two producers wait for the only place of a queue; it becomes free and one is notified. -/
def waitingProducers : List (MonitorAction (Fin 3) (BoundedBlockingQueue.Call ℕ) (ElementOp ℕ)) :=
  [.call 2 (.emplace 10), .enter 2 .succeeds, .notify 2 none, .ret 2,
    .call 0 (.emplace 11), .enter 0 .succeeds, .call 1 (.emplace 12), .enter 1 .succeeds,
    .call 2 .tryPop, .enter 2 .succeeds, .notify 2 (some 0)]

theorem waitingProducers_follows :
    (BoundedBlockingQueue.monitor 1 ℕ).system.Follows NoThrow
      (BoundedBlockingQueue.monitor 1 ℕ).system.start
      ((BoundedBlockingQueue.monitor 1 ℕ).system.after waitingProducers) :=
  System.follows_of_run (fun _ => by simp [waitingProducers, NoThrow])
    (rfl : (BoundedBlockingQueue.monitor 1 ℕ).system.run _ waitingProducers = some _)

theorem no_wakeup_lost_waiting_producers :
    let s := (BoundedBlockingQueue.monitor 1 ℕ).system.after waitingProducers
    1 - s.data.queue.length ≤ s.notified .notFull + s.pending .notFull := by
  intro s
  exact ((no_wakeup_lost 1).1 s waitingProducers_follows).1 rfl ⟨1, .emplace 12, by decide⟩

/-- After an exceptional exit a producer can wait although a place is free. -/
theorem not_strands_nobody :
    ¬ ∀ s : BoundedBlockingQueue.State (Fin 3) ℕ,
      (BoundedBlockingQueue.monitor 1 ℕ).system.Reachable s →
      (∃ t call, s.phase t = .leaving call [] .threw) →
      ∀ c, ¬ (BoundedBlockingQueue.books 1 ℕ).Stranded s c := by
  intro h
  refine h _ (System.reachable_after (waitingProducers ++ [.enter 0 .constructThrows]))
    ⟨0, .emplace 11, by decide⟩ .notFull ?_
  unfold Books.Stranded
  decide

/-- Exceptional exits leave the elements in place. No thread is ever stranded in a
run in which each notification they keep is backed by others; and once one is not
backed, a thread can be stranded although no call keeps a notification any more. -/
theorem strands_nobody_iff_backed (capacity : ℕ) :
    (∀ s : BoundedBlockingQueue.State ι T,
      ((BoundedBlockingQueue.monitor capacity T).system.Follows
        (BoundedBlockingQueue.books capacity T).Backed
        (BoundedBlockingQueue.monitor capacity T).system.start s →
      ∀ c, ¬ (BoundedBlockingQueue.books capacity T).Stranded s c) ∧
      ((BoundedBlockingQueue.monitor capacity T).system.Reachable s →
        ∀ a s', s.step (BoundedBlockingQueue.monitor capacity T) a = some s' →
          ¬ (BoundedBlockingQueue.books capacity T).Backed s a →
          ∃ t c, (BoundedBlockingQueue.monitor capacity T).system.Follows
              (BoundedBlockingQueue.books capacity T).Thrifty s' t ∧
            (BoundedBlockingQueue.books capacity T).Stranded t c) ∧
      ∀ t op call s', s.step (BoundedBlockingQueue.monitor capacity T) (.enter t op) = some s' →
        s'.phase t = .leaving call [] .threw → s.data.SamePlaces s'.data) ∧
    (∀ s : BlockingQueue.State ι T,
      ((BlockingQueue.monitor T).system.Follows (BlockingQueue.books T).Backed
        (BlockingQueue.monitor T).system.start s →
      ∀ c, ¬ (BlockingQueue.books T).Stranded s c) ∧
      ((BlockingQueue.monitor T).system.Reachable s →
        ∀ a s', s.step (BlockingQueue.monitor T) a = some s' →
          ¬ (BlockingQueue.books T).Backed s a →
          ∃ t c, (BlockingQueue.monitor T).system.Follows (BlockingQueue.books T).Thrifty s' t ∧
            (BlockingQueue.books T).Stranded t c) ∧
      ∀ t op call s', s.step (BlockingQueue.monitor T) (.enter t op) = some s' →
        s'.phase t = .leaving call [] .threw → s.data.SamePlaces s'.data) := by
  refine ⟨fun s => ⟨fun h c => ?_, fun h a s' hstep hnot => ?_, fun _ _ _ _ hstep hthrew =>
      BoundedBlockingQueue.samePlaces_of_threw hstep hthrew⟩,
    fun s => ⟨fun h c => ?_, fun h a s' hstep hnot => ?_, fun _ _ _ _ hstep hthrew =>
      BlockingQueue.samePlaces_of_threw hstep hthrew⟩⟩
  · obtain ⟨_, hbooks⟩ := Books.covered_of_follows h
    exact Books.not_stranded (hbooks c).1 (hbooks c).2
  · exact Books.exists_stranded_of_not_backed BoundedBlockingQueue.obliging
      (Books.wellPhased_of_reachable h) hstep hnot
  · obtain ⟨_, hbooks⟩ := Books.covered_of_follows h
    exact Books.not_stranded (hbooks c).1 (hbooks c).2
  · exact Books.exists_stranded_of_not_backed BlockingQueue.obliging
      (Books.wellPhased_of_reachable h) hstep hnot

/-- The only waiting producer is notified that the only place is free. -/
def lastProducer : List (MonitorAction (Fin 2) (BoundedBlockingQueue.Call ℕ) (ElementOp ℕ)) :=
  [.call 1 (.emplace 10), .enter 1 .succeeds, .notify 1 none, .ret 1,
    .call 0 (.emplace 11), .enter 0 .succeeds, .call 1 .tryPop, .enter 1 .succeeds,
    .notify 1 (some 0)]

theorem lastProducer_follows :
    (BoundedBlockingQueue.monitor 1 ℕ).system.Follows NoThrow
      (BoundedBlockingQueue.monitor 1 ℕ).system.start
      ((BoundedBlockingQueue.monitor 1 ℕ).system.after lastProducer) :=
  System.follows_of_run (fun _ => by simp [lastProducer, NoThrow])
    (rfl : (BoundedBlockingQueue.monitor 1 ℕ).system.run _ lastProducer = some _)

/-- Its construction throws, and nobody waits for the notification that it keeps. -/
theorem strands_nobody_iff_backed_last_producer :
    let s := (BoundedBlockingQueue.monitor 1 ℕ).system.after lastProducer
    let s' := (BoundedBlockingQueue.monitor 1 ℕ).system.after
      (lastProducer ++ [.enter 0 .constructThrows])
    s.phase 0 = .woken (.emplace 11) .notFull true ∧
      s'.phase 0 = .leaving (.emplace 11) [] .threw ∧
      ¬ (BoundedBlockingQueue.books 1 ℕ).Stranded s' .notFull ∧ s.data.SamePlaces s'.data := by
  intro s s'
  have hstep : s.step (BoundedBlockingQueue.monitor 1 ℕ) (.enter 0 .constructThrows) = some s' :=
    rfl
  have hthrew : s'.phase 0 = .leaving (.emplace 11) [] .threw := by decide
  have hbefore : (BoundedBlockingQueue.monitor 1 ℕ).system.Follows
      (BoundedBlockingQueue.books 1 ℕ).Backed
      (BoundedBlockingQueue.monitor 1 ℕ).system.start s :=
    lastProducer_follows.mono fun u a ha c hforfeits =>
      absurd hforfeits (BoundedBlockingQueue.thrifty_of_noThrow ha c)
  have hbacked : (BoundedBlockingQueue.books 1 ℕ).Backed s (.enter 0 .constructThrows) := by
    intro c _
    refine Or.inr (Or.inl ?_)
    cases c <;> decide
  have h := (strands_nobody_iff_backed (ι := Fin 2) (T := ℕ) 1).1
  exact ⟨by decide, hthrew, (h s').1 (hbefore.snoc hbacked hstep) .notFull,
    (h s).2.2 0 .constructThrows (.emplace 11) s' hstep hthrew⟩

end BlockingQueues
end Obz
