import Obz.BlockingQueues.Pipeline

/-!
# Pipelines run to completion

Whatever the scheduler does, all threads of a pipeline come to the end of their
programs, up to spurious wake-ups in a bounded number of steps, and by then every
value has been delivered once.
-/
namespace Obz

open Foundation BlockingQueues

namespace BlockingQueues.Pipeline

variable {ι C L T : Type*} [Fintype ι] [DecidableEq ι] [DecidableEq C]
  {M : Monitor C L (ElementOp T) (Storage T) (Result T)} {B : Books M}
  {view : L → Result T → Option (ChannelEvent T)} {fits : ℕ → Prop}
  {P : Pipeline ι T} {ops : Operations B view fits}
  {s : MonitorState ι C L (Storage T) (Result T)}

/-! ### Nobody waits for ever -/

theorem call_of_consumes {t : ι} (hc : P.consumes t = true)
    (hmore : (s.eventsOf view t).getLast? ≠ some .finish) :
    P.call ops s t = some ops.waitAndPop := by
  unfold Pipeline.call
  rw [if_pos hc]
  split
  · rename_i hlast
    exact absurd hlast hmore
  · rfl

theorem getLast?_of_call_eq_none {t : ι} (hc : P.consumes t = true)
    (hnone : P.call ops s t = none) : (s.eventsOf view t).getLast? = some .finish := by
  by_contra hmore
  rw [call_of_consumes hc hmore] at hnone
  cases hnone

theorem call_of_closer (hown : (s.eventsOf view P.closer).length = (P.values P.closer).length)
    (hall : ∀ u, P.consumes u = false → P.Through s view u) :
    P.call ops s P.closer = some ops.close := by
  have hnone : (P.values P.closer)[(s.eventsOf view P.closer).length]? = none :=
    List.getElem?_eq_none hown.ge
  unfold Pipeline.call
  rw [if_neg (by simp [P.closer_pushes])]
  split
  · rename_i value hvalue
    rw [hnone] at hvalue
    cases hvalue
  · exact if_pos ⟨rfl, hown, hall⟩

theorem length_le_of_call_eq_none {t : ι} (hc : P.consumes t = false)
    (hnone : P.call ops s t = none) :
    (P.values t).length ≤ (s.eventsOf view t).length := by
  by_contra hlt
  have hvalue : (P.values t)[(s.eventsOf view t).length]? =
      some (P.values t)[(s.eventsOf view t).length] :=
    List.getElem?_eq_getElem (by omega)
  simp [Pipeline.call, hc, hvalue] at hnone

namespace Inv

/-- If nothing is under way and no program goes on, then nobody waits: the waiting consumers
would have found the queue empty, so no producer waits, and the closer would go on. -/
theorem not_waiting (h : P.Inv ops s) (hconsumer : ∃ t, P.consumes t = true)
    (hsettled : s.Settled) (hidle : ∀ t, (s.phase t).mayCall = true → P.call ops s t = none)
    {t : ι} {call : L} {c : C} : s.phase t ≠ .waiting call c := by
  intro ht
  obtain ⟨hphased, hbooks⟩ := h.books
  obtain ⟨-, hopen, -⟩ := Books.waiting_of_settled hphased hbooks hsettled ht
  rw [ops.shut] at hopen
  have hempty : s.data.queue = [] := by
    obtain ⟨u, hu⟩ := hconsumer
    rcases hsettled u with hmay | ⟨call', c', hphase⟩
    · have hlast := getLast?_of_call_eq_none hu (hidle u hmay)
      have hclosed := h.closed_of_finish (List.mem_of_getLast? hlast)
      simp [hopen] at hclosed
    · obtain ⟨hneed, -, hzero⟩ := Books.waiting_of_settled hphased hbooks hsettled hphase
      cases h.making (by rw [hphase]; rfl) with
      | pop _ _ => exact ops.empty hneed hzero
      | push hc _ => simp [hu] at hc
      | close hc _ _ => simp [hc, P.closer_pushes] at hu
  have hmay : ∀ u, P.consumes u = false → (s.phase u).mayCall = true := by
    intro u hu
    rcases hsettled u with hmay | ⟨call', c', hphase⟩
    · exact hmay
    · obtain ⟨hneed, -, hzero⟩ := Books.waiting_of_settled hphased hbooks hsettled hphase
      cases h.making (by rw [hphase]; rfl) with
      | pop hc _ => simp [hu] at hc
      | push _ _ => exact absurd hempty (ops.full hneed hzero)
      | close _ _ _ => exact absurd hneed (ops.never_waits c')
  have hthrough : ∀ u, P.consumes u = false → P.Through s view u := fun u hu =>
    ⟨hmay u hu, length_le_of_call_eq_none hu (hidle u (hmay u hu))⟩
  have hown := h.own_le P.closer_pushes
  rw [if_pos rfl, hopen] at hown
  have hnone := hidle P.closer (hmay P.closer P.closer_pushes)
  rw [call_of_closer (le_antisymm hown (hthrough _ P.closer_pushes).2) hthrough] at hnone
  cases hnone

/-- Some thread has come to its end, or some thread can go on. -/
theorem progress (h : P.Inv ops s) (hconsumer : ∃ t, P.consumes t = true) :
    P.Finished ops s ∨
      ∃ a s', a.spurious = false ∧ (P.system ops).step s a = some s' := by
  by_cases hsettled : s.Settled
  · by_cases hidle : ∀ t, (s.phase t).mayCall = true → P.call ops s t = none
    · refine Or.inl fun t => ?_
      rcases hsettled t with hmay | ⟨call, c, ht⟩
      · exact ⟨hmay, hidle t hmay⟩
      · exact absurd ht (h.not_waiting hconsumer hsettled hidle)
    · push Not at hidle
      obtain ⟨t, hmay, hcall⟩ := hidle
      obtain ⟨call, hcall⟩ := Option.ne_none_iff_exists'.mp hcall
      exact Or.inr ⟨.call t, s.setPhase t (.ready call), rfl,
        by simp [system, action, hcall, MonitorState.step, hmay]⟩
  · obtain ⟨t, ⟨s', hs'⟩ | ⟨target, s', hs'⟩ | ⟨s', hs'⟩⟩ :=
      MonitorState.exists_step_of_not_settled (M := M) ElementOp.succeeds hsettled
    · exact Or.inr ⟨.enter t, s', rfl, hs'⟩
    · exact Or.inr ⟨.notify t target, s', rfl, hs'⟩
    · exact Or.inr ⟨.ret t, s', rfl, hs'⟩

/-- When all programs have ended, the queue is closed and empty. -/
theorem finished (h : P.Inv ops s) (hconsumer : ∃ t, P.consumes t = true)
    (hfinished : P.Finished ops s) :
    s.data.queue = [] ∧ s.data.closed = true ∧
    Channel.delivered (s.events view) = Channel.accepted (s.events view) ∧
    (∀ t, P.consumes t = false → Channel.accepted (s.eventsOf view t) = P.values t) ∧
    ∀ t, P.consumes t = true → .finish ∈ s.eventsOf view t := by
  have hfinish : ∀ t, P.consumes t = true → .finish ∈ s.eventsOf view t := fun t ht =>
    List.mem_of_getLast? (getLast?_of_call_eq_none ht (hfinished t).2)
  obtain ⟨u, hu⟩ := hconsumer
  have hseen : .finish ∈ s.events view :=
    (MonitorState.eventsOf_sublist view s u).subset (hfinish u hu)
  have hall := Channel.delivered_all h.path hseen
  have hconserved := Channel.conserved h.path
  refine ⟨?_, h.closed_of_finish (hfinish u hu), hall.symm, fun t ht => ?_, hfinish⟩
  · simpa [Channel.empty, hall, Storage.channel] using hconserved
  · rw [h.pushed ht]
    exact List.take_of_length_le (length_le_of_call_eq_none ht (hfinished t).2)

/-! ### How long a run is -/

theorem length_delivered_le (h : P.Inv ops s) :
    (Channel.delivered (s.events view)).length ≤ P.total := by
  have hconserved := congrArg List.length (Channel.conserved h.path)
  simp only [Channel.empty, List.nil_append, List.length_append] at hconserved
  have hown : ∀ t, (Channel.accepted (s.eventsOf view t)).length ≤
      if P.consumes t = false then (P.values t).length else 0 := by
    intro t
    cases hc : P.consumes t with
    | false =>
      rw [h.pushed hc, List.length_take]
      exact Nat.min_le_right _ _
    | true =>
      rw [(h.popped hc).1]
      exact Nat.zero_le _
  calc (Channel.delivered (s.events view)).length
      ≤ (Channel.accepted (s.events view)).length := by omega
    _ = ∑ t, (Channel.accepted (s.eventsOf view t)).length :=
        (MonitorState.sum_length_eventsOf view _ s).symm
    _ ≤ ∑ t, if P.consumes t = false then (P.values t).length else 0 :=
        Finset.sum_le_sum fun t _ => hown t
    _ = P.total := (Finset.sum_filter _ _).symm

theorem length_pushes_le (h : P.Inv ops s) :
    ∑ t with P.consumes t = false, (s.eventsOf view t).length ≤ P.total + 1 := by
  have hown : ∀ t ∈ Finset.univ.filter fun t => P.consumes t = false,
      (s.eventsOf view t).length ≤ (P.values t).length + if t = P.closer then 1 else 0 := by
    intro t ht
    refine (h.own_le (Finset.mem_filter.mp ht).2).trans (Nat.add_le_add_left ?_ _)
    split_ifs
    · exact Bool.toNat_le _
    · exact le_rfl
  refine (Finset.sum_le_sum hown).trans ?_
  rw [Finset.sum_add_distrib, Finset.sum_ite_eq']
  refine Nat.add_le_add_left ?_ _
  split_ifs <;> omega

theorem length_pops_le (h : P.Inv ops s) :
    ∑ t with P.consumes t = true, (s.eventsOf view t).length ≤ P.total + P.consumers.card := by
  have hown : ∀ t ∈ P.consumers,
      (s.eventsOf view t).length ≤ (Channel.delivered (s.eventsOf view t)).length + 1 := by
    intro t ht
    rcases (h.popped (Finset.mem_filter.mp ht).2).2 with hlen | ⟨-, hlen⟩ <;> omega
  calc ∑ t ∈ P.consumers, (s.eventsOf view t).length
      ≤ ∑ t ∈ P.consumers, ((Channel.delivered (s.eventsOf view t)).length + 1) :=
        Finset.sum_le_sum hown
    _ = ∑ t ∈ P.consumers, (Channel.delivered (s.eventsOf view t)).length + P.consumers.card := by
        simp [Finset.sum_add_distrib]
    _ ≤ ∑ t, (Channel.delivered (s.eventsOf view t)).length + P.consumers.card :=
        Nat.add_le_add_right (Finset.sum_le_sum_of_subset (Finset.filter_subset _ _)) _
    _ = (Channel.delivered (s.events view)).length + P.consumers.card :=
        congrArg (· + _) (MonitorState.sum_length_eventsOf view _ s)
    _ ≤ P.total + P.consumers.card := Nat.add_le_add_right h.length_delivered_le _

/-- Values are pushed once and popped once, and every consumer is told the end once. -/
theorem length_history_le (h : P.Inv ops s) : s.history.length ≤ P.calls := by
  have hevents := MonitorState.sum_length_eventsOf view some s
  simp only [List.filterMap_some] at hevents
  have hsplit := Finset.sum_filter_add_sum_filter_not Finset.univ (fun t => P.consumes t = false)
    fun t => (s.eventsOf view t).length
  simp only [Bool.not_eq_false] at hsplit
  have hpushes := h.length_pushes_le
  have hpops := h.length_pops_le
  rw [h.counted, ← hevents, ← hsplit]
  unfold calls
  omega

end Inv

/-- Spurious wake-ups aside, every run is bounded by the number of calls. -/
theorem countP_le {as : List (PipelineAction ι)}
    (h : (P.system ops).run (P.system ops).start as = some s) :
    as.countP (fun a => !a.spurious) ≤
      2 * Fintype.card ι + (2 * Fintype.card ι + 5) * P.calls +
        as.countP PipelineAction.spurious := by
  have hinv : P.Inv ops s := .of_reachable (System.reachable_of_run h)
  have hcount := System.Reachable.countP_le_of_disturbed (M := P.system ops)
    (fun a => !a.spurious) PipelineAction.spurious MonitorState.work
    (fun u => (2 * (Fintype.card ι + 1) + 3) * u.history.length)
    (fun u a v _ hstep => by
      obtain ⟨b, -, hspurious, hop, -⟩ := step_operates hstep
      rw [← hspurious]
      exact MonitorState.work_step ops.notices hop) .start h
  have hwork : (P.system ops).start.work = 2 * Fintype.card ι := by
    simp [system, Monitor.system, MonitorState.work, MonitorState.total, Phase.work, Nat.mul_comm]
  have hhistory : (P.system ops).start.history.length = 0 := rfl
  have hcalls := Nat.mul_le_mul_left (2 * (Fintype.card ι + 1) + 3) hinv.length_history_le
  rw [hwork, hhistory, Nat.mul_zero] at hcount
  have hfactor : 2 * (Fintype.card ι + 1) + 3 = 2 * Fintype.card ι + 5 := by omega
  rw [hfactor] at hcount hcalls
  omega

variable (P ops s) in
/-- Pushed values arrive in order, no push is refused, and somebody can go on until all
programs have ended; by then every value has been delivered and every consumer knows. -/
structure Delivers : Prop where
  in_order : ∀ t, P.consumes t = false → Channel.accepted (s.eventsOf view t) <+: P.values t
  conserved : Channel.accepted (s.events view) =
    Channel.delivered (s.events view) ++ s.data.queue
  welcome : .refuse ∉ s.events view
  progress : P.Finished ops s ∨
    ∃ a s', a.spurious = false ∧ (P.system ops).step s a = some s'
  finished : P.Finished ops s → s.data.queue = [] ∧ s.data.closed = true ∧
    Channel.delivered (s.events view) = Channel.accepted (s.events view) ∧
    (∀ t, P.consumes t = false → Channel.accepted (s.eventsOf view t) = P.values t) ∧
    ∀ t, P.consumes t = true → .finish ∈ s.eventsOf view t

theorem delivers_of_reachable (hconsumer : ∃ t, P.consumes t = true)
    (h : (P.system ops).Reachable s) : P.Delivers ops s := by
  have hinv : P.Inv ops s := .of_reachable h
  exact {
    in_order := by
      intro t ht
      rw [hinv.pushed ht]
      exact List.take_prefix _ _
    conserved := Channel.conserved hinv.path
    welcome := hinv.welcome
    progress := hinv.progress hconsumer
    finished := hinv.finished hconsumer }

end BlockingQueues.Pipeline

namespace BoundedBlockingQueue

variable {T : Type*} {capacity : ℕ}

variable {value : T} {d d' : Storage T} {r : Result T} {call : Call T}
  {ns : List (Notice Condition)}

theorem accepts_of_leave (hopen : d.closed = false)
    (h : (monitor capacity T).body (.emplace value) .succeeds d = .leave d' r ns) :
    view (.emplace value) r = some (.accept value) := by
  have hleft : Left capacity d (.emplace value) .succeeds d' r ns := left_of_leave h
  cases hleft with
  | inserted _ _ hcall =>
    rcases hcall with ⟨hcall, rfl⟩ | ⟨hcall, -⟩ <;> cases hcall
    rfl
  | took _ hcall => rcases hcall with hcall | hcall <;> cases hcall
  | threw _ hop => exact absurd rfl hop
  | closed hcall => cases hcall
  | unchanged _ hcall =>
    have hclosed := hcall .notFull trivial
    simp [hopen] at hclosed

theorem delivers_of_leave
    (h : (monitor capacity T).body .waitAndPop .succeeds d = .leave d' r ns) :
    (∃ value, view .waitAndPop r = some (.deliver value)) ∨ view .waitAndPop r = some .finish := by
  simp only [monitor, body, waitAndPop] at h
  split_ifs at h
  rcases Storage.takeFront_succeeds h with ⟨-, -, rfl⟩ | ⟨front, rest, -, -, rfl⟩
  · exact Or.inr rfl
  · exact Or.inl ⟨front, rfl⟩

theorem length_notices_le {x : ElementOp T}
    (h : (monitor capacity T).body call x d = .leave d' r ns) : ns.length ≤ 2 := by
  cases left_of_leave h <;> simp

theorem not_failed_of_leave
    (h : (monitor capacity T).body call .succeeds d = .leave d' r ns) :
    ¬ (books capacity T).failed r := by
  intro hfailed
  obtain rfl : r = .threw := hfailed
  cases left_of_leave h with
  | inserted _ _ hcall => rcases hcall with ⟨_, hr⟩ | ⟨_, hr⟩ <;> cases hr
  | threw _ hop => exact hop rfl
  | unchanged hr _ => exact hr rfl

theorem queue_ne_nil_of_full (hcapacity : 0 < capacity) {c : Condition}
    (hneed : (books capacity T).needs (.emplace value) c)
    (hzero : (books capacity T).available c d = 0) : d.queue ≠ [] := by
  intro hempty
  cases c with
  | notFull =>
    have hfull : capacity - d.queue.length = 0 := hzero
    rw [hempty, List.length_nil] at hfull
    omega
  | notEmpty => cases hneed

theorem queue_eq_nil_of_needs {c : Condition} (hneed : (books capacity T).needs .waitAndPop c)
    (hzero : (books capacity T).available c d = 0) : d.queue = [] := by
  cases c with
  | notFull => cases hneed
  | notEmpty => exact List.length_eq_zero_iff.mp hzero

/-- The constructor refuses capacity zero. -/
def operations (capacity : ℕ) (hcapacity : 0 < capacity) :
    Operations (books capacity T) view (· < capacity) where
  emplace := .emplace
  waitAndPop := .waitAndPop
  close := .close
  initial := rfl
  refines := refines
  accepts := accepts_of_leave
  delivers := delivers_of_leave
  closes := by
    intro d d' r ns h
    cases h
    rfl
  notices := length_notices_le
  shut := fun _ => rfl
  succeeds := not_failed_of_leave
  full := queue_ne_nil_of_full hcapacity
  empty := queue_eq_nil_of_needs
  never_waits := by
    intro c hneed
    cases hneed

end BoundedBlockingQueue

namespace BlockingQueue

variable {T : Type*}

variable {value : T} {d d' : Storage T} {r : Result T} {call : Call T}
  {ns : List (Notice Condition)}

theorem accepts_of_leave (hopen : d.closed = false)
    (h : (monitor T).body (.emplace value) .succeeds d = .leave d' r ns) :
    view (.emplace value) r = some (.accept value) := by
  simp only [monitor, body, emplace, hopen, Storage.emplaceBack] at h
  cases h
  rfl

theorem delivers_of_leave (h : (monitor T).body .waitAndPop .succeeds d = .leave d' r ns) :
    (∃ value, view .waitAndPop r = some (.deliver value)) ∨ view .waitAndPop r = some .finish := by
  simp only [monitor, body, waitAndPop] at h
  split_ifs at h
  rcases Storage.takeFront_succeeds h with ⟨-, -, rfl⟩ | ⟨front, rest, -, -, rfl⟩
  · exact Or.inr rfl
  · exact Or.inl ⟨front, rfl⟩

theorem length_notices_le {x : ElementOp T} (h : (monitor T).body call x d = .leave d' r ns) :
    ns.length ≤ 2 := by
  cases left_of_leave h <;> simp

theorem not_failed_of_leave (h : (monitor T).body call .succeeds d = .leave d' r ns) :
    ¬ (books T).failed r := by
  intro hfailed
  obtain rfl : r = .threw := hfailed
  cases left_of_leave h with
  | threw _ hop => exact hop rfl
  | unchanged hr _ => exact hr rfl

def operations : Operations (books T) view fun _ => True where
  emplace := .emplace
  waitAndPop := .waitAndPop
  close := .close
  initial := rfl
  refines := refines
  accepts := accepts_of_leave
  delivers := delivers_of_leave
  closes := by
    intro d d' r ns h
    cases h
    rfl
  notices := length_notices_le
  shut := fun _ => rfl
  succeeds := not_failed_of_leave
  full := by
    intro value c d hneed
    cases hneed
  empty := fun _ hzero => List.length_eq_zero_iff.mp hzero
  never_waits := by
    intro c hneed
    cases hneed

end BlockingQueue

namespace BlockingQueues

variable {ι T : Type*} [Fintype ι] [DecidableEq ι]

/-- Producers and consumers come to the end of their programs whatever the scheduler does,
in a number of steps that the values, the threads and the spurious wake-ups bound; by
then every value has been delivered. -/
theorem pipelines_run_to_completion (P : Pipeline ι T) (hconsumer : ∃ t, P.consumes t = true)
    (capacity : ℕ) (hcapacity : 0 < capacity) :
    (∀ s, (P.system (BoundedBlockingQueue.operations capacity hcapacity)).Reachable s →
      P.Delivers (BoundedBlockingQueue.operations capacity hcapacity) s ∧
      s.data.queue.length ≤ capacity) ∧
    (∀ as s, (P.system (BoundedBlockingQueue.operations capacity hcapacity)).run
        (P.system (BoundedBlockingQueue.operations capacity hcapacity)).start as = some s →
      as.countP (fun a => !a.spurious) ≤
        2 * Fintype.card ι + (2 * Fintype.card ι + 5) * P.calls +
          as.countP PipelineAction.spurious) ∧
    (∀ s, (P.system BlockingQueue.operations).Reachable s →
      P.Delivers BlockingQueue.operations s) ∧
    (∀ as s, (P.system BlockingQueue.operations).run (P.system BlockingQueue.operations).start as =
        some s →
      as.countP (fun a => !a.spurious) ≤
        2 * Fintype.card ι + (2 * Fintype.card ι + 5) * P.calls +
          as.countP PipelineAction.spurious) := by
  refine ⟨fun s h => ⟨Pipeline.delivers_of_reachable hconsumer h, ?_⟩,
    fun as s h => Pipeline.countP_le h, fun s h => Pipeline.delivers_of_reachable hconsumer h,
    fun as s h => Pipeline.countP_le h⟩
  exact Channel.length_le (fun _ hn => hn) (Pipeline.Inv.of_reachable h).path (Nat.zero_le _)

/-- The producer waits for the only place once, then closes the queue. -/
def oneByOne : Pipeline Bool ℕ where
  values := fun t => if t then [7, 8] else []
  consumes := fun t => !t
  closer := true
  closer_pushes := rfl

def oneByOneRun : List (PipelineAction Bool) :=
  [.call true, .enter true, .notify true none, .ret true, .call true, .enter true,
    .call false, .enter false, .notify false (some true), .ret false,
    .enter true, .notify true none, .ret true,
    .call true, .enter true, .notify true none, .notify true none, .ret true,
    .call false, .enter false, .notify false none, .ret false,
    .call false, .enter false, .ret false]

def oneByOneEnd : BoundedBlockingQueue.State Bool ℕ :=
  (oneByOne.system (BoundedBlockingQueue.operations 1 Nat.one_pos)).after oneByOneRun

theorem pipelines_run_to_completion_one_by_one :
    oneByOneEnd.data.queue = [] ∧
    Channel.accepted (oneByOneEnd.eventsOf BoundedBlockingQueue.view true) =
      oneByOne.values true := by
  have hreach : (oneByOne.system (BoundedBlockingQueue.operations 1 Nat.one_pos)).Reachable
      oneByOneEnd := System.reachable_after oneByOneRun
  have h := (pipelines_run_to_completion oneByOne ⟨false, rfl⟩ 1 Nat.one_pos).1 _ hreach
  have hfinished : oneByOne.Finished (BoundedBlockingQueue.operations 1 Nat.one_pos)
      oneByOneEnd := by
    unfold Pipeline.Finished
    decide +kernel
  obtain ⟨hempty, -, -, hall, -⟩ := h.1.finished hfinished
  exact ⟨hempty, hall true rfl⟩

end BlockingQueues
end Obz
