import Obz.BlockingQueues.Safety
import Obz.Foundation.MonitorProgress

/-!
# Producers and consumers at a blocking queue

The use both queues are made for: threads push their values, one of them closes
the queue when all have returned from their last push, and consumers pop until
they are told that nothing follows. The programs say which calls are made, the
scheduler in which order their steps come.
-/
namespace Obz.BlockingQueues

open Foundation

variable {ι C L T : Type*}

/-- `closer` is the thread that joins the producers, or one of them. -/
structure Pipeline (ι T : Type*) where
  values : ι → List T
  consumes : ι → Bool
  closer : ι
  closer_pushes : consumes closer = false

/-- What a pipeline calls, and what it relies on in a queue. -/
structure Operations [DecidableEq C] {M : Monitor C L (ElementOp T) (Storage T) (Result T)}
    (B : Books M) (view : L → Result T → Option (ChannelEvent T)) (fits : ℕ → Prop) where
  emplace : T → L
  waitAndPop : L
  close : L
  initial : M.initial = ⟨[], false⟩
  refines : Refines M view fits
  accepts : ∀ {value d d' r ns}, d.closed = false →
    M.body (emplace value) .succeeds d = .leave d' r ns →
      view (emplace value) r = some (.accept value)
  delivers : ∀ {d d' r ns}, M.body waitAndPop .succeeds d = .leave d' r ns →
    (∃ value, view waitAndPop r = some (.deliver value)) ∨ view waitAndPop r = some .finish
  closes : ∀ {d d' r ns}, M.body close .succeeds d = .leave d' r ns → view close r = some .close
  notices : ∀ {call x d d' r ns}, M.body call x d = .leave d' r ns → ns.length ≤ 2
  shut : ∀ d, B.shut d = d.closed
  succeeds : ∀ {call d d' r ns}, M.body call .succeeds d = .leave d' r ns → ¬ B.failed r
  full : ∀ {value c d}, B.needs (emplace value) c → B.available c d = 0 → d.queue ≠ []
  empty : ∀ {c d}, B.needs waitAndPop c → B.available c d = 0 → d.queue = []
  never_waits : ∀ c, ¬ B.needs close c

/-- The scheduler picks a thread; which call it makes is for its program to say. -/
inductive PipelineAction (ι : Type*) where
  | call (t : ι)
  | enter (t : ι)
  | wake (t : ι)
  | notify (t : ι) (target : Option ι)
  | ret (t : ι)

def PipelineAction.spurious : PipelineAction ι → Bool
  | .wake _ => true
  | _ => false

namespace Pipeline

section Program

variable [Fintype ι] [DecidableEq ι] [DecidableEq C]
  {M : Monitor C L (ElementOp T) (Storage T) (Result T)} {B : Books M}
  {view : L → Result T → Option (ChannelEvent T)} {fits : ℕ → Prop}
  (P : Pipeline ι T) (ops : Operations B view fits)
  (s : MonitorState ι C L (Storage T) (Result T))

/-- The thread has returned from its last push. -/
def Through (view : L → Result T → Option (ChannelEvent T)) (t : ι) : Prop :=
  (s.phase t).mayCall = true ∧ (P.values t).length ≤ (s.eventsOf view t).length

instance (t : ι) : Decidable (P.Through s view t) := inferInstanceAs (Decidable (_ ∧ _))

/-- The next call in the program of a thread, `none` at its end or before a `join`. -/
def call (t : ι) : Option L :=
  if P.consumes t then
    match (s.eventsOf view t).getLast? with
    | some .finish => none
    | _ => some ops.waitAndPop
  else
    match (P.values t)[(s.eventsOf view t).length]? with
    | some value => some (ops.emplace value)
    | none =>
      if t = P.closer ∧ (s.eventsOf view t).length = (P.values t).length ∧
          ∀ u, P.consumes u = false → P.Through s view u then some ops.close
      else none

def action : PipelineAction ι → Option (MonitorAction ι L (ElementOp T))
  | .call t => (P.call ops s t).map (.call t)
  | .enter t => some (.enter t .succeeds)
  | .wake t => some (.wake t)
  | .notify t target => some (.notify t target)
  | .ret t => some (.ret t)

def system : System (MonitorState ι C L (Storage T) (Result T)) (PipelineAction ι) where
  start := M.system.start
  step s a := (P.action ops s a).bind (s.step M)

/-- Every thread has come to the end of its program. -/
def Finished : Prop := ∀ t, (s.phase t).mayCall = true ∧ P.call ops s t = none

def total : ℕ := ∑ t with P.consumes t = false, (P.values t).length

def consumers : Finset ι := Finset.univ.filter fun t => P.consumes t = true

/-- How many calls a pipeline makes at most. -/
def calls : ℕ := 2 * P.total + P.consumers.card + 1

/-! ### Which call a thread is in -/

/-- What a thread inside a call has set out to do. -/
inductive Making (t : ι) : L → Prop
  | pop (hc : P.consumes t = true) (hmore : (s.eventsOf view t).getLast? ≠ some .finish) :
      Making t ops.waitAndPop
  | push {value} (hc : P.consumes t = false)
      (hvalue : (P.values t)[(s.eventsOf view t).length]? = some value) :
      Making t (ops.emplace value)
  | close (ht : t = P.closer) (hown : (s.eventsOf view t).length = (P.values t).length)
      (hall : ∀ u, P.consumes u = false → (P.values u).length ≤ (s.eventsOf view u).length) :
      Making t ops.close

/-- What leaving the call was to the channel. -/
inductive Did (view : L → Result T → Option (ChannelEvent T)) (t : ι) : ChannelEvent T → Prop
  | pop {value} (hc : P.consumes t = true)
      (hmore : (s.eventsOf view t).getLast? ≠ some .finish) : Did view t (.deliver value)
  | finish (hc : P.consumes t = true)
      (hmore : (s.eventsOf view t).getLast? ≠ some .finish) : Did view t .finish
  | push {value} (hc : P.consumes t = false)
      (hvalue : (P.values t)[(s.eventsOf view t).length]? = some value) : Did view t (.accept value)
  | close (ht : t = P.closer) (hown : (s.eventsOf view t).length = (P.values t).length)
      (hall : ∀ u, P.consumes u = false → (P.values u).length ≤ (s.eventsOf view u).length) :
      Did view t .close

/-- The state of the programs and of the queue between the steps. -/
structure Inv : Prop where
  follows : M.system.Follows NoThrow M.system.start s
  making : ∀ {t call}, (s.phase t).current = some call → P.Making ops s t call
  pushed : ∀ {t}, P.consumes t = false →
    Channel.accepted (s.eventsOf view t) = (P.values t).take (s.eventsOf view t).length
  popped : ∀ {t}, P.consumes t = true → Channel.accepted (s.eventsOf view t) = [] ∧
    ((s.eventsOf view t).length = (Channel.delivered (s.eventsOf view t)).length ∨
      (s.eventsOf view t).getLast? = some .finish ∧
        (s.eventsOf view t).length = (Channel.delivered (s.eventsOf view t)).length + 1)
  /-- Nobody closes the queue before the last push, ... -/
  ended : s.data.closed = true → ∀ {t}, P.consumes t = false →
    (P.values t).length ≤ (s.eventsOf view t).length
  /-- ... and after it there is at most the call of `close`. -/
  own_le : ∀ {t}, P.consumes t = false → (s.eventsOf view t).length ≤ (P.values t).length +
    if t = P.closer then s.data.closed.toNat else 0
  welcome : .refuse ∉ s.events view
  counted : s.history.length = (s.events view).length

variable {P ops s}

theorem making_of_call {t : ι} {call : L} (h : P.call ops s t = some call) :
    P.Making ops s t call := by
  unfold Pipeline.call at h
  cases hc : P.consumes t with
  | true =>
    simp only [hc, if_true] at h
    split at h
    · cases h
    · rename_i hmore
      cases h
      exact .pop hc hmore
  | false =>
    simp only [hc, Bool.false_eq_true, if_false] at h
    split at h
    · rename_i value hvalue
      cases h
      exact .push hc hvalue
    · split_ifs at h with hclose
      cases h
      exact .close hclose.1 hclose.2.1 fun u hu => (hclose.2.2 u hu).2

/-- A step of the pipeline is a step of the queue in which nothing throws. -/
theorem step_operates {s' : MonitorState ι C L (Storage T) (Result T)} {a : PipelineAction ι}
    (h : (P.system ops).step s a = some s') :
    ∃ b, NoThrow s b ∧ b.spurious = a.spurious ∧ s.step M b = some s' ∧
      ∀ t call, b = .call t call → P.call ops s t = some call := by
  obtain ⟨b, hb, hstep⟩ := Option.bind_eq_some_iff.mp h
  cases a with
  | call t =>
    obtain ⟨call, hcall, rfl⟩ := Option.map_eq_some_iff.mp hb
    refine ⟨.call t call, trivial, rfl, hstep, ?_⟩
    rintro u call' heq
    cases heq
    exact hcall
  | enter t =>
    cases hb
    exact ⟨.enter t .succeeds, rfl, rfl, hstep, by simp⟩
  | wake t =>
    cases hb
    exact ⟨.wake t, trivial, rfl, hstep, by simp⟩
  | notify t target =>
    cases hb
    exact ⟨.notify t target, trivial, rfl, hstep, by simp⟩
  | ret t =>
    cases hb
    exact ⟨.ret t, trivial, rfl, hstep, by simp⟩

/-! ### What a step keeps -/

variable {s' : MonitorState ι C L (Storage T) (Result T)}

omit [Fintype ι] in
theorem Making.of_same {t : ι} {call : L} (h : P.Making ops s t call)
    (hsame : s'.history = s.history) : P.Making ops s' t call := by
  have hown := MonitorState.eventsOf_same view hsame
  cases h with
  | pop hc hmore => exact .pop hc (by rwa [hown])
  | push hc hvalue => exact .push hc (by rwa [hown])
  | close ht hclose hall =>
    refine .close ht (by rwa [hown]) fun u hu => ?_
    rw [hown]
    exact hall u hu

omit [Fintype ι] in
/-- The histories of other threads only grow. -/
theorem Making.of_grown {t u : ι} {call call' : L} {r : Result T} {e : ChannelEvent T}
    (h : P.Making ops s t call) (hne : t ≠ u) (hgrown : s'.history = s.history ++ [(u, call', r)])
    (hview : view call' r = some e) : P.Making ops s' t call := by
  obtain ⟨hself, hother⟩ := MonitorState.eventsOf_grown hgrown hview
  cases h with
  | pop hc hmore => exact .pop hc (by rwa [hother t hne])
  | push hc hvalue => exact .push hc (by rwa [hother t hne])
  | close ht hclose hall =>
    refine .close ht (by rwa [hother t hne]) fun v hv => (hall v hv).trans ?_
    by_cases hvu : v = u
    · subst hvu
      rw [hself, List.length_append]
      exact Nat.le_add_right _ _
    · rw [hother v hvu]

namespace Inv

theorem start : P.Inv ops M.system.start where
  follows := .refl _
  making := by
    intro t call h
    cases h
  pushed := by
    intro t _
    rfl
  popped := by
    intro t _
    exact ⟨rfl, Or.inl rfl⟩
  ended := by
    intro h
    have hopen : M.initial.closed = true := h
    rw [ops.initial] at hopen
    cases hopen
  own_le := by
    intro t _
    exact Nat.zero_le _
  welcome := by simp [MonitorState.events, Monitor.system]
  counted := rfl

/-- Steps outside the critical sections. -/
theorem of_same (h : P.Inv ops s) (hfollows : M.system.Follows NoThrow M.system.start s')
    (hdata : s'.data = s.data) (hsame : s'.history = s.history)
    (hmaking : ∀ {t call}, (s'.phase t).current = some call → P.Making ops s t call) :
    P.Inv ops s' := by
  have hown := MonitorState.eventsOf_same view hsame
  have hevents : s'.events view = s.events view := by
    rw [MonitorState.events, hsame]
    rfl
  exact {
    follows := hfollows
    making := fun hcall => (hmaking hcall).of_same hsame
    pushed := by
      intro t hc
      rw [hown]
      exact h.pushed hc
    popped := by
      intro t hc
      rw [hown]
      exact h.popped hc
    ended := by
      intro hclosed t hc
      rw [hown]
      exact h.ended (hdata ▸ hclosed) hc
    own_le := by
      intro t hc
      rw [hown, hdata]
      exact h.own_le hc
    welcome := by
      rw [hevents]
      exact h.welcome
    counted := by
      rw [hsame, hevents]
      exact h.counted }

/-- While somebody has a value to push the queue is open. -/
theorem open_of_push (h : P.Inv ops s) {t : ι} {value : T} (hc : P.consumes t = false)
    (hvalue : (P.values t)[(s.eventsOf view t).length]? = some value) :
    s.data.closed = false := by
  rw [Bool.eq_false_iff]
  intro hclosed
  have hle := h.ended hclosed hc
  obtain ⟨hlt, -⟩ := List.getElem?_eq_some_iff.mp hvalue
  omega

/-- A call that leaves the queue does what its thread has set out to do. -/
theorem did (h : P.Inv ops s) {t : ι} {call : L} {d : Storage T} {r : Result T}
    {ns : List (Notice C)} (hcall : (s.phase t).current = some call)
    (hbody : M.body call .succeeds s.data = .leave d r ns) :
    ∃ e, view call r = some e ∧ P.Did s view t e ∧
      Channel.Step fits s.data.channel e d.channel := by
  have hstep := ops.refines call s.data d r ns hbody
  cases h.making hcall with
  | pop hc hmore =>
    rcases ops.delivers hbody with ⟨value, hview⟩ | hview
    · rw [hview] at hstep
      exact ⟨_, hview, .pop hc hmore, hstep⟩
    · rw [hview] at hstep
      exact ⟨_, hview, .finish hc hmore, hstep⟩
  | push hc hvalue =>
    have hview := ops.accepts (h.open_of_push hc hvalue) hbody
    rw [hview] at hstep
    exact ⟨_, hview, .push hc hvalue, hstep⟩
  | close ht hown hall =>
    have hview := ops.closes hbody
    rw [hview] at hstep
    exact ⟨_, hview, .close ht hown hall, hstep⟩

/-- The end of a critical section. -/
theorem left (h : P.Inv ops s) {t : ι} {call : L} {r : Result T} {ns : List (Notice C)}
    (hfollows : M.system.Follows NoThrow M.system.start s')
    (hcall : (s.phase t).current = some call)
    (hbody : M.body call .succeeds s.data = .leave s'.data r ns)
    (hgrown : s'.history = s.history ++ [(t, call, r)])
    (hcurrent : ∀ {u call'}, (s'.phase u).current = some call' →
      u ≠ t ∧ (s.phase u).current = some call') : P.Inv ops s' := by
  obtain ⟨e, hview, hdid, hstep⟩ := h.did hcall hbody
  have hshut : s'.data.closed = true ↔ s.data.closed = true ∨ e = .close := hstep.closed_iff
  obtain ⟨hself, hother⟩ := MonitorState.eventsOf_grown hgrown hview
  have hevents : s'.events view = s.events view ++ [e] := by
    rw [MonitorState.events_grown hgrown]
    simp [hview]
  have hle : ∀ u, (s.eventsOf view u).length ≤ (s'.eventsOf view u).length := by
    intro u
    by_cases hu : u = t
    · subst hu
      rw [hself, List.length_append]
      exact Nat.le_add_right _ _
    · rw [hother u hu]
  refine ⟨hfollows, ?making, ?pushed, ?popped, ?ended, ?own_le, ?welcome, ?counted⟩
  case making =>
    intro u call' hu
    obtain ⟨hne, hold⟩ := hcurrent hu
    exact (h.making hold).of_grown hne hgrown hview
  case pushed =>
    intro u hc
    by_cases hu : u = t
    · subst hu
      have hpushed := h.pushed hc
      rw [hself, Channel.accepted_append, hpushed, List.length_append, List.length_singleton]
      cases hdid with
      | push _ hvalue =>
        obtain ⟨hlt, hget⟩ := List.getElem?_eq_some_iff.mp hvalue
        rw [List.take_add_one, hvalue]
        rfl
      | close _ hown _ =>
        rw [List.take_of_length_le hown.ge, List.take_of_length_le (by omega)]
        simp [Channel.accepted]
      | pop hc' _ | finish hc' _ => simp [hc'] at hc
    · rw [hother u hu]
      exact h.pushed hc
  case popped =>
    intro u hc
    by_cases hu : u = t
    · subst hu
      obtain ⟨haccepted, hlen⟩ := h.popped hc
      rw [hself, Channel.accepted_append, Channel.delivered_append, haccepted]
      cases hdid with
      | pop _ hmore =>
        have hlen := hlen.resolve_right fun hlast => hmore hlast.1
        refine ⟨rfl, Or.inl ?_⟩
        rw [List.length_append, List.length_append, hlen]
        rfl
      | finish _ hmore =>
        have hlen := hlen.resolve_right fun hlast => hmore hlast.1
        refine ⟨rfl, Or.inr ⟨by simp, ?_⟩⟩
        rw [List.length_append, hlen]
        simp [Channel.delivered]
      | push hc' _ => simp [hc'] at hc
      | close ht _ _ =>
        rw [ht, P.closer_pushes] at hc
        cases hc
    · rw [hother u hu]
      exact h.popped hc
  case ended =>
    intro hclosed u hc
    refine le_trans ?_ (hle u)
    rcases hshut.mp hclosed with hold | rfl
    · exact h.ended hold hc
    · cases hdid with
      | close _ _ hall => exact hall u hc
  case own_le =>
    intro u hc
    have hown := h.own_le hc
    by_cases hu : u = t
    · subst hu
      rw [hself, List.length_append, List.length_singleton]
      cases hdid with
      | push _ hvalue =>
        obtain ⟨hlt, -⟩ := List.getElem?_eq_some_iff.mp hvalue
        exact le_trans hlt (Nat.le_add_right _ _)
      | close ht hend _ =>
        rw [if_pos ht, hend, hshut.mpr (Or.inr rfl)]
        rfl
      | pop hc' _ | finish hc' _ => simp [hc'] at hc
    · rw [hother u hu]
      refine hown.trans (Nat.add_le_add_left ?_ _)
      by_cases hu' : u = P.closer
      · rw [if_pos hu', if_pos hu']
        refine Bool.toNat_le_toNat fun hold => hshut.mpr (Or.inl hold)
      · rw [if_neg hu', if_neg hu']
  case welcome =>
    rw [hevents, List.mem_append, List.mem_singleton, not_or]
    refine ⟨h.welcome, ?_⟩
    rintro rfl
    cases hdid
  case counted =>
    rw [hgrown, hevents, List.length_append, List.length_append, h.counted]
    rfl

theorem step (h : P.Inv ops s) {a : PipelineAction ι} (hstep : (P.system ops).step s a = some s') :
    P.Inv ops s' := by
  obtain ⟨b, hb, -, hop, hcalled⟩ := step_operates hstep
  have hfollows := h.follows.snoc hb hop
  rcases MonitorState.step_cases hop with
    ⟨hdata, hsame⟩ | ⟨t, x, call, r, ns, rfl, ht, hbody, hphase, hgrown⟩
  · refine h.of_same hfollows hdata hsame fun {u call} hu => ?_
    rcases MonitorState.current_of_step hop hu with hold | rfl
    · exact h.making hold
    · exact making_of_call (hcalled u call rfl)
  · obtain rfl : x = .succeeds := hb
    refine h.left hfollows (Phase.current_of_entering ht) hbody hgrown fun {u call'} hu => ⟨?_, ?_⟩
    · rintro rfl
      simp [hphase, Phase.current] at hu
    · exact (MonitorState.current_of_step hop hu).resolve_right (by simp)

theorem of_reachable (h : (P.system ops).Reachable s) : P.Inv ops s :=
  h.invariant (P := fun u => P.Inv ops u) start fun _ _ _ hu hstep => hu.step hstep

theorem path (h : P.Inv ops s) :
    Path (Channel.Step fits) .empty (s.events view) s.data.channel :=
  path_of_follows ops.refines ops.initial h.follows

theorem closed_of_finish (h : P.Inv ops s) {t : ι} (hfinish : .finish ∈ s.eventsOf view t) :
    s.data.closed = true :=
  Channel.closed_of_finish h.path ((MonitorState.eventsOf_sublist view s t).subset hfinish)

theorem books (h : P.Inv ops s) :
    B.WellPhased s ∧ ∀ c, (B.ledger s c).Safe ∧ (B.ledger s c).Latched := by
  refine Books.safe_of_follows (h.follows.mono fun u a ha => ?_)
  rintro c ⟨t, x, call, d, r, ns, rfl, -, hbody, hfailed⟩
  obtain rfl : x = .succeeds := ha
  exact ops.succeeds hbody hfailed

end Inv

end Program
end Pipeline
end Obz.BlockingQueues
