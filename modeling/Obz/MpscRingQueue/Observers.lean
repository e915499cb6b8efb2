import Obz.MpscRingQueue.Preservation

/-!
# State inspection while the queue is in use

`empty`, `full` and `size` load two atomics one after the other, so steps of
other threads fall between the loads. Producers, the consumer and threads that
only look may call them; a thread makes one call at a time. `size` subtracts in
the `w` bits of `size_t`.
-/
namespace Obz.MpscRingQueue

open Foundation

inductive Thread (P O : Type*) where
  | producer (p : P)
  | consumer
  | observer (o : O)
  deriving DecidableEq, Repr

inductive Query where
  | empty
  | full
  | size
  deriving DecidableEq, Repr

/-- Where a thread stands in a query; an answer stays until its next query. -/
inductive ReadingPc (w : ℕ) where
  | idle
  | emptyLoadRead
  | emptyLoadSequence (read : ℕ)
  | returnedEmpty (answer : Bool)
  | fullLoadWrite
  | fullLoadSequence (write : ℕ)
  | returnedFull (answer : Bool)
  | sizeLoadWrite
  | sizeLoadRead (write : ℕ)
  | returnedSize (count : BitVec w)
  deriving DecidableEq, Repr

variable {w : ℕ} {P T O : Type*} {N : ℕ}

def ReadingPc.outside : ReadingPc w → Bool
  | .idle | .returnedEmpty _ | .returnedFull _ | .returnedSize _ => true
  | _ => false

def Query.enter : Query → ReadingPc w
  | .empty => .emptyLoadRead
  | .full => .fullLoadWrite
  | .size => .sizeLoadWrite

/-- One load of a query, and its answer after the last. -/
def Queue.read [NeZero N] (q : Queue N T) : ReadingPc w → Option (ReadingPc w)
  | .emptyLoadRead => some (.emptyLoadSequence q.readIndex)
  | .emptyLoadSequence read => some (.returnedEmpty ((q.cell read).sequence ≠ read + 1))
  | .fullLoadWrite => some (.fullLoadSequence q.writeIndex)
  | .fullLoadSequence write => some (.returnedFull (diff (q.cell write).sequence write < 0))
  | .sizeLoadWrite => some (.sizeLoadRead q.writeIndex)
  | .sizeLoadRead write =>
    some (.returnedSize (BitVec.ofNat w write - BitVec.ofNat w q.readIndex))
  | _ => none

/-- The thread that performs an operation on the queue. -/
def Action.thread (O : Type*) : Action P T → Thread P O
  | .callEmplace p _ | .produce p _ => .producer p
  | .callPop | .consume => .consumer

/-- The thread is not inside `try_emplace` or `try_pop`. -/
def State.outside (s : State P N T) : Thread P O → Bool
  | .producer p => (s.producers p).outside
  | .consumer => s.consumer.outside
  | .observer _ => true

structure Observed (w : ℕ) (P : Type*) (N : ℕ) (T O : Type*) where
  state : State P N T
  reading : Thread P O → ReadingPc w

inductive ObservedAction (P T O : Type*) where
  | operate (a : Action P T)
  | ask (i : Thread P O) (query : Query)
  | read (i : Thread P O)

namespace Observed

variable [DecidableEq P] [DecidableEq O]

def setReading (s : Observed w P N T O) (i : Thread P O) (pc : ReadingPc w) :
    Observed w P N T O :=
  { s with reading := Function.update s.reading i pc }

def step [NeZero N] (s : Observed w P N T O) : ObservedAction P T O → Option (Observed w P N T O)
  | .operate a =>
    if (s.reading (a.thread O)).outside then (s.state.step a).map fun t => { s with state := t }
    else none
  | .ask i query =>
    if s.state.outside i && (s.reading i).outside then some (s.setReading i query.enter) else none
  | .read i => (s.state.queue.read (s.reading i)).map (s.setReading i)

end Observed

/-- The queue with its producers, its consumer and its observers. -/
def observed (w : ℕ) (P : Type*) [DecidableEq P] (N : ℕ) [NeZero N] (T O : Type*)
    [DecidableEq O] : System (Observed w P N T O) (ObservedAction P T O) where
  start := ⟨.initial, fun _ => .idle⟩
  step := Observed.step

/-! ### Between the two loads of a query -/

/-- What a thread may rely on between the loads. -/
def State.ReadingOk (s : State P N T) (i : Thread P O) : ReadingPc w → Prop
  | .emptyLoadSequence read => i = .consumer → read = s.queue.readIndex
  | .fullLoadSequence write | .sizeLoadRead write => write ≤ s.queue.writeIndex
  | _ => True

theorem State.ReadingOk.mono {s t : State P N T} {i : Thread P O} {pc : ReadingPc w}
    (h : s.ReadingOk i pc) (hwrite : s.queue.writeIndex ≤ t.queue.writeIndex)
    (hread : i = .consumer → pc.outside = false → t.queue.readIndex = s.queue.readIndex) :
    t.ReadingOk i pc := by
  cases pc with
  | emptyLoadSequence read =>
    intro hi
    rw [hread hi rfl]
    exact h hi
  | fullLoadSequence write => exact le_trans (b := s.queue.writeIndex) h hwrite
  | sizeLoadRead write => exact le_trans (b := s.queue.writeIndex) h hwrite
  | _ => trivial

theorem State.ReadingOk.of_outside {s : State P N T} {i : Thread P O} {pc : ReadingPc w}
    (h : pc.outside = true) : s.ReadingOk i pc := by
  cases pc with
  | idle | returnedEmpty | returnedFull | returnedSize => trivial
  | _ => cases h

/-- A thread inside a query is in no other call, and may rely on what it loaded. -/
structure ReadingInvariant (s : Observed w P N T O) : Prop where
  alone : ∀ i, (s.reading i).outside = false → s.state.outside i = true
  loaded : ∀ i, s.state.ReadingOk i (s.reading i)

variable [DecidableEq P] [DecidableEq O]

namespace Observed

variable {s : Observed w P N T O} {i j : Thread P O} {pc : ReadingPc w}

@[simp] theorem setReading_self : (s.setReading i pc).reading i = pc := by simp [setReading]

theorem setReading_of_ne (h : j ≠ i) : (s.setReading i pc).reading j = s.reading j := by
  simp [setReading, h]

/-- What holds of every thread still does, if it holds of the one that moved. -/
theorem forall_setReading {Q : Thread P O → ReadingPc w → Prop} (h : ∀ j, Q j (s.reading j))
    (hpc : Q i pc) (j : Thread P O) : Q j ((s.setReading i pc).reading j) := by
  by_cases hji : j = i
  · rw [hji, setReading_self]
    exact hpc
  · rw [setReading_of_ne hji]
    exact h j

end Observed

variable [NeZero N]

/-! ### What a step can do -/

/-- What a load of a query does to the thread's program counter. -/
inductive Loads (q : Queue N T) : ReadingPc w → ReadingPc w → Prop
  | emptyRead : Loads q .emptyLoadRead (.emptyLoadSequence q.readIndex)
  | emptySequence {read} : Loads q (.emptyLoadSequence read)
      (.returnedEmpty (q.stamps.get read ≠ read + 1))
  | fullWrite : Loads q .fullLoadWrite (.fullLoadSequence q.writeIndex)
  | fullSequence {write} : Loads q (.fullLoadSequence write)
      (.returnedFull (q.stamps.get write < write))
  | sizeWrite : Loads q .sizeLoadWrite (.sizeLoadRead q.writeIndex)
  | sizeRead {write} : Loads q (.sizeLoadRead write)
      (.returnedSize (BitVec.ofNat w write - BitVec.ofNat w q.readIndex))

theorem loads_of_read {q : Queue N T} {pc pc' : ReadingPc w} (h : q.read pc = some pc') :
    Loads q pc pc' := by
  cases pc with
  | emptyLoadRead => exact Option.some.inj h ▸ .emptyRead
  | emptyLoadSequence read => exact Option.some.inj h ▸ .emptySequence
  | fullLoadWrite => exact Option.some.inj h ▸ .fullWrite
  | fullLoadSequence write =>
    simp only [Queue.read, diff_neg, Queue.cell_sequence] at h
    exact Option.some.inj h ▸ .fullSequence
  | sizeLoadWrite => exact Option.some.inj h ▸ .sizeWrite
  | sizeLoadRead write => exact Option.some.inj h ▸ .sizeRead
  | idle => cases h
  | returnedEmpty answer => cases h
  | returnedFull answer => cases h
  | returnedSize count => cases h

/-- What a step of the observed queue can do. -/
inductive ObservedEffect (s : Observed w P N T O) :
    ObservedAction P T O → Observed w P N T O → Prop
  | operate {a t} (hfree : (s.reading (a.thread O)).outside = true)
      (hstep : s.state.step a = some t) : ObservedEffect s (.operate a) { s with state := t }
  | ask {i query} (hstate : s.state.outside i = true) (hfree : (s.reading i).outside = true) :
      ObservedEffect s (.ask i query) (s.setReading i query.enter)
  | read {i pc next} (hpc : s.reading i = pc) (hload : Loads s.state.queue pc next) :
      ObservedEffect s (.read i) (s.setReading i next)

theorem observed_effect {s t : Observed w P N T O} {a : ObservedAction P T O}
    (h : s.step a = some t) : ObservedEffect s a t := by
  cases a with
  | operate a =>
    simp only [Observed.step] at h
    split_ifs at h with hfree
    obtain ⟨u, hu, rfl⟩ := Option.map_eq_some_iff.mp h
    exact .operate hfree hu
  | ask i query =>
    simp only [Observed.step, Bool.and_eq_true] at h
    split_ifs at h with hfree
    exact Option.some.inj h ▸ .ask hfree.1 hfree.2
  | read i =>
    obtain ⟨pc, hpc, rfl⟩ := Option.map_eq_some_iff.mp h
    exact .read rfl (loads_of_read hpc)

/-- Observers change nothing. -/
theorem observed_extends :
    System.Extends (observed w P N T O) (protocol P N T) Observed.state .operate where
  start := rfl
  step h := by
    cases observed_effect h with
    | operate _ hop => exact .inl ⟨_, rfl, hop⟩
    | ask _ _ => exact .inr ⟨nofun, rfl⟩
    | read _ _ => exact .inr ⟨nofun, rfl⟩

/-- What they look at is a reachable state of the queue. -/
theorem state_reachable {s : Observed w P N T O} (h : (observed w P N T O).Reachable s) :
    (protocol P N T).Reachable s.state :=
  observed_extends.reachable h

/-! ### What a step leaves alone -/

namespace State

variable {s t : State P N T} {a : Action P T}

omit [DecidableEq O]

theorem writeIndex_le_of_step (h : s.step a = some t) :
    s.queue.writeIndex ≤ t.queue.writeIndex := by
  cases step_effect h with
  | reserve hpc => exact Nat.le_succ _
  | _ => exact le_rfl

theorem readIndex_of_step (h : s.step a = some t) (ha : a.thread O ≠ .consumer) :
    t.queue.readIndex = s.queue.readIndex := by
  cases step_effect h with
  | callPop | loadRead | miss | hit | moveOut | destroy | storeRead | release =>
    exact absurd rfl ha
  | _ => rfl

/-- A step moves only the thread that takes it. -/
theorem outside_of_step (h : s.step a = some t) {i : Thread P O} (hi : a.thread O ≠ i) :
    t.outside i = s.outside i := by
  cases i with
  | observer o => rfl
  | consumer =>
    cases step_effect h with
    | callPop | loadRead | miss | hit | moveOut | destroy | storeRead | release =>
      exact absurd rfl hi
    | _ => rfl
  | producer p =>
    have hother : ∀ {q : P}, (Thread.producer q : Thread P O) ≠ .producer p → p ≠ q := by
      rintro q hq rfl
      exact hq rfl
    cases step_effect h with
    | callPop | loadRead | miss | hit | moveOut | destroy | storeRead | release => rfl
    | _ => exact congrArg ProducerPc.outside (Function.update_of_ne (hother hi) _ _)

end State

/-! ### The invariant of the queries -/

namespace ReadingInvariant

variable {s : Observed w P N T O}

omit [NeZero N] in
theorem setReading (h : ReadingInvariant s) {i : Thread P O} {pc : ReadingPc w}
    (halone : s.state.outside i = true) (hpc : s.state.ReadingOk i pc) :
    ReadingInvariant (s.setReading i pc) where
  alone := Observed.forall_setReading
    (Q := fun j pc => pc.outside = false → s.state.outside j = true) h.alone fun _ => halone
  loaded := Observed.forall_setReading (Q := s.state.ReadingOk) h.loaded hpc

omit [DecidableEq O] in
theorem operate (h : ReadingInvariant s) {a : Action P T} {t : State P N T}
    (hfree : (s.reading (a.thread O)).outside = true) (hstep : s.state.step a = some t) :
    ReadingInvariant { s with state := t } := by
  -- a thread between two loads takes no other step
  have hother : ∀ i, (s.reading i).outside = false → a.thread O ≠ i := by
    rintro i hi rfl
    rw [hfree] at hi
    cases hi
  refine ⟨fun i hi => ?_, fun i => ?_⟩
  · exact (State.outside_of_step hstep (hother i hi)).trans (h.alone i hi)
  · refine (h.loaded i).mono (State.writeIndex_le_of_step hstep) fun hi hin => ?_
    exact State.readIndex_of_step hstep (hi ▸ hother i hin)

theorem read (h : ReadingInvariant s) {i : Thread P O} {pc next : ReadingPc w}
    (hpc : s.reading i = pc) (hload : Loads s.state.queue pc next) :
    ReadingInvariant (s.setReading i next) := by
  have hin : pc.outside = false := by cases hload <;> rfl
  refine h.setReading (h.alone i (hpc ▸ hin)) ?_
  cases hload with
  | emptyRead => exact fun _ => rfl
  | fullWrite => exact le_rfl
  | sizeWrite => exact le_rfl
  | _ => trivial

theorem step (h : ReadingInvariant s) {t : Observed w P N T O} {a : ObservedAction P T O}
    (hstep : s.step a = some t) : ReadingInvariant t := by
  cases observed_effect hstep with
  | operate hfree hop => exact h.operate hfree hop
  | @ask i query hstate hfree => exact h.setReading hstate (by cases query <;> trivial)
  | read hpc hload => exact h.read hpc hload

end ReadingInvariant

omit [DecidableEq P] [DecidableEq O] [NeZero N] in
/-- A thread inside `try_emplace` or `try_pop` is in no query. -/
theorem ReadingInvariant.outside {s : Observed w P N T O} (h : ReadingInvariant s)
    {i : Thread P O} (hin : s.state.outside i = false) : (s.reading i).outside = true := by
  cases hout : (s.reading i).outside with
  | true => rfl
  | false =>
    have halone := h.alone i hout
    rw [hin] at halone
    cases halone

theorem readingInvariant_initial :
    ReadingInvariant (observed w P N T O).start where
  alone := by
    intro i hi
    cases hi
  loaded := fun _ => trivial

theorem readingInvariant_of_reachable {s : Observed w P N T O}
    (h : (observed w P N T O).Reachable s) : ReadingInvariant s :=
  h.invariant readingInvariant_initial fun _ _ _ hu hv => hu.step hv

end Obz.MpscRingQueue
