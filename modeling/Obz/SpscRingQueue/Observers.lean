import Obz.Foundation.Words
import Obz.SpscRingQueue.Invariant

/-!
# State inspection by the two owners

`empty`, `full` and `size` load both indices, in an order that the compiler
chooses, so steps of the other thread fall between the loads. A thread makes one
call at a time. `size` subtracts in the `w` bits of `size_t`.
-/
namespace Obz.SpscRingQueue

open Foundation

inductive Owner where
  | producer
  | consumer
  deriving DecidableEq, Repr

inductive Query where
  | empty
  | full
  | size
  deriving DecidableEq, Repr

inductive Index where
  | read
  | write
  deriving DecidableEq, Repr

/-- Where an owner stands in a query; an answer stays until its next query. -/
inductive ReadingPc (w : ℕ) where
  | idle
  | loadFirst (query : Query) (first : Index)
  | loadSecond (query : Query) (first : Index) (value : ℕ)
  | returnedEmpty (answer : Bool)
  | returnedFull (answer : Bool)
  | returnedSize (count : BitVec w)
  deriving DecidableEq, Repr

variable {w N : ℕ} {T : Type*}

def ReadingPc.outside : ReadingPc w → Bool
  | .loadFirst _ _ | .loadSecond _ _ _ => false
  | _ => true

def Queue.load (q : Queue N T) : Index → ℕ
  | .read => q.readIndex
  | .write => q.writeIndex

/-- What a query returns, given the values of the two indices. -/
def Query.answer (N : ℕ) (write read : ℕ) : Query → ReadingPc w
  | .empty => .returnedEmpty (read = write)
  | .full => .returnedFull (distance write read = N)
  | .size => .returnedSize (BitVec.ofNat w write - BitVec.ofNat w read)

/-- One load of a query, and its answer after the second. -/
def Queue.read (q : Queue N T) : ReadingPc w → Option (ReadingPc w)
  | .loadFirst query first => some (.loadSecond query first (q.load first))
  | .loadSecond query .read value => some (query.answer N q.writeIndex value)
  | .loadSecond query .write value => some (query.answer N value q.readIndex)
  | _ => none

/-- The thread that takes a step. -/
def Action.owner : Action T → Owner
  | .callEmplace _ | .produce | .constructThrows => .producer
  | .callPop | .consume | .moveThrows _ => .consumer

/-- The thread is not inside `try_emplace` or `try_pop`. -/
def State.outside (s : State N T) : Owner → Bool
  | .producer => s.producer.outside
  | .consumer => s.consumer.outside

structure Observed (w N : ℕ) (T : Type*) where
  state : State N T
  reading : Owner → ReadingPc w

inductive ObservedAction (T : Type*) where
  | operate (a : Action T)
  | ask (i : Owner) (query : Query) (first : Index)
  | read (i : Owner)

namespace Observed

def setReading (s : Observed w N T) (i : Owner) (pc : ReadingPc w) : Observed w N T :=
  { s with reading := Function.update s.reading i pc }

def step [NeZero N] (s : Observed w N T) : ObservedAction T → Option (Observed w N T)
  | .operate a =>
    if (s.reading a.owner).outside then (s.state.step a).map fun t => { s with state := t }
    else none
  | .ask i query first =>
    if s.state.outside i && (s.reading i).outside then
      some (s.setReading i (.loadFirst query first))
    else none
  | .read i => (s.state.queue.read (s.reading i)).map (s.setReading i)

end Observed

/-- The queue with its two owners. -/
def observed (w N : ℕ) [NeZero N] (T : Type*) : System (Observed w N T) (ObservedAction T) where
  start := ⟨.initial, fun _ => .idle⟩
  step := Observed.step

/-! ### Between the two loads of a query -/

/-- The index that only this owner stores. -/
def Owner.index : Owner → Index
  | .producer => .write
  | .consumer => .read

/-- An owner knows its own index exactly; the other index has only grown since it was loaded.
A size is at most the capacity. -/
def State.ReadingOk (s : State N T) : Owner → ReadingPc w → Prop
  | .producer, .loadSecond _ .write value => value = s.queue.writeIndex
  | .producer, .loadSecond _ .read value =>
    value ≤ s.queue.readIndex ∧ s.queue.writeIndex ≤ value + N
  | .consumer, .loadSecond _ .read value => value = s.queue.readIndex
  | .consumer, .loadSecond _ .write value =>
    s.queue.readIndex ≤ value ∧ value ≤ s.queue.writeIndex
  | _, .returnedSize count => count.toNat ≤ N
  | _, _ => True

theorem State.ReadingOk.mono {s t : State N T} {i : Owner} {pc : ReadingPc w}
    (h : s.ReadingOk i pc) (hread : s.queue.readIndex ≤ t.queue.readIndex)
    (hwrite : s.queue.writeIndex ≤ t.queue.writeIndex)
    (hown : pc.outside = false → t.queue.load i.index = s.queue.load i.index) :
    t.ReadingOk i pc := by
  cases pc with
  | loadSecond query first value =>
    cases i with
    | producer =>
      have hkept : t.queue.writeIndex = s.queue.writeIndex := hown rfl
      cases first with
      | read =>
        obtain ⟨hle, hge⟩ := h
        exact ⟨hle.trans hread, hkept ▸ hge⟩
      | write => exact Eq.trans (b := s.queue.writeIndex) h hkept.symm
    | consumer =>
      have hkept : t.queue.readIndex = s.queue.readIndex := hown rfl
      cases first with
      | read => exact Eq.trans (b := s.queue.readIndex) h hkept.symm
      | write =>
        obtain ⟨hle, hge⟩ := h
        exact ⟨hkept.trans_le hle, hge.trans hwrite⟩
  | returnedSize count => cases i <;> exact h
  | _ => cases i <;> trivial

/-- An owner inside a query is in no other call, and may rely on what it loaded. -/
structure ReadingInvariant (s : Observed w N T) : Prop where
  alone : ∀ i, (s.reading i).outside = false → s.state.outside i = true
  loaded : ∀ i, s.state.ReadingOk i (s.reading i)

namespace Observed

variable {s : Observed w N T} {i j : Owner} {pc : ReadingPc w}

@[simp] theorem setReading_self : (s.setReading i pc).reading i = pc := by simp [setReading]

theorem setReading_of_ne (h : j ≠ i) : (s.setReading i pc).reading j = s.reading j := by
  simp [setReading, h]

/-- What holds of both owners still does, if it holds of the one that moved. -/
theorem forall_setReading {Q : Owner → ReadingPc w → Prop} (h : ∀ j, Q j (s.reading j))
    (hpc : Q i pc) (j : Owner) : Q j ((s.setReading i pc).reading j) := by
  by_cases hji : j = i
  · rw [hji, setReading_self]
    exact hpc
  · rw [setReading_of_ne hji]
    exact h j

end Observed

variable [NeZero N]

/-- What a step of the observed queue can do. -/
inductive ObservedEffect (s : Observed w N T) : ObservedAction T → Observed w N T → Prop
  | operate {a t} (hfree : (s.reading a.owner).outside = true) (hstep : s.state.step a = some t) :
      ObservedEffect s (.operate a) { s with state := t }
  | ask {i query first} (hstate : s.state.outside i = true)
      (hfree : (s.reading i).outside = true) :
      ObservedEffect s (.ask i query first) (s.setReading i (.loadFirst query first))
  | read {i next} (hload : s.state.queue.read (s.reading i) = some next) :
      ObservedEffect s (.read i) (s.setReading i next)

theorem observed_effect {s t : Observed w N T} {a : ObservedAction T} (h : s.step a = some t) :
    ObservedEffect s a t := by
  cases a with
  | operate a =>
    simp only [Observed.step] at h
    split_ifs at h with hfree
    obtain ⟨u, hu, rfl⟩ := Option.map_eq_some_iff.mp h
    exact .operate hfree hu
  | ask i query first =>
    simp only [Observed.step, Bool.and_eq_true] at h
    split_ifs at h with hfree
    exact Option.some.inj h ▸ .ask hfree.1 hfree.2
  | read i =>
    obtain ⟨pc, hpc, rfl⟩ := Option.map_eq_some_iff.mp h
    exact .read hpc

/-- The owners' queries change nothing. -/
theorem observed_extends :
    System.Extends (observed w N T) (protocol N T) Observed.state .operate where
  start := rfl
  step h := by
    cases observed_effect h with
    | operate _ hop => exact .inl ⟨_, rfl, hop⟩
    | ask _ _ => exact .inr ⟨nofun, rfl⟩
    | read _ => exact .inr ⟨nofun, rfl⟩

/-- What they look at is a reachable state of the queue. -/
theorem state_reachable {s : Observed w N T} (h : (observed w N T).Reachable s) :
    (protocol N T).Reachable s.state :=
  observed_extends.reachable h

theorem invariant_of_observed {s : Observed w N T} (h : (observed w N T).Reachable s) :
    Invariant (fun _ : T => ()) s.state :=
  invariant_of_reachable_unit (state_reachable h)

/-! ### What a step leaves alone -/

namespace State

variable {s t : State N T} {a : Action T} {i : Owner}

theorem readIndex_le_of_step (hinv : Invariant (fun _ : T => ()) s) (h : s.step a = some t) :
    s.queue.readIndex ≤ t.queue.readIndex := by
  cases step_effect h with
  | storeRead hpc => exact (hinv.consumerOk hpc).1 ▸ Nat.le_succ _
  | _ => exact le_rfl

theorem writeIndex_le_of_step (hinv : Invariant (fun _ : T => ()) s) (h : s.step a = some t) :
    s.queue.writeIndex ≤ t.queue.writeIndex := by
  cases step_effect h with
  | storeWrite hpc => exact (hinv.producerOk hpc).1 ▸ Nat.le_succ _
  | _ => exact le_rfl

/-- A step of the other thread. -/
theorem owned_of_step (h : s.step a = some t) (hi : a.owner ≠ i) :
    t.queue.load i.index = s.queue.load i.index ∧ t.outside i = s.outside i := by
  cases i with
  | producer =>
    cases step_effect h with
    | callPop | consumerLoadRead | miss | hit | moveOut | moveThrows | destroy | storeRead =>
      exact ⟨rfl, rfl⟩
    | _ => exact absurd rfl hi
  | consumer =>
    cases step_effect h with
    | callEmplace | producerLoadWrite | full | room | construct | constructThrows | storeWrite =>
      exact ⟨rfl, rfl⟩
    | _ => exact absurd rfl hi

end State

/-! ### The invariant of the queries -/

/-- A load in a state of the queue: what the owner may rely on goes on to hold. -/
theorem State.ReadingOk.read {s : State N T} (hinv : Invariant (fun _ : T => ()) s) {i : Owner}
    {pc next : ReadingPc w} (h : s.ReadingOk i pc) (hload : s.queue.read pc = some next) :
    s.ReadingOk i next := by
  have hread := hinv.read_le
  have hwrite := hinv.write_le
  have hanswer : ∀ {query : Query} {write read : ℕ}, read ≤ write → write ≤ read + N →
      s.ReadingOk i (query.answer N write read : ReadingPc w) := by
    intro query write read hle hge
    cases query with
    | size =>
      have hsize : (BitVec.ofNat w write - BitVec.ofNat w read).toNat ≤ N :=
        (Words.toNat_sub_le hle).trans (by omega)
      cases i <;> exact hsize
    | _ => cases i <;> trivial
  cases pc with
  | loadFirst query first =>
    cases hload
    cases i <;> cases first
    · exact ⟨le_rfl, hwrite⟩
    · rfl
    · rfl
    · exact ⟨hread, le_rfl⟩
  | loadSecond query first value =>
    cases first with
    | read =>
      cases hload
      cases i with
      | producer => exact hanswer (h.1.trans hread) h.2
      | consumer =>
        obtain rfl : value = s.queue.readIndex := h
        exact hanswer hread hwrite
    | write =>
      cases hload
      cases i with
      | producer =>
        obtain rfl : value = s.queue.writeIndex := h
        exact hanswer hread hwrite
      | consumer => exact hanswer h.1 (h.2.trans hwrite)
  | _ => cases hload

namespace ReadingInvariant

variable {s t : Observed w N T} {i : Owner}

omit [NeZero N] in
theorem setReading (h : ReadingInvariant s) {pc : ReadingPc w} (halone : s.state.outside i = true)
    (hpc : s.state.ReadingOk i pc) : ReadingInvariant (s.setReading i pc) where
  alone := Observed.forall_setReading
    (Q := fun j pc => pc.outside = false → s.state.outside j = true) h.alone fun _ => halone
  loaded := Observed.forall_setReading (Q := s.state.ReadingOk) h.loaded hpc

theorem step (h : ReadingInvariant s) (hinv : Invariant (fun _ : T => ()) s.state)
    {a : ObservedAction T} (hstep : s.step a = some t) : ReadingInvariant t := by
  cases observed_effect hstep with
  | @operate a u hfree hop =>
    -- an owner between two loads takes no other step
    have hother : ∀ i, (s.reading i).outside = false → a.owner ≠ i := by
      rintro i hi rfl
      rw [hfree] at hi
      cases hi
    refine ⟨fun i hi => ?_, fun i => ?_⟩
    · exact (State.owned_of_step hop (hother i hi)).2.trans (h.alone i hi)
    · exact (h.loaded i).mono (State.readIndex_le_of_step hinv hop)
        (State.writeIndex_le_of_step hinv hop)
        fun hin => (State.owned_of_step hop (hother i hin)).1
  | @ask i query first hstate hfree => exact h.setReading hstate (by cases i <;> trivial)
  | @read i next hload =>
    have hin : (s.reading i).outside = false := by
      cases hpc : s.reading i with
      | loadFirst | loadSecond => rfl
      | _ =>
        rw [hpc] at hload
        cases hload
    exact h.setReading (h.alone i hin) ((h.loaded i).read hinv hload)

omit [NeZero N] in
/-- A thread inside `try_emplace` or `try_pop` is in no query. -/
theorem outside (h : ReadingInvariant s) (hin : s.state.outside i = false) :
    (s.reading i).outside = true := by
  cases hout : (s.reading i).outside with
  | true => rfl
  | false =>
    have halone := h.alone i hout
    rw [hin] at halone
    cases halone

end ReadingInvariant

theorem readingInvariant_of_reachable {s : Observed w N T}
    (h : (observed w N T).Reachable s) : ReadingInvariant s := by
  have hboth : (observed w N T).Reachable s ∧ ReadingInvariant s := by
    refine System.Follows.preserves (P := fun u => (observed w N T).Reachable u ∧
      ReadingInvariant u) h ⟨.start, ⟨?_, ?_⟩⟩ ?_
    · intro i hi
      cases hi
    · intro i
      cases i <;> trivial
    · rintro u a v ⟨hreach, hu⟩ - hv
      exact ⟨hreach.snoc hv, hu.step (invariant_of_observed hreach) hv⟩
  exact hboth.2

end Obz.SpscRingQueue
