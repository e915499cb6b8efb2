import Obz.BlockingQueues.Wakeups
import Obz.Foundation.ClosableChannel
import Obz.Foundation.MonitorHistory

/-!
# The blocking queues as channels

Whatever the threads do, the critical sections in the order they ran are a run of
a channel that can be closed. What holds of such channels holds of both queues.
-/
namespace Obz

open Foundation BlockingQueues

namespace BlockingQueues

variable {ι C L T : Type*}

def Storage.channel (d : Storage T) : Channel T := ⟨d.queue, d.closed⟩

/-- What one critical section without exceptions does to the channel. -/
def Refines (M : Monitor C L (ElementOp T) (Storage T) (Result T))
    (view : L → Result T → Option (ChannelEvent T)) (fits : ℕ → Prop) : Prop :=
  ∀ call d d' r ns, M.body call .succeeds d = .leave d' r ns →
    StepOrStay (Channel.Step fits) d.channel (view call r) d'.channel

variable [Fintype ι] [DecidableEq ι] [DecidableEq C]

/-- Values are delivered in the order of acceptance and none is lost; nothing is accepted
after the first `close`, and what was accepted before is still there for whoever pops; a
refused value leaves no trace; and after a `wait_and_pop` returned false everything has
been delivered and nothing ever follows. -/
structure Safe (M : Monitor C L (ElementOp T) (Storage T) (Result T))
    (view : L → Result T → Option (ChannelEvent T)) (pops : L → Prop)
    (s : MonitorState ι C L (Storage T) (Result T)) : Prop where
  conserved : Channel.accepted (s.events view) =
    Channel.delivered (s.events view) ++ s.data.queue
  none_after_close : ∀ pre post, s.events view = pre ++ .close :: post →
    Channel.accepted post = []
  available : ∀ t call front rest, (s.phase t).entering = some call → pops call →
    s.data.queue = front :: rest →
    ∃ s', s.step M (.enter t .succeeds) = some s' ∧ s'.data.queue = rest ∧
      s'.events view = s.events view ++ [.deliver front]
  refused : ∀ a s', NoThrow s a → s.step M a = some s' →
    s'.events view = s.events view ++ [.refuse] → s'.data = s.data
  final : .finish ∈ s.events view →
    Channel.accepted (s.events view) = Channel.delivered (s.events view) ∧
    ∀ s', M.system.Follows NoThrow s s' →
      ∃ post, s'.events view = s.events view ++ post ∧
        Channel.delivered post = [] ∧ Channel.accepted post = []

variable {M : Monitor C L (ElementOp T) (Storage T) (Result T)}
  {view : L → Result T → Option (ChannelEvent T)} {fits : ℕ → Prop} {pops : L → Prop}
  {s s' : MonitorState ι C L (Storage T) (Result T)}

theorem path_of_follows (hM : Refines M view fits) (hinitial : M.initial = ⟨[], false⟩)
    (h : M.system.Follows NoThrow M.system.start s) :
    Path (Channel.Step fits) .empty (s.events view) s.data.channel := by
  have hpath := MonitorState.path_of_follows view (Channel.Step fits) Storage.channel
    (fun u t x call d r ns hx hbody => by
      obtain rfl : x = .succeeds := hx
      exact hM call u.data d r ns hbody) h
  rwa [hinitial] at hpath

theorem data_of_refused (hM : Refines M view fits) {a : MonitorAction ι L (ElementOp T)}
    (ha : NoThrow s a) (hstep : s.step M a = some s')
    (hevents : s'.events view = s.events view ++ [.refuse]) : s'.data = s.data := by
  rcases MonitorState.step_cases hstep with ⟨hd, _⟩ | ⟨t, x, call, r, ns, rfl, _, hbody, _, hv⟩
  · exact hd
  · obtain rfl : x = .succeeds := ha
    have hone := hM call s.data s'.data r ns hbody
    rw [MonitorState.events_grown hv] at hevents
    cases hview : view call r with
    | none => simp [hview] at hevents
    | some e =>
      obtain rfl : e = .refuse := by simpa [hview] using hevents
      rw [hview] at hone
      have hsame : s'.data.channel = s.data.channel := by
        generalize s.data.channel = c, s'.data.channel = c' at hone
        cases hone
        rfl
      cases hd : s.data
      cases hd' : s'.data
      simpa [Storage.channel, hd, hd'] using hsame

theorem safe_of_follows (hM : Refines M view fits) (hinitial : M.initial = ⟨[], false⟩)
    (hpops : ∀ call d front rest, pops call → d.queue = front :: rest →
      ∃ d' ns, M.body call .succeeds d = .leave d' (.popped (some front)) ns ∧ d'.queue = rest ∧
        view call (.popped (some front)) = some (.deliver front))
    (h : M.system.Follows NoThrow M.system.start s) : Safe M view pops s where
  conserved := Channel.conserved (path_of_follows hM hinitial h)
  none_after_close pre post heq :=
    Channel.accepted_after_close (heq ▸ path_of_follows hM hinitial h)
  available t call front rest ht hcall hq := by
    obtain ⟨d', ns, hbody, hrest, hview⟩ := hpops call s.data front rest hcall hq
    have hgrown : (s.enter M t call .succeeds).history =
        s.history ++ [(t, call, .popped (some front))] := by
      simp [MonitorState.enter, hbody]
    refine ⟨s.enter M t call .succeeds, by simp [MonitorState.step, ht], ?_, ?_⟩
    · simpa [MonitorState.enter, hbody] using hrest
    · simp [MonitorState.events_grown hgrown, hview]
  refused a s' ha hstep hevents := data_of_refused hM ha hstep hevents
  final hfinish := by
    refine ⟨Channel.delivered_all (path_of_follows hM hinitial h) hfinish, fun s' hs' => ?_⟩
    obtain ⟨added, hadded⟩ := MonitorState.history_grows hs'
    have hevents : s'.events view = s.events view ++ _ := MonitorState.events_grown hadded
    obtain ⟨pre, post, hsplit⟩ := List.append_of_mem hfinish
    have hpath := path_of_follows hM hinitial (h.trans hs')
    rw [hevents, hsplit, List.append_assoc, List.cons_append] at hpath
    obtain ⟨haccepted, hdelivered, _⟩ := Channel.final hpath
    rw [Channel.accepted_append, List.append_eq_nil_iff] at haccepted
    rw [Channel.delivered_append, List.append_eq_nil_iff] at hdelivered
    exact ⟨_, hevents, hdelivered.2, haccepted.2⟩

end BlockingQueues

namespace BoundedBlockingQueue

variable {T : Type*} {capacity : ℕ}

/-- What a call was to the channel; the observers do not count. -/
def view : Call T → Result T → Option (ChannelEvent T)
  | .emplace value, .done => some (.accept value)
  | .emplace _, .runtimeError _ => some .refuse
  | .tryEmplace value, .flag true => some (.accept value)
  | .tryEmplace _, .flag false => some .refuse
  | .waitAndPop, .popped (some value) => some (.deliver value)
  | .waitAndPop, .popped none => some .finish
  | .tryPop, .popped (some value) => some (.deliver value)
  | .tryPop, .popped none => some .miss
  | .close, _ => some .close
  | _, _ => none

def Pops (call : Call T) : Prop := call = .waitAndPop ∨ call = .tryPop

theorem refines : Refines (monitor capacity T) view (· < capacity) := by
  rintro call ⟨q, closed⟩ d' r ns h
  cases call with
  | emplace value =>
    simp only [monitor, body, emplace, Storage.emplaceBack] at h
    split_ifs at h with hwait hclosed
    · cases h
      exact .refuse (Or.inl hclosed)
    · cases h
      obtain rfl : closed = false := by simpa using hclosed
      exact .accept (by simpa using hwait)
  | tryEmplace value =>
    simp only [monitor, body, tryEmplace, Storage.emplaceBack] at h
    split_ifs at h with hrefuse
    · cases h
      exact .refuse (by simpa [Storage.channel] using hrefuse)
    · cases h
      obtain ⟨rfl, hroom⟩ : closed = false ∧ q.length < capacity := by simpa using hrefuse
      exact .accept hroom
  | waitAndPop =>
    simp only [monitor, body, waitAndPop] at h
    split_ifs at h with hwait
    rcases Storage.takeFront_succeeds h with ⟨rfl, rfl, rfl⟩ | ⟨front, rest, rfl, rfl, rfl⟩
    · obtain rfl : closed = true := by simpa using hwait
      exact .finish
    · exact .deliver
  | tryPop =>
    rcases Storage.takeFront_succeeds h with ⟨rfl, rfl, rfl⟩ | ⟨front, rest, rfl, rfl, rfl⟩
    · exact .miss
    · exact .deliver
  | close =>
    cases h
    exact .close
  | _ =>
    cases h
    rfl

theorem pops_deliver {call : Call T} {d : Storage T} {front : T} {rest : List T}
    (hcall : Pops call) (hq : d.queue = front :: rest) :
    ∃ d' ns, (monitor capacity T).body call .succeeds d = .leave d' (.popped (some front)) ns ∧
      d'.queue = rest ∧ view call (.popped (some front)) = some (.deliver front) := by
  refine ⟨{ d with queue := rest }, [.one .notFull], ?_, rfl, ?_⟩
  · rcases hcall with rfl | rfl <;> simp [monitor, body, waitAndPop, tryPop, Storage.takeFront, hq]
  · rcases hcall with rfl | rfl <;> rfl

end BoundedBlockingQueue

namespace BlockingQueue

variable {T : Type*}

/-- What a call was to the channel; the observers do not count. -/
def view : Call T → Result T → Option (ChannelEvent T)
  | .emplace value, .done => some (.accept value)
  | .emplace _, .runtimeError _ => some .refuse
  | .waitAndPop, .popped (some value) => some (.deliver value)
  | .waitAndPop, .popped none => some .finish
  | .tryPop, .popped (some value) => some (.deliver value)
  | .tryPop, .popped none => some .miss
  | .close, _ => some .close
  | _, _ => none

def Pops (call : Call T) : Prop := call = .waitAndPop ∨ call = .tryPop

theorem refines : Refines (monitor T) view fun _ => True := by
  rintro call ⟨q, closed⟩ d' r ns h
  cases call with
  | emplace value =>
    simp only [monitor, body, emplace, Storage.emplaceBack] at h
    split_ifs at h with hclosed
    · cases h
      exact .refuse (Or.inl hclosed)
    · cases h
      obtain rfl : closed = false := by simpa using hclosed
      exact .accept trivial
  | waitAndPop =>
    simp only [monitor, body, waitAndPop] at h
    split_ifs at h with hwait
    rcases Storage.takeFront_succeeds h with ⟨rfl, rfl, rfl⟩ | ⟨front, rest, rfl, rfl, rfl⟩
    · obtain rfl : closed = true := by simpa using hwait
      exact .finish
    · exact .deliver
  | tryPop =>
    rcases Storage.takeFront_succeeds h with ⟨rfl, rfl, rfl⟩ | ⟨front, rest, rfl, rfl, rfl⟩
    · exact .miss
    · exact .deliver
  | close =>
    cases h
    exact .close
  | _ =>
    cases h
    rfl

theorem pops_deliver {call : Call T} {d : Storage T} {front : T} {rest : List T}
    (hcall : Pops call) (hq : d.queue = front :: rest) :
    ∃ d' ns, (monitor T).body call .succeeds d = .leave d' (.popped (some front)) ns ∧
      d'.queue = rest ∧ view call (.popped (some front)) = some (.deliver front) := by
  refine ⟨{ d with queue := rest }, [], ?_, rfl, ?_⟩
  · rcases hcall with rfl | rfl <;> simp [monitor, body, waitAndPop, tryPop, Storage.takeFront, hq]
  · rcases hcall with rfl | rfl <;> rfl

end BlockingQueue

namespace BlockingQueues

variable {ι T : Type*} [Fintype ι] [DecidableEq ι]

/-- In every run without exceptions of the element type the bounded queue never holds
more than `capacity` elements, and both queues are safe channels in every state. -/
theorem safe_in_any_order (capacity : ℕ) :
    (∀ s : BoundedBlockingQueue.State ι T,
      (BoundedBlockingQueue.monitor capacity T).system.Follows NoThrow
        (BoundedBlockingQueue.monitor capacity T).system.start s →
      s.data.queue.length ≤ capacity ∧
      Safe (BoundedBlockingQueue.monitor capacity T) BoundedBlockingQueue.view
        BoundedBlockingQueue.Pops s) ∧
    (∀ s : BlockingQueue.State ι T,
      (BlockingQueue.monitor T).system.Follows NoThrow (BlockingQueue.monitor T).system.start s →
      Safe (BlockingQueue.monitor T) BlockingQueue.view BlockingQueue.Pops s) := by
  constructor
  · intro s h
    have hpath := path_of_follows BoundedBlockingQueue.refines rfl h
    constructor
    · exact Channel.length_le (fun _ hn => hn) hpath (Nat.zero_le _)
    · apply safe_of_follows BoundedBlockingQueue.refines rfl _ h
      intro call d front rest hcall hq
      exact BoundedBlockingQueue.pops_deliver hcall hq
  · intro s h
    apply safe_of_follows BlockingQueue.refines rfl _ h
    intro call d front rest hcall hq
    exact BlockingQueue.pops_deliver hcall hq

/-- One value is accepted before `close` and popped after it; then the end is seen. -/
def drained : List (MonitorAction Bool (BoundedBlockingQueue.Call ℕ) (ElementOp ℕ)) :=
  [.call true (.emplace 7), .enter true .succeeds, .notify true none, .ret true,
    .call true .close, .enter true .succeeds, .call false .tryPop, .enter false .succeeds,
    .notify false none, .ret false, .call false .waitAndPop, .enter false .succeeds]

theorem drained_follows :
    (BoundedBlockingQueue.monitor 1 ℕ).system.Follows NoThrow
      (BoundedBlockingQueue.monitor 1 ℕ).system.start
      ((BoundedBlockingQueue.monitor 1 ℕ).system.after drained) :=
  System.follows_of_run (fun _ => by simp [drained, NoThrow])
    (rfl : (BoundedBlockingQueue.monitor 1 ℕ).system.run _ drained = some _)

theorem safe_in_any_order_drained :
    let s := (BoundedBlockingQueue.monitor 1 ℕ).system.after drained
    Channel.accepted (s.events BoundedBlockingQueue.view) = [7] ∧
    Channel.accepted (s.events BoundedBlockingQueue.view) =
      Channel.delivered (s.events BoundedBlockingQueue.view) := by
  intro s
  exact ⟨by decide, (((safe_in_any_order 1).1 s drained_follows).2.final (by decide)).1⟩

end BlockingQueues
end Obz
