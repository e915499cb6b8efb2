import Obz.Foundation.Transition

/-!
# Channels that can be closed

What producers and consumers see of a channel: values are accepted and delivered
in one order, a value can be refused, and once the channel is closed and empty a
consumer can be told that nothing will follow.
-/
namespace Obz.Foundation

inductive ChannelEvent (T : Type*) where
  | accept (value : T)
  | refuse
  | deliver (value : T)
  | miss
  | close
  | finish
  deriving DecidableEq, Repr

structure Channel (T : Type*) where
  queue : List T
  closed : Bool

namespace Channel

variable {T : Type*}

def empty : Channel T := ⟨[], false⟩

/-- `fits n` says that one more value has a place beside `n` others. -/
inductive Step (fits : ℕ → Prop) : Channel T → ChannelEvent T → Channel T → Prop
  | accept {q value} (hfits : fits q.length) :
      Step fits ⟨q, false⟩ (.accept value) ⟨q ++ [value], false⟩
  | refuse {c} (hc : c.closed = true ∨ ¬ fits c.queue.length) : Step fits c .refuse c
  | deliver {value q closed} : Step fits ⟨value :: q, closed⟩ (.deliver value) ⟨q, closed⟩
  | miss {closed} : Step fits ⟨[], closed⟩ .miss ⟨[], closed⟩
  | close {q closed} : Step fits ⟨q, closed⟩ .close ⟨q, true⟩
  | finish : Step fits ⟨[], true⟩ .finish ⟨[], true⟩

theorem Step.closed_iff {fits : ℕ → Prop} {c c' : Channel T} {e : ChannelEvent T}
    (h : Step fits c e c') : c'.closed = true ↔ c.closed = true ∨ e = .close := by
  cases h <;> simp

/-- The values taken in, in order. -/
def accepted (es : List (ChannelEvent T)) : List T :=
  es.filterMap fun
    | .accept value => some value
    | _ => none

/-- The values given out, in order. -/
def delivered (es : List (ChannelEvent T)) : List T :=
  es.filterMap fun
    | .deliver value => some value
    | _ => none

variable {fits : ℕ → Prop} {c c' : Channel T} {es pre post : List (ChannelEvent T)}

@[simp] theorem accepted_append : accepted (pre ++ post) = accepted pre ++ accepted post :=
  List.filterMap_append ..

@[simp] theorem delivered_append : delivered (pre ++ post) = delivered pre ++ delivered post :=
  List.filterMap_append ..

theorem conserved (h : Path (Step fits) c es c') :
    c.queue ++ accepted es = delivered es ++ c'.queue := by
  induction h with
  | nil c => simp [accepted, delivered]
  | cons hstep _ ih => cases hstep <;> simpa [accepted, delivered] using ih

theorem length_le {capacity : ℕ} (hfits : ∀ n, fits n → n < capacity)
    (h : Path (Step fits) c es c') (hc : c.queue.length ≤ capacity) :
    c'.queue.length ≤ capacity := by
  apply h.preserves hc
  intro u e v hu hstep
  cases hstep with
  | accept hroom => simpa using hfits _ hroom
  | deliver => exact Nat.le_of_succ_le (by simpa using hu)
  | _ => exact hu

/-- A closed channel stays closed and accepts nothing. -/
theorem shut (h : Path (Step fits) c es c') (hc : c.closed = true) :
    c'.closed = true ∧ accepted es = [] := by
  induction h with
  | nil c => exact ⟨hc, rfl⟩
  | cons hstep _ ih =>
    cases hstep with
    | accept => cases hc
    | close => simpa [accepted] using ih rfl
    | _ => simpa [accepted] using ih hc

theorem accepted_after_close (h : Path (Step fits) c (pre ++ .close :: post) c') :
    accepted post = [] := by
  obtain ⟨_, _, hclose⟩ := Path.append_iff.mp h
  rcases hclose with _ | ⟨⟨⟩, hpost⟩
  exact (shut hpost rfl).2

/-- After the end nothing follows. -/
theorem final (h : Path (Step fits) c (pre ++ .finish :: post) c') :
    accepted post = [] ∧ delivered post = [] ∧ c'.queue = [] := by
  obtain ⟨_, _, hfinish⟩ := Path.append_iff.mp h
  rcases hfinish with _ | ⟨⟨⟩, hpost⟩
  have hnone := (shut hpost rfl).2
  have hall := conserved hpost
  simp only [hnone, List.append_nil, List.nil_eq, List.append_eq_nil_iff] at hall
  exact ⟨hnone, hall⟩

theorem closed_of_finish (h : Path (Step fits) c es c') (hfinish : .finish ∈ es) :
    c'.closed = true := by
  obtain ⟨pre, post, rfl⟩ := List.append_of_mem hfinish
  obtain ⟨_, _, hlast⟩ := Path.append_iff.mp h
  rcases hlast with _ | ⟨⟨⟩, hpost⟩
  exact (shut hpost rfl).1

/-- By the end everything accepted has been delivered, and in the same order. -/
theorem delivered_all (h : Path (Step fits) empty es c') (hfinish : .finish ∈ es) :
    accepted es = delivered es := by
  obtain ⟨pre, post, rfl⟩ := List.append_of_mem hfinish
  simpa [empty, (final h).2.2] using conserved h

end Channel
end Obz.Foundation
