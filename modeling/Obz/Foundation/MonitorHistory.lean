import Obz.Foundation.Monitor
import Obz.Foundation.Transition

/-!
# Histories of monitors

The critical sections run one at a time, so the history of a monitor is a run of
whatever each single critical section is a step of.
-/
namespace Obz.Foundation

/-- One step of a component, or none. -/
def StepOrStay {A E : Type*} (component : A → E → A → Prop) (c : A) : Option E → A → Prop
  | none, c' => c' = c
  | some e, c' => component c e c'

namespace MonitorState

variable {ι C L X D R E A : Type*} {s s' : MonitorState ι C L D R}

/-- The history under a view of each call and its result; some calls do not count. -/
def events (view : L → R → Option E) (s : MonitorState ι C L D R) : List E :=
  s.history.filterMap fun (_, call, result) => view call result

theorem events_grown {view : L → R → Option E} {post : List (ι × L × R)}
    (h : s'.history = s.history ++ post) :
    s'.events view = s.events view ++ post.filterMap fun (_, call, result) => view call result := by
  rw [events, h, List.filterMap_append]
  rfl

/-! ### The calls of one thread -/

section Own

variable [DecidableEq ι]

/-- The history of one thread under a view. -/
def eventsOf (view : L → R → Option E) (s : MonitorState ι C L D R) (t : ι) : List E :=
  s.history.filterMap fun (u, call, result) => if u = t then view call result else none

theorem eventsOf_same (view : L → R → Option E) (h : s'.history = s.history) (t : ι) :
    s'.eventsOf view t = s.eventsOf view t := by
  rw [eventsOf, h]
  rfl

theorem eventsOf_grown {view : L → R → Option E} {t : ι} {call : L} {result : R} {e : E}
    (h : s'.history = s.history ++ [(t, call, result)]) (hview : view call result = some e) :
    s'.eventsOf view t = s.eventsOf view t ++ [e] ∧
    ∀ u, u ≠ t → s'.eventsOf view u = s.eventsOf view u := by
  constructor
  · rw [eventsOf, h, List.filterMap_append]
    simp [eventsOf, hview]
  · intro u hu
    rw [eventsOf, h, List.filterMap_append]
    simp [eventsOf, Ne.symm hu]

theorem eventsOf_sublist (view : L → R → Option E) (s : MonitorState ι C L D R) (t : ι) :
    List.Sublist (s.eventsOf view t) (s.events view) := by
  unfold eventsOf events
  induction s.history with
  | nil => exact List.Sublist.refl _
  | cons entry rest ih =>
    obtain ⟨u, call, result⟩ := entry
    cases hview : view call result with
    | none => simpa [hview] using ih
    | some e =>
      by_cases hu : u = t
      · simpa [hview, hu] using ih
      · simpa [hview, hu] using ih.cons e

/-- Whatever is counted in the history is counted once, at the thread it belongs to. -/
theorem sum_length_eventsOf [Fintype ι] {E' : Type*} (view : L → R → Option E) (f : E → Option E')
    (s : MonitorState ι C L D R) :
    ∑ t, ((s.eventsOf view t).filterMap f).length = ((s.events view).filterMap f).length := by
  simp only [eventsOf, events, List.filterMap_filterMap, List.length_filterMap_eq_countP]
  induction s.history with
  | nil => simp
  | cons entry rest ih =>
    obtain ⟨u, call, result⟩ := entry
    simp only [List.countP_cons, Finset.sum_add_distrib, ih]
    congr 1
    calc ∑ t, (if ((if u = t then view call result else none).bind f).isSome = true then 1 else 0)
        = ∑ t, if u = t then (if ((view call result).bind f).isSome = true then 1 else 0) else 0 :=
          Finset.sum_congr rfl fun t _ => by by_cases hu : u = t <;> simp [hu]
      _ = _ := by simp

end Own

variable [Fintype ι] [DecidableEq ι] [DecidableEq C] {M : Monitor C L X D R}
  {allowed : MonitorState ι C L D R → MonitorAction ι L X → Prop}

/-- A step leaves the data and the history alone, or is the end of one critical section. -/
theorem step_cases {a : MonitorAction ι L X} (h : s.step M a = some s') :
    (s'.data = s.data ∧ s'.history = s.history) ∨
    ∃ t x call result notices, a = .enter t x ∧ (s.phase t).entering = some call ∧
      M.body call x s.data = .leave s'.data result notices ∧
      s'.phase t = .leaving call notices result ∧
      s'.history = s.history ++ [(t, call, result)] := by
  cases monitor_effect h with
  | leave ht hbody =>
    exact Or.inr ⟨_, _, _, _, _, rfl, ht, hbody, by simp [setPhase], rfl⟩
  | _ => exact Or.inl ⟨rfl, rfl⟩

theorem history_grows (h : M.system.Follows allowed s s') :
    ∃ post, s'.history = s.history ++ post := by
  apply h.preserves (P := fun u => ∃ post, u.history = s.history ++ post)
  · exact ⟨[], by simp⟩
  · rintro u a v ⟨post, hpost⟩ _ hstep
    rcases step_cases hstep with ⟨_, hv⟩ | ⟨t, x, call, result, ns, _, _, _, _, hv⟩
    · exact ⟨post, hv.trans hpost⟩
    · exact ⟨post ++ [(t, call, result)], by rw [hv, hpost, List.append_assoc]⟩

/-- The refinement rule: if every critical section is one step of an abstract component,
or none of its steps, then the history is a run of that component. -/
theorem path_of_follows (view : L → R → Option E) (component : A → E → A → Prop) (abs : D → A)
    (hbody : ∀ u t x call d result notices, allowed u (.enter t x) →
      M.body call x u.data = .leave d result notices →
        StepOrStay component (abs u.data) (view call result) (abs d))
    (h : M.system.Follows allowed M.system.start s) :
    Path component (abs M.initial) (s.events view) (abs s.data) := by
  induction h with
  | refl => exact .nil _
  | tail _ hlast ih =>
    obtain ⟨a, ha, hstep⟩ := hlast
    rcases step_cases hstep with ⟨hd, hv⟩ | ⟨t, x, call, result, ns, rfl, _, hleave, _, hv⟩
    · rw [events, hv, hd]
      exact ih
    · have hone := hbody _ t x call _ result ns ha hleave
      rw [events_grown hv]
      cases hview : view call result with
      | none =>
        rw [hview] at hone
        have hsame : abs _ = abs _ := hone
        simpa [hview, hsame] using ih
      | some e =>
        rw [hview] at hone
        simpa [hview] using ih.snoc hone

end MonitorState
end Obz.Foundation
