import Obz.Foundation.WakeupLedger

/-!
# How far the threads of a monitor get

Within a call every step uses up work, spurious wake-ups apart, and only a
critical section that is left brings in new work: its notifications and the
critical sections of the threads they wake. When nothing but calls is left to
do, every waiting thread finds the monitor open and nothing to take.
-/
namespace Obz.Foundation

variable {ι C L X D R : Type*}

/-- The steps a notification leads to among `n` threads. -/
def Notice.cost (n : ℕ) : Notice C → ℕ
  | .one _ => 2
  | .all _ => n + 1

/-- The steps left to a thread up to its next call, and that call; whoever it wakes included. -/
def Phase.work (n : ℕ) : Phase C L R → ℕ
  | .outside | .returned _ => 2
  | .ready _ | .woken _ _ _ => 1
  | .waiting _ _ => 0
  | .leaving _ notices _ => (notices.map (Notice.cost n)).sum + 3

theorem Phase.work_of_mayCall {p : Phase C L R} (h : p.mayCall = true) (n : ℕ) :
    p.work n = 2 := by
  cases p <;> simp_all [mayCall, work]

theorem Phase.work_of_entering {p : Phase C L R} {call : L} (h : p.entering = some call) (n : ℕ) :
    p.work n = 1 := by
  cases p <;> simp_all [entering, work]

theorem Notice.sum_cost_le {n k : ℕ} {notices : List (Notice C)} (hn : 0 < n)
    (hlen : notices.length ≤ k) : (notices.map (Notice.cost n)).sum ≤ k * (n + 1) := by
  have hcost : ∀ cost ∈ notices.map (Notice.cost n), cost ≤ n + 1 := by
    intro cost hmem
    obtain ⟨notice, -, rfl⟩ := List.mem_map.mp hmem
    cases notice with
    | one c =>
      simp only [Notice.cost]
      omega
    | all c => exact le_rfl
  calc (notices.map (Notice.cost n)).sum
      ≤ (notices.map (Notice.cost n)).length * (n + 1) := List.sum_le_card_nsmul _ _ hcost
    _ = notices.length * (n + 1) := by rw [List.length_map]
    _ ≤ k * (n + 1) := Nat.mul_le_mul_right _ hlen

/-- The call whose critical section is still to be left. -/
def Phase.current : Phase C L R → Option L
  | .ready call | .waiting call _ | .woken call _ _ => some call
  | _ => none

theorem Phase.current_of_entering {p : Phase C L R} {call : L} (h : p.entering = some call) :
    p.current = some call := by
  cases p <;> simp_all [entering, current]

/-- A waiting thread wakes although nobody notified it. -/
def MonitorAction.spurious : MonitorAction ι L X → Bool
  | .wake _ => true
  | _ => false

namespace MonitorState

variable [DecidableEq C] [Fintype ι] {s s' : MonitorState ι C L D R}

def work (s : MonitorState ι C L D R) : ℕ := s.total (Phase.work (Fintype.card ι))

theorem work_notifyAll_le (s : MonitorState ι C L D R) (c : C) :
    (s.notifyAll c).work ≤ s.work + Fintype.card ι := by
  have hone : ∀ t, ((s.notifyAll c).phase t).work (Fintype.card ι) ≤
      (s.phase t).work (Fintype.card ι) + 1 := by
    intro t
    cases ht : s.phase t with
    | waiting call d => by_cases hd : d = c <;> simp [notifyAll, ht, hd, Phase.work]
    | _ => simp [notifyAll, ht]
  calc (s.notifyAll c).work
      ≤ ∑ t, ((s.phase t).work (Fintype.card ι) + 1) := Finset.sum_le_sum fun t _ => hone t
    _ = s.work + Fintype.card ι := by simp [Finset.sum_add_distrib, work, total]

variable [DecidableEq ι]

omit [DecidableEq C] in
theorem work_setPhase (s : MonitorState ι C L D R) (t : ι) (p : Phase C L R) :
    (s.setPhase t p).work + (s.phase t).work (Fintype.card ι) =
      s.work + p.work (Fintype.card ι) :=
  s.total_setPhase _ t p

/-- Nothing is under way inside the monitor: every thread waits or may call. -/
def Settled (s : MonitorState ι C L D R) : Prop :=
  ∀ t, (s.phase t).mayCall = true ∨ ∃ call c, s.phase t = .waiting call c

variable {M : Monitor C L X D R} {k : ℕ}

/-- A notification costs no more than was set aside for it. -/
theorem work_notify {t : ι} {target : Option ι} (h : s.step M (.notify t target) = some s') :
    s'.work < s.work ∧ s'.history = s.history := by
  cases monitor_effect h with
  | @notifyLost _ call c notices result ht hnone =>
    have hset := s.work_setPhase t (.leaving call notices result)
    rw [ht] at hset
    simp only [Phase.work, List.map_cons, List.sum_cons, Notice.cost] at hset
    exact ⟨by omega, rfl⟩
  | @notifyOne _ u call c notices result waiter ht hu =>
    have hne : t ≠ u := by
      rintro rfl
      rw [ht] at hu
      cases hu
    have hmid : (s.setPhase u (.woken waiter c true)).phase t =
        .leaving call (.one c :: notices) result := by
      simp [setPhase, hne, ht]
    have hwoken := s.work_setPhase u (.woken waiter c true)
    have hset := (s.setPhase u (.woken waiter c true)).work_setPhase t
      (.leaving call notices result)
    rw [hu] at hwoken
    rw [hmid] at hset
    simp only [Phase.work, List.map_cons, List.sum_cons, Notice.cost] at hwoken hset
    exact ⟨by omega, rfl⟩
  | @notifyAll _ _ call c notices result ht =>
    have hmid : (s.notifyAll c).phase t = .leaving call (.all c :: notices) result := by
      simp [MonitorState.notifyAll, ht]
    have hset := (s.notifyAll c).work_setPhase t (.leaving call notices result)
    have hle := s.work_notifyAll_le c
    rw [hmid] at hset
    simp only [Phase.work, List.map_cons, List.sum_cons, Notice.cost] at hset
    exact ⟨by omega, rfl⟩

/-- Every step uses up work, unless it is a spurious wake-up, which makes one step of it, or
leaves a critical section, which pays for what it brings in. -/
theorem work_step (hM : ∀ {call x d d' r ns}, M.body call x d = .leave d' r ns → ns.length ≤ k)
    {a : MonitorAction ι L X} (h : s.step M a = some s') :
    (!a.spurious).toNat + s'.work + (k * (Fintype.card ι + 1) + 3) * s.history.length ≤
      s.work + (k * (Fintype.card ι + 1) + 3) * s'.history.length + a.spurious.toNat := by
  cases monitor_effect h with
  | @call t call ht =>
    have hset := s.work_setPhase t (.ready call)
    rw [Phase.work_of_mayCall ht] at hset
    simp only [Phase.work] at hset
    change 1 + (s.setPhase t (.ready call)).work + _ * s.history.length ≤
      s.work + _ * s.history.length + 0
    omega
  | @block t choice call c ht hbody =>
    have hset := s.work_setPhase t (.waiting call c)
    rw [Phase.work_of_entering ht] at hset
    simp only [Phase.work] at hset
    change 1 + (s.setPhase t (.waiting call c)).work + _ * s.history.length ≤
      s.work + _ * s.history.length + 0
    omega
  | @leave t choice call data result notices ht hbody =>
    have hset := s.work_setPhase t (.leaving call notices result)
    rw [Phase.work_of_entering ht] at hset
    have hpos : 0 < Fintype.card ι := Fintype.card_pos_iff.mpr ⟨t⟩
    have hcost := Notice.sum_cost_le hpos (hM hbody)
    simp only [Phase.work] at hset
    change 1 + (s.setPhase t (.leaving call notices result)).work + _ * s.history.length ≤
      s.work + _ * (s.history ++ [(t, call, result)]).length + 0
    rw [List.length_append, List.length_singleton, Nat.mul_add _ s.history.length, Nat.mul_one]
    omega
  | @wake t call c ht =>
    have hset := s.work_setPhase t (.woken call c false)
    rw [ht] at hset
    simp only [Phase.work] at hset
    change 0 + (s.setPhase t (.woken call c false)).work + _ * s.history.length ≤
      s.work + _ * s.history.length + 1
    omega
  | @ret t call result ht =>
    have hset := s.work_setPhase t (.returned result)
    rw [ht] at hset
    simp only [Phase.work, List.map_nil, List.sum_nil] at hset
    change 1 + (s.setPhase t (.returned result)).work + _ * s.history.length ≤
      s.work + _ * s.history.length + 0
    omega
  | notifyLost | notifyOne | notifyAll =>
    obtain ⟨hlt, hsame⟩ := work_notify h
    rw [hsame]
    simp only [MonitorAction.spurious, Bool.not_false, Bool.toNat_true, Bool.toNat_false]
    omega

omit [Fintype ι] [DecidableEq C] in
theorem current_setPhase {t u : ι} {p : Phase C L R} {call : L}
    (h : ((s.setPhase t p).phase u).current = some call) :
    (u = t ∧ p.current = some call) ∨ (s.phase u).current = some call := by
  by_cases hu : u = t
  · subst hu
    exact Or.inl ⟨rfl, by simpa [setPhase] using h⟩
  · exact Or.inr (by simpa [setPhase, hu] using h)

omit [Fintype ι] [DecidableEq ι] in
theorem current_notifyAll {u : ι} {c : C} :
    ((s.notifyAll c).phase u).current = (s.phase u).current := by
  cases hu : s.phase u with
  | waiting call d => by_cases hd : d = c <;> simp [notifyAll, hu, hd, Phase.current]
  | _ => simp [notifyAll, hu]

/-- A thread is in the call it has made. -/
theorem current_of_step {a : MonitorAction ι L X} (h : s.step M a = some s') {u : ι} {call : L}
    (hu : (s'.phase u).current = some call) :
    (s.phase u).current = some call ∨ a = .call u call := by
  cases monitor_effect h with
  | call ht =>
    rcases current_setPhase hu with ⟨rfl, hcall⟩ | hold
    · exact Or.inr (by rw [Option.some.inj hcall])
    · exact Or.inl hold
  | block ht hbody =>
    rcases current_setPhase hu with ⟨rfl, hcall⟩ | hold
    · exact Or.inl ((Phase.current_of_entering ht).trans hcall)
    · exact Or.inl hold
  | leave ht hbody =>
    rcases current_setPhase hu with ⟨rfl, hcall⟩ | hold
    · cases hcall
    · exact Or.inl hold
  | wake ht =>
    rcases current_setPhase hu with ⟨rfl, hcall⟩ | hold
    · exact Or.inl (by rw [ht]; exact hcall)
    · exact Or.inl hold
  | notifyOne ht hwaits =>
    rcases current_setPhase hu with ⟨rfl, hcall⟩ | hmid
    · cases hcall
    · rcases current_setPhase hmid with ⟨rfl, hcall⟩ | hold
      · exact Or.inl (by rw [hwaits]; exact hcall)
      · exact Or.inl hold
  | notifyAll ht =>
    rcases current_setPhase hu with ⟨rfl, hcall⟩ | hold
    · cases hcall
    · exact Or.inl (current_notifyAll.symm.trans hold)
  | notifyLost ht hnone | ret ht =>
    rcases current_setPhase hu with ⟨rfl, hcall⟩ | hold
    · cases hcall
    · exact Or.inl hold

/-- Whatever is under way can go on. -/
theorem exists_step_of_not_settled (x : X) (h : ¬ s.Settled) :
    ∃ t, (∃ s', s.step M (.enter t x) = some s') ∨
      (∃ target s', s.step M (.notify t target) = some s') ∨
      ∃ s', s.step M (.ret t) = some s' := by
  simp only [Settled, not_forall, not_or] at h
  obtain ⟨t, hcall, hwait⟩ := h
  refine ⟨t, ?_⟩
  cases ht : s.phase t with
  | outside | returned result => simp [ht, Phase.mayCall] at hcall
  | waiting call c => exact absurd ⟨call, c, ht⟩ hwait
  | ready call => exact Or.inl ⟨_, by simp [step, ht, Phase.entering]; rfl⟩
  | woken call c notified => exact Or.inl ⟨_, by simp [step, ht, Phase.entering]; rfl⟩
  | leaving call notices result =>
    refine Or.inr ?_
    cases notices with
    | nil => exact Or.inr ⟨s.setPhase t (.returned result), by simp [step, ht]⟩
    | cons n notices =>
      refine Or.inl ?_
      cases n with
      | all c =>
        exact ⟨none, (s.notifyAll c).setPhase t (.leaving call notices result), by simp [step, ht]⟩
      | one c =>
        by_cases hnone : ∀ u, (s.phase u).waitsOn c = 0
        · exact ⟨none, s.setPhase t (.leaving call notices result), by simp [step, ht, hnone]⟩
        · push Not at hnone
          obtain ⟨u, hu⟩ := hnone
          cases hphase : s.phase u with
          | waiting waiter d =>
            obtain rfl : d = c := by
              by_contra hd
              simp [hphase, Phase.waitsOn, hd] at hu
            exact ⟨some u, (s.setPhase u (.woken waiter d true)).setPhase t
              (.leaving call notices result), by simp [step, ht, hphase]⟩
          | _ => simp [hphase, Phase.waitsOn] at hu

end MonitorState

namespace Books

variable [DecidableEq C] [Fintype ι] {M : Monitor C L X D R} {B : Books M}
  {s : MonitorState ι C L D R}

/-- With the books in order, whoever still waits when nothing is under way waits for what
is not there, in a monitor that is open. -/
theorem waiting_of_settled (hw : B.WellPhased s)
    (hbooks : ∀ c, (B.ledger s c).Safe ∧ (B.ledger s c).Latched) (hsettled : s.Settled) {t : ι}
    {call : L} {c : C} (ht : s.phase t = .waiting call c) :
    B.needs call c ∧ B.shut s.data = false ∧ B.available c s.data = 0 := by
  have hzero : ∀ weight : Phase C L R → ℕ, (∀ p, p.mayCall = true → weight p = 0) →
      (∀ call c, weight (.waiting call c) = 0) → s.total weight = 0 := by
    intro weight hcall hwait
    refine MonitorState.total_eq_zero_iff.mpr fun u => ?_
    rcases hsettled u with hu | ⟨waiter, d, hu⟩
    · exact hcall _ hu
    · rw [hu]
      exact hwait waiter d
  have hnotified : s.notified c = 0 :=
    hzero _ (fun p hp => (Phase.weights_of_mayCall hp c).2.1) fun _ _ => rfl
  have hpending : s.pending c = 0 :=
    hzero _ (fun p hp => (Phase.weights_of_mayCall hp c).2.2 _) fun _ _ => rfl
  have hpendingAll : s.pendingAll c = 0 :=
    hzero _ (fun p hp => (Phase.weights_of_mayCall hp c).2.2 _) fun _ _ => rfl
  have hopen : B.shut s.data = false := by
    rw [Bool.eq_false_iff]
    intro hshut
    rcases (hbooks c).2 hshut with hnone | howed
    · exact (waiters_pos ht).ne' hnone
    · exact howed.ne' hpendingAll
  have hle := available_le (hbooks c).1 hopen ⟨t, call, ht⟩
  exact ⟨hw.needs t call c (Or.inl ht), hopen, by omega⟩

end Books
end Obz.Foundation
