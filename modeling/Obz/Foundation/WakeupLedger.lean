import Obz.Foundation.Monitor

/-!
# Keeping account of wake-ups

For one condition variable a ledger counts the threads waiting, the threads
notified and not resumed, the notifications owed to one and to all threads, and
the units of what is waited for. A wake-up is lost when units lie there, a
thread waits for them and nobody is under way to hand them over. `Books` says
how a monitor has to relate its critical sections to its notifications; then
every step of the monitor is a move of every ledger.
-/
namespace Obz.Foundation

/-- `shut` means that nobody waits any more; nothing counts as available then. -/
structure Ledger where
  waiters : ℕ
  notified : ℕ
  pending : ℕ
  broadcasts : ℕ
  available : ℕ
  shut : Bool

namespace Ledger

variable {a b : Ledger}

/-- `k` waiting threads are handed notifications that were owed. -/
structure Pass (k : ℕ) (a b : Ledger) : Prop where
  shut : b.shut = a.shut
  waiters : b.waiters + k = a.waiters
  notified : b.notified = a.notified + k
  pending : b.pending + k = a.pending
  broadcasts : b.broadcasts = a.broadcasts
  available : b.available = a.available

/-- What may happen to a ledger while every notified thread that leaves takes a unit. -/
inductive Move (a b : Ledger) : Prop
  | pass (k : ℕ) (h : Pass k a b)
  | stray (hs : b.shut = a.shut) (hw : b.waiters ≤ a.waiters) (hn : b.notified = a.notified)
      (hp : b.pending = a.pending) (hb : b.broadcasts = a.broadcasts)
      (ha : b.available = a.available)
  | block (hs : b.shut = false) (ha : b.available = 0)
  | serve (taken given : ℕ) (hs : b.shut = a.shut ∨ 0 < b.broadcasts)
      (hw : b.waiters = a.waiters) (hn : b.notified + taken = a.notified)
      (hp : b.pending = a.pending + given) (hb : a.broadcasts ≤ b.broadcasts)
      (ha : b.available = 0 ∨ b.available + taken ≤ a.available + given)
  | clear (hw : b.waiters = 0)

/-- A notified thread leaves without taking a unit. -/
structure Forfeit (a b : Ledger) : Prop where
  shut : b.shut = a.shut ∨ 0 < b.broadcasts
  waiters : b.waiters = a.waiters
  notified : b.notified + 1 = a.notified
  pending : a.pending ≤ b.pending
  broadcasts : a.broadcasts ≤ b.broadcasts
  available : b.available ≤ a.available + (b.pending - a.pending)

/-- Every available unit has somebody under way to it, if anybody waits at all. -/
def Safe (a : Ledger) : Prop := a.waiters = 0 ∨ a.available ≤ a.notified + a.pending

/-- Notifications already owed reach every waiting thread or account for every unit. -/
def Covered (a : Ledger) : Prop :=
  a.waiters ≤ a.pending ∨ a.available ≤ a.notified + a.pending

/-- Once the ledger is shut, whoever still waits is owed a notification of all. -/
def Latched (a : Ledger) : Prop := a.shut = true → a.waiters = 0 ∨ 0 < a.broadcasts

theorem Safe.move (h : a.Safe) (hm : Move a b) : b.Safe := by
  unfold Safe at *
  cases hm with
  | pass k hp =>
    obtain ⟨_, hw, hn, hp, _, ha⟩ := hp
    omega
  | _ => omega

theorem Covered.move (h : a.Covered) (hm : Move a b) : b.Covered := by
  unfold Covered at *
  cases hm with
  | pass k hp =>
    obtain ⟨_, hw, hn, hp, _, ha⟩ := hp
    omega
  | _ => omega

/-- A forfeited notification does no harm if the others cover for it. -/
theorem Covered.forfeit (hf : Forfeit a b)
    (h : a.waiters ≤ a.pending ∨ a.available ≤ a.notified - 1 + a.pending) : b.Covered := by
  obtain ⟨_, hw, hn, hp, _, ha⟩ := hf
  unfold Covered
  omega

theorem Latched.move (h : a.Latched) (hm : Move a b) : b.Latched := by
  intro hshut
  cases hm with
  | pass k hp =>
    have hold := h (hp.shut ▸ hshut)
    have hw := hp.waiters
    have hb := hp.broadcasts
    omega
  | stray hs hw hn hp hb ha =>
    have := h (hs ▸ hshut)
    omega
  | block hs ha => simp [hs] at hshut
  | serve taken given hs hw hn hp hb ha =>
    rcases hs with hs | hs
    · have := h (hs ▸ hshut)
      omega
    · exact Or.inr hs
  | clear hw => exact Or.inl hw

theorem Latched.forfeit (h : a.Latched) (hf : Forfeit a b) : b.Latched := by
  intro hshut
  rcases hf.shut with hs | hs
  · have hold := h (hs ▸ hshut)
    have hw := hf.waiters
    have hb := hf.broadcasts
    omega
  · exact Or.inr hs

end Ledger

variable {ι C L X D R : Type*}

/-- How a monitor keeps its notifications in step with its critical sections.
`needs call c` marks the calls that wait on `c` and take a unit when they leave,
`closer` those that shut the monitor and owe every waiting thread a notification;
`failed` marks the results of calls that leave without having done their work. -/
structure Books [DecidableEq C] (M : Monitor C L X D R) where
  available : C → D → ℕ
  shut : D → Bool
  needs : L → C → Prop
  closer : L → Prop
  failed : R → Prop
  needs_unique : ∀ {call c d}, needs call c → needs call d → c = d
  shut_stays : ∀ {call x d d' r ns}, M.body call x d = .leave d' r ns → shut d = true →
    shut d' = true
  waits : ∀ {call x d c}, M.body call x d = .wait c →
    needs call c ∧ shut d = false ∧ available c d = 0
  supplies : ∀ {call x d d' r ns}, M.body call x d = .leave d' r ns → shut d' = false →
    ∀ c, available c d' ≤ available c d + ns.count (.one c)
  takes : ∀ {call x d d' r ns c}, M.body call x d = .leave d' r ns → shut d' = false →
    ¬ failed r → needs call c → available c d' + 1 ≤ available c d + ns.count (.one c)
  closes : ∀ {call x d d' r ns}, M.body call x d = .leave d' r ns → shut d = false →
    shut d' = true → ∀ c, .all c ∈ ns
  broadcasts : ∀ {call x d d' r ns c}, M.body call x d = .leave d' r ns → .all c ∈ ns →
    closer call ∧ shut d' = true

namespace MonitorState

variable [DecidableEq C] [Fintype ι]

theorem notifyAll_waiters (s : MonitorState ι C L D R) (c : C) : (s.notifyAll c).waiters c = 0 := by
  refine total_eq_zero_iff.mpr fun t => ?_
  cases ht : s.phase t with
  | waiting call d =>
    by_cases hd : d = c <;> simp [notifyAll, ht, Phase.waitsOn, hd]
  | _ => simp [notifyAll, ht, Phase.waitsOn]

/-- Notifying on one condition variable leaves the counts of another alone. -/
theorem notifyAll_counts_of_ne (s : MonitorState ι C L D R) {c v : C} (h : v ≠ c) :
    (s.notifyAll c).waiters v = s.waiters v ∧ (s.notifyAll c).notified v = s.notified v := by
  refine ⟨Finset.sum_congr rfl fun t _ => ?_, Finset.sum_congr rfl fun t _ => ?_⟩
  all_goals
    cases ht : s.phase t with
    | waiting call d =>
      by_cases hd : d = c
      · subst hd
        simp [notifyAll, ht, Phase.waitsOn, Phase.notifiedOn, Ne.symm h]
      · simp [notifyAll, ht, Phase.waitsOn, Phase.notifiedOn, hd]
    | _ => simp [notifyAll, ht, Phase.waitsOn, Phase.notifiedOn]

theorem notifyAll_owes (s : MonitorState ι C L D R) (c : C) (n : Notice C) :
    (s.notifyAll c).total (Phase.owes n) = s.total (Phase.owes n) := by
  refine Finset.sum_congr rfl fun t _ => ?_
  cases ht : s.phase t with
  | waiting call d => by_cases hd : d = c <;> simp [notifyAll, ht, Phase.owes, hd]
  | _ => simp [notifyAll, ht, Phase.owes]

variable [DecidableEq ι]

/-- One thread changes its phase; what it counted for is exchanged in every column. -/
theorem counts_setPhase (s : MonitorState ι C L D R) (t : ι) (p : Phase C L R) (c : C) :
    (s.setPhase t p).waiters c + (s.phase t).waitsOn c = s.waiters c + p.waitsOn c ∧
    (s.setPhase t p).notified c + (s.phase t).notifiedOn c = s.notified c + p.notifiedOn c ∧
    (s.setPhase t p).pending c + (s.phase t).owes (.one c) = s.pending c + p.owes (.one c) ∧
    (s.setPhase t p).pendingAll c + (s.phase t).owes (.all c) =
      s.pendingAll c + p.owes (.all c) :=
  ⟨s.total_setPhase _ t p, s.total_setPhase _ t p, s.total_setPhase _ t p,
    s.total_setPhase _ t p⟩

end MonitorState

namespace Books

variable [DecidableEq C] {M : Monitor C L X D R} (B : Books M) {s s' : MonitorState ι C L D R}

def ledger [Fintype ι] (s : MonitorState ι C L D R) (c : C) : Ledger where
  waiters := s.waiters c
  notified := s.notified c
  pending := s.pending c
  broadcasts := s.pendingAll c
  available := if B.shut s.data then 0 else B.available c s.data
  shut := B.shut s.data

/-- Threads wait on the condition variable of their call, and only closers of a
monitor that is shut owe notifications of all threads. -/
structure WellPhased (s : MonitorState ι C L D R) : Prop where
  needs : ∀ t call c, s.phase t = .waiting call c ∨ (∃ b, s.phase t = .woken call c b) →
    B.needs call c
  closer : ∀ t call ns r c, s.phase t = .leaving call ns r → .all c ∈ ns →
    B.closer call ∧ B.shut s.data = true

/-- Thread `t`, resumed by a notification on `c`, leaves without its work done. -/
def Forfeits (s : MonitorState ι C L D R) (a : MonitorAction ι L X) (c : C) : Prop :=
  ∃ t x call d r ns, a = .enter t x ∧ s.phase t = .woken call c true ∧
    M.body call x s.data = .leave d r ns ∧ B.failed r

variable {B}

theorem WellPhased.notifyAll (h : B.WellPhased s) (d : C) : B.WellPhased (s.notifyAll d) := by
  refine ⟨fun u call c hu => ?_, fun u call ns r c hu => ?_⟩
  · cases hphase : s.phase u with
    | waiting call' d' =>
      have hneed := h.needs u call' d' (Or.inl hphase)
      by_cases hd : d' = d <;> simp [MonitorState.notifyAll, hphase, hd] at hu
      · obtain ⟨rfl, rfl⟩ := hu
        exact hd ▸ hneed
      · obtain ⟨rfl, rfl⟩ := hu
        exact hneed
    | woken call' d' b =>
      simp only [MonitorState.notifyAll, hphase] at hu
      exact h.needs u call c (hphase ▸ hu)
    | _ => simp [MonitorState.notifyAll, hphase] at hu
  · cases hphase : s.phase u with
    | waiting call' d' =>
      by_cases hd : d' = d <;> simp [MonitorState.notifyAll, hphase, hd] at hu
    | leaving call' ns' r' =>
      simp only [MonitorState.notifyAll, hphase] at hu
      exact h.closer u call ns r c (hphase ▸ hu)
    | _ => simp [MonitorState.notifyAll, hphase] at hu

/-- A thread that has issued one of its notifications still owes only others. -/
theorem WellPhased.issued (h : B.WellPhased s) {t : ι} {call : L} {n : Notice C}
    {notices : List (Notice C)} {result : R}
    (ht : s.phase t = .leaving call (n :: notices) result) :
    ∀ call' ns r c, Phase.leaving call notices result = .leaving call' ns r → Notice.all c ∈ ns →
      B.closer call' ∧ B.shut s.data = true := by
  rintro call' ns r c hp hmem
  cases hp
  exact h.closer t call _ result c ht (List.mem_cons_of_mem n hmem)

variable [DecidableEq ι]

theorem WellPhased.setPhase (h : B.WellPhased s) {t : ι} {p : Phase C L R}
    (hneeds : ∀ call c, p = .waiting call c ∨ (∃ b, p = .woken call c b) → B.needs call c)
    (hcloser : ∀ call ns r c, p = .leaving call ns r → .all c ∈ ns →
      B.closer call ∧ B.shut s.data = true) :
    B.WellPhased (s.setPhase t p) := by
  refine ⟨fun u call c hu => ?_, fun u call ns r c hu => ?_⟩
  all_goals by_cases hut : u = t
  · subst hut
    exact hneeds call c (by simpa [MonitorState.setPhase] using hu)
  · exact h.needs u call c (by simpa [MonitorState.setPhase, hut] using hu)
  · subst hut
    exact hcloser call ns r c (by simpa [MonitorState.setPhase] using hu)
  · exact h.closer u call ns r c (by simpa [MonitorState.setPhase, hut] using hu)

variable [Fintype ι]

/-- A critical section that is left serves the ledger or forfeits a notification. -/
theorem WellPhased.leave (h : B.WellPhased s) {t : ι} {x : X} {call : L} {d : D} {r : R}
    {ns : List (Notice C)} (ht : (s.phase t).entering = some call)
    (hbody : M.body call x s.data = .leave d r ns) (c : C) (history : List (ι × L × R)) :
    let left := { s.setPhase t (.leaving call ns r) with data := d, history }
    Ledger.Move (B.ledger s c) (B.ledger left c) ∨
      (B.Forfeits s (.enter t x) c ∧ Ledger.Forfeit (B.ledger s c) (B.ledger left c)) := by
  intro left
  obtain ⟨hw0, hp0⟩ := Phase.weights_of_entering ht c
  obtain ⟨hw, hn, hp, hb⟩ := s.counts_setPhase t (.leaving call ns r) c
  rw [hw0] at hw
  rw [hp0] at hp hb
  change left.pending c = s.pending c + ns.count (.one c) at hp
  change left.pendingAll c = s.pendingAll c + ns.count (.all c) at hb
  have hs : B.shut d = B.shut s.data ∨ 0 < left.pendingAll c := by
    cases hold : B.shut s.data with
    | true => exact Or.inl (B.shut_stays hbody hold)
    | false =>
      cases hnew : B.shut d with
      | false => exact Or.inl rfl
      | true =>
        have := List.count_pos_iff.mpr (B.closes hbody hold hnew c)
        omega
  have hle : s.pendingAll c ≤ left.pendingAll c := by omega
  have hopen : B.shut d = false → B.shut s.data = false := by
    intro hnew
    cases hold : B.shut s.data with
    | false => rfl
    | true => simpa [hnew] using B.shut_stays hbody hold
  have havail : ∀ taken, (B.shut d = false →
        B.available c d + taken ≤ B.available c s.data + ns.count (.one c)) →
      (B.ledger left c).available = 0 ∨
        (B.ledger left c).available + taken ≤ (B.ledger s c).available + ns.count (.one c) := by
    intro taken hle
    cases hnew : B.shut d with
    | true => exact Or.inl (if_pos hnew)
    | false => exact Or.inr (by simpa [ledger, left, hnew, hopen hnew] using hle hnew)
  rcases Phase.notifiedOn_of_entering ht c with hk | ⟨hk, hwoken⟩
  · rw [hk] at hn
    exact Or.inl (.serve 0 _ hs hw hn hp hle (havail 0 fun hnew => B.supplies hbody hnew c))
  · rw [hk] at hn
    by_cases hfail : B.failed r
    · refine Or.inr ⟨⟨t, x, call, d, r, ns, rfl, hwoken, hbody, hfail⟩,
        hs, hw, hn, Nat.le.intro hp.symm, hle, ?_⟩
      have hgiven : left.pending c - s.pending c = ns.count (.one c) := by omega
      change _ ≤ _ + (left.pending c - s.pending c)
      have := havail 0 fun hnew => B.supplies hbody hnew c
      omega
    · have hneed : B.needs call c := h.needs t call c (Or.inr ⟨true, hwoken⟩)
      exact Or.inl (.serve 1 _ hs hw hn hp hle
        (havail 1 fun hnew => B.takes hbody hnew hfail hneed))

/-- A critical section that waits has found nothing to take. -/
theorem WellPhased.block (h : B.WellPhased s) {t : ι} {x : X} {call : L} {d : C}
    (ht : (s.phase t).entering = some call) (hbody : M.body call x s.data = .wait d) (c : C) :
    Ledger.Move (B.ledger s c) (B.ledger (s.setPhase t (.waiting call d)) c) := by
  obtain ⟨hneed, hopen, hzero⟩ := B.waits hbody
  by_cases hd : d = c
  · subst hd
    refine .block hopen ?_
    change (if B.shut s.data then 0 else B.available d s.data) = 0
    rw [hzero, ite_self]
  · obtain ⟨hw0, hp0⟩ := Phase.weights_of_entering ht c
    obtain ⟨hw, hn, hp, hb⟩ := s.counts_setPhase t (.waiting call d) c
    have hk : (s.phase t).notifiedOn c = 0 := by
      refine (Phase.notifiedOn_of_entering ht c).resolve_right fun ⟨_, hwoken⟩ => ?_
      exact hd (B.needs_unique hneed (h.needs t call c (Or.inr ⟨true, hwoken⟩)))
    have hnew : (Phase.waiting call d : Phase C L R).waitsOn c = 0 := if_neg hd
    rw [hw0, hnew] at hw
    rw [hk] at hn
    rw [hp0] at hp hb
    exact .pass 0 ⟨rfl, hw, hn, hp, hb, rfl⟩

/-- A notification of one thread reaches a waiting thread. -/
theorem notifyOne_pass {t u : ι} {d c : C} {notices : List (Notice C)} {result : R}
    {call waiter : L} (ht : s.phase t = .leaving call (.one d :: notices) result)
    (hu : s.phase u = .waiting waiter d) :
    ∃ k, Ledger.Pass k (B.ledger s c)
      (B.ledger
        ((s.setPhase u (.woken waiter d true)).setPhase t (.leaving call notices result)) c) := by
  have hne : t ≠ u := by
    rintro rfl
    rw [ht] at hu
    cases hu
  have hmid : (s.setPhase u (.woken waiter d true)).phase t =
      .leaving call (.one d :: notices) result := by
    simp [MonitorState.setPhase, hne, ht]
  obtain ⟨hw, hn, hp, hb⟩ := s.counts_setPhase u (.woken waiter d true) c
  obtain ⟨hw', hn', hp', hb'⟩ :=
    (s.setPhase u (.woken waiter d true)).counts_setPhase t (.leaving call notices result) c
  have hall : (Notice.one d :: notices).count (.all c) = notices.count (.all c) :=
    List.count_cons_of_ne (by simp)
  rw [hu] at hw hn hp hb
  rw [hmid] at hw' hn' hp' hb'
  by_cases hd : d = c
  · subst hd
    simp only [Phase.waitsOn, Phase.notifiedOn, Phase.owes, List.count_cons_self, hall, if_true,
      add_zero] at hw hn hp hb hw' hn' hp' hb'
    refine ⟨1, rfl, ?_, ?_, ?_, ?_, rfl⟩ <;> simp only [ledger] <;> omega
  · have hone : (Notice.one d :: notices).count (.one c) = notices.count (.one c) :=
      List.count_cons_of_ne (by simpa using hd)
    simp only [Phase.waitsOn, Phase.notifiedOn, Phase.owes, hone, hall, if_neg hd, add_zero]
      at hw hn hp hb hw' hn' hp' hb'
    refine ⟨0, rfl, ?_, ?_, ?_, ?_, rfl⟩ <;> simp only [ledger] <;> omega

/-- A notification of one thread on another condition variable that finds nobody waiting. -/
theorem notifyLost_pass {t : ι} {d c : C} {notices : List (Notice C)} {result : R} {call : L}
    (ht : s.phase t = .leaving call (.one d :: notices) result) (hd : d ≠ c) :
    Ledger.Pass 0 (B.ledger s c) (B.ledger (s.setPhase t (.leaving call notices result)) c) := by
  obtain ⟨hw, hn, hp, hb⟩ := s.counts_setPhase t (.leaving call notices result) c
  have hone : (Notice.one d :: notices).count (.one c) = notices.count (.one c) :=
    List.count_cons_of_ne (by simpa using hd)
  have hall : (Notice.one d :: notices).count (.all c) = notices.count (.all c) :=
    List.count_cons_of_ne (by simp)
  rw [ht] at hw hn hp hb
  simp only [Phase.owes, hone, hall] at hp hb
  exact ⟨rfl, hw, hn, Nat.add_right_cancel hp, Nat.add_right_cancel hb, rfl⟩

/-- A notification of all threads empties the wait set of its condition variable. -/
theorem notifyAll_move {t : ι} {d c : C} {notices : List (Notice C)} {result : R} {call : L}
    (ht : s.phase t = .leaving call (.all d :: notices) result) :
    Ledger.Move (B.ledger s c)
      (B.ledger ((s.notifyAll d).setPhase t (.leaving call notices result)) c) := by
  have hmid : (s.notifyAll d).phase t = .leaving call (.all d :: notices) result := by
    simp [MonitorState.notifyAll, ht]
  obtain ⟨hw, hn, hp, hb⟩ := (s.notifyAll d).counts_setPhase t (.leaving call notices result) c
  rw [hmid] at hw hn hp hb
  by_cases hd : c = d
  · subst hd
    exact .clear (hw.trans (s.notifyAll_waiters c))
  · obtain ⟨hw0, hn0⟩ := s.notifyAll_counts_of_ne hd
    have hone : (Notice.all d :: notices).count (.one c) = notices.count (.one c) :=
      List.count_cons_of_ne (by simp)
    have hall : (Notice.all d :: notices).count (.all c) = notices.count (.all c) :=
      List.count_cons_of_ne (by simpa using Ne.symm hd)
    simp only [Phase.owes, hone, hall] at hp hb
    exact .pass 0 ⟨rfl, hw.trans hw0, hn.trans hn0,
      (Nat.add_right_cancel hp).trans (s.notifyAll_owes d _),
      (Nat.add_right_cancel hb).trans (s.notifyAll_owes d _), rfl⟩

/-- One step of the monitor is one move of every ledger, or forfeits a notification. -/
theorem WellPhased.move (h : B.WellPhased s) {a : MonitorAction ι L X}
    (hstep : s.step M a = some s') (c : C) :
    Ledger.Move (B.ledger s c) (B.ledger s' c) ∨
      (B.Forfeits s a c ∧ Ledger.Forfeit (B.ledger s c) (B.ledger s' c)) := by
  cases monitor_effect hstep with
  | leave ht hbody => exact h.leave ht hbody c _
  | block ht hbody => exact Or.inl (h.block ht hbody c)
  | @notifyLost t call d notices result ht hnone =>
    by_cases hd : d = c
    · subst hd
      refine Or.inl (.clear (MonitorState.total_eq_zero_iff.mpr fun u => ?_))
      by_cases hu : u = t
      · simp [MonitorState.setPhase, hu, Phase.waitsOn]
      · simpa [MonitorState.setPhase, hu] using hnone u
    · exact Or.inl (.pass 0 (notifyLost_pass ht hd))
  | notifyOne ht hu =>
    obtain ⟨k, hpass⟩ := notifyOne_pass (B := B) (c := c) ht hu
    exact Or.inl (.pass k hpass)
  | notifyAll ht => exact Or.inl (notifyAll_move ht)
  | @call t call ht =>
    obtain ⟨hw0, hn0, hp0⟩ := Phase.weights_of_mayCall ht c
    obtain ⟨hw, hn, hp, hb⟩ := s.counts_setPhase t (.ready call) c
    rw [hw0] at hw
    rw [hn0] at hn
    rw [hp0] at hp hb
    exact Or.inl (.pass 0 ⟨rfl, hw, hn, hp, hb, rfl⟩)
  | @wake t call d ht =>
    obtain ⟨hw, hn, hp, hb⟩ := s.counts_setPhase t (.woken call d false) c
    rw [ht] at hw hn hp hb
    exact Or.inl (.stray rfl (Nat.le.intro hw) hn hp hb rfl)
  | @ret t call result ht =>
    obtain ⟨hw, hn, hp, hb⟩ := s.counts_setPhase t (.returned result) c
    rw [ht] at hw hn hp hb
    exact Or.inl (.pass 0 ⟨rfl, hw, hn, hp, hb, rfl⟩)

theorem WellPhased.step (h : B.WellPhased s) {a : MonitorAction ι L X}
    (hstep : s.step M a = some s') : B.WellPhased s' := by
  cases monitor_effect hstep with
  | @leave t choice call data result notices ht hbody =>
    have hdone : B.WellPhased { s with data := data } := by
      refine ⟨h.needs, fun u call' ns r c hu hmem => ?_⟩
      obtain ⟨hcloses, hshut⟩ := h.closer u call' ns r c hu hmem
      exact ⟨hcloses, B.shut_stays hbody hshut⟩
    have hleft := hdone.setPhase (t := t) (p := .leaving call notices result) (by simp)
      fun call' ns r c hp hmem => by
        cases hp
        exact B.broadcasts hbody hmem
    exact ⟨hleft.needs, hleft.closer⟩
  | block ht hbody =>
    refine h.setPhase (fun call c hp => ?_) (by simp)
    obtain ⟨rfl, rfl⟩ := by simpa using hp
    exact (B.waits hbody).1
  | wake ht =>
    refine h.setPhase (fun call c hp => ?_) (by simp)
    obtain ⟨rfl, rfl⟩ := by simpa using hp
    exact h.needs _ _ _ (Or.inl ht)
  | notifyLost ht hnone => exact h.setPhase (by simp) (h.issued ht)
  | notifyOne ht hu =>
    refine (h.setPhase (fun call c hp => ?_) (by simp)).setPhase (by simp) (h.issued ht)
    obtain ⟨rfl, rfl⟩ := by simpa using hp
    exact h.needs _ _ _ (Or.inl hu)
  | notifyAll ht => exact (h.notifyAll _).setPhase (by simp) (h.issued ht)
  | _ => exact h.setPhase (by simp) (by simp)

/-! ### Runs -/

variable (B) in
/-- A unit is available on `c`, a thread waits for it, and nobody is under way. -/
def Stranded (s : MonitorState ι C L D R) (c : C) : Prop :=
  0 < s.waiters c ∧ 0 < B.available c s.data ∧ s.notified c = 0 ∧ s.pending c = 0 ∧
    s.pendingAll c = 0

variable (B) in
/-- If the step forfeits a notification, then it is not needed: the monitor is
shut, or what is owed reaches all waiting threads, or the other threads notified
and the notifications owed account for every unit. -/
def Backed (s : MonitorState ι C L D R) (a : MonitorAction ι L X) : Prop :=
  ∀ c, B.Forfeits s a c → B.shut s.data = true ∨ s.waiters c ≤ s.pending c ∨
    B.available c s.data ≤ s.notified c - 1 + s.pending c

theorem wellPhased_start : B.WellPhased (M.system (ι := ι)).start :=
  ⟨by simp [Monitor.system], by simp [Monitor.system]⟩

theorem waiters_start (c : C) : (M.system (ι := ι)).start.waiters c = 0 :=
  MonitorState.total_eq_zero_iff.mpr fun _ => rfl

theorem wellPhased_of_reachable (h : M.system.Reachable s) : B.WellPhased s :=
  h.invariant (P := B.WellPhased) wellPhased_start fun _ _ _ hu hstep => hu.step hstep

variable (B) in
/-- No notification is forfeited in the step. -/
def Thrifty (s : MonitorState ι C L D R) (a : MonitorAction ι L X) : Prop :=
  ∀ c, ¬ B.Forfeits s a c

/-- The books of a run in which no notification is forfeited. -/
theorem safe_of_follows (h : M.system.Follows B.Thrifty M.system.start s) :
    B.WellPhased s ∧ ∀ c, (B.ledger s c).Safe ∧ (B.ledger s c).Latched := by
  refine h.preserves (P := fun u => B.WellPhased u ∧
      ∀ c, (B.ledger u c).Safe ∧ (B.ledger u c).Latched)
    ⟨wellPhased_start, fun c => ⟨Or.inl (waiters_start c), fun _ => Or.inl (waiters_start c)⟩⟩
    fun u a v hu hallowed hstep => ⟨hu.1.step hstep, fun c => ?_⟩
  rcases hu.1.move hstep c with hmove | ⟨hforfeit, _⟩
  · exact ⟨(hu.2 c).1.move hmove, (hu.2 c).2.move hmove⟩
  · exact absurd hforfeit (hallowed c)

/-- The books of a run in which every forfeited notification is backed by others. -/
theorem covered_of_follows (h : M.system.Follows B.Backed M.system.start s) :
    B.WellPhased s ∧ ∀ c, (B.ledger s c).Covered ∧ (B.ledger s c).Latched := by
  refine h.preserves (P := fun u => B.WellPhased u ∧
      ∀ c, (B.ledger u c).Covered ∧ (B.ledger u c).Latched)
    ⟨wellPhased_start, fun c => ⟨Or.inl ?_, fun _ => Or.inl (waiters_start c)⟩⟩
    fun u a v hu hbacked hstep => ⟨hu.1.step hstep, fun c => ?_⟩
  · exact (waiters_start c).le.trans (Nat.zero_le _)
  · rcases hu.1.move hstep c with hmove | ⟨hforfeits, hforfeit⟩
    · exact ⟨(hu.2 c).1.move hmove, (hu.2 c).2.move hmove⟩
    · refine ⟨Ledger.Covered.forfeit hforfeit ?_, (hu.2 c).2.forfeit hforfeit⟩
      rcases hbacked c hforfeits with hshut | hreach | hcount
      · exact Or.inr (by simp [ledger, hshut])
      · exact Or.inl hreach
      · refine Or.inr (le_trans ?_ hcount)
        simp only [ledger]
        split_ifs
        · exact Nat.zero_le _
        · exact le_rfl

omit [DecidableEq ι] in
theorem not_stranded {c : C} (hcovered : (B.ledger s c).Covered)
    (hlatched : (B.ledger s c).Latched) : ¬ B.Stranded s c := by
  rintro ⟨hw, ha, hn, hp, hb⟩
  cases hshut : B.shut s.data with
  | true =>
    rcases hlatched hshut with h | h
    · exact hw.ne' h
    · exact h.ne' hb
  | false =>
    simp only [Ledger.Covered, ledger, hshut] at hcovered
    rcases hcovered with h | h
    · omega
    · simp only [Bool.false_eq_true, if_false] at h
      omega

/-! ### Reading the books -/

omit [DecidableEq ι] in
theorem waiters_pos {p : ι} {call : L} {c : C} (h : s.phase p = .waiting call c) :
    0 < s.waiters c := by
  have hone : (s.phase p).waitsOn c = 1 := by simp [h, Phase.waitsOn]
  have hle : (s.phase p).waitsOn c ≤ s.waiters c := MonitorState.weight_le_total p
  exact Nat.lt_of_lt_of_le (by omega) hle

omit [DecidableEq ι] in
/-- Whoever waits and is not notified waits for what is on its way to others. -/
theorem available_le {c : C} (h : (B.ledger s c).Safe) (hopen : B.shut s.data = false)
    (hwait : ∃ p call, s.phase p = .waiting call c) :
    B.available c s.data ≤ s.notified c + s.pending c := by
  obtain ⟨p, call, hp⟩ := hwait
  have hpos := waiters_pos hp
  rcases h with hnone | hle
  · exact absurd hnone hpos.ne'
  · simpa [ledger, hopen] using hle

omit [DecidableEq ι] in
/-- Whoever waits although the monitor is shut is owed a notification by a closer. -/
theorem exists_closer {c : C} (hw : B.WellPhased s) (h : (B.ledger s c).Latched)
    (hshut : B.shut s.data = true) (hwait : ∃ p call, s.phase p = .waiting call c) :
    ∃ u call ns r, s.phase u = .leaving call ns r ∧ .all c ∈ ns ∧ B.closer call := by
  obtain ⟨p, call, hp⟩ := hwait
  have howed : 0 < s.pendingAll c := (h hshut).resolve_left (waiters_pos hp).ne'
  obtain ⟨u, hu⟩ := MonitorState.exists_of_total_pos howed
  cases hphase : s.phase u with
  | leaving call ns r =>
    rw [hphase] at hu
    have hmem : .all c ∈ ns := List.count_pos_iff.mp hu
    exact ⟨u, call, ns, r, hphase, hmem, (hw.closer u call ns r c hphase hmem).1⟩
  | _ => simp [hphase, Phase.owes] at hu

end Books
end Obz.Foundation
