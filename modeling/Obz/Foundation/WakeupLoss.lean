import Obz.Foundation.WakeupLedger

/-!
# Lost wake-ups come to light

If a forfeited notification was not backed by others, the monitor can be run on,
without any further loss, into a state in which a thread is stranded: issue the
notifications that are owed, then let the notified threads do their work. So the
condition that keeps every run from stranding a thread cannot be weakened.
-/
namespace Obz.Foundation

variable {ι C L X D R : Type*}

/-- More threads wait than the notifications owed can reach, and more units are
available than the notified threads and those notifications can claim. -/
structure Ledger.Lossy (a : Ledger) : Prop where
  shut : a.shut = false
  reach : a.pending < a.waiters
  count : a.notified + a.pending < a.available

theorem Ledger.Lossy.pass {a b : Ledger} {k : ℕ} (h : a.Lossy) (hp : Pass k a b) : b.Lossy := by
  obtain ⟨hshut, hreach, hcount⟩ := h
  obtain ⟨hs, hw, hn, hpend, _, ha⟩ := hp
  exact ⟨hs.trans hshut, by omega, by omega⟩

/-- Notifications still to be issued. -/
def Phase.backlog : Phase C L R → ℕ
  | .leaving _ notices _ => notices.length
  | _ => 0

variable [DecidableEq C] {M : Monitor C L X D R}

/-- A call that needs a unit can take one, and failed calls change no account. -/
structure Books.Obliging (B : Books M) : Prop where
  serves : ∀ {call c d}, B.needs call c → B.shut d = false → 0 < B.available c d →
    ∃ x d' r ns, M.body call x d = .leave d' r ns ∧ ¬ B.failed r ∧ B.shut d' = false ∧
      B.available c d = B.available c d' + 1 ∧ ns.count (.one c) = 0
  fails : ∀ {call x d d' r ns}, M.body call x d = .leave d' r ns → B.failed r →
    B.shut d' = B.shut d ∧ ns = [] ∧ ∀ c, B.available c d' = B.available c d

namespace Books

variable [DecidableEq ι] [Fintype ι] {B : Books M} {s s' : MonitorState ι C L D R} {c : C}

omit [DecidableEq ι] [Fintype ι] in
theorem thrifty_notify (t : ι) (target : Option ι) : B.Thrifty s (.notify t target) := by
  rintro c ⟨_, _, _, _, _, _, ha, _⟩
  cases ha

/-- Some notification is owed by a thread, and it can be issued without harm to a lossy ledger. -/
theorem exists_issue (hphased : B.WellPhased s) (h : (B.ledger s c).Lossy)
    (hpending : s.pending c ≠ 0) :
    ∃ a s', B.Thrifty s a ∧ s.step M a = some s' ∧ (B.ledger s' c).Lossy ∧
      s'.total Phase.backlog < s.total Phase.backlog := by
  obtain ⟨u, hu⟩ := MonitorState.exists_of_total_pos (Nat.pos_of_ne_zero hpending)
  cases hphase : s.phase u with
  | leaving call ns r =>
    cases ns with
    | nil => simp [hphase, Phase.owes] at hu
    | cons n ns =>
      cases n with
      | all d =>
        have hshut := (hphased.closer u call _ r d hphase (by simp)).2
        exact absurd (hshut.symm.trans h.shut) (by simp)
      | one d =>
        by_cases hwait : ∃ v w, s.phase v = .waiting w d
        · obtain ⟨v, w, hv⟩ := hwait
          obtain ⟨k, hpass⟩ := notifyOne_pass (B := B) (c := c) hphase hv
          refine ⟨.notify u (some v), _, thrifty_notify u _, ?_, h.pass hpass, ?_⟩
          · simp [MonitorState.step, hphase, hv]
          · have hmid : (s.setPhase v (.woken w d true)).phase u =
                .leaving call (.one d :: ns) r := by
              have hne : u ≠ v := fun he => by simp [← he, hphase] at hv
              simp [MonitorState.setPhase, hne, hphase]
            have hfirst := s.total_setPhase Phase.backlog v (.woken w d true)
            have hsecond := (s.setPhase v (.woken w d true)).total_setPhase Phase.backlog u
              (.leaving call ns r)
            rw [hv] at hfirst
            rw [hmid] at hsecond
            simp only [Phase.backlog, List.length_cons] at hfirst hsecond
            omega
        · have hd : d ≠ c := by
            rintro rfl
            obtain ⟨v, hv⟩ := MonitorState.exists_of_total_pos
              (Nat.lt_of_le_of_lt (Nat.zero_le _) h.reach : 0 < s.waiters d)
            refine hwait ⟨v, ?_⟩
            cases hvphase : s.phase v with
            | waiting w e =>
              by_cases he : e = d
              · exact ⟨w, he ▸ rfl⟩
              · simp [hvphase, Phase.waitsOn, he] at hv
            | _ => simp [hvphase, Phase.waitsOn] at hv
          refine ⟨.notify u none, _, thrifty_notify u _, ?_, h.pass (notifyLost_pass hphase hd), ?_⟩
          · have hnone : ∀ v, (s.phase v).waitsOn d = 0 := by
              intro v
              cases hvphase : s.phase v with
              | waiting w e =>
                by_cases he : e = d
                · exact absurd ⟨v, w, he ▸ hvphase⟩ hwait
                · simp [Phase.waitsOn, he]
              | _ => rfl
            simp [MonitorState.step, hphase, hnone]
          · have hone := s.total_setPhase Phase.backlog u (.leaving call ns r)
            rw [hphase] at hone
            simp only [Phase.backlog, List.length_cons] at hone
            omega
  | _ => simp [hphase, Phase.owes] at hu

/-- All notifications owed on `c` can be issued. -/
theorem exists_flushed (hphased : B.WellPhased s) (h : (B.ledger s c).Lossy) :
    ∃ t, M.system.Follows B.Thrifty s t ∧ B.WellPhased t ∧ (B.ledger t c).Lossy ∧
      t.pending c = 0 := by
  induction hn : s.total Phase.backlog using Nat.strong_induction_on generalizing s with
  | _ n ih =>
    by_cases hpending : s.pending c = 0
    · exact ⟨s, System.Follows.refl s, hphased, h, hpending⟩
    · obtain ⟨a, s', hthrifty, hstep, hlossy, hlt⟩ := exists_issue hphased h hpending
      obtain ⟨t, hrun, ht⟩ := ih _ (hn ▸ hlt) (hphased.step hstep) hlossy rfl
      exact ⟨t, ((System.Follows.refl s).snoc hthrifty hstep).trans hrun, ht⟩

omit [DecidableEq ι] in
theorem lossy_iff : (B.ledger s c).Lossy ↔ B.shut s.data = false ∧ s.pending c < s.waiters c ∧
    s.notified c + s.pending c < B.available c s.data := by
  constructor
  · rintro ⟨hshut, hreach, hcount⟩
    change B.shut s.data = false at hshut
    exact ⟨hshut, hreach, by simpa [ledger, hshut] using hcount⟩
  · rintro ⟨hshut, hreach, hcount⟩
    exact ⟨hshut, hreach, by simpa [ledger, hshut] using hcount⟩

omit [DecidableEq ι] in
theorem stranded_of_lossy (hphased : B.WellPhased s) (h : (B.ledger s c).Lossy)
    (hnotified : s.notified c = 0) (hpending : s.pending c = 0) : B.Stranded s c := by
  obtain ⟨hshut, hreach, hcount⟩ := lossy_iff.mp h
  refine ⟨by omega, by omega, hnotified, hpending, ?_⟩
  refine MonitorState.total_eq_zero_iff.mpr fun u => ?_
  cases hphase : s.phase u with
  | leaving call ns r =>
    refine List.count_eq_zero.mpr fun hmem => ?_
    exact absurd ((hphased.closer u call ns r c hphase hmem).2.symm.trans hshut) (by simp)
  | _ => rfl

theorem step_enter {t : ι} {x : X} {call : L} {d : D} {r : R} {ns : List (Notice C)}
    (ht : (s.phase t).entering = some call) (hbody : M.body call x s.data = .leave d r ns) :
    s.step M (.enter t x) = some { s.setPhase t (.leaving call ns r) with
      data := d
      history := s.history ++ [(t, call, r)] } := by
  simp [MonitorState.step, ht, MonitorState.enter, hbody]

/-- A notified thread takes its unit and leaves, and the ledger stays lossy. -/
theorem exists_service (ho : B.Obliging) (hphased : B.WellPhased s)
    (h : (B.ledger s c).Lossy) (hpending : s.pending c = 0) (hnotified : s.notified c ≠ 0) :
    ∃ a s', B.Thrifty s a ∧ s.step M a = some s' ∧ (B.ledger s' c).Lossy ∧
      s'.pending c = 0 ∧ s'.notified c + 1 = s.notified c := by
  obtain ⟨hshut, hreach, hcount⟩ := lossy_iff.mp h
  obtain ⟨u, hu⟩ := MonitorState.exists_of_total_pos (Nat.pos_of_ne_zero hnotified)
  obtain ⟨call, hphase⟩ : ∃ call, s.phase u = .woken call c true := by
    cases hphase : s.phase u with
    | woken call d notified =>
      cases notified with
      | false => simp [hphase, Phase.notifiedOn] at hu
      | true =>
        by_cases hd : d = c
        · exact ⟨call, hd ▸ rfl⟩
        · simp [hphase, Phase.notifiedOn, hd] at hu
    | _ => simp [hphase, Phase.notifiedOn] at hu
  have hneed := hphased.needs u call c (Or.inr ⟨true, hphase⟩)
  obtain ⟨x, d, r, ns, hbody, hok, hopen, hunit, hnone⟩ := ho.serves hneed hshut (by omega)
  obtain ⟨hw, hn, hp, _⟩ := s.counts_setPhase u (.leaving call ns r) c
  rw [hphase] at hw hn hp
  simp only [Phase.waitsOn, Phase.notifiedOn, Phase.owes, if_true, hnone, add_zero] at hw hn hp
  refine ⟨.enter u x, _, ?_, step_enter (by rw [hphase]; rfl) hbody, lossy_iff.mpr ⟨hopen, ?_, ?_⟩,
    hp.trans hpending, hn⟩
  · rintro e ⟨_, _, call', _, _, _, ha, hphase', hbody', hfailed⟩
    cases ha
    cases hphase.symm.trans hphase'
    cases hbody.symm.trans hbody'
    exact hok hfailed
  · change (s.setPhase u (.leaving call ns r)).pending c <
      (s.setPhase u (.leaving call ns r)).waiters c
    omega
  · change (s.setPhase u (.leaving call ns r)).notified c +
      (s.setPhase u (.leaving call ns r)).pending c < B.available c d
    omega

/-- With nothing owed any more, the notified threads take their units and leave. -/
theorem exists_stranded (ho : B.Obliging) (hphased : B.WellPhased s) (h : (B.ledger s c).Lossy)
    (hpending : s.pending c = 0) :
    ∃ t, M.system.Follows B.Thrifty s t ∧ B.Stranded t c := by
  induction hn : s.notified c generalizing s with
  | zero => exact ⟨s, System.Follows.refl s, stranded_of_lossy hphased h hn hpending⟩
  | succ n ih =>
    obtain ⟨a, s', hthrifty, hstep, hlossy, hpending', hless⟩ :=
      exists_service ho hphased h hpending (by omega)
    obtain ⟨t, hrun, ht⟩ := ih (hphased.step hstep) hlossy hpending' (by omega)
    exact ⟨t, ((System.Follows.refl s).snoc hthrifty hstep).trans hrun, ht⟩

/-- A forfeited notification that is not backed by others leads to a stranded thread. -/
theorem exists_stranded_of_not_backed (ho : B.Obliging) (hphased : B.WellPhased s)
    {a : MonitorAction ι L X} (hstep : s.step M a = some s') (hnot : ¬ B.Backed s a) :
    ∃ t c, M.system.Follows B.Thrifty s' t ∧ B.Stranded t c := by
  simp only [Backed, not_forall, not_or, not_le, Bool.not_eq_true] at hnot
  obtain ⟨c, ⟨u, x, call, d, r, ns, rfl, hphase, hbody, hfailed⟩, hshut, hreach, hcount⟩ := hnot
  obtain ⟨hshut', rfl, havail⟩ := ho.fails hbody hfailed
  obtain ⟨hw, hn, hp, _⟩ := s.counts_setPhase u (.leaving call [] r) c
  rw [hphase] at hw hn hp
  simp only [Phase.waitsOn, Phase.notifiedOn, Phase.owes, if_true, List.count_nil, add_zero]
    at hw hn hp
  have hlossy : (B.ledger s' c).Lossy := by
    obtain rfl := Option.some.inj (hstep.symm.trans (step_enter (by rw [hphase]; rfl) hbody))
    refine lossy_iff.mpr ⟨hshut'.trans hshut, ?_, ?_⟩
    · change (s.setPhase u (.leaving call [] r)).pending c <
        (s.setPhase u (.leaving call [] r)).waiters c
      omega
    · change (s.setPhase u (.leaving call [] r)).notified c +
        (s.setPhase u (.leaving call [] r)).pending c < B.available c d
      rw [havail c]
      omega
  obtain ⟨v, hrun, hphased', hlossy', hpending⟩ := exists_flushed (hphased.step hstep) hlossy
  obtain ⟨t, hrun', ht⟩ := exists_stranded ho hphased' hlossy' hpending
  exact ⟨t, c, hrun.trans hrun', ht⟩

end Books
end Obz.Foundation
