import Obz.MpscRingQueue.Indices

/-!
# Retries of `try_emplace` are paid for

Each call is metered: with which `write` its iterations began, and how many
positions other producers have reserved since it began. A stamp above a position
is stored only after the position was reserved, so whoever finds one, or loses
the exchange, holds an index that others have moved on.
-/
namespace Obz.MpscRingQueue

open Foundation

variable {P T : Type*} {N : ℕ}

/-- One pass of the loop; `afterSpurious` if the one before ended with an exchange that
failed without cause. -/
structure Iteration where
  write : ℕ
  afterSpurious : Bool
  deriving DecidableEq, Repr

/-- The iterations of a call, oldest first; `overtaken` counts the positions that other
producers reserved while it was in progress. -/
structure Call where
  iterations : List Iteration := []
  overtaken : ℕ := 0
  deriving DecidableEq, Repr

/-- The exchanges of the call that failed without cause. -/
def Call.spurious (c : Call) : ℕ := c.iterations.countP Iteration.afterSpurious

/-- The protocol with a record of the current or last call of each producer. -/
structure Metered (P : Type*) (N : ℕ) (T : Type*) where
  state : State P N T
  calls : P → Call

/-- The exchange would have succeeded. -/
def State.failsSpuriously (s : State P N T) (p : P) (spurious : Bool) : Bool :=
  match s.producers p with
  | .compareExchange _ write => write = s.queue.writeIndex && spurious
  | _ => false

/-- An iteration begins where a producer is about to load the sequence of its cell. -/
def Call.step (c : Call) (spurious : Bool) : ProducerPc T → Call
  | .loadSequence _ write => { c with iterations := c.iterations ++ [⟨write, spurious⟩] }
  | _ => c

namespace Metered

variable [DecidableEq P]

/-- The records after an action that leads to `t`. -/
def record (s : Metered P N T) (t : State P N T) : Action P T → P → Call
  | .callEmplace p _ => Function.update s.calls p {}
  | .produce p spurious => fun q =>
    if q = p then (s.calls p).step (s.state.failsSpuriously p spurious) (t.producers p)
    else if (s.state.producers q).outside then s.calls q
    else { s.calls q with overtaken :=
      (s.calls q).overtaken + (t.reservations.length - s.state.reservations.length) }
  | _ => s.calls

def step [NeZero N] (s : Metered P N T) (a : Action P T) : Option (Metered P N T) :=
  (s.state.step a).map fun t => ⟨t, s.record t a⟩

end Metered

def metered (P : Type*) [DecidableEq P] (N : ℕ) [NeZero N] (T : Type*) :
    System (Metered P N T) (Action P T) where
  start := ⟨.initial, fun _ => {}⟩
  step := Metered.step

/-! ### Stamps and reservations -/

variable [NeZero N]

/-- A stamp above a position is stored only after the position was reserved. -/
def StampsReserved (s : State P N T) : Prop :=
  ∀ n, n < s.queue.stamps.get n → n < s.queue.writeIndex

namespace StampsReserved

variable {s : State P N T}

theorem initial : StampsReserved (State.initial : State P N T) := by
  intro n hn
  exact absurd (Nat.mod_le n N) (Nat.not_le.mpr hn)

theorem storeSequence (h : StampsReserved s) {m x : ℕ}
    (hx : ∀ n, (CyclicBuffer.index n : Fin N) = CyclicBuffer.index m → n < x →
      n < s.queue.writeIndex) :
    StampsReserved { s with queue := s.queue.storeSequence m x } := by
  intro n hn
  rw [Queue.stamps_storeSequence] at hn
  by_cases hcell : (CyclicBuffer.index n : Fin N) = CyclicBuffer.index m
  · rw [CyclicBuffer.get_congr hcell, CyclicBuffer.get_set_self] at hn
    exact hx n hcell hn
  · rw [CyclicBuffer.get_set_of_ne hcell] at hn
    exact h n hn

theorem step [DecidableEq P] (h : StampsReserved s) (hbehind : Behind s) {t : State P N T}
    {a : Action P T} (hstep : s.step a = some t) : StampsReserved t := by
  cases step_effect hstep with
  | reserve hpc => exact fun n hn => Nat.lt_succ_of_lt (h n hn)
  | construct hpc =>
    intro n hn
    exact h n (by simpa [State.construct, State.setProducer] using hn)
  | @publish p value write b hpc =>
    have hclaim : write < s.queue.writeIndex := hbehind.producer p write (by rw [hpc]; rfl)
    exact h.storeSequence (m := write) (x := write + 1) fun n _ hn => by omega
  | moveOut hpc hslot | destroy hpc hslot =>
    intro n hn
    exact h n (by simpa using hn)
  | @release read value hpc =>
    have hclaim : read < s.queue.writeIndex := hbehind.consumer read (by rw [hpc]; rfl)
    refine h.storeSequence (m := read) (x := read + N) fun n hcell hn => ?_
    by_contra hge
    have := CyclicBuffer.eq_of_index_eq (a := read) (by omega) hn le_rfl
      (by have := Nat.pos_of_ne_zero (NeZero.ne N); omega) hcell
    omega
  | _ => exact h

end StampsReserved

/-! ### One call -/

namespace Call

variable {c : Call} {bound : ℕ}

/-- The next iteration has a greater `write`, unless the exchange failed without cause. -/
def Rises (i j : Iteration) : Prop := j.afterSpurious = false → i.write < j.write

/-- In an iteration with `write`: the others so far are paid for, and so is every
position that `write` lags behind. -/
structure Within (c : Call) (bound write : ℕ) : Prop where
  last : (c.iterations.getLast?).map Iteration.write = some write
  le : write ≤ bound
  paid : c.iterations.length + (bound - write) ≤ 1 + c.overtaken + c.spurious

/-- What is known of a call at each point; `bound` is the index that producers exchange. -/
def At (c : Call) (bound : ℕ) : ProducerPc T → Prop
  | .loadWrite _ => c.iterations = []
  | .loadSequence _ write | .compareExchange _ write => c.Within bound write
  | .reloadWrite _ => ∃ write, write < bound ∧ c.Within bound write
  | _ => True

structure Ok (c : Call) (bound : ℕ) (pc : ProducerPc T) : Prop where
  rises : c.iterations.IsChain Rises
  paid : c.iterations.length ≤ 1 + c.overtaken + c.spurious
  point : c.At bound pc

variable {pc pc' : ProducerPc T}

theorem ok_new (hpc : Call.At {} bound pc) : Ok {} bound pc := ⟨.nil, Nat.zero_le _, hpc⟩

/-- A producer moves on inside an iteration, or leaves the loop. -/
theorem Ok.move (h : c.Ok bound pc) {bound' : ℕ} (hpc : c.At bound' pc') : c.Ok bound' pc' :=
  ⟨h.rises, h.paid, hpc⟩

/-- An iteration begins with the current index: it is the first one, or the one before
lags behind, or its exchange failed without cause. -/
theorem Ok.next (h : c.Ok bound pc) {value : T} {spurious : Bool}
    (hpaid : c.iterations = [] ∨
      ∃ write, c.Within bound write ∧ (spurious = false → write < bound)) :
    Ok { c with iterations := c.iterations ++ [⟨bound, spurious⟩] } bound
      (.loadSequence value bound) := by
  have hcount : Call.spurious { c with iterations := c.iterations ++ [⟨bound, spurious⟩] } =
      c.spurious + spurious.toNat := by
    cases spurious <;> simp [Call.spurious, List.countP_append]
  have hlength : c.iterations.length + 1 ≤ 1 + c.overtaken + (c.spurious + spurious.toNat) := by
    rcases hpaid with hnil | ⟨write, hin, hbehind⟩
    · rw [hnil, List.length_nil]
      omega
    · have hpaid := hin.paid
      cases spurious with
      | false =>
        have hlt := hbehind rfl
        simp only [Bool.toNat_false]
        omega
      | true =>
        simp only [Bool.toNat_true]
        omega
  refine ⟨?_, ?_, ⟨by simp, le_rfl, ?_⟩⟩
  · refine h.rises.append (.singleton _) fun i hi j hj hspurious => ?_
    obtain rfl : Iteration.mk bound spurious = j := by simpa using hj
    rcases hpaid with hnil | ⟨write, hin, hbehind⟩
    · simp [hnil] at hi
    · have hlast := hin.last
      rw [Option.mem_def.mp hi] at hlast
      exact (Option.some.inj hlast).trans_lt (hbehind hspurious)
  · rw [hcount, List.length_append, List.length_singleton]
    exact hlength
  · rw [hcount, List.length_append, List.length_singleton, Nat.sub_self]
    exact hlength

/-- Other producers reserve `k` positions. -/
theorem Ok.overtake (h : c.Ok bound pc) (k : ℕ) :
    Ok { c with overtaken := c.overtaken + k } (bound + k) pc := by
  have hwithin : ∀ {write}, c.Within bound write →
      Within { c with overtaken := c.overtaken + k } (bound + k) write := by
    intro write hin
    have hpaid := hin.paid
    have hle := hin.le
    refine ⟨hin.last, by omega, ?_⟩
    change c.iterations.length + (bound + k - write) ≤ 1 + (c.overtaken + k) + c.spurious
    omega
  have hpaid := h.paid
  refine ⟨h.rises, ?_, ?_⟩
  · change c.iterations.length ≤ 1 + (c.overtaken + k) + c.spurious
    omega
  · have hpoint := h.point
    cases pc with
    | loadWrite value => exact hpoint
    | loadSequence value write => exact hwithin hpoint
    | compareExchange value write => exact hwithin hpoint
    | reloadWrite value =>
      obtain ⟨write, hlt, hin⟩ := hpoint
      exact ⟨write, Nat.lt_add_right k hlt, hwithin hin⟩
    | _ => trivial

theorem At.of_outside {pc : ProducerPc T} (h : pc.outside = true) : c.At bound pc := by
  cases pc with
  | idle | returned => trivial
  | _ => cases h

end Call

/-! ### All calls -/

variable [DecidableEq P]

namespace State

variable {s t : State P N T}

/-- `write_index_` counts the reservations. -/
theorem writeIndex_of_step {a : Action P T} (h : s.step a = some t) : t.queue.writeIndex =
    s.queue.writeIndex + (t.reservations.length - s.reservations.length) := by
  cases step_effect h with
  | @reserve p value hpc => simp [reserve]
  | _ => simp [setProducer, setConsumer, finishCall, construct, publish]

theorem producers_of_produce {p q : P} {b : Bool} (h : s.step (.produce p b) = some t)
    (hq : q ≠ p) : t.producers q = s.producers q := by
  cases step_effect h with
  | _ => exact Function.update_of_ne hq _ _

end State

structure MeteredInvariant (s : Metered P N T) : Prop where
  behind : Behind s.state
  stamps : StampsReserved s.state
  calls : ∀ p, (s.calls p).Ok s.state.queue.writeIndex (s.state.producers p)

namespace MeteredInvariant

variable {s : Metered P N T} {t : State P N T}

theorem initial : MeteredInvariant (metered P N T).start :=
  ⟨behind_initial, .initial, fun _ => Call.ok_new trivial⟩

/-- The record of the producer that moves. -/
theorem own (h : MeteredInvariant s) {p : P} {b : Bool}
    (hstep : s.state.step (.produce p b) = some t) :
    ((s.calls p).step (s.state.failsSpuriously p b) (t.producers p)).Ok t.queue.writeIndex
      (t.producers p) := by
  have hok := h.calls p
  have hpoint := hok.point
  cases step_effect hstep with
  | @loadWrite p value b hpc =>
    rw [hpc] at hpoint
    simp only [State.setProducer_self]
    exact hok.next (Or.inl hpoint)
  | @reloadWrite p value b hpc =>
    rw [hpc] at hpoint
    obtain ⟨write, hlt, hin⟩ := hpoint
    simp only [State.setProducer_self]
    exact hok.next (Or.inr ⟨write, hin, fun _ => hlt⟩)
  | @free p value write b hpc hseq =>
    rw [hpc] at hpoint
    simp only [State.setProducer_self]
    exact hok.move hpoint
  | @full p value write b hpc hseq =>
    simp only [State.finishCall, State.setProducer_self]
    exact hok.move trivial
  | @behind p value write b hpc hseq =>
    rw [hpc] at hpoint
    simp only [State.setProducer_self]
    exact hok.move ⟨write, h.stamps write hseq, hpoint⟩
  | @reserve p value hpc =>
    simp only [State.reserve, State.setProducer_self]
    exact hok.move trivial
  | @lose p value write b hpc hwhy =>
    rw [hpc] at hpoint
    simp only [State.setProducer_self]
    refine hok.next (Or.inr ⟨write, hpoint, fun hfails => lt_of_le_of_ne hpoint.le fun heq => ?_⟩)
    simp [State.failsSpuriously, hpc, heq, hwhy heq.symm] at hfails
  | @construct p value write b hpc =>
    simp only [State.construct, State.setProducer_self]
    exact hok.move trivial
  | @publish p value write b hpc =>
    simp only [State.publish, State.finishCall, State.setProducer_self]
    exact hok.move trivial

theorem step (h : MeteredInvariant s) {u : Metered P N T} {a : Action P T}
    (hstep : s.step a = some u) : MeteredInvariant u := by
  obtain ⟨t, ht, rfl⟩ := Option.map_eq_some_iff.mp hstep
  refine ⟨h.behind.step ht, h.stamps.step h.behind ht, fun q => ?_⟩
  cases a with
  | callEmplace p value =>
    obtain rfl : s.state.setProducer p (.loadWrite value) = t := by
      cases step_effect ht
      rfl
    by_cases hqp : q = p
    · subst hqp
      simp only [Metered.record, Function.update_self, State.setProducer_self]
      exact Call.ok_new rfl
    · simp only [Metered.record, Function.update_of_ne hqp, State.setProducer_of_ne hqp]
      exact h.calls q
  | produce p b =>
    by_cases hqp : q = p
    · subst hqp
      simp only [Metered.record, if_true]
      exact h.own ht
    · simp only [Metered.record, if_neg hqp, State.producers_of_produce ht hqp]
      split_ifs with hout
      · exact (h.calls q).move (.of_outside hout)
      · rw [State.writeIndex_of_step ht]
        exact (h.calls q).overtake _
  | callPop =>
    cases step_effect ht
    exact h.calls q
  | consume =>
    have hsame : t.producers = s.state.producers ∧
        t.queue.writeIndex = s.state.queue.writeIndex := by
      cases step_effect ht <;> exact ⟨rfl, rfl⟩
    simp only [Metered.record, hsame]
    exact h.calls q

end MeteredInvariant

theorem meteredInvariant_of_reachable {s : Metered P N T} (h : (metered P N T).Reachable s) :
    MeteredInvariant s :=
  h.invariant .initial fun _ _ _ hu hv => hu.step hv

/-! ### Without other producers -/

/-- Only producer `p`, whose exchanges do not fail without cause, and the consumer move. -/
def Action.Alone (p : P) : Action P T → Prop
  | .callEmplace _ _ => False
  | .produce q spurious => q = p ∧ spurious = false
  | .callPop | .consume => True

def Action.moves (p : P) : Action P T → Bool
  | .produce q _ => q = p
  | _ => false

/-- The steps a call still takes at most; `bound` is the index that producers exchange. -/
def ProducerPc.remaining (bound : ℕ) : ProducerPc T → ℕ
  | .loadWrite _ | .reloadWrite _ => 5
  | .loadSequence _ write => if write = bound then 4 else 6
  | .compareExchange _ write => if write = bound then 3 else 5
  | .construct _ _ => 2
  | .publish _ _ => 1
  | .idle | .returned _ => 0

theorem ProducerPc.remaining_le (bound : ℕ) (pc : ProducerPc T) : pc.remaining bound ≤ 6 := by
  cases pc with
  | loadSequence value write | compareExchange value write =>
    simp only [remaining]
    split_ifs <;> omega
  | _ => simp [remaining]

theorem ProducerPc.remaining_pos (bound : ℕ) {pc : ProducerPc T} (h : pc.outside = false) :
    0 < pc.remaining bound := by
  cases pc with
  | idle | returned => cases h
  | loadSequence value write | compareExchange value write =>
    simp only [remaining]
    split_ifs <;> omega
  | _ => simp [remaining]

/-- Alone, a producer takes another pass at most once: the first one may begin with an
index that is out of date. -/
theorem remaining_step {s t : State P N T} {p : P} {a : Action P T} (hstamps : StampsReserved s)
    (ha : a.Alone p) (hstep : s.step a = some t) :
    (a.moves p).toNat + (t.producers p).remaining t.queue.writeIndex ≤
      (s.producers p).remaining s.queue.writeIndex := by
  cases step_effect hstep with
  | callEmplace hpc => exact absurd ha id
  | callPop | loadRead | miss | hit | moveOut | destroy | storeRead | release =>
    exact (Nat.zero_add _).le
  | @loadWrite q value b hpc =>
    obtain ⟨rfl, -⟩ := ha
    simp [hpc, Action.moves, ProducerPc.remaining, State.setProducer]
  | @reloadWrite q value b hpc =>
    obtain ⟨rfl, -⟩ := ha
    simp [hpc, Action.moves, ProducerPc.remaining, State.setProducer]
  | @free q value write b hpc hseq =>
    obtain ⟨rfl, -⟩ := ha
    simp only [hpc, Action.moves, ProducerPc.remaining, State.setProducer_self]
    change 1 + (if write = s.queue.writeIndex then 3 else 5) ≤ _
    split_ifs <;> omega
  | @full q value write b hpc hseq =>
    obtain ⟨rfl, -⟩ := ha
    simp only [hpc, Action.moves, ProducerPc.remaining, State.finishCall, State.setProducer_self,
      decide_true, Bool.toNat_true]
    split_ifs <;> omega
  | @behind q value write b hpc hseq =>
    obtain ⟨rfl, -⟩ := ha
    have hlt := hstamps write hseq
    simp [hpc, Action.moves, ProducerPc.remaining, State.setProducer, hlt.ne]
  | @reserve q value hpc =>
    obtain ⟨rfl, -⟩ := ha
    simp [hpc, Action.moves, ProducerPc.remaining, State.reserve, State.setProducer]
  | @lose q value write b hpc hwhy =>
    obtain ⟨rfl, rfl⟩ := ha
    have hne : write ≠ s.queue.writeIndex := fun heq => by simpa using hwhy heq.symm
    simp [hpc, Action.moves, ProducerPc.remaining, State.setProducer, hne]
  | @construct q value write b hpc =>
    obtain ⟨rfl, -⟩ := ha
    simp [hpc, Action.moves, ProducerPc.remaining, State.construct, State.setProducer]
  | @publish q value write b hpc =>
    obtain ⟨rfl, -⟩ := ha
    simp [hpc, Action.moves, ProducerPc.remaining, State.publish, State.finishCall,
      State.setProducer]

/-- Inside `try_emplace` a producer always has a step. -/
theorem exists_produce (s : State P N T) {p : P} (h : (s.producers p).outside = false) :
    ∃ t, s.step (.produce p false) = some t := by
  rw [← Option.isSome_iff_exists]
  cases hpc : s.producers p with
  | idle | returned =>
    rw [hpc] at h
    cases h
  | loadSequence value write =>
    simp only [State.step, State.produce, hpc]
    split_ifs <;> rfl
  | compareExchange value write =>
    simp only [State.step, State.produce, hpc]
    split_ifs <;> rfl
  | _ => simp [State.step, State.produce, hpc]

/-- In every interleaving the index grows from iteration to iteration of a call, but for
exchanges that failed without cause; so a call makes one iteration, and one for each position
that others reserved meanwhile and for each such failure. Once the other producers stop and
exchanges fail no more without cause, it is over within six steps of its own. -/
theorem retries_are_paid_for {s : Metered P N T} (h : (metered P N T).Reachable s) (p : P) :
    (s.calls p).iterations.IsChain Call.Rises ∧
    (s.calls p).iterations.length ≤ 1 + (s.calls p).overtaken + (s.calls p).spurious ∧
    ∀ actions t, (∀ a ∈ actions, a.Alone p) → (metered P N T).run s actions = some t →
      (t.state.producers p).outside = true ∨
        (actions.countP (Action.moves p) < 6 ∧
          ∃ u, (metered P N T).step t (.produce p false) = some u) := by
  have hok := (meteredInvariant_of_reachable h).calls p
  refine ⟨hok.rises, hok.paid, fun actions t hall hrun => ?_⟩
  have hcount := h.countP_le_of_allowed (Action.Alone p) (Action.moves p)
    (fun u => (u.state.producers p).remaining u.state.queue.writeIndex) (fun _ => 0) ?_ hall hrun
  · rcases hout : (t.state.producers p).outside with _ | _
    · have hpos := ProducerPc.remaining_pos t.state.queue.writeIndex hout
      have hle := (s.state.producers p).remaining_le s.state.queue.writeIndex
      obtain ⟨v, hv⟩ := exists_produce t.state hout
      exact Or.inr ⟨by omega, _, Option.map_eq_some_iff.mpr ⟨v, hv, rfl⟩⟩
    · exact Or.inl rfl
  · intro u a v hu ha hv
    obtain ⟨w, hw, rfl⟩ := Option.map_eq_some_iff.mp hv
    exact remaining_step (meteredInvariant_of_reachable hu).stamps ha hw

/-- Two producers load the index, and one loses the exchange to the other. -/
def raced : List (Action Bool ℕ) :=
  [.callEmplace true 7, .callEmplace false 8, .produce true false, .produce false false,
    .produce true false, .produce false false, .produce false false, .produce true false]

theorem retries_are_paid_for_raced :
    let c := ((metered Bool 2 ℕ).after raced).calls true
    c = ⟨[⟨0, false⟩, ⟨1, false⟩], 1⟩ ∧ c.iterations.length ≤ 1 + c.overtaken + c.spurious :=
  ⟨by decide, (retries_are_paid_for (System.reachable_after raced) true).2.1⟩

end Obz.MpscRingQueue
