import Obz.Foundation.Words
import Obz.MpscRingQueue.Indices
import Obz.MpscRingQueue.Observers

/-!
# What `size` can return

`size` loads `write_index_` first. A consumer that pops past that copy before
the second load leaves a negative difference, which wraps around. Runs in which
no such pop happens, and no producer reserves beyond the capacity, only return
occupancies; any other step lets a call return more.
-/
namespace Obz.MpscRingQueue

open Foundation

variable {w : ℕ} {P T O : Type*} {N : ℕ}

/-- What an operation must not do if `size` is to return an occupancy: reserve a position
a whole capacity beyond `read_index_`, or move `read_index_` beyond a `write_index_` that
a thread inside `size` has loaded. -/
def Observed.Orderly (s : Observed w P N T O) : ObservedAction P T O → Prop
  | .operate (.produce p false) => ∀ value,
      s.state.producers p = .compareExchange value s.state.queue.writeIndex →
        s.state.queue.writeIndex < s.state.queue.readIndex + N
  | .operate .consume => ∀ read value, s.state.consumer = .storeRead read value →
      ∀ i write, s.reading i = .sizeLoadRead write → read < write
  | _ => True

/-- The copies and the answers of `size` are within the capacity. -/
structure SizeInvariant (s : Observed w P N T O) : Prop where
  reserved_le : s.state.queue.writeIndex ≤ s.state.queue.readIndex + N
  pending : ∀ i write, s.reading i = .sizeLoadRead write →
    s.state.queue.readIndex ≤ write ∧ write ≤ s.state.queue.readIndex + N
  answer : ∀ i count, s.reading i = .returnedSize count → count.toNat ≤ N

variable [DecidableEq P] [DecidableEq O] [NeZero N] {s t : Observed w P N T O}

namespace SizeInvariant

theorem initial : SizeInvariant (observed w P N T O).start where
  reserved_le := Nat.zero_le _
  pending := fun _ _ h => by cases h
  answer := fun _ _ h => by cases h

omit [DecidableEq O] in
theorem operate (h : SizeInvariant s) (hbehind : Behind s.state) {a : Action P T} {u : State P N T}
    (horderly : s.Orderly (.operate a)) (hstep : s.state.step a = some u) :
    SizeInvariant { s with state := u } := by
  have hle := h.reserved_le
  rcases State.indices_of_step hstep with ⟨hwrite, hread⟩ |
    ⟨p, value, rfl, hpc, hwrite, hread⟩ | ⟨read, value, rfl, hpc, hwrite, hread⟩
  · refine ⟨?_, fun i write hi => ?_, h.answer⟩
    · exact (hwrite.trans_le hle).trans_eq (by rw [hread])
    · rw [hread]
      exact h.pending i write hi
  · refine ⟨?_, fun i write hi => ?_, h.answer⟩
    · have hroom := horderly value hpc
      change u.queue.writeIndex ≤ u.queue.readIndex + N
      omega
    · rw [hread]
      exact h.pending i write hi
  · have hfront := hbehind.front read (by rw [hpc]; rfl)
    refine ⟨?_, fun i write hi => ?_, h.answer⟩
    · change u.queue.writeIndex ≤ u.queue.readIndex + N
      omega
    · have hlt := horderly read value hpc i write hi
      have hpending := h.pending i write hi
      change u.queue.readIndex ≤ write ∧ write ≤ u.queue.readIndex + N
      omega

omit [NeZero N] in
theorem setReading (h : SizeInvariant s) {i : Thread P O} {pc : ReadingPc w}
    (hpending : ∀ write, pc = .sizeLoadRead write →
      s.state.queue.readIndex ≤ write ∧ write ≤ s.state.queue.readIndex + N)
    (hanswer : ∀ count, pc = .returnedSize count → count.toNat ≤ N) :
    SizeInvariant (s.setReading i pc) where
  reserved_le := h.reserved_le
  pending := Observed.forall_setReading (Q := fun _ pc => ∀ write, pc = .sizeLoadRead write →
    s.state.queue.readIndex ≤ write ∧ write ≤ s.state.queue.readIndex + N) h.pending hpending
  answer := Observed.forall_setReading
    (Q := fun _ pc => ∀ count, pc = .returnedSize count → count.toNat ≤ N) h.answer hanswer

theorem read (h : SizeInvariant s) (hbehind : Behind s.state) {i : Thread P O}
    {pc next : ReadingPc w} (hpc : s.reading i = pc) (hload : Loads s.state.queue pc next) :
    SizeInvariant (s.setReading i next) := by
  cases hload with
  | sizeWrite =>
    refine h.setReading (fun write hw => ?_) (fun count hc => by cases hc)
    cases hw
    exact ⟨hbehind.readIndex, h.reserved_le⟩
  | @sizeRead write =>
    refine h.setReading (fun write hw => by cases hw) (fun count hc => ?_)
    cases hc
    obtain ⟨hle, hroom⟩ := h.pending i write hpc
    have hdiff := Words.toNat_sub_le (w := w) hle
    omega
  | _ => exact h.setReading (fun _ hw => by cases hw) (fun _ hc => by cases hc)

/-- The step lemma. -/
theorem step (h : SizeInvariant s) (hbehind : Behind s.state) {a : ObservedAction P T O}
    (horderly : s.Orderly a) (hstep : s.step a = some t) : SizeInvariant t := by
  cases observed_effect hstep with
  | operate _ hop => exact h.operate hbehind horderly hop
  | @ask i query _ _ =>
    refine h.setReading (fun write hw => ?_) (fun count hc => ?_)
    · cases query <;> cases hw
    · cases query <;> cases hc
  | read hpc hload => exact h.read hbehind hpc hload

end SizeInvariant

/-- The run lemma. -/
theorem sizeInvariant_of_follows
    (h : (observed w P N T O).Follows Observed.Orderly (observed w P N T O).start s) :
    SizeInvariant s := by
  have hrun : SizeInvariant s ∧ (observed w P N T O).Reachable s := by
    refine h.preserves (P := fun u => SizeInvariant u ∧ (observed w P N T O).Reachable u)
      ⟨.initial, .start⟩ ?_
    intro u a v hu horderly hv
    exact ⟨hu.1.step (behind_of_reachable (state_reachable hu.2)) horderly hv, hu.2.snoc hv⟩
  exact hrun.1

/-! ### A disorderly step lets a call return more -/

/-- The loads a query still has to make. -/
def ReadingPc.remaining : ReadingPc w → ℕ
  | .emptyLoadRead | .fullLoadWrite | .sizeLoadWrite => 2
  | .emptyLoadSequence _ | .fullLoadSequence _ | .sizeLoadRead _ => 1
  | _ => 0

omit [DecidableEq P] [DecidableEq O] in
theorem exists_load (q : Queue N T) {pc : ReadingPc w} (hin : pc.outside = false) :
    ∃ next, q.read pc = some next ∧ next.remaining < pc.remaining := by
  cases pc with
  | idle | returnedEmpty | returnedFull | returnedSize => cases hin
  | _ => exact ⟨_, rfl, Nat.lt_succ_self _⟩

theorem read_step {i : Thread P O} {pc : ReadingPc w}
    (h : s.state.queue.read (s.reading i) = some pc) :
    (observed w P N T O).step s (.read i) = some (s.setReading i pc) := by
  change (s.state.queue.read (s.reading i)).map (s.setReading i) = _
  rw [h]
  rfl

/-- A thread can end the query it is in while no other thread moves. -/
theorem exists_outside (s : Observed w P N T O) (i : Thread P O) :
    ∃ actions u, (observed w P N T O).run s actions = some u ∧ u.state = s.state ∧
      (u.reading i).outside = true := by
  induction hn : (s.reading i).remaining using Nat.strong_induction_on generalizing s with
  | _ n ih =>
    by_cases hout : (s.reading i).outside = true
    · exact ⟨[], s, rfl, rfl, hout⟩
    · obtain ⟨next, hload, hless⟩ :=
        exists_load s.state.queue (Bool.eq_false_iff.mpr hout)
      obtain ⟨actions, u, hrun, hstate, hu⟩ :=
        ih next.remaining (hn ▸ hless) (s.setReading i next) (by simp)
      refine ⟨.read i :: actions, u, ?_, hstate, hu⟩
      exact (System.run_cons _).mpr ⟨_, read_step hload, hrun⟩

/-- An observer can ask for the size while no other thread moves. -/
theorem exists_size (s : Observed w P N T O) (o : O) :
    ∃ actions u, (observed w P N T O).run s actions = some u ∧
      u.reading (.observer o) = .returnedSize
        (BitVec.ofNat w s.state.queue.writeIndex - BitVec.ofNat w s.state.queue.readIndex) := by
  obtain ⟨actions, u, hrun, hstate, hout⟩ := exists_outside s (.observer o)
  rw [← hstate]
  let asking := u.setReading (.observer o) .sizeLoadWrite
  let loaded := asking.setReading (.observer o) (.sizeLoadRead u.state.queue.writeIndex)
  have hask : (observed w P N T O).step u (.ask (.observer o) .size) = some asking := if_pos hout
  have hwrite : (observed w P N T O).step asking (.read (.observer o)) = some loaded :=
    read_step (by rw [Observed.setReading_self]; rfl)
  have hread := read_step (s := loaded) (i := .observer o) (by rw [Observed.setReading_self]; rfl)
  refine ⟨actions ++ [.ask (.observer o) .size, .read (.observer o), .read (.observer o)],
    loaded.setReading (.observer o) _, ?_, Observed.setReading_self⟩
  rw [System.run_append, hrun]
  exact (System.run_cons _).mpr ⟨_, hask, (System.run_cons _).mpr ⟨_, hwrite,
    (System.run_cons _).mpr ⟨_, hread, rfl⟩⟩⟩

/-- After a reservation beyond the capacity the next call returns one too many. -/
theorem exceeds_of_reserve (h : SizeInvariant s) (hbehind : Behind s.state) {p : P} {value : T}
    {u : State P N T} (hpc : s.state.producers p = .compareExchange value s.state.queue.writeIndex)
    (hfull : s.state.queue.readIndex + N ≤ s.state.queue.writeIndex)
    (hstep : s.state.step (.produce p false) = some u) (hw : N + 1 < 2 ^ w) (o : O) :
    ∃ actions v i count, (observed w P N T O).run { s with state := u } actions = some v ∧
      v.reading i = .returnedSize count ∧ N < count.toNat := by
  have hreserve : s.state.step (.produce p false) =
      some (s.state.reserve p value s.state.queue.writeIndex) := by
    simp [State.step, State.produce, hpc]
  have hwrite : u.queue.writeIndex = s.state.queue.writeIndex + 1 := by
    rw [Option.some.inj (hstep.symm.trans hreserve)]
    rfl
  have hread : u.queue.readIndex = s.state.queue.readIndex := by
    rw [Option.some.inj (hstep.symm.trans hreserve)]
    rfl
  obtain ⟨actions, v, hrun, hsize⟩ := exists_size { s with state := u } o
  refine ⟨actions, v, _, _, hrun, hsize, ?_⟩
  have hroom := h.reserved_le
  have hle := hbehind.readIndex
  rw [hwrite, hread, Words.toNat_sub_of_le (by omega), Nat.mod_eq_of_lt (by omega)]
  omega

/-- After a pop past a copy of `write_index_` the pending call wraps around. -/
theorem exceeds_of_storeRead (h : SizeInvariant s) (hbehind : Behind s.state) {read : ℕ}
    {value : T} {u : State P N T} (hpc : s.state.consumer = .storeRead read value) {i : Thread P O}
    {write : ℕ} (hi : s.reading i = .sizeLoadRead write) (hpast : write ≤ read)
    (hstep : s.state.step .consume = some u) (hw : N + 1 < 2 ^ w) :
    ∃ actions v i count, (observed w P N T O).run { s with state := u } actions = some v ∧
      v.reading i = .returnedSize count ∧ N < count.toNat := by
  have hstore : s.state.step .consume = some { s.state.setConsumer (.release read value) with
      queue := { s.state.queue with readIndex := read + 1 } } := by
    simp [State.step, State.consume, hpc]
  have hread : u.queue.readIndex = read + 1 := by
    rw [Option.some.inj (hstep.symm.trans hstore)]
  have hfront : read = s.state.queue.readIndex := hbehind.front read (by rw [hpc]; rfl)
  have hwrite : write = read := le_antisymm hpast (hfront ▸ (h.pending i write hi).1)
  have hload : u.queue.read (s.reading i) = some (.returnedSize (w := w)
      (BitVec.ofNat w write - BitVec.ofNat w u.queue.readIndex)) := by
    rw [hi]
    rfl
  refine ⟨[.read i], _, i, _, (System.run_cons _).mpr ⟨_, read_step hload, rfl⟩,
    Observed.setReading_self, ?_⟩
  rw [hread, hwrite, Words.toNat_sub_succ]
  omega

theorem exceeds_of_disorder (h : SizeInvariant s) (hbehind : Behind s.state)
    {a : ObservedAction P T O} (hdis : ¬ s.Orderly a) (hstep : s.step a = some t)
    (hw : N + 1 < 2 ^ w) (o : O) :
    ∃ actions u i count, (observed w P N T O).run t actions = some u ∧
      u.reading i = .returnedSize count ∧ N < count.toNat := by
  cases observed_effect hstep with
  | ask _ _ => exact absurd trivial hdis
  | read _ _ => exact absurd trivial hdis
  | @operate a u _ hop =>
    cases a with
    | callEmplace p value => exact absurd trivial hdis
    | callPop => exact absurd trivial hdis
    | produce p spurious =>
      cases spurious with
      | true => exact absurd trivial hdis
      | false =>
        simp only [Observed.Orderly, not_forall, not_lt] at hdis
        obtain ⟨value, hpc, hfull⟩ := hdis
        exact exceeds_of_reserve h hbehind hpc hfull hop hw o
    | consume =>
      simp only [Observed.Orderly, not_forall, not_lt] at hdis
      obtain ⟨read, value, hpc, i, write, hi, hpast⟩ := hdis
      exact exceeds_of_storeRead h hbehind hpc hi hpast hop hw

/-- In every run without a disorderly step `size` returns occupancies only, whoever
calls it; and every disorderly step of such a run lets some call return more. From
capacity two on, producers take no disorderly step, positions being counted without end. -/
theorem size_is_an_occupancy
    (h : (observed w P N T O).Follows Observed.Orderly (observed w P N T O).start s) :
    (∀ i count, s.reading i = .returnedSize count → count.toNat ≤ N) ∧
    (N + 1 < 2 ^ w → ∀ _ : O, ∀ a t, ¬ s.Orderly a →
      (observed w P N T O).step s a = some t → ∃ actions u i count,
        (observed w P N T O).run t actions = some u ∧ u.reading i = .returnedSize count ∧
          N < count.toNat) ∧
    (2 ≤ N → ∀ p spurious, s.Orderly (.operate (.produce p spurious))) := by
  have hsize := sizeInvariant_of_follows h
  have hreachable := state_reachable (h.mono fun _ _ _ => trivial)
  have hbehind := behind_of_reachable hreachable
  refine ⟨hsize.answer, fun hw o a t hdis hstep => ?_, fun hN p spurious => ?_⟩
  · exact exceeds_of_disorder hsize hbehind hdis hstep hw o
  · have hinv := invariant_of_reachable hN hreachable
    cases spurious with
    | true => trivial
    | false =>
      intro value hpc
      have hok := hinv.producerOk hpc
      have hread := hinv.readIndex
      have hlt := hok.2
      omega

/-- Two values are pushed and the first is moved out, up to the store of `read_index_`. -/
def popPending : List (ObservedAction Bool ℕ Unit) :=
  [.operate (.callEmplace true 7), .operate (.produce true true), .operate (.produce true true),
    .operate (.produce true false), .operate (.produce true true), .operate (.produce true true),
    .operate (.callEmplace false 9), .operate (.produce false true),
    .operate (.produce false true), .operate (.produce false false),
    .operate (.produce false true), .operate (.produce false true),
    .operate .callPop, .operate .consume, .operate .consume, .operate .consume,
    .operate .consume]

theorem popPending_follows :
    let M := observed 64 Bool 2 ℕ Unit
    M.Follows Observed.Orderly M.start (M.after popPending) := by
  intro M
  -- no call of `size` has begun
  have hconsume : ∀ n, (M.after (popPending.take n)).reading = (fun _ => .idle) →
      (M.after (popPending.take n)).Orderly (.operate .consume) := by
    intro n hidle read value _ i write hi
    rw [hidle] at hi
    cases hi
  have hfirst : M.Follows Observed.Orderly M.start (M.after (popPending.take 3)) :=
    System.follows_of_run (by simp [popPending, Observed.Orderly])
      (rfl : M.run _ (popPending.take 3) = some _)
  have hreserved : M.Follows Observed.Orderly M.start (M.after (popPending.take 4)) :=
    hfirst.snoc (a := .operate (.produce true false)) (fun _ _ => Nat.zero_lt_succ 1) rfl
  have hsecond : M.Follows Observed.Orderly (M.after (popPending.take 4))
      (M.after (popPending.take 9)) :=
    System.follows_of_run (by simp [popPending, Observed.Orderly])
      (rfl : M.run _ ((popPending.drop 4).take 5) = some _)
  have hfull : M.Follows Observed.Orderly M.start (M.after (popPending.take 10)) :=
    (hreserved.trans hsecond).snoc (a := .operate (.produce false false))
      (fun _ _ => Nat.one_lt_two) rfl
  have hstored : M.Follows Observed.Orderly (M.after (popPending.take 10))
      (M.after (popPending.take 13)) :=
    System.follows_of_run (by simp [popPending, Observed.Orderly])
      (rfl : M.run _ ((popPending.drop 10).take 3) = some _)
  exact ((((hfull.trans hstored).snoc (hconsume 13 rfl) rfl).snoc (hconsume 14 rfl) rfl).snoc
    (hconsume 15 rfl) rfl).snoc (hconsume 16 rfl) rfl

/-- An observer loads `write_index_`, the pop is stored, and the observer loads `read_index_`. -/
theorem size_is_an_occupancy_popped :
    let s := (observed 64 Bool 2 ℕ Unit).after (popPending ++
      [.ask (.observer ()) .size, .read (.observer ()), .operate .consume, .read (.observer ())])
    s.state.queue.readIndex = 1 ∧
      ∃ count, s.reading (.observer ()) = .returnedSize count ∧ count.toNat ≤ 2 := by
  intro s
  let M := observed 64 Bool 2 ℕ Unit
  let asked := popPending ++ [.ask (.observer ()) .size, .read (.observer ())]
  have hasked : M.Follows Observed.Orderly (M.after popPending) (M.after asked) :=
    System.follows_of_run (by simp [Observed.Orderly])
      (rfl : M.run _ [.ask (.observer ()) .size, .read (.observer ())] = some _)
  -- the observer has loaded 2, and the pop is at position 0
  have hbelow : (M.after asked).Orderly (.operate .consume) := by
    intro read value hpc i write hi
    cases hpc
    cases i with
    | observer _ =>
      cases hi
      exact Nat.zero_lt_two
    | producer _ | consumer => cases hi
  have hs : M.Follows Observed.Orderly M.start s :=
    (((popPending_follows.trans hasked).snoc hbelow rfl).snoc
      (a := .read (.observer ())) trivial rfl)
  exact ⟨rfl, 1#64, rfl, (size_is_an_occupancy hs).1 (.observer ()) 1#64 rfl⟩

/-- An observer loads `write_index_`, a value is pushed and popped, and the observer
loads `read_index_`: the call returns the largest word. -/
theorem size_wraps_around :
    ¬ ∀ s : Observed 64 Bool 2 ℕ Unit, (observed 64 Bool 2 ℕ Unit).Reachable s →
      ∀ i count, s.reading i = .returnedSize count → count.toNat ≤ 2 := by
  intro h
  have hsize := h _ (System.reachable_after
    [.ask (.observer ()) .size, .read (.observer ()), .operate (.callEmplace true 7),
      .operate (.produce true false), .operate (.produce true false),
      .operate (.produce true false), .operate (.produce true false),
      .operate (.produce true false), .operate .callPop, .operate .consume, .operate .consume,
      .operate .consume, .operate .consume, .operate .consume, .operate .consume,
      .read (.observer ())]) (.observer ()) (BitVec.allOnes 64) rfl
  exact absurd hsize (by decide)

end Obz.MpscRingQueue
