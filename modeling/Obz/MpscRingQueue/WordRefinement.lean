import Obz.MpscRingQueue.WordConditions

/-!
# The queue of words as a bounded list

Each call of one thread answers as the bounded list does if it is `Sound`, and gives
itself away if it is not; so do whole runs. With two cells or more every run with few
pushes is sound.
-/
namespace Obz.MpscRingQueue

open Foundation BoundedFifo Words

variable {w N : ℕ} {T : Type*}

/-! ### The calls -/

namespace Queue.Represents

variable [NeZero N] {q : Queue N T} {xs : List T} {x : T}

theorem words_tryEmplace_room (h : q.Represents xs) (hcell : Locates w N q.writeIndex)
    (hlt : xs.length < N) (value : T) (spurious : ℕ) :
    ∃ q' : Queue N T, (q.toWords w).tryEmplace value spurious = some (true, q'.toWords w) ∧
      q'.Represents (xs ++ [value]) ∧ q'.writeIndex = q.writeIndex + 1 := by
  obtain ⟨q', hq', hr⟩ := h.tryEmplace_room hlt value spurious
  rw [Queue.tryEmplace, reserve_of_stamp_eq (h.stamp_back hlt)] at hq'
  simp only [Option.map_some, Option.some.injEq, Prod.mk.injEq, true_and] at hq'
  have hlap : lap w N q.writeIndex = N := if_pos hcell
  have hback := h.back_free (hcell.imp_right Nat.le_of_lt) (hlap.symm ▸ hlt)
  rw [hlap, Nat.add_sub_cancel] at hback
  have hnext : BitVec.ofNat w q.writeIndex + 1 = BitVec.ofNat w (q.writeIndex + 1) :=
    (BitVec.ofNat_add q.writeIndex 1).symm
  refine ⟨q', ?_, hr, by rw [← hq']; rfl⟩
  have hreserve := WordQueue.reserve_of_eq (q := q.toWords w) (by rw [hback]; rfl) spurious
  have hreserved : { q.toWords w with writeIndex := (q.toWords w).writeIndex + 1 } =
      toWords w { q with writeIndex := q.writeIndex + 1 } := by
    simp only [toWords, hnext]
  rw [WordQueue.tryEmplace, hreserve, Option.bind_some]
  simp only [hback]
  rw [hreserved, ← hq', ← storeSequence_toWords hcell, ← storeSlot_toWords hcell, ← hnext]
  rfl

theorem words_tryPop_cons (h : q.Represents (x :: xs)) (hcell : Locates w N q.readIndex) :
    (q.toWords w).tryPop = some (some x, (q.release q.readIndex).toWords w) := by
  have hfront := h.front_cell hcell
  have hzero : signedSub (BitVec.ofNat w q.readIndex + 1) ((q.toWords w).readIndex + 1) = some 0 :=
    signedSub_eq_zero.mpr rfl
  rw [WordQueue.tryPop, ← release_toWords hcell]
  simp only [hfront, hzero, ne_eq, not_true, if_false]
  rfl

/-- What a poll of the empty queue compares. -/
theorem front_free (h : q.Represents []) (hbound : N ∣ 2 ^ w ∨ q.writeIndex ≤ 2 ^ w) :
    (q.toWords w).cell (q.toWords w).readIndex =
        ⟨BitVec.ofNat w (q.writeIndex + N - lap w N q.writeIndex), .vacant⟩ ∧
      (q.toWords w).readIndex + 1 = BitVec.ofNat w (q.writeIndex + 1) := by
  have hread : (q.toWords w).readIndex = (q.toWords w).writeIndex := by
    simp only [toWords, h.readIndex_eq]
  rw [hread]
  exact ⟨h.back_free hbound (lap_pos _), (BitVec.ofNat_add q.writeIndex 1).symm⟩

theorem words_tryPop_nil_iff (h : q.Represents []) (hN : N < 2 ^ w)
    (hbound : N ∣ 2 ^ w ∨ q.writeIndex ≤ 2 ^ w) {t : WordQueue w N T} :
    (q.toWords w).tryPop = some (none, t) ↔
      FindsNothing w N q.writeIndex ∧ t = q.toWords w := by
  obtain ⟨hcell, hnext⟩ := h.front_free hbound
  rw [WordQueue.tryPop_eq_none, hcell, hnext, ← findsNothing_iff hN hbound]
  rfl

/-- The last pass of `clear` polls the empty queue. -/
theorem words_clear_nil_iff (h : q.Represents []) (hN : N < 2 ^ w)
    (hbound : N ∣ 2 ^ w ∨ q.writeIndex ≤ 2 ^ w) (fuel : ℕ)
    {destroyed : List (Slot T)} {t : WordQueue w N T} :
    (q.toWords w).clear (fuel + 1) = some (destroyed, t) ↔
      FindsNothing w N q.writeIndex ∧ destroyed = [] ∧ t = q.toWords w := by
  obtain ⟨hcell, hnext⟩ := h.front_free hbound
  rw [WordQueue.clear_of_vacant (by rw [hcell]), hcell, hnext, ← findsNothing_iff hN hbound]
  rfl

theorem words_clear_cons (h : q.Represents (x :: xs)) (hcell : Locates w N q.readIndex)
    (fuel : ℕ) :
    (q.toWords w).clear (fuel + 1) =
      (((q.release q.readIndex).toWords w).clear fuel).map fun (rest, last) =>
        (.live x :: rest, last) := by
  have hfront := h.front_cell hcell
  have hzero : signedSub (BitVec.ofNat w q.readIndex + 1) ((q.toWords w).readIndex + 1) = some 0 :=
    signedSub_eq_zero.mpr rfl
  have hread : ((q.release q.readIndex).toWords w).readIndex = (q.toWords w).readIndex + 1 :=
    BitVec.ofNat_add q.readIndex 1
  rw [WordQueue.clear, WordQueue.clear, WordQueue.clearFrom, hread, ← release_toWords hcell]
  simp only [hfront, hzero, ne_eq, not_true, if_false]
  rfl

/-- `clear` destroys what is stored, if it then finds the queue empty. -/
theorem words_clear (h : q.Represents xs) (hN : N < 2 ^ w)
    (hbound : N ∣ 2 ^ w ∨ q.writeIndex ≤ 2 ^ w) {fuel : ℕ} (hfuel : xs.length < fuel) :
    ∃ q' : Queue N T, q'.Represents [] ∧ q'.writeIndex = q.writeIndex ∧
      ∀ destroyed t, (q.toWords w).clear fuel = some (destroyed, t) ↔
        FindsNothing w N q.writeIndex ∧ destroyed = xs.map .live ∧ t = q'.toWords w := by
  induction xs generalizing q fuel with
  | nil =>
    cases fuel with
    | zero => simp at hfuel
    | succ fuel => exact ⟨q, h, rfl, fun _ _ => h.words_clear_nil_iff hN hbound fuel⟩
  | cons x xs ih =>
    cases fuel with
    | zero => simp at hfuel
    | succ fuel =>
      obtain ⟨q', hr, hwrite, hclear⟩ := ih h.release hbound (by simpa using hfuel)
      refine ⟨q', hr, hwrite, fun destroyed t => ?_⟩
      rw [h.words_clear_cons (Locates.of_lt hbound h.readIndex_lt), Option.map_eq_some_iff]
      constructor
      · rintro ⟨⟨rest, last⟩, hrest, heq⟩
        obtain ⟨hfinds, rfl, rfl⟩ := (hclear rest last).mp hrest
        obtain ⟨rfl, rfl⟩ := Prod.mk.inj heq
        exact ⟨hfinds, rfl, rfl⟩
      · rintro ⟨hfinds, rfl, rfl⟩
        exact ⟨_, (hclear _ _).mpr ⟨hfinds, rfl, rfl⟩, rfl⟩

theorem words_tryEmplace_full_iff (h : q.Represents xs) (hN : N < 2 ^ w)
    (hbound : N ∣ 2 ^ w ∨ q.writeIndex ≤ 2 ^ w) (hfull : xs.length = N) (value : T)
    (spurious : ℕ) {t : WordQueue w N T} :
    (q.toWords w).tryEmplace value spurious = some (false, t) ↔
      Refuses w N q.writeIndex ∧ t = q.toWords w := by
  have hw := h.writeIndex
  obtain ⟨x, hback⟩ := h.back_taken hbound ((lap_le q.writeIndex).trans hfull.ge)
  rw [← refuses_iff hN hbound (by omega)]
  constructor
  · intro hrefused
    obtain ⟨d, hd, hsub⟩ := WordQueue.negative_of_refused hrefused
    have hreserve := WordQueue.reserve_of_negative hd hsub spurious
    rw [WordQueue.tryEmplace, hreserve] at hrefused
    rw [hback] at hsub
    exact ⟨⟨d, hd, hsub⟩, (Prod.mk.inj (Option.some.inj hrefused)).2.symm⟩
  · rintro ⟨⟨d, hd, hsub⟩, rfl⟩
    have hreserve := WordQueue.reserve_of_negative (q := q.toWords w) hd
      (by rw [hback]; exact hsub) spurious
    rw [WordQueue.tryEmplace, hreserve]
    rfl

/-- Past the wrap the next position leads to the cell of another one. -/
theorem words_tryEmplace_ne (h : q.Represents xs) (hN : N < 2 ^ w)
    (hbound : N ∣ 2 ^ w ∨ q.writeIndex ≤ 2 ^ w) (hcell : ¬ Locates w N q.writeIndex) (value : T)
    (spurious : ℕ) (t : WordQueue w N T) :
    (q.toWords w).tryEmplace value spurious ≠ some (true, t) := by
  intro haccepted
  obtain ⟨hstamp, hvacant⟩ := WordQueue.cell_of_accepted haccepted
  rcases Nat.lt_or_ge xs.length (lap w N q.writeIndex) with hfree | htaken
  · have hlap : lap w N q.writeIndex = 2 ^ w % N := if_neg hcell
    have hpushed := pushed_eq hbound hcell
    obtain ⟨hrest, hlt, hsum⟩ := rest_bounds hN hcell
    rw [h.back_free hbound hfree, hlap] at hstamp
    have hmod := congrArg BitVec.toNat hstamp
    simp only [toWords, BitVec.toNat_ofNat] at hmod
    rw [hpushed, free_stamp_mod hN hcell, Nat.mod_self] at hmod
    omega
  · obtain ⟨x, hback⟩ := h.back_taken hbound htaken
    rw [hback] at hvacant
    cases hvacant

theorem words_full_iff (h : q.Represents xs) (hN : N < 2 ^ w)
    (hbound : N ∣ 2 ^ w ∨ q.writeIndex ≤ 2 ^ w) :
    (q.toWords w).full = some (decide (xs.length = N)) ↔
      if xs.length < N then SeesRoom w N q.writeIndex xs.length else Refuses w N q.writeIndex := by
  have hw := h.writeIndex
  have hlen := h.length_le
  rw [WordQueue.full_eq_some]
  split_ifs with hroom
  · rw [decide_eq_false hroom.ne, ← seesRoom_iff hN hbound hroom, AtLeast]
    split_ifs with hfree
    · simp only [h.back_free hbound hfree, decide_eq_false_iff_not, not_lt, and_comm]
      rfl
    · obtain ⟨x, hback⟩ := h.back_taken hbound (Nat.not_lt.mp hfree)
      simp only [hback, decide_eq_false_iff_not, not_lt, and_comm]
      rfl
  · have hfull : xs.length = N := by omega
    obtain ⟨x, hback⟩ := h.back_taken hbound ((lap_le q.writeIndex).trans hfull.ge)
    rw [decide_eq_true hfull, ← refuses_iff hN hbound (by omega), Below]
    simp only [hback, decide_eq_true_eq, and_comm]
    rfl

theorem words_empty_iff (h : q.Represents xs) (hN : N < 2 ^ w)
    (hbound : N ∣ 2 ^ w ∨ q.writeIndex ≤ 2 ^ w) :
    (q.toWords w).empty = xs.isEmpty ↔
      (xs = [] → Locates w N q.writeIndex ∨ N - 2 ^ w % N ≠ 1) := by
  cases xs with
  | nil =>
    obtain ⟨hcell, hnext⟩ := h.front_free hbound
    rw [← stamp_ne_iff hN hbound, WordQueue.empty, hcell, hnext]
    simp
  | cons x xs =>
    have hfront := h.front_cell (Locates.of_lt hbound h.readIndex_lt)
    have hempty : (q.toWords w).empty = false := by
      rw [WordQueue.empty, hfront]
      exact decide_eq_false (not_not.mpr rfl)
    simp [hempty]

theorem words_size (h : q.Represents xs) (hN : N < 2 ^ w) :
    (q.toWords w).size.toNat = xs.length := by
  have hlen := h.length_le
  have hsub : (q.toWords w).size = BitVec.ofNat w xs.length := by
    simp only [WordQueue.size, toWords, h.writeIndex]
    exact ofNat_add_sub
  rw [hsub, BitVec.toNat_ofNat, Nat.mod_eq_of_lt (by omega)]

end Queue.Represents

namespace WordQueue

variable [NeZero N] {q t : WordQueue w N T} {x : Tally T}

/-- The words are those of a queue with unbounded counters, and every value pushed so
far had a cell of its own. -/
structure Keeps (q : WordQueue w N T) (x : Tally T) (p : Queue N T) : Prop where
  words : p.toWords w = q
  represents : p.Represents x.stored
  pushed : p.writeIndex = x.pushed
  bound : N ∣ 2 ^ w ∨ x.pushed ≤ 2 ^ w

theorem keeps_new : Keeps (new : WordQueue w N T) {} Queue.new :=
  ⟨Queue.toWords_new, Queue.represents_new, rfl, Or.inr (Nat.zero_le _)⟩

theorem call_implements (hN : N < 2 ^ w) :
    Implements (applyTally N) (call (w := w) (N := N) (T := T)) Prod.fst
      (fun q x => ∃ p, Keeps q x p) (Sound w N) := by
  rintro _ ⟨pushed, xs⟩ ⟨op, spurious⟩ ⟨p, rfl, h, rfl, hbound⟩ hs
  simp only at h hs
  cases op with
  | push value =>
    rcases lt_or_eq_of_le h.length_le with hlt | hfull
    · have hcell : Locates w N p.writeIndex := by simpa [Sound, hlt] using hs
      obtain ⟨p', hp', hr, hwrite⟩ := h.words_tryEmplace_room hcell hlt value spurious
      refine ⟨p'.toWords w, by simp [call, applyTally, apply, hp', hlt], p', rfl, ?_, ?_, ?_⟩
      · simpa [applyTally, apply, hlt] using hr
      · simpa [applyTally, apply, hlt, Answer.accepts] using hwrite
      · simpa [applyTally, apply, hlt, Answer.accepts] using hcell.imp_right Nat.succ_le_of_lt
    · have hrefuses : Refuses w N p.writeIndex := by simpa [Sound, hfull] using hs
      have hrefused := (h.words_tryEmplace_full_iff hN hbound hfull value spurious).mpr
        ⟨hrefuses, rfl⟩
      exact ⟨p.toWords w, by simp [call, applyTally, apply, hrefused, hfull], p, rfl,
        by simpa [applyTally, apply, hfull] using h,
        by simp [applyTally, apply, hfull, Answer.accepts],
        by simpa [applyTally, apply, hfull, Answer.accepts] using hbound⟩
  | pop =>
    cases xs with
    | nil =>
      have hpop := (h.words_tryPop_nil_iff hN hbound).mpr ⟨hs rfl, rfl⟩
      exact ⟨_, by simp [call, applyTally, apply, hpop], p, rfl, h, rfl, hbound⟩
    | cons x xs =>
      have hpop := h.words_tryPop_cons (Locates.of_lt hbound h.readIndex_lt)
      exact ⟨_, by simp [call, applyTally, apply, hpop], _, rfl, h.release, rfl, hbound⟩
  | clear =>
    obtain ⟨p', hr, hwrite, hclear⟩ := h.words_clear hN hbound (Nat.lt_succ_of_le h.length_le)
    have hcleared := (hclear _ _).mpr ⟨hs, rfl, rfl⟩
    exact ⟨_, by simp only [call, applyTally, apply, hcleared, Slot.values_live, Option.map_some],
      p', rfl, hr, hwrite, hbound⟩
  | empty =>
    have hempty := (h.words_empty_iff hN hbound).mpr hs
    exact ⟨_, by simp [call, applyTally, apply, hempty], p, rfl, h, rfl, hbound⟩
  | full =>
    have hfull := (h.words_full_iff hN hbound).mpr hs
    exact ⟨_, by simp [call, applyTally, apply, hfull], p, rfl, h, rfl, hbound⟩
  | size =>
    exact ⟨_, by simp [call, applyTally, apply, h.words_size hN], p, rfl, h, rfl, hbound⟩

/-- Outside the conditions the answer is wrong, or there is none. -/
theorem call_wrong (hN : N < 2 ^ w) {l : Op T × ℕ} (hkeeps : ∃ p, Keeps q x p)
    (hs : ¬ Sound w N x l.1) : call q l ≠ some ((applyTally N x l.1).1, t) := by
  obtain ⟨pushed, xs⟩ := x
  obtain ⟨op, spurious⟩ := l
  obtain ⟨p, rfl, h, rfl, hbound⟩ := hkeeps
  simp only at h hs
  intro hcall
  apply hs
  cases op with
  | push value =>
    obtain ⟨⟨accepted, last⟩, hpush, heq⟩ := Option.map_eq_some_iff.mp hcall
    obtain ⟨hanswer, rfl⟩ := Prod.mk.inj heq
    rcases lt_or_eq_of_le h.length_le with hlt | hfull
    · obtain rfl : accepted = true := by simpa [applyTally, apply, hlt] using hanswer
      have hcell : Locates w N p.writeIndex := by
        by_contra hcell
        exact h.words_tryEmplace_ne hN hbound hcell value spurious last hpush
      simpa [Sound, hlt] using hcell
    · obtain rfl : accepted = false := by simpa [applyTally, apply, hfull] using hanswer
      have hrefused := (h.words_tryEmplace_full_iff hN hbound hfull value spurious).mp hpush
      simpa [Sound, hfull] using hrefused.1
  | pop =>
    rintro rfl
    obtain ⟨⟨value, last⟩, hpop, heq⟩ := Option.map_eq_some_iff.mp hcall
    obtain ⟨hanswer, rfl⟩ := Prod.mk.inj heq
    obtain rfl : value = none := by simpa [applyTally, apply] using hanswer
    exact ((h.words_tryPop_nil_iff hN hbound).mp hpop).1
  | clear =>
    obtain ⟨⟨destroyed, last⟩, hcleared, -⟩ := Option.map_eq_some_iff.mp hcall
    obtain ⟨p', -, -, hclear⟩ := h.words_clear hN hbound (Nat.lt_succ_of_le h.length_le)
    exact ((hclear _ _).mp hcleared).1
  | empty =>
    have hempty : (p.toWords w).empty = xs.isEmpty := by
      simpa [call, applyTally, apply] using (congrArg Prod.fst (Option.some.inj hcall))
    exact (h.words_empty_iff hN hbound).mp hempty
  | full =>
    obtain ⟨answer, hfull, heq⟩ := Option.map_eq_some_iff.mp hcall
    obtain rfl : answer = decide (xs.length = N) := by
      simpa [applyTally, apply] using congrArg Prod.fst heq
    exact (h.words_full_iff hN hbound).mp hfull
  | size => trivial

/-! ### Whole runs -/

/-- Started empty, the queue answers the calls as the bounded list does and then holds
what it holds. -/
def Behaves (w N : ℕ) [NeZero N] (calls : List (Op T × ℕ)) : Prop :=
  let reference := BoundedFifo.run N [] (calls.map Prod.fst)
  ∃ q : WordQueue w N T, runCalls call .new calls = some (reference.1, q) ∧
    q.slots.Holds q.readIndex.toNat reference.2

theorem Keeps.holds {p : Queue N T} (h : Keeps q x p) :
    q.slots.Holds q.readIndex.toNat x.stored := by
  obtain ⟨rfl, hr, hpushed, hbound⟩ := h
  exact holds_toNat hr.slots fun hstored => Locates.of_lt hbound (by have := hr.writeIndex; omega)

theorem behaves_of_permits (hN : N < 2 ^ w) {calls : List (Op T × ℕ)}
    (h : Permits (applyTally N) (Sound w N) {} (calls.map Prod.fst)) : Behaves w N calls := by
  obtain ⟨q, hq, p, hkeeps⟩ := (call_implements hN).run ⟨_, keeps_new⟩ h
  obtain ⟨hanswers, hstored⟩ := perform_applyTally N ({} : Tally T) (calls.map Prod.fst)
  rw [hanswers] at hq
  exact ⟨q, hq, hstored ▸ hkeeps.holds⟩

theorem permits_of_behaves (hN : N < 2 ^ w) {calls : List (Op T × ℕ)} (h : Behaves w N calls) :
    Permits (applyTally N) (Sound w N) {} (calls.map Prod.fst) := by
  obtain ⟨q, hq, -⟩ := h
  rw [← (perform_applyTally N ({} : Tally T) (calls.map Prod.fst)).1] at hq
  exact (call_implements hN).permits (fun _ _ _ _ => call_wrong hN) ⟨_, keeps_new⟩ hq

end WordQueue

/-! ### Runs that stay below the sign boundary -/

/-- With two cells or more, the first half of the signed range is safe. -/
theorem sound_of_few_pushes (hN : 2 ≤ N) {x : Tally T} (hfew : x.pushed + 1 < 2 ^ (w - 1))
    (op : Op T) : Sound w N x op := by
  have hhalf : 2 ^ (w - 1) ≤ 2 ^ w := Nat.pow_le_pow_right two_pos (Nat.sub_le w 1)
  have hlt : x.pushed < 2 ^ w := by omega
  have hcell : Locates w N x.pushed := Or.inr hlt
  have hmod := Nat.mod_eq_of_lt hlt
  have hrefuses : Refuses w N x.pushed := by
    rw [Refuses, if_pos hcell, hmod]
    omega
  have hfinds : FindsNothing w N x.pushed := by
    rw [FindsNothing, if_pos hcell, hmod]
    omega
  have hsees : SeesRoom w N x.pushed x.stored.length := by
    rw [SeesRoom, if_pos hcell]
    trivial
  cases op with
  | push value =>
    unfold Sound
    split_ifs
    exacts [hcell, hrefuses]
  | pop => exact fun _ => hfinds
  | clear => exact hfinds
  | empty => exact fun _ => Or.inl hcell
  | full =>
    unfold Sound
    split_ifs
    exacts [hsees, hrefuses]
  | size => trivial

def isPush : Op T → Bool
  | .push _ => true
  | _ => false

theorem permits_of_few_pushes (hN : 2 ≤ N) {x : Tally T} {ops : List (Op T)}
    (hfew : x.pushed + ops.countP isPush + 1 < 2 ^ (w - 1)) :
    Permits (applyTally N) (Sound w N) x ops := by
  induction ops generalizing x with
  | nil => trivial
  | cons op ops ih =>
    rw [List.countP_cons] at hfew
    refine ⟨sound_of_few_pushes hN (by omega) op, ih ?_⟩
    have hcount : (applyTally N x op).2.pushed ≤ x.pushed + if isPush op = true then 1 else 0 := by
      cases op <;> simp only [applyTally, apply, isPush, Answer.accepts] <;> split_ifs <;> simp
    omega

end Obz.MpscRingQueue
