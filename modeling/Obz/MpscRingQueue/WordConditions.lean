import Obz.MpscRingQueue.WordQueue

/-!
# When words are as good as unbounded counters

A queue with unbounded counters, cut down to words, and what its cells then show at the
back. Each call compares a stamp with a position; `Sound` says, in terms of the number
of values pushed so far and of those stored, when all the comparisons of a call come
out as they would for unbounded counters.
-/
namespace Obz.MpscRingQueue

open Foundation BoundedFifo Words

variable {w N : ℕ} {T : Type*}

/-! ### What `w` bits keep of a queue -/

namespace Queue

def toWords (w : ℕ) (q : Queue N T) : WordQueue w N T :=
  ⟨fun i => ⟨BitVec.ofNat w (q.buffer i).sequence, (q.buffer i).slot⟩,
    BitVec.ofNat w q.readIndex, BitVec.ofNat w q.writeIndex⟩

theorem toWords_new : (new : Queue N T).toWords w = .new := rfl

variable [NeZero N] {q : Queue N T} {n : ℕ}

theorem cell_toWords {m : ℕ}
    (hcell : (CyclicBuffer.index (BitVec.ofNat w m).toNat : Fin N) = CyclicBuffer.index n) :
    (q.toWords w).cell (BitVec.ofNat w m) = ⟨BitVec.ofNat w (q.stamps.get n), q.slots.get n⟩ :=
  CyclicBuffer.get_congr hcell

theorem storeSequence_toWords (hcell : Locates w N n) (x : ℕ) :
    (q.toWords w).storeSequence (BitVec.ofNat w n) (BitVec.ofNat w x) =
      (q.storeSequence n x).toWords w := by
  rw [WordQueue.storeSequence, cell_toWords hcell.index, CyclicBuffer.set_congr hcell.index]
  simp only [toWords, storeSequence, WordQueue.mk.injEq, and_true]
  funext i
  by_cases hi : i = CyclicBuffer.index n
  · subst hi
    simp [CyclicBuffer.set, cell, slots, CyclicBuffer.get]
  · simp [CyclicBuffer.set, Function.update_of_ne hi]

theorem storeSlot_toWords (hcell : Locates w N n) (slot : Slot T) :
    (q.toWords w).storeSlot (BitVec.ofNat w n) slot = (q.storeSlot n slot).toWords w := by
  rw [WordQueue.storeSlot, cell_toWords hcell.index, CyclicBuffer.set_congr hcell.index]
  simp only [toWords, storeSlot, WordQueue.mk.injEq, and_true]
  funext i
  by_cases hi : i = CyclicBuffer.index n
  · subst hi
    simp [CyclicBuffer.set, cell, stamps, CyclicBuffer.get]
  · simp [CyclicBuffer.set, Function.update_of_ne hi]

theorem release_toWords (hcell : Locates w N n) :
    (q.toWords w).release (BitVec.ofNat w n) = (q.release n).toWords w := by
  have hstored := storeSlot_toWords (q := q) hcell .vacant
  have hread : BitVec.ofNat w n + 1 = BitVec.ofNat w (n + 1) := (BitVec.ofNat_add n 1).symm
  rw [WordQueue.release, hstored, hread, ← BitVec.ofNat_add, release,
    ← storeSequence_toWords hcell]
  rfl

end Queue

/-! ### The cell at the back -/

/-- How far back the position lies that had the cell of the next one before it. -/
def lap (w N pushed : ℕ) : ℕ := if Locates w N pushed then N else 2 ^ w % N

theorem lap_pos [NeZero N] (pushed : ℕ) : 0 < lap w N pushed := by
  unfold lap
  split_ifs with hcell
  · exact Nat.pos_of_ne_zero (NeZero.ne N)
  · exact Nat.pos_of_ne_zero fun hzero => hcell (Or.inl (Nat.dvd_of_mod_eq_zero hzero))

theorem lap_le [NeZero N] (pushed : ℕ) : lap w N pushed ≤ N := by
  unfold lap
  split_ifs
  · exact le_rfl
  · exact (Nat.mod_lt _ (Nat.pos_of_ne_zero (NeZero.ne N))).le

theorem index_back [NeZero N] {pushed : ℕ} (hbound : N ∣ 2 ^ w ∨ pushed ≤ 2 ^ w) :
    (CyclicBuffer.index (BitVec.ofNat w pushed).toNat : Fin N) =
      CyclicBuffer.index (pushed + N - lap w N pushed) := by
  by_cases hcell : Locates w N pushed
  · rw [hcell.index, lap, if_pos hcell, Nat.add_sub_cancel]
  · obtain ⟨hdvd, hge⟩ := not_or.mp hcell
    obtain rfl : pushed = 2 ^ w := le_antisymm (hbound.resolve_left hdvd) (Nat.not_lt.mp hge)
    have hlt := Nat.mod_lt (2 ^ w) (Nat.pos_of_ne_zero (NeZero.ne N))
    have hdiv := Nat.div_add_mod (2 ^ w) N
    have hback : 2 ^ w + N - 2 ^ w % N = N * (2 ^ w / N + 1) := by
      rw [Nat.mul_add, Nat.mul_one]
      omega
    apply Fin.ext
    simp only [CyclicBuffer.index, lap, if_neg hcell]
    rw [hback, BitVec.toNat_ofNat, Nat.mod_self, Nat.zero_mod, Nat.mul_mod_right]

namespace Queue.Represents

variable [NeZero N] {q : Queue N T} {xs : List T} {x : T}

theorem back_free (h : q.Represents xs) (hbound : N ∣ 2 ^ w ∨ q.writeIndex ≤ 2 ^ w)
    (hlt : xs.length < lap w N q.writeIndex) :
    (q.toWords w).cell (q.toWords w).writeIndex =
      ⟨BitVec.ofNat w (q.writeIndex + N - lap w N q.writeIndex), .vacant⟩ := by
  have hw := h.writeIndex
  have hle := lap_le (w := w) (N := N) q.writeIndex
  have hfree := h.free (q.writeIndex + N - lap w N q.writeIndex) (by omega) (by omega)
  have hslot := h.slots.unused (q.writeIndex + N - lap w N q.writeIndex) (by omega) (by omega)
  exact (cell_toWords (index_back hbound)).trans (by rw [hfree, hslot])

theorem back_taken (h : q.Represents xs) (hbound : N ∣ 2 ^ w ∨ q.writeIndex ≤ 2 ^ w)
    (hge : lap w N q.writeIndex ≤ xs.length) :
    ∃ x, (q.toWords w).cell (q.toWords w).writeIndex =
      ⟨BitVec.ofNat w (q.writeIndex + 1 - lap w N q.writeIndex), .live x⟩ := by
  have hw := h.writeIndex
  have hpos := lap_pos (w := w) (N := N) q.writeIndex
  obtain ⟨i, hi⟩ : ∃ i, i = xs.length - lap w N q.writeIndex := ⟨_, rfl⟩
  have hback : q.writeIndex + N - lap w N q.writeIndex = q.readIndex + i + N := by omega
  have hcell : (CyclicBuffer.index (BitVec.ofNat w q.writeIndex).toNat : Fin N) =
      CyclicBuffer.index (q.readIndex + i) := by
    rw [index_back hbound, hback, CyclicBuffer.index_add]
  have hstamp := h.published i (by omega)
  have hslot := h.slots.stored i (by omega)
  refine ⟨xs[i], (cell_toWords hcell).trans ?_⟩
  have hsum : q.readIndex + i + 1 = q.writeIndex + 1 - lap w N q.writeIndex := by omega
  rw [hstamp, hslot, hsum]

theorem front_cell (h : q.Represents (x :: xs)) (hcell : Locates w N q.readIndex) :
    (q.toWords w).cell (q.toWords w).readIndex =
      ⟨BitVec.ofNat w q.readIndex + 1, .live x⟩ := by
  refine (cell_toWords hcell.index).trans ?_
  rw [h.stamp_front_cons, h.slots.front, BitVec.ofNat_add]
  rfl

theorem readIndex_lt (h : q.Represents (x :: xs)) : q.readIndex < q.writeIndex := by
  simp [h.writeIndex]

theorem readIndex_eq (h : q.Represents []) : q.readIndex = q.writeIndex := by
  simp [h.writeIndex]

end Queue.Represents

/-! ### When the comparisons come out right -/

/-- A push into the full queue is refused, and `full` reports it. -/
def Refuses (w N pushed : ℕ) : Prop :=
  if Locates w N pushed then
    2 ≤ N ∧ ¬ (2 ^ (w - 1) ≤ pushed % 2 ^ w ∧ pushed % 2 ^ w + 1 < 2 ^ (w - 1) + N)
  else 2 ≤ 2 ^ w % N

/-- `full` reports that there is room. -/
def SeesRoom (w N pushed stored : ℕ) : Prop :=
  if Locates w N pushed then True
  else if 2 ^ w % N ≤ stored then 2 ^ w % N = 1
  else N - 2 ^ w % N < 2 ^ (w - 1)

/-- A poll of the empty queue finds nothing to pop. -/
def FindsNothing (w N pushed : ℕ) : Prop :=
  if Locates w N pushed then pushed % 2 ^ w + 1 ≠ 2 ^ (w - 1)
  else N - 2 ^ w % N ≠ 1 ∧ N - 2 ^ w % N ≠ 2 ^ (w - 1)

/-- Whether a call is right depends on the values pushed so far and on those stored. -/
def Sound (w N : ℕ) (x : Tally T) : Op T → Prop
  | .push _ =>
    if x.stored.length < N then Locates w N x.pushed else Refuses w N x.pushed
  | .pop => x.stored = [] → FindsNothing w N x.pushed
  | .clear => FindsNothing w N x.pushed
  | .empty => x.stored = [] → Locates w N x.pushed ∨ N - 2 ^ w % N ≠ 1
  | .full =>
    if x.stored.length < N then SeesRoom w N x.pushed x.stored.length
    else Refuses w N x.pushed
  | .size => True

section Comparisons

variable [NeZero N] {pushed : ℕ}

theorem width_pos (hN : N < 2 ^ w) : 0 < w := by
  have hpos := Nat.pos_of_ne_zero (NeZero.ne N)
  rcases Nat.eq_zero_or_pos w with rfl | hw
  · simp at hN
    omega
  · exact hw

omit [NeZero N] in
/-- Where the words stop leading to their cells. -/
theorem pushed_eq (hbound : N ∣ 2 ^ w ∨ pushed ≤ 2 ^ w) (hcell : ¬ Locates w N pushed) :
    pushed = 2 ^ w := by
  obtain ⟨hdvd, hge⟩ := not_or.mp hcell
  exact le_antisymm (hbound.resolve_left hdvd) (Nat.not_lt.mp hge)

/-- The rest that `2 ^ w` leaves, where it leaves one. -/
theorem rest_bounds (hN : N < 2 ^ w) (hcell : ¬ Locates w N pushed) :
    0 < 2 ^ w % N ∧ 2 ^ w % N < N ∧ N + 2 ^ w % N ≤ 2 ^ w := by
  have hpos := Nat.pos_of_ne_zero (NeZero.ne N)
  have hdiv := Nat.div_add_mod (2 ^ w) N
  have hquot : 1 ≤ 2 ^ w / N := Nat.div_pos hN.le hpos
  have hmul : N * 1 ≤ N * (2 ^ w / N) := Nat.mul_le_mul_left N hquot
  refine ⟨Nat.pos_of_ne_zero fun hzero => hcell (Or.inl (Nat.dvd_of_mod_eq_zero hzero)),
    Nat.mod_lt _ hpos, by omega⟩

/-- The stamp of a cell that is free there. -/
theorem free_stamp_mod (hN : N < 2 ^ w) (hcell : ¬ Locates w N pushed) :
    (2 ^ w + N - 2 ^ w % N) % 2 ^ w = N - 2 ^ w % N := by
  obtain ⟨hrest, hlt, hsum⟩ := rest_bounds hN hcell
  rw [Nat.add_sub_assoc hlt.le, Nat.add_mod_left, Nat.mod_eq_of_lt (by omega)]

theorem refuses_iff (hN : N < 2 ^ w) (hbound : N ∣ 2 ^ w ∨ pushed ≤ 2 ^ w) (hfull : N ≤ pushed) :
    Below w (pushed + 1 - lap w N pushed) pushed ↔ Refuses w N pushed := by
  have hw := width_pos hN
  have hpow := two_pow_eq hw
  have hpos := Nat.pos_of_ne_zero (NeZero.ne N)
  rw [below_iff hw, Refuses, lap]
  split_ifs with hcell
  · obtain ⟨s, rfl⟩ : ∃ s, pushed = s + (N - 1) := ⟨pushed + 1 - N, by omega⟩
    have hs : s + (N - 1) + 1 - N = s := by omega
    have hres := Nat.mod_lt s (Nat.two_pow_pos w)
    rw [hs]
    rcases Nat.lt_or_ge (s % 2 ^ w + (N - 1)) (2 ^ w) with hlt | hge
    · have hsum : (s + (N - 1)) % 2 ^ w = s % 2 ^ w + (N - 1) := by
        rw [Nat.add_mod, Nat.mod_eq_of_lt (show N - 1 < 2 ^ w by omega), Nat.mod_eq_of_lt hlt]
      rw [hsum]
      omega
    · have hsum : (s + (N - 1)) % 2 ^ w = s % 2 ^ w + (N - 1) - 2 ^ w := by
        rw [Nat.add_mod, Nat.mod_eq_of_lt (show N - 1 < 2 ^ w by omega),
          Nat.mod_eq_sub_mod hge, Nat.mod_eq_of_lt (by omega)]
      -- only counters that wrap around get here, and then the capacity is at most half the range
      have hhalf : N ≤ 2 ^ (w - 1) := by
        rcases hcell with hdvd | hlt
        · obtain ⟨k, hk⟩ := hdvd
          have hk2 : 2 ≤ k := by
            by_contra hk1
            interval_cases k <;> omega
          have := Nat.mul_le_mul_left N hk2
          omega
        · have hself := Nat.mod_eq_of_lt (show s < 2 ^ w by omega)
          omega
      rw [hsum]
      omega
  · obtain rfl := pushed_eq hbound hcell
    obtain ⟨hrest, hlt, hsum⟩ := rest_bounds hN hcell
    rw [Nat.mod_self]
    rcases Nat.lt_or_ge 1 (2 ^ w % N) with hone | hone
    · rw [Nat.mod_eq_of_lt (show 2 ^ w + 1 - 2 ^ w % N < 2 ^ w by omega)]
      omega
    · have hback : 2 ^ w + 1 - 2 ^ w % N = 2 ^ w := by omega
      rw [hback, Nat.mod_self]
      omega

theorem seesRoom_iff (hN : N < 2 ^ w) (hbound : N ∣ 2 ^ w ∨ pushed ≤ 2 ^ w) {stored : ℕ}
    (hroom : stored < N) :
    AtLeast w (if stored < lap w N pushed then pushed + N - lap w N pushed
      else pushed + 1 - lap w N pushed) pushed ↔ SeesRoom w N pushed stored := by
  have hw := width_pos hN
  have hpow := two_pow_eq hw
  rw [atLeast_iff hw, SeesRoom]
  by_cases hcell : Locates w N pushed
  · have hlap : lap w N pushed = N := if_pos hcell
    rw [hlap, if_pos hroom, if_pos hcell, Nat.add_sub_cancel]
    simp
  · have hlap : lap w N pushed = 2 ^ w % N := if_neg hcell
    obtain rfl := pushed_eq hbound hcell
    obtain ⟨hrest, hlt, hsum⟩ := rest_bounds hN hcell
    rw [hlap, if_neg hcell, Nat.mod_self]
    by_cases hfree : stored < 2 ^ w % N
    · rw [if_pos hfree, if_neg (Nat.not_le.mpr hfree), free_stamp_mod hN hcell]
      omega
    · rw [if_neg hfree, if_pos (Nat.not_lt.mp hfree)]
      rcases Nat.lt_or_ge 1 (2 ^ w % N) with hone | hone
      · rw [Nat.mod_eq_of_lt (show 2 ^ w + 1 - 2 ^ w % N < 2 ^ w by omega)]
        omega
      · have hback : 2 ^ w + 1 - 2 ^ w % N = 2 ^ w := by omega
        rw [hback, Nat.mod_self]
        omega

theorem succ_mod (hone : 1 < 2 ^ w) (n : ℕ) :
    (n + 1) % 2 ^ w = if n % 2 ^ w + 1 = 2 ^ w then 0 else n % 2 ^ w + 1 := by
  have hlt := Nat.mod_lt n (Nat.two_pow_pos w)
  rw [Nat.add_mod, Nat.mod_eq_of_lt hone]
  split_ifs with hlast
  · rw [hlast, Nat.mod_self]
  · exact Nat.mod_eq_of_lt (by omega)

theorem findsNothing_iff (hN : N < 2 ^ w) (hbound : N ∣ 2 ^ w ∨ pushed ≤ 2 ^ w) :
    Differs w (pushed + N - lap w N pushed) (pushed + 1) ↔ FindsNothing w N pushed := by
  have hw := width_pos hN
  have hpow := two_pow_eq hw
  have hpos := Nat.pos_of_ne_zero (NeZero.ne N)
  rw [differs_iff hw, FindsNothing, lap, succ_mod (by omega)]
  split_ifs with hcell hlast hlast
  · rw [Nat.add_sub_cancel]
    omega
  · rw [Nat.add_sub_cancel]
    have hlt := Nat.mod_lt pushed (Nat.two_pow_pos w)
    omega
  · obtain rfl := pushed_eq hbound hcell
    rw [Nat.mod_self] at hlast
    omega
  · obtain rfl := pushed_eq hbound hcell
    obtain ⟨hrest, hlt, hsum⟩ := rest_bounds hN hcell
    rw [free_stamp_mod hN hcell, Nat.mod_self]
    omega

theorem stamp_ne_iff (hN : N < 2 ^ w) (hbound : N ∣ 2 ^ w ∨ pushed ≤ 2 ^ w) :
    BitVec.ofNat w (pushed + N - lap w N pushed) ≠ BitVec.ofNat w (pushed + 1) ↔
      Locates w N pushed ∨ N - 2 ^ w % N ≠ 1 := by
  have hpos := Nat.pos_of_ne_zero (NeZero.ne N)
  rw [Ne, ← BitVec.toNat_inj, BitVec.toNat_ofNat, BitVec.toNat_ofNat,
    succ_mod (by omega), lap]
  by_cases hcell : Locates w N pushed
  · rw [if_pos hcell, Nat.add_sub_cancel]
    have hlt := Nat.mod_lt pushed (Nat.two_pow_pos w)
    simp only [hcell, true_or, iff_true]
    split_ifs <;> omega
  · obtain rfl := pushed_eq hbound hcell
    obtain ⟨hrest, hlt, hsum⟩ := rest_bounds hN hcell
    rw [if_neg hcell, free_stamp_mod hN hcell, Nat.mod_self]
    simp only [hcell, false_or]
    split_ifs <;> omega

end Comparisons

end Obz.MpscRingQueue
