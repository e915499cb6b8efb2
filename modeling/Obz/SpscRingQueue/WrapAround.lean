import Obz.Foundation.BoundedFifo
import Obz.Foundation.Words
import Obz.SpscRingQueue.Queue

/-!
# `spsc_ring_queue` when its counters wrap around

The counters keep `w` bits and one thread calls. The difference of the counters
survives the wrap; the map from positions to cells does if the capacity divides
`2 ^ w`, and then the queue is the one with unbounded counters.
-/
namespace Obz.SpscRingQueue

open Foundation BoundedFifo

variable {w N : ℕ} {T : Type*}

structure WordQueue (w N : ℕ) (T : Type*) where
  buffer : CyclicBuffer N (Slot T)
  readIndex : BitVec w
  writeIndex : BitVec w

namespace WordQueue

def new : WordQueue w N T := ⟨fun _ => .vacant, 0, 0⟩

variable [NeZero N] (q : WordQueue w N T)

def slot (index : BitVec w) : Slot T := q.buffer.get index.toNat

def storeSlot (index : BitVec w) (object : Slot T) : WordQueue w N T :=
  { q with buffer := q.buffer.set index.toNat object }

/-- `none` where an object would be constructed over another. -/
def tryEmplace (value : T) : Option (Bool × WordQueue w N T) :=
  let write := q.writeIndex
  let read := q.readIndex
  if write - read = BitVec.ofNat w N then some (false, q)
  else match q.slot write with
    | .vacant => some (true, { q.storeSlot write (.live value) with writeIndex := write + 1 })
    | _ => none

/-- `none` where storage that holds no object would be moved out. -/
def tryPop : Option (Option T × WordQueue w N T) :=
  let read := q.readIndex
  let write := q.writeIndex
  if read = write then some (none, q)
  else match q.slot read with
    | .live value => some (some value, { q.storeSlot read .vacant with readIndex := read + 1 })
    | _ => none

def empty : Bool := q.readIndex = q.writeIndex

def full : Bool := q.writeIndex - q.readIndex = BitVec.ofNat w N

def size : BitVec w := q.writeIndex - q.readIndex

/-- The loop of `clear`, with what it destroyed. -/
def clear : ℕ → WordQueue w N T → Option (List (Slot T) × WordQueue w N T)
  | 0, _ => none
  | fuel + 1, q =>
    let read := q.readIndex
    let write := q.writeIndex
    if read = write then some ([], q)
    else match q.slot read with
      | .vacant => none
      | object =>
        (clear fuel { q.storeSlot read .vacant with readIndex := read + 1 }).map
          fun (rest, last) => (object :: rest, last)

/-- One call. The read index of `clear` meets the write index within `2 ^ w` passes. -/
def call (q : WordQueue w N T) : Op T → Option (Answer T × WordQueue w N T)
  | .push value => (q.tryEmplace value).map fun (accepted, last) => (.pushed accepted, last)
  | .pop => q.tryPop.map fun (value, last) => (.popped value, last)
  | .clear => (q.clear (2 ^ w)).map fun (destroyed, last) =>
    (.cleared (destroyed.filterMap Slot.value?), last)
  | .empty => some (.flag q.empty, q)
  | .full => some (.flag q.full, q)
  | .size => some (.count q.size.toNat, q)

/-- Started empty, the queue answers the calls as the bounded list does and then holds
what it holds. -/
def Behaves (w N : ℕ) [NeZero N] (calls : List (Op T)) : Prop :=
  let reference := BoundedFifo.run N [] calls
  ∃ q : WordQueue w N T, runCalls call .new calls = some (reference.1, q) ∧
    q.buffer.Holds q.readIndex.toNat reference.2

/-- `try_push`, `try_pop` and `clear`. -/
def isUpdate : Op T → Bool
  | .push _ | .pop | .clear => true
  | _ => false

end WordQueue

/-! ### As long as the words lead to the right cells -/

section Located

variable [NeZero N]

namespace Queue

/-- What `w` bits keep of the counters. -/
def toWords (w : ℕ) (q : Queue N T) : WordQueue w N T :=
  ⟨q.buffer, BitVec.ofNat w q.readIndex, BitVec.ofNat w q.writeIndex⟩

omit [NeZero N] in
theorem toWords_new : (new : Queue N T).toWords w = .new := rfl

theorem slot_toWords {n : ℕ} (hcell : Words.Locates w N n) (q : Queue N T) :
    (q.toWords w).slot (BitVec.ofNat w n) = q.slot n :=
  CyclicBuffer.get_congr hcell.index

theorem storeSlot_toWords {n : ℕ} (hcell : Words.Locates w N n) (q : Queue N T)
    (object : Slot T) :
    (q.toWords w).storeSlot (BitVec.ofNat w n) object = (q.storeSlot n object).toWords w := by
  simp only [WordQueue.storeSlot, toWords, storeSlot]
  rw [CyclicBuffer.set_congr hcell.index]

/-- What a pop or one pass of `clear` leaves. -/
theorem release_toWords (q : Queue N T) (hcell : Words.Locates w N q.readIndex) :
    { (q.toWords w).storeSlot (BitVec.ofNat w q.readIndex) .vacant with
      readIndex := BitVec.ofNat w q.readIndex + 1 } =
      toWords w { q.storeSlot q.readIndex .vacant with readIndex := q.readIndex + 1 } := by
  rw [storeSlot_toWords hcell]
  simp only [toWords, BitVec.ofNat_add]
  rfl

namespace Represents

variable {q : Queue N T} {xs : List T} {x : T}

theorem words_sub (h : q.Represents xs) :
    (q.toWords w).writeIndex - (q.toWords w).readIndex = BitVec.ofNat w xs.length := by
  simp only [toWords, h.writeIndex]
  exact Words.ofNat_add_sub

/-- The difference of the words tells how many elements are stored. -/
theorem words_sub_iff (h : q.Represents xs) (hN : N < 2 ^ w) {n : ℕ} (hn : n ≤ N) :
    (q.toWords w).writeIndex - (q.toWords w).readIndex = BitVec.ofNat w n ↔ xs.length = n := by
  have hle := h.length_le
  rw [h.words_sub]
  exact Words.ofNat_inj (by omega) (by omega)

theorem words_eq_iff (h : q.Represents xs) (hN : N < 2 ^ w) :
    (q.toWords w).readIndex = (q.toWords w).writeIndex ↔ xs = [] := by
  have hsub := h.words_sub_iff hN (Nat.zero_le N)
  rw [BitVec.sub_eq_iff_eq_add, BitVec.zero_add, List.length_eq_zero_iff] at hsub
  rw [← hsub, eq_comm]

theorem words_tryEmplace_room (h : q.Represents xs) (hcell : Words.Locates w N q.writeIndex)
    (hN : N < 2 ^ w) (hlt : xs.length < N) (value : T) :
    ∃ q' : Queue N T, (q.toWords w).tryEmplace value = some (true, q'.toWords w) ∧
      q'.Represents (xs ++ [value]) ∧ q'.writeIndex = q.writeIndex + 1 := by
  have hwords : ¬ (q.toWords w).writeIndex - (q.toWords w).readIndex = BitVec.ofNat w N := by
    rw [h.words_sub_iff hN le_rfl]
    omega
  have hvacant : (q.toWords w).slot (q.toWords w).writeIndex = .vacant := by
    refine (slot_toWords hcell q).trans (h.slots.unused _ ?_ ?_)
    · exact h.writeIndex.ge
    · rw [h.writeIndex]
      omega
  refine ⟨_, ?_, h.push hlt value, rfl⟩
  rw [WordQueue.tryEmplace, if_neg hwords, hvacant]
  change some (true, { (q.toWords w).storeSlot (BitVec.ofNat w q.writeIndex) (.live value) with
    writeIndex := BitVec.ofNat w q.writeIndex + 1 }) = _
  rw [storeSlot_toWords hcell]
  simp only [toWords, BitVec.ofNat_add]
  rfl

theorem words_tryEmplace_full (h : q.Represents xs) (hN : N < 2 ^ w) (hfull : xs.length = N)
    (value : T) : (q.toWords w).tryEmplace value = some (false, q.toWords w) :=
  if_pos ((h.words_sub_iff hN le_rfl).mpr hfull)

theorem words_tryPop_nil (h : q.Represents []) (hN : N < 2 ^ w) :
    (q.toWords w).tryPop = some (none, q.toWords w) :=
  if_pos ((h.words_eq_iff hN).mpr rfl)

theorem words_readIndex_ne (h : q.Represents (x :: xs)) (hN : N < 2 ^ w) :
    ¬ (q.toWords w).readIndex = (q.toWords w).writeIndex := by
  rw [h.words_eq_iff hN]
  exact List.cons_ne_nil x xs

theorem words_slot_front (h : q.Represents (x :: xs)) (hcell : Words.Locates w N q.readIndex) :
    (q.toWords w).slot (q.toWords w).readIndex = .live x :=
  (slot_toWords hcell q).trans h.slot_front

theorem words_tryPop_cons (h : q.Represents (x :: xs)) (hcell : Words.Locates w N q.readIndex)
    (hN : N < 2 ^ w) :
    (q.toWords w).tryPop = some (some x,
      toWords w { q.storeSlot q.readIndex .vacant with readIndex := q.readIndex + 1 }) := by
  rw [WordQueue.tryPop, if_neg (h.words_readIndex_ne hN), h.words_slot_front hcell,
    ← release_toWords q hcell]
  rfl

theorem words_clear (h : q.Represents xs) (hcells : ∀ n < q.writeIndex, Words.Locates w N n)
    (hN : N < 2 ^ w) {fuel : ℕ} (hfuel : xs.length < fuel) :
    ∃ q' : Queue N T, (q.toWords w).clear fuel = some (xs.map .live, q'.toWords w) ∧
      q'.Represents [] ∧ q'.writeIndex = q.writeIndex := by
  induction xs generalizing q fuel with
  | nil =>
    cases fuel with
    | zero => simp at hfuel
    | succ fuel => exact ⟨q, if_pos ((h.words_eq_iff hN).mpr rfl), h, rfl⟩
  | cons x xs ih =>
    cases fuel with
    | zero => simp at hfuel
    | succ fuel =>
      obtain ⟨q', hq', hr, hwrite⟩ := ih h.pop hcells (by simpa using hfuel)
      refine ⟨q', ?_, hr, hwrite⟩
      have hcell := hcells _ h.readIndex_lt
      rw [← release_toWords q hcell] at hq'
      rw [WordQueue.clear, if_neg (h.words_readIndex_ne hN), h.words_slot_front hcell]
      simp only [toWords] at hq' ⊢
      rw [hq']
      rfl

end Represents
end Queue

/-- A call does what it does to the bounded list, as long as the words of the positions
that it touches lead to their cells. -/
theorem WordQueue.call_toWords {p : Queue N T} {xs : List T} (h : p.Represents xs)
    (hN : N < 2 ^ w) (op : Op T) (hcells : ∀ n < p.writeIndex, Words.Locates w N n)
    (hback : (apply N xs op).1.accepts = true → Words.Locates w N p.writeIndex) :
    ∃ p' : Queue N T, call (p.toWords w) op = some ((apply N xs op).1, p'.toWords w) ∧
      p'.Represents (apply N xs op).2 ∧
      p'.writeIndex = if (apply N xs op).1.accepts then p.writeIndex + 1 else p.writeIndex := by
  cases op with
  | push value =>
    rcases lt_or_eq_of_le h.length_le with hlt | hfull
    · have hcell := hback (by simp [apply, hlt, Answer.accepts])
      obtain ⟨p', hp', hr, hwrite⟩ := h.words_tryEmplace_room hcell hN hlt value
      exact ⟨p', by simp [call, apply, hp', hlt], by simpa [apply, hlt] using hr,
        by simpa [apply, hlt, Answer.accepts] using hwrite⟩
    · exact ⟨p, by simp [call, apply, h.words_tryEmplace_full hN hfull, hfull],
        by simpa [apply, hfull] using h, by simp [apply, hfull, Answer.accepts]⟩
  | pop =>
    cases xs with
    | nil => exact ⟨p, by simp [call, apply, h.words_tryPop_nil hN], h, rfl⟩
    | cons x xs =>
      have hcell := hcells _ h.readIndex_lt
      exact ⟨_, by simp [call, apply, h.words_tryPop_cons hcell hN], h.pop, rfl⟩
  | clear =>
    have hlen := h.length_le
    have hfuel : xs.length < 2 ^ w := by omega
    obtain ⟨p', hp', hr, hwrite⟩ := h.words_clear hcells hN hfuel
    exact ⟨p', by simp only [call, apply, hp', Slot.values_live, Option.map_some], hr, hwrite⟩
  | empty =>
    have hempty : (p.toWords w).empty = xs.isEmpty := by
      rw [Bool.eq_iff_iff, List.isEmpty_iff, WordQueue.empty, decide_eq_true_iff]
      exact h.words_eq_iff hN
    exact ⟨p, by simp [call, apply, hempty], h, rfl⟩
  | full =>
    have hfull : (p.toWords w).full = decide (xs.length = N) :=
      decide_eq_decide.mpr (h.words_sub_iff hN le_rfl)
    exact ⟨p, by simp [call, apply, hfull], h, rfl⟩
  | size =>
    have hlen := h.length_le
    have hsize : (p.toWords w).size.toNat = xs.length := by
      rw [WordQueue.size, h.words_sub, BitVec.toNat_ofNat, Nat.mod_eq_of_lt (by omega)]
    exact ⟨p, by simp [call, apply, hsize], h, rfl⟩

/-- Across any number of wraps the queue is the bounded list, if the capacity divides
the range of the counters. -/
theorem WordQueue.call_implements (hdvd : N ∣ 2 ^ w) (hN : N < 2 ^ w) :
    Implements (apply N) (call (w := w) (N := N) (T := T)) id
      (fun q xs => ∃ p : Queue N T, p.toWords w = q ∧ p.Represents xs) fun _ _ => True := by
  rintro _ xs op ⟨p, rfl, h⟩ _
  obtain ⟨p', hcall, hr, -⟩ :=
    call_toWords h hN op (fun _ _ => Or.inl hdvd) fun _ => Or.inl hdvd
  exact ⟨_, hcall, p', rfl, hr⟩

theorem WordQueue.behaves_of_dvd (hdvd : N ∣ 2 ^ w) (hN : N < 2 ^ w) (calls : List (Op T)) :
    Behaves w N calls := by
  have hall : Permits (apply N) (fun (_ : List T) _ => True) [] (calls.map id) :=
    Permits.of_forall (fun _ _ => trivial) _ _
  obtain ⟨q, hq, p, rfl, hr⟩ :=
    (call_implements hdvd hN).run ⟨Queue.new, Queue.toWords_new, Queue.represents_new⟩ hall
  rw [List.map_id, ← run_eq_perform] at hq hr
  exact ⟨_, hq, hr.slots.congr_start (Words.Locates.index (Or.inl hdvd))⟩

end Located

/-! ### It does not -/

namespace WordQueue

variable [NeZero N]

/-- Nothing is stored, and both counters have counted to `n`. -/
def emptyAt (w N n : ℕ) : WordQueue w N T := ⟨fun _ => .vacant, BitVec.ofNat w n, BitVec.ofNat w n⟩

theorem word_ne_succ (hN : N < 2 ^ w) (index : BitVec w) : ¬ index = index + 1 := by
  have hpos := Nat.pos_of_ne_zero (NeZero.ne N)
  rw [BitVec.self_eq_add_right]
  change ¬ BitVec.ofNat w 1 = BitVec.ofNat w 0
  rw [Words.ofNat_inj (by omega) (by omega)]
  exact Nat.one_ne_zero

/-- `k` values are stored from position `first` on, and the oldest is in its cell. -/
structure Filled (first : BitVec w) (k : ℕ) (q : WordQueue w N T) : Prop where
  readIndex : q.readIndex = first
  writeIndex : q.writeIndex = first + BitVec.ofNat w k
  oldest : ∃ x, q.slot first = .live x

/-- A value passes through the empty queue. -/
theorem call_push_pop (hN : N < 2 ^ w) (n : ℕ) (x : T) :
    ∃ q : WordQueue w N T, call (emptyAt w N n) (.push x) = some (.pushed true, q) ∧
      Filled (BitVec.ofNat w n) 1 q ∧
      call q .pop = some (.popped (some x), emptyAt w N (n + 1)) := by
  have hpos := Nat.pos_of_ne_zero (NeZero.ne N)
  have hroom : ¬ BitVec.ofNat w n - BitVec.ofNat w n = BitVec.ofNat w N := by
    rw [BitVec.sub_self, Words.ofNat_inj (by omega) hN]
    omega
  have hback : ∀ i : Fin N, Function.update
      (Function.update (fun _ => .vacant) i (.live x)) i .vacant = fun _ => (.vacant : Slot T) := by
    intro i
    rw [Function.update_idem]
    exact Function.update_eq_self i _
  refine ⟨⟨CyclicBuffer.set (fun _ => .vacant) (BitVec.ofNat w n).toNat (.live x),
    BitVec.ofNat w n, BitVec.ofNat w n + 1⟩, ?_, ⟨rfl, rfl, x, CyclicBuffer.get_set_self _ _ _⟩, ?_⟩
  · change Option.map _ (if BitVec.ofNat w n - BitVec.ofNat w n = BitVec.ofNat w N then _
      else _) = _
    rw [if_neg hroom]
    rfl
  · rw [call, tryPop]
    simp only [if_neg (word_ne_succ hN _), slot, CyclicBuffer.get_set_self, Option.map_some,
      Option.some.injEq, Prod.mk.injEq, true_and]
    simp only [emptyAt, storeSlot, CyclicBuffer.set, hback, BitVec.ofNat_add]
    rfl

/-- The calls that bring the counters to `n`. -/
def rounds (x : T) (n : ℕ) : List (Op T) := (List.replicate n [.push x, .pop]).flatten

theorem runCalls_rounds (hN : N < 2 ^ w) (x : T) (n : ℕ) :
    ∃ answers, runCalls call (.new : WordQueue w N T) (rounds x n) =
      some (answers, emptyAt w N n) := by
  induction n with
  | zero => exact ⟨[], rfl⟩
  | succ n ih =>
    obtain ⟨answers, hrun⟩ := ih
    obtain ⟨q, hpush, -, hpop⟩ := call_push_pop hN n x
    refine ⟨answers ++ [.pushed true, .popped (some x)], ?_⟩
    have hrounds : rounds x (n + 1) = rounds x n ++ [.push x, .pop] := by
      simp [rounds, List.replicate_succ']
    rw [hrounds, runCalls_append hrun, runCalls_cons hpush, runCalls_cons hpop]
    rfl

namespace Filled

variable {first : BitVec w} {k : ℕ} {q : WordQueue w N T}

theorem not_full (h : Filled first k q) (hk : k < N) (hN : N < 2 ^ w) :
    ¬ q.writeIndex - q.readIndex = BitVec.ofNat w N := by
  rw [h.writeIndex, h.readIndex, BitVec.add_comm, BitVec.add_sub_cancel,
    Words.ofNat_inj (by omega) hN]
  omega

/-- A push has no defined outcome, or it stores one value more. -/
theorem push (h : Filled first k q) (hk : k < N) (hN : N < 2 ^ w) (x : T) :
    call q (.push x) = none ∨
      ∃ q', call q (.push x) = some (.pushed true, q') ∧ Filled first (k + 1) q' := by
  rw [call, tryEmplace]
  simp only [if_neg (h.not_full hk hN)]
  cases hslot : q.slot q.writeIndex with
  | live y => exact Or.inl rfl
  | movedFrom => exact Or.inl rfl
  | vacant =>
    refine Or.inr ⟨_, rfl, h.readIndex, ?_, ?_⟩
    · simp only [h.writeIndex, BitVec.ofNat_add, BitVec.add_assoc]
      rfl
    · obtain ⟨y, hy⟩ := h.oldest
      refine ⟨y, (CyclicBuffer.get_set_of_ne fun hsame => ?_).trans hy⟩
      -- the cell of the oldest value is not vacant
      have hcell : q.slot first = q.slot q.writeIndex := CyclicBuffer.get_congr hsame
      rw [hslot, hy] at hcell
      cases hcell

/-- If the positions `first` and `first + last` share a cell, then so many pushes
cannot all be made. -/
theorem pushes (h : Filled first k q) {last : ℕ} (hk : k ≤ last) (hlast : last < N)
    (hN : N < 2 ^ w) (hcell : (CyclicBuffer.index (first + BitVec.ofNat w last).toNat : Fin N) =
      CyclicBuffer.index first.toNat) (x : T) :
    runCalls call q (List.replicate (last + 1 - k) (.push x)) = none := by
  induction hd : last - k generalizing k q with
  | zero =>
    obtain rfl : k = last := by omega
    obtain ⟨y, hy⟩ := h.oldest
    have hslot : q.slot q.writeIndex = .live y := by
      rw [h.writeIndex]
      exact (CyclicBuffer.get_congr hcell).trans hy
    have hcall : call q (.push x) = none := by
      rw [call, tryEmplace]
      simp only [if_neg (h.not_full hlast hN), hslot]
      rfl
    rw [Nat.add_sub_cancel_left, List.replicate_one, runCalls, hcall]
    rfl
  | succ d ih =>
    have hcount : last + 1 - k = last + 1 - (k + 1) + 1 := by omega
    rw [hcount, List.replicate_succ]
    rcases h.push (by omega) hN x with hcall | ⟨q', hcall, hnext⟩
    · rw [runCalls, hcall]
      rfl
    · rw [runCalls_cons hcall, ih hnext (by omega) (by omega)]
      rfl

end Filled

/-- The last position before the wrap and the position of this distance share a cell. -/
theorem index_wrapped (hrest : 0 < 2 ^ w % N) :
    (CyclicBuffer.index (BitVec.ofNat w (2 ^ w - 1) + BitVec.ofNat w (2 ^ w % N)).toNat : Fin N) =
      CyclicBuffer.index (BitVec.ofNat w (2 ^ w - 1)).toNat := by
  have hpos := Nat.pos_of_ne_zero (NeZero.ne N)
  have hpow := Nat.two_pow_pos w
  have hlt := Nat.mod_lt (2 ^ w) hpos
  have hdiv := Nat.div_add_mod (2 ^ w) N
  have hsum : 2 ^ w - 1 + 2 ^ w % N = 2 ^ w % N - 1 + 2 ^ w := by omega
  have hfirst : 2 ^ w - 1 = 2 ^ w % N - 1 + N * (2 ^ w / N) := by omega
  apply Fin.ext
  simp only [CyclicBuffer.index]
  rw [← BitVec.ofNat_add, hsum, BitVec.toNat_ofNat, BitVec.toNat_ofNat, Nat.add_mod_right,
    Nat.mod_eq_of_lt (show 2 ^ w % N - 1 < 2 ^ w by omega),
    Nat.mod_eq_of_lt (show 2 ^ w - 1 < 2 ^ w by omega), hfirst, Nat.add_mul_mod_self_left]

/-- The queue is driven to the last position before the wrap and then filled: the value for
position `2 ^ w % N - 1` would be constructed over the first one. -/
theorem not_behaves_of_not_dvd (hdvd : ¬ N ∣ 2 ^ w) (hN : N < 2 ^ w) (x : T) :
    ¬ Behaves w N (rounds x (2 ^ w - 1) ++ List.replicate (2 ^ w % N + 1) (.push x)) := by
  rintro ⟨last, hbehaves, -⟩
  have hrest : 0 < 2 ^ w % N := Nat.pos_of_ne_zero fun hzero => hdvd (Nat.dvd_of_mod_eq_zero hzero)
  have hlt := Nat.mod_lt (2 ^ w) (Nat.pos_of_ne_zero (NeZero.ne N))
  obtain ⟨answers, hrun⟩ := runCalls_rounds (N := N) hN x (2 ^ w - 1)
  obtain ⟨q, hpush, hfilled, -⟩ := call_push_pop (N := N) hN (2 ^ w - 1) x
  have hnone := hfilled.pushes hrest hlt hN (index_wrapped hrest) x
  rw [Nat.add_sub_cancel] at hnone
  rw [runCalls_append hrun, List.replicate_succ, runCalls_cons hpush, hnone] at hbehaves
  cases hbehaves

theorem isUpdate_of_mem_rounds {x : T} {n : ℕ} {c : Op T} (h : c ∈ rounds x n) :
    isUpdate c = true := by
  obtain ⟨calls, hcalls, hc⟩ := List.mem_flatten.mp h
  obtain rfl := List.eq_of_mem_replicate hcalls
  simp only [List.mem_cons, List.not_mem_nil, or_false] at hc
  rcases hc with rfl | rfl <;> rfl

end WordQueue

/-- Sequential runs of any length are those of a bounded first-in first-out list, however
often the counters wrap, exactly if the capacity divides the range of the counters. -/
theorem fifo_across_wrap_iff [NeZero N] [Nonempty T] (hN : N < 2 ^ w) :
    (∀ calls : List (Op T), (∀ c ∈ calls, WordQueue.isUpdate c = true) →
      WordQueue.Behaves w N calls) ↔ N ∣ 2 ^ w := by
  constructor
  · intro h
    by_contra hdvd
    obtain ⟨x⟩ := ‹Nonempty T›
    refine WordQueue.not_behaves_of_not_dvd hdvd hN x (h _ fun c hc => ?_)
    rcases List.mem_append.mp hc with hc | hc
    · exact WordQueue.isUpdate_of_mem_rounds hc
    · rw [List.eq_of_mem_replicate hc]
      rfl
  · intro hdvd calls _
    exact WordQueue.behaves_of_dvd hdvd hN calls

/-- With 64 bits, a capacity of 1024 is safe for good and one of 1000 is not. -/
theorem fifo_across_wrap_iff_size :
    (∀ calls : List (Op ℕ), (∀ c ∈ calls, WordQueue.isUpdate c = true) →
      WordQueue.Behaves 64 1024 calls) ∧
    ¬ ∀ calls : List (Op ℕ), (∀ c ∈ calls, WordQueue.isUpdate c = true) →
      WordQueue.Behaves 64 1000 calls :=
  ⟨(fifo_across_wrap_iff (by norm_num)).mpr (by norm_num),
    fun h => absurd ((fifo_across_wrap_iff (by norm_num)).mp h) (by norm_num)⟩

end Obz.SpscRingQueue
