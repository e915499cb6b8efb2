import Obz.MpscRingQueue.WordRefinement
import Obz.SpscRingQueue.WrapAround

/-!
# The two ring queues as one bounded first-in first-out list

Both queues are driven by one thread and compared with the bounded list; counters,
stamps and their differences keep `w` bits. The queues agree with it exactly as long
as every call of the multi-producer queue can trust the stamp that it looks at. With
one cell the stamp of a published element is also the stamp of a free cell, and
beyond that only counters that have counted far make a difference.
-/
namespace Obz

open Foundation BoundedFifo

variable {w N : ℕ} {T : Type*} [NeZero N]

namespace SpscRingQueue.WordQueue

omit [NeZero N] in
/-- What suffices for the queue with stamps suffices for the other one. -/
theorem locates_of_sound {x : Tally T} {op : Op T} (hs : MpscRingQueue.Sound w N x op)
    (haccepts : (apply N x.stored op).1.accepts = true) : Words.Locates w N x.pushed := by
  cases op with
  | push value =>
    by_cases hlt : x.stored.length < N
    · simpa [MpscRingQueue.Sound, hlt] using hs
    · simp [apply, hlt, Answer.accepts] at haccepts
  | _ => cases haccepts

/-- The words are those of a queue with unbounded counters, and every value pushed so
far had a cell of its own. -/
structure Keeps (q : WordQueue w N T) (x : Tally T) (p : Queue N T) : Prop where
  words : p.toWords w = q
  represents : p.Represents x.stored
  pushed : p.writeIndex = x.pushed
  bound : N ∣ 2 ^ w ∨ x.pushed ≤ 2 ^ w

theorem keeps_new : Keeps (new : WordQueue w N T) {} Queue.new :=
  ⟨Queue.toWords_new, Queue.represents_new, rfl, Or.inr (Nat.zero_le _)⟩

theorem call_implements_sound (hN : N < 2 ^ w) :
    Implements (applyTally N) (call (w := w) (N := N) (T := T)) id
      (fun q x => ∃ p, Keeps q x p) (MpscRingQueue.Sound w N) := by
  rintro _ ⟨pushed, xs⟩ op ⟨p, rfl, h, rfl, hbound⟩ hs
  obtain ⟨p', hcall, hr, hwrite⟩ :=
    call_toWords h hN op (fun _ hn => Words.Locates.of_lt hbound hn) (locates_of_sound hs)
  refine ⟨_, hcall, p', rfl, hr, hwrite, ?_⟩
  simp only [applyTally]
  split_ifs with haccepts
  · exact (locates_of_sound hs haccepts).imp_right Nat.succ_le_of_lt
  · exact hbound

theorem Keeps.holds {q : WordQueue w N T} {x : Tally T} {p : Queue N T} (h : Keeps q x p) :
    q.buffer.Holds q.readIndex.toNat x.stored := by
  obtain ⟨rfl, hr, hpushed, hbound⟩ := h
  exact Words.holds_toNat hr.slots fun hstored =>
    Words.Locates.of_lt hbound (by have := hr.writeIndex; omega)

theorem behaves_of_permits (hN : N < 2 ^ w) {calls : List (Op T)}
    (h : Permits (applyTally N) (MpscRingQueue.Sound w N) {} calls) : Behaves w N calls := by
  rw [← List.map_id calls] at h
  obtain ⟨q, hq, p, hkeeps⟩ := (call_implements_sound hN).run ⟨_, keeps_new⟩ h
  obtain ⟨hanswers, hstored⟩ := perform_applyTally N ({} : Tally T) calls
  rw [List.map_id] at hq hkeeps
  rw [hanswers] at hq
  exact ⟨q, hq, hstored ▸ hkeeps.holds⟩

end SpscRingQueue.WordQueue

namespace RingQueues

/-- Both queues, started empty, answer the calls as the bounded list does and
then hold what it holds. -/
def Matches (w N : ℕ) [NeZero N] (calls : List (Op T × ℕ)) : Prop :=
  MpscRingQueue.WordQueue.Behaves w N calls ∧
    SpscRingQueue.WordQueue.Behaves w N (calls.map Prod.fst)

/-- The queues agree after every call of the sequence. -/
def Agree (w N : ℕ) [NeZero N] (calls : List (Op T × ℕ)) : Prop :=
  ∀ before, before <+: calls → Matches w N before

theorem agree_of_permits (hN : N < 2 ^ w) {calls : List (Op T × ℕ)}
    (h : Permits (applyTally N) (MpscRingQueue.Sound w N) {} (calls.map Prod.fst)) :
    Agree w N calls := by
  intro before hb
  have hbefore := h.of_prefix (hb.map Prod.fst)
  exact ⟨MpscRingQueue.WordQueue.behaves_of_permits hN hbefore,
    SpscRingQueue.WordQueue.behaves_of_permits hN hbefore⟩

/-- With two cells or more, fewer than half of the signed range is safe. -/
theorem agree_of_few_pushes (h2 : 2 ≤ N) (hN : N < 2 ^ w) {calls : List (Op T × ℕ)}
    (hfew : (calls.map Prod.fst).countP MpscRingQueue.isPush + 1 < 2 ^ (w - 1)) :
    Agree w N calls :=
  agree_of_permits hN (MpscRingQueue.permits_of_few_pushes h2 (by simpa using hfew))

/-- The two queues are one bounded list exactly as long as every call is sound for the
values pushed before it and those stored. -/
theorem agree_iff (hN : N < 2 ^ w) (calls : List (Op T × ℕ)) :
    Agree w N calls ↔
      Permits (applyTally N) (MpscRingQueue.Sound w N) {} (calls.map Prod.fst) :=
  ⟨fun h => MpscRingQueue.WordQueue.permits_of_behaves hN (h calls List.prefix_rfl).1,
    agree_of_permits hN⟩

/-- A queue of capacity one, always empty when it is pushed to, and a queue of capacity
three that is filled, refuses a value and is cleared. -/
theorem agree_iff_filled :
    Agree 64 1 [(.push 1, 0), (.size, 0), (.pop, 0), (.push 2, 3), (.clear, 0), (.pop, 0)] ∧
      Agree 64 3 [(.push 1, 0), (.push 2, 1), (.push 3, 0), (.full, 0), (.push 4, 0), (.pop, 0),
        (.empty, 0), (.clear, 0), (.empty, 0), (.pop, 0)] := by
  constructor
  · refine (agree_iff (by norm_num) _).mpr ?_
    simp [Permits, applyTally, apply, Answer.accepts, MpscRingQueue.Sound,
      MpscRingQueue.FindsNothing, Words.Locates]
  · refine (agree_iff (by norm_num) _).mpr ?_
    simp [Permits, applyTally, apply, Answer.accepts, MpscRingQueue.Sound, MpscRingQueue.Refuses,
      MpscRingQueue.FindsNothing, Words.Locates]

/-- With one cell, the second of two pushes would be constructed over the first value. -/
theorem not_agree_oneSlot : ¬ Agree 64 1 [(.push 1, 0), (.push 2, 0)] := by
  intro h
  obtain ⟨⟨q, hq, _⟩, _⟩ := h _ List.prefix_rfl
  have hanswers : (runCalls MpscRingQueue.WordQueue.call
      (MpscRingQueue.WordQueue.new (w := 64) (N := 1))
      [(Op.push 1, 0), (Op.push 2, 0)]).map Prod.fst = some [.pushed true, .pushed false] :=
    congrArg (Option.map Prod.fst) hq
  exact absurd hanswers (by decide)

end RingQueues
end Obz
