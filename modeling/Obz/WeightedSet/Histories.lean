import Obz.WeightedSet.Exactness

/-!
# Histories of calls and copies

Every object that is never moved from keeps an exact total, holds what the
reference holds and answers as the reference answers, and its 64-bit
arithmetic never wraps.
-/
namespace Obz.WeightedSet

open Foundation

variable {κ T : Type} [DecidableEq κ] [DecidableEq T]

/-- When each call is refused, in the order in which the reasons are tried, and
that a refused call changes nothing. -/
structure Obeys (s : WeightedSet T) : Prop where
  insert_invalid : ∀ value weight,
    ((insert value weight).call s).1 = .error invalidWeight ↔ weight = 0
  insert_present : ∀ value weight, weight ≠ 0 →
    (((insert value weight).call s).1 = .ok false ↔ value ∈ s.weights)
  insert_overflow : ∀ value weight, weight ≠ 0 → value ∉ s.weights →
    (((insert value weight).call s).1 = .error totalOverflow ↔
      2 ^ 64 - 1 < (s.contents.update value weight.toNat).degree)
  set_invalid : ∀ value weight,
    ((setWeight value weight).call s).1 = .error invalidWeight ↔ weight = 0
  set_absent : ∀ value weight, weight ≠ 0 →
    (((setWeight value weight).call s).1 = .ok false ↔ value ∉ s.weights)
  set_overflow : ∀ value weight, weight ≠ 0 → value ∈ s.weights →
    (((setWeight value weight).call s).1 = .error totalOverflow ↔
      2 ^ 64 - 1 < (s.contents.update value weight.toNat).degree)
  refused : ∀ c, (s.next c).1 = .ok (some false) ∨ (∃ e, (s.next c).1 = .error e) →
    (s.next c).2 = s

/-- Every difference the functions form is one of a number and a smaller one, and
every sum that is stored is below `2 ^ 64`. -/
structure NeverWraps (s : WeightedSet T) : Prop where
  addGuard : s.totalWeight ≤ maxWeight
  insert_add : ∀ value weight, ((insert value weight).call s).1 = .ok true →
    s.totalWeight.toNat + weight.toNat < 2 ^ 64
  erase_sub : ∀ value found, s.weights.lookup value = some found → found ≤ s.totalWeight
  replaceGuard : ∀ value previous, s.weights.lookup value = some previous →
    previous ≤ s.totalWeight ∧ s.totalWeight - previous ≤ maxWeight
  set_add : ∀ value weight previous, s.weights.lookup value = some previous →
    ((setWeight value weight).call s).1 = .ok true →
      (s.totalWeight - previous).toNat + weight.toNat < 2 ^ 64

theorem le_maxWeight (weight : UInt64) : weight ≤ maxWeight := by
  have hlt : weight.toNat < 2 ^ 64 := weight.toNat_lt
  rw [UInt64.le_iff_toNat_le, toNat_maxWeight]
  omega

/-- A call that throws or returns false has assigned nothing. -/
theorem next_refused (s : WeightedSet T) (c : Call T)
    (h : (s.next c).1 = .ok (some false) ∨ ∃ e, (s.next c).1 = .error e) :
    (s.next c).2 = s := by
  cases c with
  | insert value weight =>
    simp only [next, Program.call_map, insert_call] at h ⊢
    split_ifs at h ⊢ <;> simp_all [Except.map]
  | erase value =>
    simp only [next, Program.call_map, erase_call] at h ⊢
    cases hv : s.weights.lookup value <;> simp_all [Except.map]
  | setWeight value weight =>
    simp only [next, Program.call_map, setWeight_call] at h ⊢
    by_cases hw : weight = 0
    · simp [hw]
    cases hv : s.weights.lookup value with
    | none => simp [hw]
    | some previous =>
      simp only [hw, hv, if_false] at h ⊢
      split_ifs at h ⊢ <;> simp_all [Except.map]
  | clear => simp [next, Except.map] at h

theorem Exact.obeys {s : WeightedSet T} (h : Exact s) : Obeys s where
  insert_invalid value weight := by
    rw [insert_call]
    split_ifs with hw <;> simp [hw, invalidWeight, totalOverflow]
  insert_present value weight hw := by
    rw [insert_call, if_neg hw]
    split_ifs with hv <;> simp [hv]
  insert_overflow value weight hw hv := by
    rw [insert_call, if_neg hw, if_neg hv, h.insert_sum hv, Nat.zero_add, toNat_maxWeight]
    split_ifs with hsum
    · exact ⟨fun _ => hsum, fun _ => rfl⟩
    · exact ⟨nofun, fun hover => absurd hover hsum⟩
  set_invalid value weight := by
    rw [setWeight_call]
    split_ifs with hw
    · simp [hw]
    · cases s.weights.lookup value with
      | none => simp [hw]
      | some previous =>
        dsimp only
        split_ifs <;> simp [hw, invalidWeight, totalOverflow]
  set_absent value weight hw := by
    rw [setWeight_call, if_neg hw, ← AList.lookup_eq_none]
    cases s.weights.lookup value with
    | none => simp
    | some previous =>
      dsimp only
      split_ifs <;> simp
  set_overflow value weight hw hmem := by
    obtain ⟨previous, hv⟩ := Option.isSome_iff_exists.mp (AList.lookup_isSome.mpr hmem)
    rw [setWeight_call, if_neg hw, hv]
    dsimp only
    rw [h.replace_sum hv, Nat.zero_add, toNat_maxWeight]
    split_ifs with hsum
    · exact ⟨fun _ => hsum, fun _ => rfl⟩
    · exact ⟨nofun, fun hover => absurd hover hsum⟩
  refused := next_refused s

theorem Exact.neverWraps {s : WeightedSet T} (h : Exact s) : NeverWraps s where
  addGuard := le_maxWeight _
  insert_add value weight hok := by
    rw [insert_call] at hok
    split_ifs at hok with hw hv hsum
    · cases hok
    · rw [toNat_maxWeight] at hsum
      omega
  erase_sub _ _ hv := h.lookup_le hv
  replaceGuard _ _ hv := ⟨h.lookup_le hv, le_maxWeight _⟩
  set_add value weight previous hv hok := by
    rw [setWeight_call, hv] at hok
    split_ifs at hok with hw
    dsimp only at hok
    split_ifs at hok with hsum
    rw [toNat_maxWeight] at hsum
    omega

/-! Histories. -/

/-- Commands change the object they are given to, and a move also its source. -/
theorem execute_frame (objects : κ → WeightedSet T) {c : Command κ T} {k : κ}
    (hmove : c.isMove = false) (hk : k ≠ c.target) : (execute objects c).2 k = objects k := by
  cases c with
  | call k' c => exact Function.update_of_ne hk _ _
  | copy src dst => exact Function.update_of_ne hk _ _
  | move src dst => cases hmove

/-- Every object is exact and holds what the reference holds. -/
def Agrees (objects : κ → WeightedSet T) (tables : κ → T →₀ ℕ) : Prop :=
  ∀ k, Exact (objects k) ∧ (objects k).contents = tables k

omit [DecidableEq κ] in
theorem agrees_start : Agrees (fun _ : κ => ({} : WeightedSet T)) fun _ => 0 :=
  fun _ => ⟨exact_empty, contents_empty _⟩

theorem execute_simulates :
    Simulates (execute (κ := κ) (T := T)) Reference.execute (fun c => c.isMove = false)
      Agrees := by
  intro objects tables c h hmove
  cases c with
  | call k c =>
    obtain ⟨hexact, hk⟩ := h k
    obtain ⟨houtcome, hcontents⟩ := hexact.next_eq c
    rw [hk] at houtcome hcontents
    refine ⟨congrArg some houtcome, fun i => ?_⟩
    by_cases hi : i = k
    · subst hi
      simpa [execute, Reference.execute] using ⟨hexact.next c, hcontents⟩
    · simpa [execute, Reference.execute, hi] using h i
  | copy src dst =>
    refine ⟨rfl, fun i => ?_⟩
    by_cases hi : i = dst
    · subst hi
      simpa [execute, Reference.execute, copyOf] using h src
    · simpa [execute, Reference.execute, hi] using h i
  | move src dst => cases hmove

theorem agrees_after {history : List (Command κ T)} (hmove : ∀ c ∈ history, c.isMove = false) :
    Agrees (after history) (perform Reference.execute (fun _ => 0) history).2 :=
  (execute_simulates.run agrees_start hmove).2

/-- In every history without moves the outcomes and the contents are those of the
reference, every total is the exact sum of positive weights, calls are refused for the
right reasons and change nothing then, no arithmetic wraps, and a command leaves alone
every object but the one it is given to. -/
theorem keeps_exact_totals (history : List (Command κ T))
    (hmove : ∀ c ∈ history, c.isMove = false) :
    (perform execute (fun _ => {}) history).1 =
        (perform Reference.execute (fun _ => 0) history).1 ∧
      ∀ k, (after history k).contents = (perform Reference.execute (fun _ => 0) history).2 k ∧
        (after history k).totalWeight.toNat = (after history k).storedSum ∧
        (∀ e ∈ (after history k).weights.entries, 0 < e.2) ∧
        Obeys (after history k) ∧ NeverWraps (after history k) ∧
        ∀ c : Command κ T, c.isMove = false → k ≠ c.target →
          after (history ++ [c]) k = after history k := by
  obtain ⟨houtcomes, hagrees⟩ := execute_simulates.run agrees_start hmove
  refine ⟨houtcomes, fun k => ?_⟩
  obtain ⟨hexact, hcontents⟩ : Exact (after history k) ∧ _ := hagrees k
  refine ⟨hcontents, ?_, ?_, hexact.obeys, hexact.neverWraps, fun c hc hk => ?_⟩
  · rw [hexact.total, storedSum_eq_degree, Nat.zero_add]
  · intro e he
    exact hexact.positive e.1 e.2 (AList.mem_lookup_iff.mpr he)
  · rw [after_snoc]
    exact execute_frame _ hc hk

/-- At the largest total a copy is changed and the original is not. -/
theorem keeps_exact_totals_copy :
    let history : List (Command ℕ ℕ) :=
      [.call 0 (.insert 10 (2 ^ 64 - 1)), .copy 0 1, .call 1 (.setWeight 10 5)]
    (after history 0).totalWeight.toNat = (after history 0).storedSum ∧
      after (history ++ [.call 1 .clear]) 0 = after history 0 := by
  intro history
  have h := (keeps_exact_totals history (by decide)).2 0
  exact ⟨h.2.1, h.2.2.2.2.2 (.call 1 .clear) rfl (by decide)⟩

end Obz.WeightedSet
