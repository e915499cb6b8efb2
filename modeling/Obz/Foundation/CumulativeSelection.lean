import Mathlib.Order.Interval.Finset.Nat
import Mathlib.Data.List.Nodup
import Mathlib.Tactic

/-!
# Selection by cumulative weight

Entries with weights, laid end to end, divide the numbers below the total into
half-open intervals. A target selects the entry whose interval holds it, so an
entry is selected by as many targets as it weighs, in whatever order the
entries are laid.
-/
namespace Obz.Foundation.CumulativeSelection

variable {α : Type*}

def total (entries : List (α × ℕ)) : ℕ := (entries.map Prod.snd).sum

@[simp] theorem total_nil : total ([] : List (α × ℕ)) = 0 := rfl

@[simp] theorem total_cons (a : α) (weight : ℕ) (entries : List (α × ℕ)) :
    total ((a, weight) :: entries) = weight + total entries := by
  simp [total]

@[simp] theorem total_append (before after : List (α × ℕ)) :
    total (before ++ after) = total before + total after := by
  simp [total]

def select : List (α × ℕ) → ℕ → Option α
  | [], _ => none
  | (a, weight) :: entries, target =>
    if target < weight then some a else select entries (target - weight)

theorem select_mem {entries : List (α × ℕ)} {target : ℕ} {a : α}
    (h : select entries target = some a) : a ∈ entries.map Prod.fst := by
  induction entries generalizing target with
  | nil => cases h
  | cons entry entries ih =>
    obtain ⟨b, weight⟩ := entry
    unfold select at h
    split_ifs at h with hlt
    · cases h
      simp
    · exact List.mem_cons_of_mem _ (ih h)

theorem exists_select {entries : List (α × ℕ)} {target : ℕ} (h : target < total entries) :
    ∃ a, select entries target = some a := by
  induction entries generalizing target with
  | nil => exact absurd h (Nat.not_lt_zero _)
  | cons entry entries ih =>
    obtain ⟨b, weight⟩ := entry
    by_cases hlt : target < weight
    · exact ⟨b, if_pos hlt⟩
    · have hrest : target - weight < total entries := by
        rw [total_cons] at h
        omega
      obtain ⟨a, ha⟩ := ih hrest
      exact ⟨a, (if_neg hlt).trans ha⟩

theorem select_eq_none {entries : List (α × ℕ)} {target : ℕ} (h : total entries ≤ target) :
    select entries target = none := by
  induction entries generalizing target with
  | nil => rfl
  | cons entry entries ih =>
    obtain ⟨b, weight⟩ := entry
    rw [total_cons] at h
    exact (if_neg (by omega)).trans (ih (by omega))

theorem select_append_of_le {before entries : List (α × ℕ)} {target : ℕ}
    (h : total before ≤ target) :
    select (before ++ entries) target = select entries (target - total before) := by
  induction before generalizing target with
  | nil => simp
  | cons entry before ih =>
    obtain ⟨b, weight⟩ := entry
    rw [total_cons] at h
    calc select ((b, weight) :: (before ++ entries)) target
        = select (before ++ entries) (target - weight) := if_neg (by omega)
      _ = select entries (target - weight - total before) := ih (by omega)
      _ = select entries (target - total ((b, weight) :: before)) := by
        rw [total_cons, Nat.sub_sub]

theorem select_append_of_lt {before entries : List (α × ℕ)} {target : ℕ}
    (h : target < total before) : select (before ++ entries) target = select before target := by
  induction before generalizing target with
  | nil => exact absurd h (Nat.not_lt_zero _)
  | cons entry before ih =>
    obtain ⟨b, weight⟩ := entry
    rw [total_cons] at h
    rw [List.cons_append, select, select]
    split_ifs with hlt
    · rfl
    · exact ih (by omega)

/-- An entry that occurs once owns the half-open interval behind those before it. -/
theorem select_eq_some_iff {before after : List (α × ℕ)} {a : α} {weight : ℕ}
    (hb : a ∉ before.map Prod.fst) (ha : a ∉ after.map Prod.fst) (target : ℕ) :
    select (before ++ (a, weight) :: after) target = some a ↔
      target ∈ Finset.Ico (total before) (total before + weight) := by
  rw [Finset.mem_Ico]
  rcases Nat.lt_or_ge target (total before) with hlt | hge
  · rw [select_append_of_lt hlt]
    exact ⟨fun h => absurd (select_mem h) hb, fun h => absurd h.1 (Nat.not_le.mpr hlt)⟩
  · rw [select_append_of_le hge, select]
    split_ifs with hw
    · exact ⟨fun _ => ⟨hge, by omega⟩, fun _ => rfl⟩
    · exact ⟨fun h => absurd (select_mem h) ha, fun h => absurd h.2 (by omega)⟩

end Obz.Foundation.CumulativeSelection
