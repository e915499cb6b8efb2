import Mathlib.Data.List.Chain
import Mathlib.Tactic

/-!
# Reported changes of a value

A change is the pair of the value before and after it. Reports form a chain if
each starts where the one before it ended. A report that comes late may break
the chain but, when everything has been reported, only by its place in it.
-/
namespace Obz.Foundation

variable {α : Type*}

/-- Reports that lead from one value to another. -/
structure ChangeChain (initial : α) (changes : List (α × α)) (current : α) : Prop where
  first : ∀ c ∈ changes.head?, c.1 = initial
  next : changes.IsChain fun c d => d.1 = c.2
  moves : ∀ c ∈ changes, c.1 ≠ c.2
  last : changes.getLast?.elim initial Prod.snd = current

/-- The report of a change, none if the value stays as it is. -/
def report [DecidableEq α] (change : α × α) : List (α × α) :=
  if change.2 ≠ change.1 then [change] else []

theorem length_report_le [DecidableEq α] (change : α × α) : (report change).length ≤ 1 := by
  unfold report
  split_ifs <;> simp

namespace ChangeChain

variable {initial a b : α} {changes : List (α × α)}

theorem nil (initial : α) : ChangeChain initial [] initial :=
  ⟨by simp, by simp, by simp, rfl⟩

theorem snoc (h : ChangeChain initial changes a) (hne : a ≠ b) :
    ChangeChain initial (changes ++ [(a, b)]) b where
  first c hc := by
    cases changes with
    | nil =>
      have hstart : initial = a := h.last
      simp only [List.nil_append, List.head?_cons, Option.mem_some_iff] at hc
      rw [← hc, hstart]
    | cons d ds => exact h.first c hc
  next := by
    refine List.isChain_append.mpr ⟨h.next, by simp, fun c hc d hd => ?_⟩
    have hlast := h.last
    rw [Option.mem_def.mp hc] at hlast
    simp only [List.head?_cons, Option.mem_some_iff] at hd
    rw [← hd]
    exact hlast.symm
  moves c hc := by
    rcases List.mem_append.mp hc with hold | hnew
    · exact h.moves c hold
    · rw [List.mem_singleton.mp hnew]
      exact hne
  last := by simp

/-- The chain goes on with the next change, if there is one. -/
theorem extend [DecidableEq α] (h : ChangeChain initial changes a) (b : α) :
    ChangeChain initial (changes ++ report (a, b)) b := by
  unfold report
  split_ifs with hne
  · exact h.snoc (Ne.symm hne)
  · have hsame : b = a := not_not.mp hne
    rw [List.append_nil, hsame]
    exact h

/-- What comes first in a chain is a chain. -/
theorem of_append {changes' : List (α × α)} (h : ChangeChain initial (changes ++ changes') b) :
    ChangeChain initial changes (changes.getLast?.elim initial Prod.snd) where
  first c hc := h.first c (by
    cases changes with
    | nil => cases hc
    | cons d ds => exact hc)
  next := (List.isChain_append.mp h.next).1
  moves c hc := h.moves c (List.mem_append_left _ hc)
  last := rfl

end ChangeChain
end Obz.Foundation
