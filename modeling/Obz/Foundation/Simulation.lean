import Mathlib.Data.List.Basic

/-!
# Objects that answer every call

A call returns an answer and the state it leaves. Two implementations of the
same calls are compared by a relation on their states: if single calls answer
alike and keep the relation, whole runs do.
-/
namespace Obz.Foundation

variable {σ τ α ο : Type*}

/-- Perform a list of calls in order and collect the answers. -/
def perform (next : σ → α → ο × σ) : σ → List α → List ο × σ
  | s, [] => ([], s)
  | s, a :: as =>
    let first := next s a
    let rest := perform next first.2 as
    (first.1 :: rest.1, rest.2)

@[simp] theorem perform_nil (next : σ → α → ο × σ) (s : σ) : perform next s [] = ([], s) := rfl

theorem perform_cons_snd (next : σ → α → ο × σ) (s : σ) (a : α) (as : List α) :
    (perform next s (a :: as)).2 = (perform next (next s a).2 as).2 := rfl

theorem perform_append_snd (next : σ → α → ο × σ) (s : σ) (as bs : List α) :
    (perform next s (as ++ bs)).2 = (perform next (perform next s as).2 bs).2 := by
  induction as generalizing s with
  | nil => rfl
  | cons a as ih => exact ih (next s a).2

/-- Allowed calls answer alike in related states and lead to related states. -/
def Simulates (next : σ → α → ο × σ) (next' : τ → α → ο × τ) (allowed : α → Prop)
    (R : σ → τ → Prop) : Prop :=
  ∀ s t a, R s t → allowed a →
    (next s a).1 = (next' t a).1 ∧ R (next s a).2 (next' t a).2

theorem Simulates.run {next : σ → α → ο × σ} {next' : τ → α → ο × τ} {allowed : α → Prop}
    {R : σ → τ → Prop} (h : Simulates next next' allowed R) {s : σ} {t : τ} (hst : R s t)
    {as : List α} (has : ∀ a ∈ as, allowed a) :
    (perform next s as).1 = (perform next' t as).1 ∧
      R (perform next s as).2 (perform next' t as).2 := by
  induction as generalizing s t with
  | nil => exact ⟨rfl, hst⟩
  | cons a as ih =>
    obtain ⟨hanswer, hnext⟩ := h s t a hst (has a (by simp))
    obtain ⟨hanswers, hlast⟩ := ih hnext fun b hb => has b (List.mem_cons_of_mem a hb)
    exact ⟨congrArg₂ List.cons hanswer hanswers, hlast⟩

end Obz.Foundation
