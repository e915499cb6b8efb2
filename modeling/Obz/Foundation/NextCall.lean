import Obz.Foundation.Transition

/-!
# What a state assures of the next call

A thread enters a call by one action and carries it on by others, between those
of other threads. A state assures the next call if every run from it that makes
the call ends with success or inside the call, where a further step is enabled,
and after no more than so many steps of the thread itself.
-/
namespace Obz.Foundation

/-- One kind of call of one thread: the action that enters it, those by which it fails,
those that carry it on, and the states in which it has succeeded. -/
structure CallKind (σ α : Type*) where
  enters : α → Prop
  fails : α → Prop
  carries : α → Bool
  succeeded : σ → Prop

namespace System

variable {σ α : Type*}

/-- Whatever other threads do until the next call and while it lasts, it succeeds unless it
fails by an action of its own, within `bound` steps of its own. -/
def Assures (M : System σ α) (C : CallKind σ α) (bound : ℕ) (s : σ) : Prop :=
  ∀ before a after t, C.enters a → (∀ b ∈ before ++ after, ¬ C.enters b) →
    (∀ b ∈ after, ¬ C.fails b) → M.run s (before ++ a :: after) = some t →
    after.countP C.carries ≤ bound ∧
      (C.succeeded t ∨ ∃ b u, C.carries b = true ∧ M.step t b = some u)

variable {M : System σ α} {C : CallKind σ α} {P Q : σ → Prop} {μ : σ → ℕ} {bound : ℕ} {s : σ}

/-- What holds until the call, and what holds from then on with a measure of the steps left. -/
theorem Reachable.assures (hs : M.Reachable s) (hP : P s)
    (hbefore : ∀ u a v, M.Reachable u → P u → ¬ C.enters a → M.step u a = some v → P v)
    (henter : ∀ u a v, M.Reachable u → P u → C.enters a → M.step u a = some v → Q v ∧ μ v ≤ bound)
    (hafter : ∀ u a v, M.Reachable u → Q u → ¬ C.enters a ∧ ¬ C.fails a →
      M.step u a = some v → Q v)
    (hmeasure : ∀ u a v, M.Reachable u → ¬ C.enters a → M.step u a = some v →
      (C.carries a).toNat + μ v ≤ μ u)
    (hdone : ∀ u, M.Reachable u → Q u →
      C.succeeded u ∨ ∃ b v, C.carries b = true ∧ M.step u b = some v) :
    M.Assures C bound s := by
  intro before a after t ha hall hnone hrun
  obtain ⟨u, v, hu, hv, ht⟩ := M.run_divide hrun
  obtain ⟨hreach, hPu⟩ := hs.preserves_run hP hbefore
    (fun b hb => hall b (List.mem_append_left _ hb)) hu
  obtain ⟨hQv, hbound⟩ := henter u a v hreach hPu ha hv
  have hlater : ∀ b ∈ after, ¬ C.enters b := fun b hb => hall b (List.mem_append_right _ hb)
  obtain ⟨htreach, hQt⟩ := (hreach.snoc hv).preserves_run hQv hafter
    (fun b hb => ⟨hlater b hb, hnone b hb⟩) ht
  have hcount := (hreach.snoc hv).countP_le_of_allowed (fun a => ¬ C.enters a) C.carries μ
    (fun _ => 0) (fun u a v hu ha hv => by simpa using hmeasure u a v hu ha hv) hlater ht
  exact ⟨by omega, hdone t htreach hQt⟩

/-- The same for a call of a system within this one, from facts about that system. -/
theorem Extends.assures {τ β : Type*} {M' : System τ β} {state : σ → τ} {operate : β → α}
    {P Q : τ → Prop} {μ : τ → ℕ} (h : Extends M M' state operate) (hs : M.Reachable s)
    (hP : P (state s)) (hown : ∀ a, C.enters a ∨ C.carries a = true → ∃ b, a = operate b)
    (hbefore : ∀ x b y, M'.Reachable x → P x → ¬ C.enters (operate b) →
      M'.step x b = some y → P y)
    (henter : ∀ x b y, P x → C.enters (operate b) → M'.step x b = some y → Q y ∧ μ y ≤ bound)
    (hafter : ∀ x b y, M'.Reachable x → Q x → ¬ C.enters (operate b) → ¬ C.fails (operate b) →
      M'.step x b = some y → Q y)
    (hmeasure : ∀ x b y, ¬ C.enters (operate b) → M'.step x b = some y →
      (C.carries (operate b)).toNat + μ y ≤ μ x)
    (hdone : ∀ u, M.Reachable u → Q (state u) →
      C.succeeded u ∨ ∃ b v, C.carries (operate b) = true ∧ M.step u (operate b) = some v) :
    M.Assures C bound s := by
  refine hs.assures (P := fun u => P (state u)) (Q := fun u => Q (state u))
    (μ := fun u => μ (state u)) hP ?_ ?_ ?_ ?_ ?_
  · intro u a v hu hPu hcall hv
    refine h.preserves hu hPu ?_ hv
    rintro b t rfl hreach hop
    exact hbefore _ b t hreach hPu hcall hop
  · intro u a v hu hPu hcall hv
    obtain ⟨b, rfl, hop⟩ | ⟨hother, -⟩ := h.step hv
    · exact henter _ b _ hPu hcall hop
    · obtain ⟨b, hb⟩ := hown a (.inl hcall)
      exact absurd hb (hother b)
  · rintro u a v hu hQu ⟨hcall, hfail⟩ hv
    refine h.preserves hu hQu ?_ hv
    rintro b t rfl hreach hop
    exact hafter _ b t hreach hQu hcall hfail hop
  · intro u a v hu hcall hv
    obtain ⟨b, rfl, hop⟩ | ⟨hother, hsame⟩ := h.step hv
    · exact hmeasure _ b _ hcall hop
    · have hcarries : C.carries a = false := by
        by_contra hne
        obtain ⟨b, hb⟩ := hown a (.inr (Bool.not_eq_false _ ▸ hne))
        exact hother b hb
      rw [hsame, hcarries]
      exact (Nat.zero_add _).le
  · intro u hu hQu
    obtain hsuccess | ⟨b, v, hcarries, hv⟩ := hdone u hu hQu
    · exact .inl hsuccess
    · exact .inr ⟨operate b, v, hcarries, hv⟩

end System
end Obz.Foundation
