import Mathlib.Logic.Relation
import Mathlib.Tactic

/-!
# Runs of a system driven by actions

Every choice of the scheduler or of the environment is an argument of the
action, so one step is a partial function and a run is executable. Restricted
runs let each action be judged in the state it is taken in.
-/
namespace Obz.Foundation

/-- A start state and a partial step; a disabled action has no successor. -/
structure System (σ α : Type*) where
  start : σ
  step : σ → α → Option σ

namespace System

variable {σ α : Type*} (M : System σ α)

/-- Perform a list of actions in order. -/
def run : σ → List α → Option σ
  | s, [] => some s
  | s, a :: as => (M.step s a).bind fun t => run t as

theorem run_cons {s t : σ} {a : α} {as : List α} :
    M.run s (a :: as) = some t ↔ ∃ u, M.step s a = some u ∧ M.run u as = some t := by
  simp [run, Option.bind_eq_some_iff]

theorem run_append (s : σ) (as bs : List α) :
    M.run s (as ++ bs) = (M.run s as).bind fun t => M.run t bs := by
  induction as generalizing s with
  | nil => rfl
  | cons a as ih =>
    simp only [List.cons_append, run, Option.bind_assoc]
    exact congrArg _ (funext fun t => ih t)

/-- `t` follows `s` by actions each of which is allowed where it is taken. -/
def Follows (allowed : σ → α → Prop) : σ → σ → Prop :=
  Relation.ReflTransGen fun s t => ∃ a, allowed s a ∧ M.step s a = some t

/-- Reachable from the start by any actions at all. -/
def Reachable (s : σ) : Prop := M.Follows (fun _ _ => True) M.start s

variable {M}

theorem Follows.refl {allowed : σ → α → Prop} (s : σ) : M.Follows allowed s s :=
  Relation.ReflTransGen.refl

theorem Follows.snoc {allowed : σ → α → Prop} {s t u : σ} {a : α}
    (h : M.Follows allowed s t) (ha : allowed t a) (hu : M.step t a = some u) :
    M.Follows allowed s u :=
  Relation.ReflTransGen.tail h ⟨a, ha, hu⟩

theorem Follows.trans {allowed : σ → α → Prop} {s t u : σ}
    (h : M.Follows allowed s t) (h' : M.Follows allowed t u) : M.Follows allowed s u :=
  Relation.ReflTransGen.trans h h'

theorem Follows.mono {allowed wider : σ → α → Prop} {s t : σ}
    (hw : ∀ u a, allowed u a → wider u a) (h : M.Follows allowed s t) :
    M.Follows wider s t :=
  Relation.ReflTransGen.mono (fun _ _ ⟨a, ha, hs⟩ => ⟨a, hw _ a ha, hs⟩) _ _ h

/-- The run rule: what one allowed step preserves, every allowed run preserves. -/
theorem Follows.preserves {allowed : σ → α → Prop} {P : σ → Prop} {s t : σ}
    (h : M.Follows allowed s t) (hs : P s)
    (hstep : ∀ u a v, P u → allowed u a → M.step u a = some v → P v) : P t := by
  induction h with
  | refl => exact hs
  | tail _ hlast ih =>
    obtain ⟨a, ha, hv⟩ := hlast
    exact hstep _ a _ ih ha hv

theorem Reachable.start : M.Reachable M.start := Follows.refl _

theorem Reachable.snoc {s t : σ} {a : α} (h : M.Reachable s) (ht : M.step s a = some t) :
    M.Reachable t :=
  Follows.snoc h trivial ht

/-- The invariant rule for unrestricted runs. -/
theorem Reachable.invariant {P : σ → Prop} {s : σ} (h : M.Reachable s) (h0 : P M.start)
    (hstep : ∀ u a v, P u → M.step u a = some v → P v) : P s :=
  Follows.preserves h h0 fun u a v hu _ hv => hstep u a v hu hv

theorem follows_of_run {allowed : σ → α → Prop} {s t : σ} {as : List α}
    (hall : ∀ u, ∀ a ∈ as, allowed u a) (h : M.run s as = some t) :
    M.Follows allowed s t := by
  induction as generalizing s with
  | nil => cases h; exact Follows.refl _
  | cons a as ih =>
    obtain ⟨u, hu, ht⟩ := M.run_cons.mp h
    have hone : M.Follows allowed s u := (Follows.refl s).snoc (hall s a (by simp)) hu
    exact hone.trans (ih (fun v b hb => hall v b (by simp [hb])) ht)

/-- The run rule for runs given by their actions. -/
theorem Reachable.preserves_run {allowed : α → Prop} {P : σ → Prop} {s t : σ} {as : List α}
    (hs : M.Reachable s) (hP : P s)
    (hstep : ∀ u a v, M.Reachable u → P u → allowed a → M.step u a = some v → P v)
    (hall : ∀ a ∈ as, allowed a) (h : M.run s as = some t) : M.Reachable t ∧ P t := by
  have hfollows : M.Follows (fun _ a => allowed a) s t := follows_of_run (fun _ => hall) h
  refine hfollows.preserves (P := fun u => M.Reachable u ∧ P u) ⟨hs, hP⟩ ?_
  rintro u a v ⟨hu, hPu⟩ ha hv
  exact ⟨hu.snoc hv, hstep u a v hu hPu ha hv⟩

/-- A run, divided by one of its actions. -/
theorem run_divide {s t : σ} {before after : List α} {a : α}
    (h : M.run s (before ++ a :: after) = some t) :
    ∃ u v, M.run s before = some u ∧ M.step u a = some v ∧ M.run v after = some t := by
  rw [run_append, Option.bind_eq_some_iff] at h
  obtain ⟨u, hu, hrest⟩ := h
  obtain ⟨v, hv, ht⟩ := M.run_cons.mp hrest
  exact ⟨u, v, hu, hv, ht⟩

theorem reachable_of_run {as : List α} {s : σ} (h : M.run M.start as = some s) :
    M.Reachable s :=
  follows_of_run (fun _ _ _ => trivial) h

/-- The termination rule: a measure that every step lowers bounds the length of runs. -/
theorem Reachable.length_le {μ : σ → ℕ}
    (hstep : ∀ u a v, M.Reachable u → M.step u a = some v → μ v < μ u) {s t : σ} {as : List α}
    (hs : M.Reachable s) (h : M.run s as = some t) : as.length + μ t ≤ μ s := by
  induction as generalizing s with
  | nil =>
    cases h
    exact (Nat.zero_add _).le
  | cons a as ih =>
    obtain ⟨u, hu, ht⟩ := M.run_cons.mp h
    have hlower := hstep s a u hs hu
    have hrest := ih (hs.snoc hu) ht
    rw [List.length_cons]
    omega

/-- The termination rule with refills: among allowed actions, every counted step lowers a
measure, or raises the credit by as much as it raises the measure, and one more. -/
theorem Reachable.countP_le_of_allowed (allowed : α → Prop) (counted : α → Bool)
    (μ credit : σ → ℕ)
    (hstep : ∀ u a v, M.Reachable u → allowed a → M.step u a = some v →
      (counted a).toNat + μ v + credit u ≤ μ u + credit v) {s t : σ} {as : List α}
    (hs : M.Reachable s) (hall : ∀ a ∈ as, allowed a) (h : M.run s as = some t) :
    as.countP counted + μ t + credit s ≤ μ s + credit t := by
  induction as generalizing s with
  | nil =>
    cases h
    simp
  | cons a as ih =>
    obtain ⟨u, hu, ht⟩ := M.run_cons.mp h
    have hone := hstep s a u hs (hall a (by simp)) hu
    have hrest := ih (hs.snoc hu) (fun b hb => hall b (by simp [hb])) ht
    have hcount : (a :: as).countP counted = as.countP counted + (counted a).toNat := by
      cases ha : counted a <;> simp [ha]
    omega

theorem Reachable.countP_le {counted : α → Bool} {μ credit : σ → ℕ}
    (hstep : ∀ u a v, M.Reachable u → M.step u a = some v →
      (counted a).toNat + μ v + credit u ≤ μ u + credit v) {s t : σ} {as : List α}
    (hs : M.Reachable s) (h : M.run s as = some t) :
    as.countP counted + μ t + credit s ≤ μ s + credit t :=
  hs.countP_le_of_allowed (fun _ => True) counted μ credit (fun u a v hu _ hv => hstep u a v hu hv)
    (fun _ _ => trivial) h

/-- The termination rule with a charge: a counted step lowers a measure, which a charged one may
raise by `k`. -/
theorem Reachable.countP_le_of_charged (allowed : α → Prop) (counted charged : α → Bool)
    (μ : σ → ℕ) (k : ℕ)
    (hstep : ∀ u a v, M.Reachable u → allowed a → M.step u a = some v →
      (counted a).toNat + μ v ≤ μ u + k * (charged a).toNat) {s t : σ} {as : List α}
    (hs : M.Reachable s) (hall : ∀ a ∈ as, allowed a) (h : M.run s as = some t) :
    as.countP counted + μ t ≤ μ s + k * as.countP charged := by
  induction as generalizing s with
  | nil =>
    cases h
    simp
  | cons a as ih =>
    obtain ⟨u, hu, ht⟩ := M.run_cons.mp h
    have hone := hstep s a u hs (hall a (by simp)) hu
    have hrest := ih (hs.snoc hu) (fun b hb => hall b (by simp [hb])) ht
    have hcount : ∀ p : α → Bool, (a :: as).countP p = as.countP p + (p a).toNat := by
      intro p
      cases ha : p a <;> simp [ha]
    rw [hcount, hcount, Nat.mul_add]
    omega

/-- The termination rule under disturbances: an action that disturbs may raise the measure
by one, and the credit is refilled as before. -/
theorem Reachable.countP_le_of_disturbed (counted disturbing : α → Bool) (μ credit : σ → ℕ)
    (hstep : ∀ u a v, M.Reachable u → M.step u a = some v →
      (counted a).toNat + μ v + credit u ≤ μ u + credit v + (disturbing a).toNat) {s t : σ}
    {as : List α} (hs : M.Reachable s) (h : M.run s as = some t) :
    as.countP counted + μ t + credit s ≤ μ s + credit t + as.countP disturbing := by
  induction as generalizing s with
  | nil =>
    cases h
    simp
  | cons a as ih =>
    obtain ⟨u, hu, ht⟩ := M.run_cons.mp h
    have hone := hstep s a u hs hu
    have hrest := ih (hs.snoc hu) ht
    have hcount : ∀ p : α → Bool, (a :: as).countP p = as.countP p + (p a).toNat := by
      intro p
      cases ha : p a <;> simp [ha]
    rw [hcount, hcount]
    omega

variable (M) in
/-- The state a list of actions leads to, the start if one of them is disabled. -/
def after (as : List α) : σ := (M.run M.start as).getD M.start

theorem reachable_after (as : List α) : M.Reachable (M.after as) := by
  unfold after
  cases h : M.run M.start as with
  | none => exact Reachable.start
  | some s => exact reachable_of_run h

/-! ### A system within another one -/

variable {τ β : Type*} {M' : System τ β} {state : σ → τ} {operate : β → α}

/-- The first system contains the second: each of its steps is one of the second, or leaves
the state of the second alone. -/
structure Extends (M : System σ α) (M' : System τ β) (state : σ → τ) (operate : β → α) :
    Prop where
  start : state M.start = M'.start
  step : ∀ {u a v}, M.step u a = some v →
    (∃ b, a = operate b ∧ M'.step (state u) b = some (state v)) ∨
      (∀ b, a ≠ operate b) ∧ state v = state u

theorem Extends.reachable (h : Extends M M' state operate) {s : σ} (hs : M.Reachable s) :
    M'.Reachable (state s) := by
  refine hs.invariant (P := fun u => M'.Reachable (state u)) ?_ ?_
  · rw [h.start]
    exact .start
  · intro u a v hu hv
    obtain ⟨b, -, hop⟩ | ⟨-, hsame⟩ := h.step hv
    · exact hu.snoc hop
    · rw [hsame]
      exact hu

/-- What the steps of the second system keep, the steps of the first keep. -/
theorem Extends.preserves (h : Extends M M' state operate) {P : τ → Prop} {u v : σ} {a : α}
    (hu : M.Reachable u) (hP : P (state u))
    (hstep : ∀ b t, a = operate b → M'.Reachable (state u) → M'.step (state u) b = some t → P t)
    (hv : M.step u a = some v) : P (state v) := by
  obtain ⟨b, hb, hop⟩ | ⟨-, hsame⟩ := h.step hv
  · exact hstep b _ hb (h.reachable hu) hop
  · rw [hsame]
    exact hP

end System

/-! ### Runs of a labelled relation -/

/-- `t` follows `s` by steps with these labels. -/
inductive Path {σ ε : Type*} (step : σ → ε → σ → Prop) : σ → List ε → σ → Prop
  | nil (s : σ) : Path step s [] s
  | cons {s t u : σ} {e : ε} {es : List ε} (hstep : step s e t) (hrest : Path step t es u) :
      Path step s (e :: es) u

namespace Path

variable {σ ε : Type*} {step : σ → ε → σ → Prop} {s t u : σ} {e : ε} {es es' : List ε}

theorem append_iff : Path step s (es ++ es') u ↔ ∃ t, Path step s es t ∧ Path step t es' u := by
  induction es generalizing s with
  | nil =>
    constructor
    · intro h
      exact ⟨s, .nil s, h⟩
    · rintro ⟨_, ⟨⟩, h⟩
      exact h
  | cons e es ih =>
    constructor
    · intro h
      cases h with
      | cons hstep hrest =>
        obtain ⟨t, hes, hes'⟩ := ih.mp hrest
        exact ⟨t, .cons hstep hes, hes'⟩
    · rintro ⟨t, h, hes'⟩
      cases h with
      | cons hstep hes => exact .cons hstep (ih.mpr ⟨t, hes, hes'⟩)

theorem snoc (h : Path step s es t) (hstep : step t e u) : Path step s (es ++ [e]) u :=
  append_iff.mpr ⟨t, h, .cons hstep (.nil u)⟩

/-- The run rule: what every step preserves, every path preserves. -/
theorem preserves {P : σ → Prop} (h : Path step s es t) (hs : P s)
    (hstep : ∀ u e v, P u → step u e v → P v) : P t := by
  induction h with
  | nil => exact hs
  | cons hone _ ih => exact ih (hstep _ _ _ hs hone)

end Path
end Obz.Foundation
