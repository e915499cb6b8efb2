import Mathlib.Tactic

/-!
# Programs that assign and may throw

A program runs over a state; what it assigned before a throw stays assigned.
`Triple` is the usual pre- and postcondition, with a second postcondition for
the exceptional exit, and one rule for each way of putting programs together.
-/
namespace Obz.Foundation

universe u

abbrev Program (ε σ α : Type u) := ExceptT ε (StateM σ) α

namespace Program

variable {ε σ α β : Type u}

/-- The outcome of a program and the state it leaves. -/
def call (m : Program ε σ α) (s : σ) : Except ε α × σ := (m.run).run s

@[simp] theorem call_pure (a : α) (s : σ) : call (pure a : Program ε σ α) s = (.ok a, s) := rfl

@[simp] theorem call_throw (e : ε) (s : σ) :
    call (throw e : Program ε σ α) s = (.error e, s) := rfl

@[simp] theorem call_bind (m : Program ε σ α) (f : α → Program ε σ β) (s : σ) :
    call (m >>= f) s =
      match call m s with
      | (.ok a, t) => call (f a) t
      | (.error e, t) => (.error e, t) := by
  simp only [call, ExceptT.run_bind, StateT.run_bind]
  rcases m.run.run s with ⟨_ | _, t⟩ <;> rfl

@[simp] theorem map_ok (f : α → β) (a : α) : (Except.ok a : Except ε α).map f = .ok (f a) := rfl

@[simp] theorem map_error (f : α → β) (e : ε) : (Except.error e : Except ε α).map f = .error e :=
  rfl

@[simp] theorem call_map (f : α → β) (m : Program ε σ α) (s : σ) :
    call (f <$> m) s = ((call m s).1.map f, (call m s).2) := by
  rw [map_eq_pure_bind, call_bind]
  rcases call m s with ⟨_ | _, t⟩ <;> rfl

@[simp] theorem call_tryCatch (m : Program ε σ α) (f : ε → Program ε σ α) (s : σ) :
    call (tryCatch m f) s =
      match call m s with
      | (.ok a, t) => (.ok a, t)
      | (.error e, t) => call (f e) t := by
  simp only [call, tryCatch, tryCatchThe, MonadExceptOf.tryCatch, ExceptT.run, ExceptT.tryCatch,
    ExceptT.mk, StateT.run_bind]
  rcases StateT.run m s with ⟨_ | _, t⟩ <;> rfl

@[simp] theorem call_get (s : σ) : call (get : Program ε σ σ) s = (.ok s, s) := rfl

@[simp] theorem call_modify (f : σ → σ) (s : σ) :
    call (modify f : Program ε σ PUnit) s = (.ok ⟨⟩, f s) := rfl

@[simp] theorem call_lift (r : Except ε α) (s : σ) :
    call (liftM r : Program ε σ α) s = (r, s) := by
  cases r <;> rfl

/-- Started in `P`, the program returns into `Q` or throws into `R`. -/
def Triple (P : σ → Prop) (m : Program ε σ α) (Q : α → σ → Prop) (R : ε → σ → Prop) : Prop :=
  ∀ s, P s → match call m s with
    | (.ok a, t) => Q a t
    | (.error e, t) => R e t

namespace Triple

variable {P P' : σ → Prop} {Q Q' : α → σ → Prop} {R R' : ε → σ → Prop} {m : Program ε σ α}

theorem thrown (h : Triple P m Q R) {s t : σ} {e : ε} (hs : P s)
    (hm : call m s = (.error e, t)) : R e t := by
  simpa [hm] using h s hs

/-- What holds on both exits holds after the call. -/
theorem after {K : σ → Prop} (h : Triple P m (fun _ => K) (fun _ => K)) {s : σ} (hs : P s) :
    K (call m s).2 := by
  have hm := h s hs
  rcases hc : call m s with ⟨_ | _, t⟩ <;> simpa [hc] using hm

theorem consequence (h : Triple P m Q R) (hP : ∀ s, P' s → P s) (hQ : ∀ a s, Q a s → Q' a s)
    (hR : ∀ e s, R e s → R' e s) : Triple P' m Q' R' := by
  intro s hs
  have hm := h s (hP s hs)
  rcases hc : call m s with ⟨e | a, t⟩
  · rw [hc] at hm
    exact hR e t hm
  · rw [hc] at hm
    exact hQ a t hm

/-- The postconditions may speak of the state the program starts in. -/
theorem of_start (h : ∀ s, P s → Triple (· = s) m Q R) : Triple P m Q R :=
  fun s hs => h s hs s rfl

theorem pure {a : α} (h : ∀ s, P s → Q a s) : Triple P (Pure.pure a : Program ε σ α) Q R := h

theorem throw {e : ε} (h : ∀ s, P s → R e s) :
    Triple P (MonadExcept.throw e : Program ε σ α) Q R := h

theorem modify {f : σ → σ} {Q : PUnit → σ → Prop} (h : ∀ s, P s → Q ⟨⟩ (f s)) :
    Triple P (modifyThe σ f : Program ε σ PUnit) Q R := h

theorem bind {Q : β → σ → Prop} {M : α → σ → Prop} {f : α → Program ε σ β} (hm : Triple P m M R)
    (hf : ∀ a, Triple (M a) (f a) Q R) : Triple P (m >>= f) Q R := by
  intro s hs
  have hfirst := hm s hs
  rw [call_bind]
  rcases hc : call m s with ⟨e | a, t⟩
  · rw [hc] at hfirst
    exact hfirst
  · rw [hc] at hfirst
    exact hf a t hfirst

/-- Reading the state: the rest may be proved for each state that was read. -/
theorem get_bind {Q : β → σ → Prop} {f : σ → Program ε σ β}
    (h : ∀ s, P s → Triple (· = s) (f s) Q R) :
    Triple P (MonadState.get >>= f) Q R := by
  intro s hs
  rw [call_bind]
  exact h s hs s rfl

theorem tryCatch {M : ε → σ → Prop} {f : ε → Program ε σ α} (hm : Triple P m Q M)
    (hf : ∀ e, Triple (M e) (f e) Q R) : Triple P (MonadExcept.tryCatch m f) Q R := by
  intro s hs
  have hfirst := hm s hs
  rw [call_tryCatch]
  rcases hc : call m s with ⟨e | a, t⟩
  · rw [hc] at hfirst
    exact hf e t hfirst
  · rw [hc] at hfirst
    exact hfirst

theorem ite {c : Prop} [Decidable c] {n : Program ε σ α} (hm : c → Triple P m Q R)
    (hn : ¬ c → Triple P n Q R) : Triple P (if c then m else n) Q R := by
  split
  · exact hm ‹_›
  · exact hn ‹_›

end Triple
end Program
end Obz.Foundation
