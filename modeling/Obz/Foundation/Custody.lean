import Obz.Foundation.Transition
import Mathlib.Data.List.Basic
import Mathlib.Logic.Function.Basic

/-!
# Linear custody

Tokens pass from holder to holder: a token comes into being in nobody's hands,
a holder adopts it, holders hand it on, and whoever has it releases it once and
for all. A history that the ledger accepts is one in which nobody acts on a
token of another.
-/
namespace Obz.Foundation.Custody

/-- Where a token is. -/
inductive Status (ι : Type*) where
  | absent
  | loose
  | held (holder : ι)
  | released
  deriving DecidableEq

/-- In the hands of `holder`; of no holder, for `none`. -/
def Status.ofHolder {ι : Type*} : Option ι → Status ι
  | none => .loose
  | some i => .held i

theorem Status.ofHolder_inj {ι : Type*} {o o' : Option ι} :
    Status.ofHolder o = Status.ofHolder o' ↔ o = o' := by
  cases o <;> cases o' <;> simp [Status.ofHolder]

@[simp] theorem Status.ofHolder_ne_absent {ι : Type*} (o : Option ι) :
    Status.ofHolder o ≠ .absent := by
  cases o <;> simp [Status.ofHolder]

@[simp] theorem Status.ofHolder_ne_released {ι : Type*} (o : Option ι) :
    Status.ofHolder o ≠ .released := by
  cases o <;> simp [Status.ofHolder]

/-- A release names who releases, `none` for the one who has the token loose. -/
inductive Event (ι τ : Type*) where
  | create (token : τ)
  | adopt (holder : ι) (token : τ)
  | move (source target : ι) (token : τ)
  | release (holder : Option ι) (token : τ)
  deriving DecidableEq

abbrev Ledger (ι τ : Type*) := τ → Status ι

namespace Event

variable {ι τ : Type*}

def token : Event ι τ → τ
  | create t | adopt _ t | move _ _ t | release _ t => t

/-- Where the token must be for the event to happen. -/
def needs : Event ι τ → Status ι
  | create _ => .absent
  | adopt _ _ => .loose
  | move i _ _ => .held i
  | release holder _ => .ofHolder holder

/-- Where the event leaves the token. -/
def leaves : Event ι τ → Status ι
  | create _ => .loose
  | adopt i _ => .held i
  | move _ j _ => .held j
  | release _ _ => .released

def releases [DecidableEq τ] (t : τ) : Event ι τ → Bool
  | release _ t' => t' = t
  | _ => false

theorem needs_ne_released (e : Event ι τ) : e.needs ≠ .released := by
  cases e <;> simp [needs]

theorem releases_eq [DecidableEq ι] [DecidableEq τ] (e : Event ι τ) (t : τ) :
    e.releases t = decide (e.token = t ∧ e.leaves = .released) := by
  cases e <;> simp [releases, leaves, token]

end Event

section Histories

variable {ι τ : Type*} [DecidableEq ι] [DecidableEq τ]

def step (c : Ledger ι τ) (e : Event ι τ) : Option (Ledger ι τ) :=
  if c e.token = e.needs then some (Function.update c e.token e.leaves) else none

variable (ι τ) in
def ledger : System (Ledger ι τ) (Event ι τ) where
  start := fun _ => .absent
  step := step

/-- The history is accepted and leads to `c`. -/
def Accepts (events : List (Event ι τ)) (c : Ledger ι τ) : Prop :=
  (ledger ι τ).run (fun _ => .absent) events = some c

/-- How often `t` has been released. -/
def releases (t : τ) (events : List (Event ι τ)) : ℕ := events.countP (Event.releases t)

theorem accepts_nil : Accepts [] (fun _ => .absent : Ledger ι τ) := rfl

theorem step_of_needs {c : Ledger ι τ} {e : Event ι τ} (h : c e.token = e.needs) :
    step c e = some (Function.update c e.token e.leaves) :=
  if_pos h

theorem step_cases {c c' : Ledger ι τ} {e : Event ι τ} (h : step c e = some c') :
    c e.token = e.needs ∧ c' = Function.update c e.token e.leaves := by
  unfold step at h
  split_ifs at h with hc
  exact ⟨hc, (Option.some.inj h).symm⟩

theorem accepts_snoc_iff {events : List (Event ι τ)} {e : Event ι τ} {c' : Ledger ι τ} :
    Accepts (events ++ [e]) c' ↔ ∃ c, Accepts events c ∧ step c e = some c' := by
  rw [Accepts, System.run_append, Option.bind_eq_some_iff]
  constructor
  · rintro ⟨c, hc, hlast⟩
    obtain ⟨_, hstep, hend⟩ := (ledger ι τ).run_cons.mp hlast
    cases hend
    exact ⟨c, hc, hstep⟩
  · rintro ⟨c, hc, hstep⟩
    exact ⟨c, hc, (ledger ι τ).run_cons.mpr ⟨c', hstep, rfl⟩⟩

theorem Accepts.snoc {events : List (Event ι τ)} {c : Ledger ι τ} {e : Event ι τ}
    (h : Accepts events c) (he : c e.token = e.needs) :
    Accepts (events ++ [e]) (Function.update c e.token e.leaves) :=
  accepts_snoc_iff.mpr ⟨c, h, step_of_needs he⟩

/-- In an accepted history every event finds its token where it must be. -/
theorem Accepts.needs {before after : List (Event ι τ)} {e : Event ι τ} {c : Ledger ι τ}
    (h : Accepts (before ++ e :: after) c) : ∃ c₁, Accepts before c₁ ∧ c₁ e.token = e.needs := by
  rw [Accepts, System.run_append, Option.bind_eq_some_iff] at h
  obtain ⟨c₁, hbefore, hrest⟩ := h
  obtain ⟨c₂, hstep, -⟩ := (ledger ι τ).run_cons.mp hrest
  exact ⟨c₁, hbefore, (step_cases hstep).1⟩

/-- One event moves the count and the ledger together. -/
theorem releases_step {c c' : Ledger ι τ} {e : Event ι τ} (h : step c e = some c') (t : τ) :
    (if c' t = .released then 1 else 0) =
      (if c t = .released then 1 else 0) + (e.releases t).toNat := by
  obtain ⟨hneeds, rfl⟩ := step_cases h
  rw [e.releases_eq]
  by_cases ht : t = e.token
  · subst t
    by_cases hl : e.leaves = .released <;> simp [hneeds, e.needs_ne_released, hl]
  · simp [Function.update_of_ne ht, Ne.symm ht]

/-- No token is released twice, and the ledger tells which have been. -/
theorem Accepts.releases_eq {events : List (Event ι τ)} {c : Ledger ι τ}
    (h : Accepts events c) (t : τ) :
    releases t events = if c t = .released then 1 else 0 := by
  induction events using List.reverseRecOn generalizing c with
  | nil =>
    cases h
    rfl
  | append_singleton events e ih =>
    obtain ⟨c₁, hevents, hstep⟩ := accepts_snoc_iff.mp h
    have hone : releases t (events ++ [e]) = releases t events + (e.releases t).toNat := by
      rw [releases, List.countP_append]
      cases he : e.releases t <;> simp [releases, he]
    rw [hone, ih hevents, releases_step hstep t]

end Histories

/-! Holders know tokens by names that may be used again, as a process knows its
open files. `hand` says which name each holder has, `token` what a name stands for. -/

section Names

variable {ι τ κ : Type*}

/-- What the holders have in hand is what the ledger says. Names may also stand for
tokens that are nobody's concern here; `mine` tells them apart. -/
structure Agrees (mine : τ → Prop) (hand : Option ι → Option κ) (token : κ → τ)
    (c : Ledger ι τ) : Prop where
  owned : ∀ o d, hand o = some d → mine (token d)
  holds_iff : ∀ o d, mine (token d) → (hand o = some d ↔ c (token d) = .ofHolder o)
  found : ∀ d, mine (token d) → ∃ o, c (token d) = .ofHolder o
  named : ∀ t o, mine t → c t = .ofHolder o → ∃ d, token d = t

namespace Agrees

variable {mine : τ → Prop} {hand : Option ι → Option κ} {token : κ → τ} {c : Ledger ι τ}

theorem holder_unique (h : Agrees mine hand token c) {o o' : Option ι} {d : κ}
    (ho : hand o = some d) (ho' : hand o' = some d) : o = o' := by
  have hmine := h.owned o d ho
  have hc := (h.holds_iff o d hmine).mp ho
  have hc' := (h.holds_iff o' d hmine).mp ho'
  exact Status.ofHolder_inj.mp (hc.symm.trans hc')

theorem name_unique (h : Agrees mine hand token c) {d d' : κ} (hd : mine (token d))
    (heq : token d = token d') : d = d' := by
  obtain ⟨o, ho⟩ := h.found d hd
  have hhand := (h.holds_iff o d hd).mpr ho
  have hhand' := (h.holds_iff o d' (heq ▸ hd)).mpr (heq ▸ ho)
  exact Option.some.inj (hhand.symm.trans hhand')

theorem create [DecidableEq ι] [DecidableEq τ] [DecidableEq κ]
    (h : Agrees mine hand token c) {d : κ} {t : τ} (hd : ¬ mine (token d))
    (ht : mine t) (hc : c t = .absent) (hnone : hand none = none) :
    Agrees mine (Function.update hand none (some d)) (Function.update token d t)
      (Function.update c t .loose) := by
  have hfresh : ∀ d', token d' ≠ t := by
    intro d' heq
    obtain ⟨o, ho⟩ := h.found d' (heq ▸ ht)
    rw [heq, hc] at ho
    exact Status.ofHolder_ne_absent o ho.symm
  have hnew : ∀ o, hand o ≠ some d := fun o ho => hd (h.owned o d ho)
  have hloose : ∀ o : Option ι, Status.loose = Status.ofHolder o ↔ o = none := by
    rintro (_ | o) <;> simp [Status.ofHolder]
  constructor
  · intro o d' ho
    have := h.owned o d'
    grind
  · intro o d' hm
    have := h.holds_iff o d'
    grind
  · intro d' hm
    rcases eq_or_ne d' d with rfl | hne
    · exact ⟨none, by simp [Status.ofHolder]⟩
    · rw [Function.update_of_ne hne] at hm ⊢
      rw [Function.update_of_ne (hfresh d')]
      exact h.found d' hm
  · intro t' o hm hc'
    rcases eq_or_ne t' t with rfl | hne
    · exact ⟨d, Function.update_self ..⟩
    · rw [Function.update_of_ne hne] at hc'
      obtain ⟨d', rfl⟩ := h.named t' o hm hc'
      have hd' : d' ≠ d := fun heq => hd (heq ▸ hm)
      exact ⟨d', Function.update_of_ne hd' ..⟩

/-- A holder passes a token on to one who has none. -/
theorem pass [DecidableEq ι] [DecidableEq τ]
    (h : Agrees mine hand token c) {o o' : Option ι} {d : κ} (ho : hand o = some d)
    (ho' : hand o' = none) :
    Agrees mine (Function.update (Function.update hand o' (some d)) o none) token
      (Function.update c (token d) (.ofHolder o')) := by
  have hother : ∀ d', token d' = token d → mine (token d') → d' = d := fun d' heq hm =>
    h.name_unique hm heq
  have hunique : ∀ o₁, hand o₁ = some d → o₁ = o := fun o₁ h₁ => h.holder_unique h₁ ho
  have hmine := h.owned o d ho
  constructor
  · intro o₁ d' h₁
    have := h.owned o₁ d'
    grind
  · intro o₁ d' hm
    have := h.holds_iff o₁ d' hm
    have : Status.ofHolder o' = Status.ofHolder o₁ ↔ o' = o₁ := Status.ofHolder_inj
    grind
  · intro d' hm
    have := h.found d' hm
    grind
  · intro t o₁ hm hc
    have := h.named t o₁ hm
    grind

theorem release [DecidableEq ι] [DecidableEq τ] [DecidableEq κ]
    (h : Agrees mine hand token c) {o : Option ι} {d : κ} {t : τ}
    (ho : hand o = some d) (ht : ¬ mine t) :
    Agrees mine (Function.update hand o none) (Function.update token d t)
      (Function.update c (token d) .released) := by
  have hother : ∀ d', token d' = token d → mine (token d') → d' = d := fun d' heq hm =>
    h.name_unique hm heq
  have hunique : ∀ o₁, hand o₁ = some d → o₁ = o := fun o₁ h₁ => h.holder_unique h₁ ho
  have hmine := h.owned o d ho
  constructor
  · intro o₁ d' h₁
    have := h.owned o₁ d'
    grind
  · intro o₁ d' hm
    have := h.holds_iff o₁ d'
    grind
  · intro d' hm
    have := h.found d'
    grind
  · intro t' o₁ hm hc
    have hne : t' ≠ token d := by
      rintro rfl
      rw [Function.update_self] at hc
      exact Status.ofHolder_ne_released o₁ hc.symm
    rw [Function.update_of_ne hne] at hc
    obtain ⟨d', rfl⟩ := h.named t' o₁ hm hc
    have hd' : d' ≠ d := fun heq => hne (heq ▸ rfl)
    exact ⟨d', Function.update_of_ne hd' ..⟩

/-- Names of tokens that are of no concern may change. -/
theorem congr (h : Agrees mine hand token c) {token' : κ → τ}
    (ht : ∀ d, token' d = token d ∨ ¬ mine (token d) ∧ ¬ mine (token' d)) :
    Agrees mine hand token' c := by
  have hsame : ∀ d, mine (token' d) ∨ mine (token d) → token' d = token d := by
    intro d hd
    rcases ht d with heq | ⟨hn, hn'⟩
    · exact heq
    · exact (hd.elim hn' hn).elim
  constructor
  · intro o d ho
    have hm := h.owned o d ho
    rwa [hsame d (Or.inr hm)]
  · intro o d hm
    have heq := hsame d (Or.inl hm)
    rw [heq] at hm ⊢
    exact h.holds_iff o d hm
  · intro d hm
    have heq := hsame d (Or.inl hm)
    rw [heq] at hm ⊢
    exact h.found d hm
  · intro t o hm hc
    obtain ⟨d, rfl⟩ := h.named t o hm hc
    exact ⟨d, hsame d (Or.inr hm)⟩

end Agrees
end Names
end Obz.Foundation.Custody
