import Obz.Foundation.Handover

/-!
# An object passed from hand to hand by stamps

Any number of threads take turns with an object. Who acquires the newest stamp
of its location knows every access to the object, unless somebody holds it
already; the holder gives it back by releasing a newer stamp.
-/
namespace Obz.Foundation.ReleaseAcquire.Memory

variable {Θ L S V : Type*} {m m' : Memory Θ L S V} {θ θ' : Θ} {l l' : L} {o o' : S} {time : ℕ}
  {value : V}

/-- The step from `m` to `m'` neither stores to `l` nor touches `o`. -/
structure Spares (m m' : Memory Θ L S V) (l : L) (o : S) : Prop where
  wellFormed : m'.WellFormed
  messages : m'.messages l = m.messages l
  views : ∀ θ, m.views θ ≤ m'.views θ
  accesses : m'.accesses o = m.accesses o

section Operations

variable [DecidableEq Θ] [DecidableEq L]

theorem WellFormed.load_spares (h : m.WellFormed) {order : LoadOrder}
    (hload : m.load θ l' order time = some (value, m')) : m.Spares m' l o :=
  ⟨h.load hload, by rw [messages_load hload], fun _ => le_views_load hload,
    by rw [accesses_load hload]⟩

theorem WellFormed.store_spares (h : m.WellFormed) {order : StoreOrder}
    (hstore : m.store θ l' order value time = some m') (hne : l ≠ l') : m.Spares m' l o :=
  ⟨h.store hstore, messages_store_of_ne hstore hne, fun _ => le_views_store hstore,
    by rw [accesses_store hstore]⟩

theorem WellFormed.exchange_spares (h : m.WellFormed)
    (hexchange : m.exchange θ l' value time = some m') (hne : l ≠ l') : m.Spares m' l o :=
  ⟨h.exchange hexchange, messages_exchange_of_ne hexchange hne,
    fun _ => le_views_exchange hexchange, by rw [accesses_exchange hexchange]⟩

end Operations

theorem WellFormed.access_spares [DecidableEq Θ] [DecidableEq S] (h : m.WellFormed)
    (haccess : m.access θ o' = some m') (hne : o ≠ o') : m.Spares m' l o :=
  ⟨h.access haccess, by rw [messages_access haccess], fun _ => le_views_access haccess,
    accesses_access_of_ne haccess hne⟩

variable [Preorder V]

/-- `θ` knows the newest stamp at `l` and every access to `o`. -/
structure Holds (m : Memory Θ L S V) (θ : Θ) (l : L) (o : S) (value : V) : Prop where
  covers : m.Covers (m.views θ) o
  newest : m.Newest l ((m.views θ).time l) value

theorem Newest.held (h : m.Newest l time value) (hwf : m.WellFormed)
    (hle : time ≤ (m.views θ).time l) : m.Newest l ((m.views θ).time l) value := by
  rwa [le_antisymm (h.time_le (hwf.views θ)) hle]

namespace Holds

theorem of_spares (h : m.Holds θ l o value) (hspares : m.Spares m' l o) :
    m'.Holds θ l o value where
  covers := by
    unfold Covers
    rw [hspares.accesses]
    exact le_trans h.covers (View.known_mono (hspares.views θ))
  newest :=
    (h.newest.of_same hspares.messages).held hspares.wellFormed
      (View.time_mono (hspares.views θ))

theorem access [DecidableEq Θ] [DecidableEq S] (h : m.Holds θ l o value) (hwf : m.WellFormed)
    (haccess : m.access θ o = some m') : m'.Holds θ l o value where
  covers := covers_access haccess
  newest :=
    (h.newest.of_same (by rw [messages_access haccess])).held (hwf.access haccess)
      (View.time_mono (le_views_access haccess))

/-- The holder can always store once more. -/
theorem can_store [DecidableEq Θ] [DecidableEq L] (h : m.Holds θ l o value) (order : StoreOrder)
    (value' : V) : ∃ m', m.store θ l order value' ((m.views θ).time l + 1) = some m' := by
  refine ⟨_, store_eq_some_iff.mpr ⟨Nat.lt_succ_self _, ?_, rfl⟩⟩
  cases hm : m.messages l ((m.views θ).time l + 1) with
  | none => rfl
  | some message => exact absurd (h.newest.le_top hm) (Nat.not_succ_le_self _)

end Holds

/-- The newest stamp of `o` at `l` is `value`. Who holds `o` knows it, and while nobody
does the stamp tells of every access to `o`. -/
structure Baton (m : Memory Θ L S V) (l : L) (o : S) (value : V) (held : Θ → Prop) : Prop where
  newest : ∃ top, m.Newest l top value
  holder : ∀ θ, held θ → m.Holds θ l o value
  free : (∀ θ, ¬ held θ) → ∀ time message, m.messages l time = some message →
    message.value = value → m.Covers message.view o

namespace Baton

variable {held held' : Θ → Prop}

theorem initial (values : L → V) :
    (Memory.initial values : Memory Θ L S V).Baton l o (values l) fun _ => False where
  newest := ⟨0, newest_initial values⟩
  holder := fun _ h => h.elim
  free := fun _ _ _ _ _ => Nat.zero_le _

theorem of_spares (h : m.Baton l o value held) (hspares : m.Spares m' l o) :
    m'.Baton l o value held where
  newest := by
    obtain ⟨top, htop⟩ := h.newest
    exact ⟨top, htop.of_same hspares.messages⟩
  holder := fun θ hθ => (h.holder θ hθ).of_spares hspares
  free := by
    intro hfree time message hm hvalue
    rw [hspares.messages] at hm
    unfold Covers
    rw [hspares.accesses]
    exact h.free hfree time message hm hvalue

theorem congr (h : m.Baton l o value held) (hheld : ∀ θ, held' θ ↔ held θ) :
    m.Baton l o value held' where
  newest := h.newest
  holder := fun θ hθ => h.holder θ ((hheld θ).mp hθ)
  free := fun hfree => h.free fun θ hθ => hfree θ ((hheld θ).mpr hθ)

/-- A thread takes an object that it holds already by its knowledge. -/
theorem take (h : m.Holds θ l o value) (hheld : ∀ θ', held θ' ↔ θ' = θ) :
    m.Baton l o value held where
  newest := ⟨_, h.newest⟩
  holder := fun θ' hθ' => (hheld θ').mp hθ' ▸ h
  free := fun hfree => absurd ((hheld θ).mpr rfl) (hfree θ)

theorem value_le (h : m.Baton l o value held) {message : Message L S V}
    (hm : m.messages l time = some message) : message.value ≤ value := by
  obtain ⟨top, htop⟩ := h.newest
  exact htop.value_le hm

/-- The holder touches the object. -/
theorem access [DecidableEq Θ] [DecidableEq S] (h : m.Baton l o value held) (hwf : m.WellFormed)
    (hθ : held θ) (hunique : ∀ θ', held θ' → θ' = θ) (haccess : m.access θ o = some m') :
    m'.Baton l o value held :=
  .take ((h.holder θ hθ).access hwf haccess)
    fun θ' => ⟨hunique θ', fun he => he ▸ hθ⟩

variable [DecidableEq Θ] [DecidableEq L]

/-- A thread acquires the newest stamp of an object nobody holds. -/
theorem acquire (h : m.Baton l o value held) (hwf : m.WellFormed) (hfree : ∀ θ, ¬ held θ)
    (hload : m.load θ l .acquire time = some (value, m')) : m'.Holds θ l o value := by
  have hwf' := hwf.load hload
  obtain ⟨top, htop⟩ := h.newest
  obtain ⟨message, hm, -, hvalue, rfl⟩ := load_eq_some_iff.mp hload
  obtain rfl : time = top := htop.eq_top hm hvalue
  constructor
  · refine le_trans (b := message.view.known o) (h.free hfree time message hm hvalue) ?_
    rw [views_learn_self]
    exact View.known_mono (le_sup_right.trans le_sup_right)
  · have hsame : (m.learn θ (LoadOrder.acquire.learned l time message)).Newest l time value :=
      htop.of_same rfl
    refine hsame.held hwf' ?_
    rw [views_learn_self, View.time_sup, LoadOrder.learned, View.time_sup,
      View.time_ofMessage_self]
    exact (le_max_left _ _).trans (le_max_right _ _)

/-- The holder gives the object back with a newer stamp. -/
theorem release (h : m.Holds θ l o value) {value' : V} (hlt : value < value')
    (hheld : ∀ θ', ¬ held θ') (hstore : m.store θ l .release value' time = some m') :
    m'.Baton l o value' held := by
  have haccesses := accesses_store hstore
  obtain ⟨hlater, -, rfl⟩ := store_eq_some_iff.mp hstore
  have htop : Newest (m.learn θ (.ofMessage l time)) l ((m.views θ).time l) value :=
    h.newest.of_same rfl
  have hnewest : Newest ((m.learn θ (.ofMessage l time)).post l time
      ⟨value', m.views θ ⊔ .ofMessage l time⟩) l time value' :=
    htop.post hlater hlt
  refine ⟨⟨time, hnewest⟩, fun θ' hθ' => absurd hθ' (hheld θ'), ?_⟩
  intro _ n message hm hvalue
  unfold Covers
  rw [haccesses]
  obtain rfl := hnewest.eq_top hm hvalue
  rw [messages_post_self] at hm
  obtain rfl := Option.some.inj hm
  exact le_trans h.covers (View.known_mono le_sup_left)

end Baton
end Obz.Foundation.ReleaseAcquire.Memory
