import Obz.Foundation.ReleaseAcquire

/-!
# Objects handed from one thread to another through a counter

The owner of the counter only raises it, and a value opens all positions below
it. Whoever acquires a value that opens a position knows every access to the
object there, however old the value is.
-/
namespace Obz.Foundation.ReleaseAcquire.Memory

variable {Θ L S V : Type*} {m m' : Memory Θ L S V} {θ θ' : Θ} {l l' : L} {o : S} {time : ℕ}

/-- The values that `θ` can still load from `l` satisfy `p`. -/
def OnlyLoads (m : Memory Θ L S V) (θ : Θ) (l : L) (p : V → Prop) : Prop :=
  ∀ time message, (m.views θ).time l ≤ time → m.messages l time = some message → p message.value

theorem OnlyLoads.of_same {p : V → Prop} (h : m.OnlyLoads θ l p)
    (hmessages : m'.messages l = m.messages l) (hviews : m.views θ ≤ m'.views θ) :
    m'.OnlyLoads θ l p := by
  intro time message hle hm
  rw [hmessages] at hm
  exact h time message ((View.time_mono hviews).trans hle) hm

theorem OnlyLoads.store [DecidableEq Θ] [DecidableEq L] {p : V → Prop} {order : StoreOrder}
    {value : V} (h : m.OnlyLoads θ l p) (hstore : m.store θ' l' order value time = some m')
    (hvalue : l' = l → p value) : m'.OnlyLoads θ l p := by
  have hviews : m.views θ ≤ m'.views θ := le_views_store hstore
  obtain ⟨-, -, rfl⟩ := store_eq_some_iff.mp hstore
  intro time' message' hle hm
  rcases messages_post_cases hm with ⟨rfl, -, rfl⟩ | hold
  · exact hvalue rfl
  · exact h time' message' ((View.time_mono hviews).trans hle) hold

theorem OnlyLoads.load [DecidableEq Θ] [DecidableEq L] {p : V → Prop} {order : LoadOrder}
    {value : V} (h : m.OnlyLoads θ l p) (hload : m.load θ l order time = some (value, m')) :
    p value := by
  obtain ⟨message, hm, hle, rfl, -⟩ := load_eq_some_iff.mp hload
  exact h time message hle hm

section Newest

variable [Preorder V]

/-- The message of `l` at `top` is the newest, and every message has raised the value. -/
structure Newest (m : Memory Θ L S V) (l : L) (top : ℕ) (value : V) : Prop where
  message : ∃ view, m.messages l top = some ⟨value, view⟩
  le_top : ∀ {time message}, m.messages l time = some message → time ≤ top
  rising : ∀ {time time' message message'}, m.messages l time = some message →
    m.messages l time' = some message' → time < time' → message.value < message'.value

variable {top : ℕ} {value : V}

theorem newest_initial (values : L → V) :
    (initial values : Memory Θ L S V).Newest l 0 (values l) where
  message := ⟨0, rfl⟩
  le_top := by
    intro time message h
    simp only [initial, Option.ite_none_right_eq_some] at h
    exact h.1.le
  rising := by
    intro time time' message message' h h' hlt
    simp only [initial, Option.ite_none_right_eq_some] at h h'
    exact absurd h'.1 (Nat.ne_zero_of_lt hlt)

namespace Newest

theorem of_same (h : m.Newest l top value) (hmessages : m'.messages l = m.messages l) :
    m'.Newest l top value where
  message := hmessages ▸ h.message
  le_top := by
    rw [hmessages]
    exact h.le_top
  rising := by
    rw [hmessages]
    exact h.rising

theorem mono (h : m.Newest l top value) {time' : ℕ} {message message' : Message L S V}
    (hm : m.messages l time = some message) (hm' : m.messages l time' = some message')
    (hle : time ≤ time') : message.value ≤ message'.value := by
  rcases hle.eq_or_lt with rfl | hlt
  · rw [Option.some.inj (hm.symm.trans hm')]
  · exact (h.rising hm hm' hlt).le

theorem value_le (h : m.Newest l top value) {message : Message L S V}
    (hm : m.messages l time = some message) : message.value ≤ value := by
  obtain ⟨view, htop⟩ := h.message
  exact h.mono hm htop (h.le_top hm)

/-- Only the newest message has its value. -/
theorem eq_top (h : m.Newest l top value) {message : Message L S V}
    (hm : m.messages l time = some message) (hvalue : message.value = value) : time = top := by
  obtain ⟨view, htop⟩ := h.message
  rcases (h.le_top hm).eq_or_lt with heq | hlt
  · exact heq
  · exact absurd hvalue (h.rising hm htop hlt).ne

theorem time_le (h : m.Newest l top value) {view : View L S} (hview : m.Grounded view) :
    view.time l ≤ top := by
  obtain ⟨message, hm⟩ := hview l
  exact h.le_top hm

/-- A thread that knows the newest message loads no other. -/
theorem eq_of_le (h : m.Newest l top value) {message : Message L S V} (hle : top ≤ time)
    (hm : m.messages l time = some message) : message.value = value := by
  obtain ⟨view, htop⟩ := h.message
  obtain rfl : time = top := le_antisymm (h.le_top hm) hle
  rw [hm] at htop
  rw [Option.some.inj htop]

theorem post [DecidableEq L] (h : m.Newest l top value) {value' : V} {view : View L S}
    (hlater : top < time) (hlt : value < value') :
    (m.post l time ⟨value', view⟩).Newest l time value' where
  message := ⟨view, messages_post_self⟩
  le_top := by
    intro n found hfound
    rcases messages_post_cases hfound with ⟨-, rfl, -⟩ | hold
    · exact le_rfl
    · exact (h.le_top hold).trans hlater.le
  rising := by
    intro n n' found found' hfound hfound' hn
    rcases messages_post_cases hfound with ⟨-, rfl, rfl⟩ | hold
    · rcases messages_post_cases hfound' with ⟨-, rfl, rfl⟩ | hold'
      · exact absurd hn (lt_irrefl _)
      · exact absurd ((h.le_top hold').trans_lt hlater) hn.asymm
    · rcases messages_post_cases hfound' with ⟨-, rfl, rfl⟩ | hold'
      · exact (h.value_le hold).trans_lt hlt
      · exact h.rising hold hold' hn

end Newest

/-- `θ` alone stores to `l`, and stored `value` last. -/
structure Owned (m : Memory Θ L S V) (θ : Θ) (l : L) (value : V) : Prop where
  newest : m.Newest l ((m.views θ).time l) value
  offered : ∀ {time message}, m.messages l time = some message → message.view ≤ m.views θ

theorem owned_initial (values : L → V) :
    (initial values : Memory Θ L S V).Owned θ l (values l) where
  newest := newest_initial values
  offered := by
    intro time message h
    simp only [initial, Option.ite_none_right_eq_some, Option.some.injEq] at h
    rw [← h.2]
    exact le_rfl

namespace Owned

/-- Only a store to `l` makes a difference. -/
theorem of_same (h : m.Owned θ l value) (hwf : m'.WellFormed)
    (hmessages : m'.messages l = m.messages l) (hviews : m.views θ ≤ m'.views θ) :
    m'.Owned θ l value where
  newest := by
    have hnewest := h.newest.of_same hmessages
    have htime : (m'.views θ).time l = (m.views θ).time l :=
      le_antisymm (hnewest.time_le (hwf.views θ)) (View.time_mono hviews)
    rwa [htime]
  offered := by
    intro time message hm
    rw [hmessages] at hm
    exact (h.offered hm).trans hviews

variable [DecidableEq Θ] [DecidableEq L]

theorem load_eq {value' : V} {order : LoadOrder} (h : m.Owned θ l value)
    (hload : m.load θ l order time = some (value', m')) : value' = value := by
  obtain ⟨message, hm, hle, rfl, -⟩ := load_eq_some_iff.mp hload
  exact h.newest.eq_of_le hle hm

/-- The owner can always store once more, right after its last store. -/
theorem can_store (h : m.Owned θ l value) (order : StoreOrder) (value' : V) :
    ∃ m', m.store θ l order value' ((m.views θ).time l + 1) = some m' := by
  refine ⟨_, store_eq_some_iff.mpr ⟨Nat.lt_succ_self _, ?_, rfl⟩⟩
  cases hm : m.messages l ((m.views θ).time l + 1) with
  | none => rfl
  | some message => exact absurd (h.newest.le_top hm) (Nat.not_succ_le_self _)

theorem store {value' : V} {order : StoreOrder} (h : m.Owned θ l value)
    (hstore : m.store θ l order value' time = some m') (hlt : value < value') :
    m'.Owned θ l value' := by
  obtain ⟨hlater, -, rfl⟩ := store_eq_some_iff.mp hstore
  have htime : ((m.learn θ (.ofMessage l time)).views θ).time l = time := by
    rw [views_learn_self, View.time_sup, View.time_ofMessage_self, max_eq_right hlater.le]
  refine ⟨?_, fun {n found} hfound => ?_⟩
  · rw [views_post, htime]
    have hsame : (m.learn θ (.ofMessage l time)).Newest l ((m.views θ).time l) value :=
      h.newest.of_same rfl
    exact hsame.post hlater hlt
  · rw [views_post, views_learn_self]
    rcases messages_post_cases hfound with ⟨-, rfl, rfl⟩ | hold
    · cases order with
      | relaxed => exact le_sup_right
      | release => exact le_rfl
    · exact (h.offered hold).trans le_sup_left

end Owned
end Newest

/-- `θ` has found position `n` open, and may work on its object. -/
structure Ready (m : Memory Θ L S ℕ) (θ : Θ) (l : L) (object : ℕ → S) (offset n : ℕ) : Prop where
  covers : m.Covers (m.views θ) (object n)
  opened : m.OnlyLoads θ l (n < · + offset)

namespace Ready

variable {m m' : Memory Θ L S ℕ} {object : ℕ → S} {offset n value : ℕ}

theorem of_same (h : m.Ready θ l object offset n) (hmessages : m'.messages l = m.messages l)
    (hviews : m.views θ ≤ m'.views θ)
    (haccess : m'.accesses (object n) = m.accesses (object n) ∨
      m'.Covers (m'.views θ) (object n)) : m'.Ready θ l object offset n where
  covers := by
    rcases haccess with hsame | hcovers
    · unfold Covers
      rw [hsame]
      exact le_trans h.covers (View.known_mono hviews)
    · exact hcovers
  opened := h.opened.of_same hmessages hviews

theorem access_self [DecidableEq Θ] [DecidableEq S] (h : m.Ready θ l object offset n)
    (haccess : m.access θ (object n) = some m') : m'.Ready θ l object offset n :=
  h.of_same (by rw [messages_access haccess]) (le_views_access haccess)
    (Or.inr (covers_access haccess))

theorem access_of_ne [DecidableEq Θ] [DecidableEq S] (h : m.Ready θ l object offset n)
    (haccess : m.access θ' o = some m') (hne : object n ≠ o) : m'.Ready θ l object offset n :=
  h.of_same (by rw [messages_access haccess]) (le_views_access haccess)
    (Or.inl (accesses_access_of_ne haccess hne))

variable [DecidableEq Θ] [DecidableEq L]

theorem load {order : LoadOrder} (h : m.Ready θ l object offset n)
    (hload : m.load θ' l' order time = some (value, m')) : m'.Ready θ l object offset n :=
  h.of_same (by rw [messages_load hload]) (le_views_load hload)
    (Or.inl (by rw [accesses_load hload]))

theorem store {order : StoreOrder} (h : m.Ready θ l object offset n)
    (hstore : m.store θ' l' order value time = some m') (hvalue : l' = l → n < value + offset) :
    m'.Ready θ l object offset n where
  covers := by
    unfold Covers
    rw [accesses_store hstore]
    exact le_trans h.covers (View.known_mono (le_views_store hstore))
  opened := h.opened.store hstore hvalue

end Ready

/-- A value `v` at `l` opens the positions below `v + offset` to `reader`, who has come
to `next`; the messages that open a position and what `reader` knows already together
cover its object. -/
structure Handover (m : Memory Θ L S ℕ) (owner reader : Θ) (l : L) (object : ℕ → S)
    (offset value next : ℕ) : Prop where
  owned : m.Owned owner l value
  reached : m.OnlyLoads reader l (next ≤ · + offset)
  covered : ∀ n, next ≤ n → n < value + offset → ∀ time message,
    m.messages l time = some message → n < message.value + offset →
      m.Covers (message.view ⊔ m.views reader) (object n)

namespace Handover

variable {m m' : Memory Θ L S ℕ} {owner reader : Θ} {object : ℕ → S} {offset value next : ℕ}

theorem initial {values : L → ℕ} (hzero : values l = 0) :
    (Memory.initial values : Memory Θ L S ℕ).Handover owner reader l object offset 0 0 where
  owned := hzero ▸ owned_initial values
  reached := fun _ _ _ _ => Nat.zero_le _
  covered := fun _ _ _ _ _ _ _ => Nat.zero_le _

theorem next_le (h : m.Handover owner reader l object offset value next) (hwf : m.WellFormed) :
    next ≤ value + offset := by
  obtain ⟨message, hm⟩ := hwf.views reader l
  have hreached := h.reached _ message le_rfl hm
  have hbound := h.owned.newest.value_le hm
  omega

/-- Everything but a store to `l` keeps the handover, if those who access an open object
are the reader. -/
theorem of_same (h : m.Handover owner reader l object offset value next) (hwf : m'.WellFormed)
    (hmessages : m'.messages l = m.messages l) (hviews : ∀ θ, m.views θ ≤ m'.views θ)
    (haccess : ∀ n, next ≤ n → n < value + offset →
      m'.accesses (object n) = m.accesses (object n) ∨ m'.Covers (m'.views reader) (object n)) :
    m'.Handover owner reader l object offset value next where
  owned := h.owned.of_same hwf hmessages (hviews owner)
  reached := h.reached.of_same hmessages (hviews reader)
  covered := by
    intro n hn hn' time message hm hopen
    rw [hmessages] at hm
    rcases haccess n hn hn' with hsame | hcovers
    · have hold := h.covered n hn hn' time message hm hopen
      unfold Covers
      rw [hsame]
      exact hold.trans (View.known_mono (sup_le_sup_left (hviews reader) _))
    · exact hcovers.trans (View.known_mono le_sup_right)

/-- The reader is done with a position it has found open. -/
theorem advance (h : m.Handover owner reader l object offset value next)
    (hready : m.Ready reader l object offset next) :
    m.Handover owner reader l object offset value (next + 1) where
  owned := h.owned
  reached := hready.opened
  covered := fun n hn => h.covered n (Nat.le_of_succ_le hn)

theorem access_reader [DecidableEq Θ] [DecidableEq S]
    (h : m.Handover owner reader l object offset value next) (hwf : m.WellFormed)
    (haccess : m.access reader o = some m') :
    m'.Handover owner reader l object offset value next := by
  refine h.of_same (hwf.access haccess) (by rw [messages_access haccess])
    (fun _ => le_views_access haccess) fun n _ _ => ?_
  by_cases hsame : object n = o
  · rw [hsame]
    exact Or.inr (covers_access haccess)
  · exact Or.inl (accesses_access_of_ne haccess hsame)

theorem access_of_ne [DecidableEq Θ] [DecidableEq S]
    (h : m.Handover owner reader l object offset value next) (hwf : m.WellFormed)
    (haccess : m.access θ o = some m')
    (hne : ∀ n, next ≤ n → n < value + offset → object n ≠ o) :
    m'.Handover owner reader l object offset value next :=
  h.of_same (hwf.access haccess) (by rw [messages_access haccess])
    (fun _ => le_views_access haccess)
    fun n hn hn' => Or.inl (accesses_access_of_ne haccess (hne n hn hn'))

variable [DecidableEq Θ] [DecidableEq L]

theorem load (h : m.Handover owner reader l object offset value next) (hwf : m.WellFormed)
    {order : LoadOrder} {loaded : ℕ} (hload : m.load θ l' order time = some (loaded, m')) :
    m'.Handover owner reader l object offset value next :=
  h.of_same (hwf.load hload) (by rw [messages_load hload]) (fun _ => le_views_load hload)
    fun _ _ _ => Or.inl (by rw [accesses_load hload])

theorem store_of_ne (h : m.Handover owner reader l object offset value next)
    (hwf : m.WellFormed) {order : StoreOrder} {stored : ℕ}
    (hstore : m.store θ l' order stored time = some m') (hne : l ≠ l') :
    m'.Handover owner reader l object offset value next :=
  h.of_same (hwf.store hstore) (messages_store_of_ne hstore hne)
    (fun _ => le_views_store hstore) fun _ _ _ => Or.inl (by rw [accesses_store hstore])

/-- The reader acquires a value that opens the position it has come to. -/
theorem acquire (h : m.Handover owner reader l object offset value next) {loaded : ℕ}
    (hload : m.load reader l .acquire time = some (loaded, m')) (hopen : next < loaded + offset) :
    m'.Ready reader l object offset next := by
  obtain ⟨message, hm, hle, rfl, rfl⟩ := load_eq_some_iff.mp hload
  have hbound := h.owned.newest.value_le hm
  constructor
  · have hcovers := h.covered next le_rfl (by omega) time message hm hopen
    refine le_trans (b := (message.view ⊔ m.views reader).known (object next)) hcovers ?_
    rw [views_learn_self]
    refine View.known_mono (sup_le ?_ le_sup_left)
    exact le_sup_right.trans le_sup_right
  · intro time' message' hle' hm'
    rw [views_learn_self, View.time_sup] at hle'
    have htime : time ≤ (LoadOrder.acquire.learned l time message).time l := by
      rw [LoadOrder.learned, View.time_sup, View.time_ofMessage_self]
      exact le_max_left _ _
    have hrise := h.owned.newest.mono hm hm' (by omega)
    omega

/-- A reader that finds its position closed knows of no value that opens it. -/
theorem closed (h : m.Handover owner reader l object offset value next) {order : LoadOrder}
    {loaded : ℕ} (hload : m.load reader l order time = some (loaded, m'))
    (hclosed : next = loaded + offset) {time' : ℕ} {message' : Message L S ℕ}
    (hm' : m.messages l time' = some message') (hle' : time' ≤ (m.views reader).time l) :
    message'.value + offset ≤ next := by
  obtain ⟨message, hm, hle, rfl, -⟩ := load_eq_some_iff.mp hload
  have hrise := h.owned.newest.mono hm' hm (hle'.trans hle)
  omega

/-- The owner releases one more position, of an object it knows all accesses to. -/
theorem release (h : m.Handover owner reader l object offset value next) (hwf : m.WellFormed)
    (hstore : m.store owner l .release (value + 1) time = some m')
    (hcovers : m.Covers (m.views owner) (object (value + offset))) :
    m'.Handover owner reader l object offset (value + 1) next where
  owned := h.owned.store hstore (Nat.lt_succ_self value)
  reached := by
    obtain ⟨-, -, rfl⟩ := store_eq_some_iff.mp hstore
    have hnext := h.next_le hwf
    intro time' message' hle' hm'
    rcases messages_post_cases hm' with ⟨-, rfl, rfl⟩ | hold
    · simp only
      omega
    · exact h.reached time' message' ((View.time_mono le_views_learn).trans hle') hold
  covered := by
    obtain ⟨hlater, -, rfl⟩ := store_eq_some_iff.mp hstore
    intro n hn hn' time' message' hm' hopen
    have hviews : m.views reader ≤ (m.learn owner (.ofMessage l time)).views reader :=
      le_views_learn
    rcases messages_post_cases hm' with ⟨-, rfl, rfl⟩ | hold
    · rcases Nat.lt_or_ge n (value + offset) with hlt | hge
      · obtain ⟨view, hlast⟩ := h.owned.newest.message
        have hold := h.covered n hn hlt _ _ hlast hlt
        refine le_trans hold (View.known_mono (sup_le_sup ?_ hviews))
        exact (h.owned.offered hlast).trans le_sup_left
      · obtain rfl : n = value + offset := by omega
        exact hcovers.trans (View.known_mono (le_sup_left.trans le_sup_left))
    · have hbound := h.owned.newest.value_le hold
      have hold := h.covered n hn (by omega) time' message' hold hopen
      exact le_trans hold (View.known_mono (sup_le_sup_left hviews _))

end Handover
end Obz.Foundation.ReleaseAcquire.Memory
