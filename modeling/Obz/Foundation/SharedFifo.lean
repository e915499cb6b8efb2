import Obz.Foundation.BoundedFifo
import Obz.Foundation.Linearizability

/-!
# Bounded lists as shared objects

The bounded first-in first-out list with every operation taking place at once,
and two weaker objects: one whose operations may throw, and one whose front can
be popped only after the call that pushed it has returned.
-/
namespace Obz.Foundation.BoundedFifo

variable {ι T : Type*}

/-- Operations take place as on the list. -/
def shared (ι : Type*) (capacity : ℕ) (T : Type*) : SharedObject ι (Op T) (Answer T) (List T) where
  initial := []
  step := fun xs _ op answer ys => apply capacity xs op = (answer, ys)
  settle := fun xs _ => xs

/-- An operation that throws, with answer `none`, changes at most the first element. -/
def throwing (ι : Type*) (capacity : ℕ) (T : Type*) :
    SharedObject ι (Op T) (Option (Answer T)) (List T) where
  initial := []
  step := fun xs _ op answer ys =>
    match answer with
    | some answer => apply capacity xs op = (answer, ys)
    | none => ys = xs ∨ op = .pop ∧ ∃ front left rest, xs = front :: rest ∧ ys = left :: rest
  settle := fun xs _ => xs

/-- An element with the thread that pushed it and whether its push has returned. -/
structure Entry (ι T : Type*) where
  thread : ι
  value : T
  settled : Bool

def Entry.settle [DecidableEq ι] (t : ι) (x : Entry ι T) : Entry ι T :=
  if x.thread = t then { x with settled := true } else x

/-- A pop can miss an element whose push has not returned. -/
inductive LateStep (capacity : ℕ) :
    List (Entry ι T) → ι → Op T → Answer T → List (Entry ι T) → Prop
  | push {xs t value} (hroom : xs.length < capacity) :
      LateStep capacity xs t (.push value) (.pushed true) (xs ++ [⟨t, value, false⟩])
  | full {xs t value} (hfull : xs.length = capacity) :
      LateStep capacity xs t (.push value) (.pushed false) xs
  | pop {x xs t} : LateStep capacity (x :: xs) t .pop (.popped (some x.value)) xs
  | empty {t} : LateStep capacity [] t .pop (.popped none) []
  | early {x xs t} (hx : x.settled = false) :
      LateStep capacity (x :: xs) t .pop (.popped none) (x :: xs)

def late (ι : Type*) [DecidableEq ι] (capacity : ℕ) (T : Type*) :
    SharedObject ι (Op T) (Answer T) (List (Entry ι T)) where
  initial := []
  step := LateStep capacity
  settle := fun xs t => xs.map (Entry.settle t)

/-! ### No pop of the list misses a value whose push has returned -/

section Misses

variable [DecidableEq ι] {capacity : ℕ} {c d : SharedObject.Config ι (Op T) (Answer T) (List T)}
  {t u : ι} {e : HistoryEvent ι (Op T) (Answer T)}

/-- Calls that an event makes are pushes. -/
def OnlyPushes (e : HistoryEvent ι (Op T) (Answer T)) : Prop :=
  ∀ t op, e = .call t op → ∃ value, op = .push value

/-- A push leaves the list longer or as it was. -/
theorem apply_push {value : T} {xs ys : List T} {answer : Answer T}
    (h : apply capacity xs (.push value) = (answer, ys)) :
    (xs ≠ [] → ys ≠ []) ∧ (answer = .pushed true → ys ≠ []) := by
  unfold apply at h
  split_ifs at h with hroom
  · cases h
    simp
  · cases h
    simp

/-- Nobody is in a pop, and a push that has taken place has left an element. -/
structure Unpopped (c : SharedObject.Config ι (Op T) (Answer T) (List T)) : Prop where
  pushing : ∀ t op, c.standing t = .called op → ∃ value, op = .push value
  accepted : ∀ t, c.standing t = .done (.pushed true) → c.value ≠ []

namespace Unpopped

theorem point (h : Unpopped c) (hpoint : (shared ι capacity T).Point c d) :
    Unpopped d ∧ (c.value ≠ [] → d.value ≠ []) := by
  obtain @⟨t, op, answer, ys, ht, hstep⟩ := hpoint
  obtain ⟨value, rfl⟩ := h.pushing t op ht
  obtain ⟨hkeeps, hpushed⟩ := apply_push hstep
  refine ⟨⟨fun v op hv => ?_, fun v hv => ?_⟩, hkeeps⟩
  · by_cases hvt : v = t
    · simp [hvt] at hv
    · exact h.pushing v op (by simpa [hvt] using hv)
  · by_cases hvt : v = t
    · exact hpushed (by simpa [hvt] using hv)
    · exact hkeeps (h.accepted v (by simpa [hvt] using hv))

theorem visible (h : Unpopped c) (he : OnlyPushes e)
    (hvisible : (shared ι capacity T).Visible c e d) : Unpopped d ∧ d.value = c.value := by
  cases hvisible with
  | @call t op ht =>
    refine ⟨⟨fun v op' hv => ?_, fun v hv => ?_⟩, rfl⟩
    · by_cases hvt : v = t
      · obtain rfl : op = op' := by simpa [hvt] using hv
        exact he t op rfl
      · exact h.pushing v op' (by simpa [hvt] using hv)
    · by_cases hvt : v = t
      · simp [hvt] at hv
      · exact h.accepted v (by simpa [hvt] using hv)
  | @ret t answer ht =>
    refine ⟨⟨fun v op hv => ?_, fun v hv => ?_⟩, rfl⟩
    · by_cases hvt : v = t
      · simp [hvt] at hv
      · exact h.pushing v op (by simpa [hvt] using hv)
    · by_cases hvt : v = t
      · simp [hvt] at hv
      · exact h.accepted v (by simpa [hvt] using hv)

end Unpopped

/-- `u` is alone in a pop and will find an element, or has found one. -/
inductive Finds (u : ι) (c : SharedObject.Config ι (Op T) (Answer T) (List T)) : Prop
  | before (hu : c.standing u = .called .pop) (hvalue : c.value ≠ [])
      (hothers : ∀ t op, t ≠ u → c.standing t = .called op → ∃ value, op = .push value)
  | after {x : T} (hu : c.standing u = .done (.popped (some x)))

namespace Finds

theorem point (h : Finds u c) (hpoint : (shared ι capacity T).Point c d) : Finds u d := by
  obtain @⟨t, op, answer, ys, ht, hstep⟩ := hpoint
  cases h with
  | before hu hvalue hothers =>
    by_cases htu : t = u
    · subst htu
      obtain rfl : op = .pop := by simpa [ht] using hu
      obtain ⟨x, xs, hxs⟩ := List.exists_cons_of_ne_nil hvalue
      have hanswer : answer = .popped (some x) := by
        have hpop : apply capacity c.value .pop = (answer, ys) := hstep
        rw [hxs] at hpop
        exact (congrArg Prod.fst hpop).symm
      exact .after (x := x) (by simp [hanswer])
    · obtain ⟨value, rfl⟩ := hothers t op htu ht
      refine .before (by simp [Ne.symm htu, hu]) ((apply_push hstep).1 hvalue) ?_
      intro v op hv hcalled
      by_cases hvt : v = t
      · simp [hvt] at hcalled
      · exact hothers v op hv (by simpa [hvt] using hcalled)
  | @after x hu =>
    have htu : u ≠ t := by
      rintro rfl
      simp [hu] at ht
    exact .after (x := x) (by simp [htu, hu])

theorem visible (h : Finds u c) (he : OnlyPushes e) (hother : ∀ answer, e ≠ .ret u answer)
    (hvisible : (shared ι capacity T).Visible c e d) : Finds u d := by
  cases hvisible with
  | @call t op ht =>
    have htu : u ≠ t := by
      rintro rfl
      cases h with
      | before hu _ _ => simp [hu] at ht
      | after hu => simp [hu] at ht
    cases h with
    | before hu hvalue hothers =>
      refine .before (by simp [htu, hu]) hvalue fun v op' hv hcalled => ?_
      by_cases hvt : v = t
      · obtain rfl : op = op' := by simpa [hvt] using hcalled
        exact he t op rfl
      · exact hothers v op' hv (by simpa [hvt] using hcalled)
    | @after x hu => exact .after (x := x) (by simp [htu, hu])
  | @ret t answer ht =>
    have htu : u ≠ t := by
      rintro rfl
      exact hother answer rfl
    cases h with
    | before hu hvalue hothers =>
      refine .before (by simp [htu, hu]) hvalue fun v op' hv hcalled => ?_
      by_cases hvt : v = t
      · simp [hvt] at hcalled
      · exact hothers v op' hv (by simpa [hvt] using hcalled)
    | @after x hu => exact .after (x := x) (by simp [htu, hu])

end Finds

/-- If a push has returned true before the first pop is called, that pop finds a value. -/
theorem not_linearizable_of_miss
    (first second inside : List (HistoryEvent ι (Op T) (Answer T)))
    {after : List (HistoryEvent ι (Op T) (Answer T))}
    (hfirst : ∀ e ∈ first, OnlyPushes e) (hsecond : ∀ e ∈ second, OnlyPushes e)
    (hinside : ∀ e ∈ inside, OnlyPushes e ∧ ∀ answer, e ≠ .ret u answer) :
    ¬ (shared ι capacity T).Linearizable (first ++ .ret t (.pushed true) ::
      (second ++ .call u .pop :: (inside ++ .ret u (.popped none) :: after))) := by
  rintro ⟨d, h⟩
  have hstart : Unpopped (shared ι capacity T).start :=
    ⟨fun _ _ h => (by cases h), fun _ h => (by cases h)⟩
  obtain ⟨c₁, h₁, h⟩ := h.divide
  have hc₁ : Unpopped c₁ := h₁.preserves hstart (fun _ _ hu hp => (hu.point hp).1)
    fun e he _ _ hu hv => (hu.visible (hfirst e he) hv).1
  obtain ⟨c₂, c₃, hc₂, hret, h⟩ := h.of_cons hc₁ fun _ _ hu hp => (hu.point hp).1
  have hvalue : c₃.value ≠ [] := by
    cases hret with
    | ret ht => exact hc₂.accepted t ht
  have hc₃ := (hc₂.visible (by simp [OnlyPushes]) hret).1
  obtain ⟨c₄, h₄, h⟩ := h.divide
  have hkeep : ∀ u v, Unpopped u ∧ u.value ≠ [] → (shared ι capacity T).Point u v →
      Unpopped v ∧ v.value ≠ [] := by
    intro u v hu hp
    obtain ⟨hv, hgrows⟩ := hu.1.point hp
    exact ⟨hv, hgrows hu.2⟩
  have hc₄ : Unpopped c₄ ∧ c₄.value ≠ [] := h₄.preserves (P := fun u => Unpopped u ∧ u.value ≠ [])
    ⟨hc₃, hvalue⟩ hkeep fun e he u v hu hv => by
      obtain ⟨hv, hsame⟩ := hu.1.visible (hsecond e he) hv
      exact ⟨hv, hsame ▸ hu.2⟩
  obtain ⟨c₅, c₆, ⟨hc₅, hvalue₅⟩, hcall, h⟩ := h.of_cons hc₄ hkeep
  have hfinds : Finds u c₆ := by
    cases hcall with
    | call ht =>
      refine .before (by simp) hvalue₅ fun v op hv hcalled => ?_
      exact hc₅.pushing v op (by simpa [hv] using hcalled)
  obtain ⟨c₇, h₇, h⟩ := h.divide
  have hc₇ : Finds u c₇ := h₇.preserves hfinds (fun _ _ hu hp => hu.point hp)
    fun e he _ _ hu hv => hu.visible (hinside e he).1 (hinside e he).2 hv
  obtain ⟨c₈, c₉, hc₈, hmiss, -⟩ := h.of_cons hc₇ fun _ _ hu hp => hu.point hp
  cases hmiss with
  | ret ht =>
    cases hc₈ with
    | before hu _ _ => simp [hu] at ht
    | after hu => simp [hu] at ht

end Misses

/-! ### One pushing thread

An element that a pop misses is then the only one, so its push can take place
when it returns, or when the element is popped.
-/

section OnePusher

open SharedObject

variable [DecidableEq ι] {capacity : ℕ} {p t : ι} {e : HistoryEvent ι (Op T) (Answer T)}
  {c c' : Config ι (Op T) (Answer T) (List (Entry ι T))}
  {d : Config ι (Op T) (Answer T) (List T)}

theorem Entry.settle_of_settled {x : Entry ι T} (hx : x.settled = true) : x.settle t = x := by
  obtain ⟨thread, value, settled⟩ := x
  obtain rfl : settled = true := hx
  simp [Entry.settle]

theorem map_settle_of_settled {xs : List (Entry ι T)} (h : ∀ x ∈ xs, x.settled = true) :
    xs.map (Entry.settle t) = xs := by
  rw [List.map_congr_left fun x hx => Entry.settle_of_settled (h x hx), List.map_id']

/-- Only `p` pushes. -/
def OnePushing (p : ι) (c : Config ι (Op T) (Answer T) (List (Entry ι T))) : Prop :=
  ∀ t value, c.standing t = .called (.push value) → t = p

/-- Where the list stands that delays the push of an element until nobody can miss it. -/
inductive Lags (capacity : ℕ) (p : ι) : Config ι (Op T) (Answer T) (List (Entry ι T)) →
    Config ι (Op T) (Answer T) (List T) → Prop
  | level {xs standing} (hsettled : ∀ x ∈ xs, x.settled = true) :
      Lags capacity p ⟨xs, standing⟩ ⟨xs.map (·.value), standing⟩
  | behind {front value standing} (hsettled : ∀ x ∈ front, x.settled = true)
      (hroom : front.length < capacity) (hp : standing p = .called (.push value)) :
      Lags capacity p
        ⟨front ++ [⟨p, value, false⟩], Function.update standing p (.done (.pushed true))⟩
        ⟨front.map (·.value), standing⟩

theorem OnePushing.point (h : OnePushing p c) (hpoint : (late ι capacity T).Point c c') :
    OnePushing p c' := by
  cases hpoint with
  | mk ht hstep =>
    intro v value hv
    refine h v value ?_
    simp only [Function.update_apply] at hv
    split_ifs at hv
    exact hv

theorem OnePushing.visible (h : OnePushing p c) (he : ∀ t value, e = .call t (.push value) → t = p)
    (hvisible : (late ι capacity T).Visible c e c') : OnePushing p c' := by
  intro v value hv
  cases hvisible with
  | call ht =>
    simp only [Function.update_apply] at hv
    split_ifs at hv with hvt
    · obtain rfl : _ = Op.push value := by simpa using hv
      exact hvt ▸ he _ value rfl
    · exact h v value hv
  | ret ht =>
    simp only [Function.update_apply] at hv
    split_ifs at hv
    exact h v value hv

namespace Lags

theorem level_nil {standing : ι → Standing (Op T) (Answer T)} :
    Lags capacity p ⟨[], standing⟩ ⟨[], standing⟩ :=
  .level (fun _ hx => absurd hx List.not_mem_nil)

theorem behind_nil {value : T} {standing : ι → Standing (Op T) (Answer T)} (hroom : 0 < capacity)
    (hp : standing p = .called (.push value)) :
    Lags capacity p ⟨[⟨p, value, false⟩], Function.update standing p (.done (.pushed true))⟩
      ⟨[], standing⟩ := by
  rw [← List.nil_append [_]]
  exact .behind (fun _ hx => absurd hx List.not_mem_nil) hroom hp

/-- The push that was delayed takes place. -/
theorem catchUp {front : List (Entry ι T)} {value : T}
    {standing : ι → Standing (Op T) (Answer T)} (hroom : front.length < capacity)
    (hp : standing p = .called (.push value)) :
    (shared ι capacity T).Point ⟨front.map (·.value), standing⟩
      ⟨front.map (·.value) ++ [value],
        Function.update standing p (.done (.pushed true))⟩ := by
  refine .mk hp ?_
  change apply capacity _ _ = _
  rw [apply, List.length_map, if_pos hroom]

theorem point_pop {x : T} {xs : List T} {standing : ι → Standing (Op T) (Answer T)}
    (ht : standing t = .called .pop) :
    (shared ι capacity T).Point ⟨x :: xs, standing⟩
      ⟨xs, Function.update standing t (.done (.popped (some x)))⟩ :=
  .mk ht rfl

theorem point_miss {standing : ι → Standing (Op T) (Answer T)}
    (ht : standing t = .called .pop) :
    (shared ι capacity T).Point ⟨[], standing⟩
      ⟨[], Function.update standing t (.done (.popped none))⟩ :=
  .mk ht rfl

theorem point (h : Lags capacity p c d) (hone : OnePushing p c)
    (hpoint : (late ι capacity T).Point c c') :
    ∃ d', (shared ι capacity T).Traces d [] d' ∧ Lags capacity p c' d' := by
  obtain @⟨t, op, answer, ys, ht, hstep⟩ := hpoint
  cases h with
  | @level xs standing hsettled =>
    cases hstep with
    | @push _ _ value hroom =>
      obtain rfl : t = p := hone t value ht
      exact ⟨_, .nil _, .behind hsettled hroom ht⟩
    | @full _ _ value hfull =>
      have hnoRoom : ¬ xs.length < capacity := hfull.not_lt
      refine ⟨_, .point (.mk (v := xs.map (·.value)) ht ?_) (.nil _), .level hsettled⟩
      change apply capacity _ _ = _
      rw [apply, List.length_map, if_neg hnoRoom]
    | pop =>
      refine ⟨_, .point (point_pop ht) (.nil _), .level ?_⟩
      exact fun y hy => hsettled y (by simp [hy])
    | empty => exact ⟨_, .point (point_miss ht) (.nil _), .level (by simp)⟩
    | early hx => simp [hsettled] at hx
  | @behind front value standing hsettled hroom hp =>
    have htp : t ≠ p := by
      rintro rfl
      simp at ht
    have ht' : standing t = .called op := by simpa [htp] using ht
    generalize hxs : front ++ [⟨p, value, false⟩] = xs at hstep
    cases hstep with
    | push hroom => exact absurd (hone t _ ht) htp
    | full hfull => exact absurd (hone t _ ht) htp
    | empty => simp at hxs
    | pop =>
      cases front with
      | nil =>
        -- the element is popped before its push has returned
        obtain ⟨rfl, rfl⟩ := List.cons.inj hxs
        exact ⟨_, .point (catchUp hroom hp) (.point (point_pop ht) (.nil _)),
          .level (by simp)⟩
      | cons y front =>
        obtain ⟨rfl, rfl⟩ := List.cons.inj hxs
        refine ⟨_, .point (point_pop ht') (.nil _), ?_⟩
        rw [Function.update_comm htp.symm]
        refine .behind (fun x hx => hsettled x (by simp [hx])) ?_ (by simp [htp.symm, hp])
        exact Nat.lt_of_succ_lt hroom
    | early hx =>
      cases front with
      | nil =>
        obtain ⟨rfl, rfl⟩ := List.cons.inj hxs
        refine ⟨_, .point (point_miss ht') (.nil _), ?_⟩
        rw [Function.update_comm htp.symm]
        exact behind_nil hroom (by simp [htp.symm, hp])
      | cons y front =>
        obtain ⟨rfl, rfl⟩ := List.cons.inj hxs
        simp [hsettled] at hx

theorem visible (h : Lags capacity p c d) (hone : OnePushing p c)
    (hvisible : (late ι capacity T).Visible c e c') :
    ∃ d', (shared ι capacity T).Traces d [e] d' ∧ Lags capacity p c' d' := by
  cases h with
  | @level xs standing hsettled =>
    cases hvisible with
    | call ht => exact ⟨_, .visible (.call ht) (.nil _), .level hsettled⟩
    | @ret t _ ht =>
      have hsame : (late ι capacity T).settle xs t = xs := map_settle_of_settled hsettled
      rw [hsame]
      exact ⟨_, .visible (.ret ht) (.nil _), .level hsettled⟩
  | @behind front value standing hsettled hroom hp =>
    cases hvisible with
    | @call t op ht =>
      have htp : p ≠ t := by
        rintro rfl
        simp at ht
      refine ⟨_, .visible (.call (by simpa [htp.symm] using ht)) (.nil _), ?_⟩
      simp only
      rw [Function.update_comm htp]
      exact .behind hsettled hroom (by simp [htp, hp])
    | @ret t answer ht =>
      by_cases htp : p = t
      · subst htp
        obtain rfl : Answer.pushed true = answer := by simpa using ht
        have hsettle : (late ι capacity T).settle (front ++ [⟨p, value, false⟩]) p =
            front ++ [⟨p, value, true⟩] := by
          simp [late, map_settle_of_settled hsettled, Entry.settle]
        refine ⟨_, .point (catchUp hroom hp) (.visible (.ret (by simp)) (.nil _)), ?_⟩
        rw [hsettle]
        have hvalues : front.map (·.value) ++ [value] =
            (front ++ [(⟨p, value, true⟩ : Entry ι T)]).map (·.value) := by simp
        simp only [hvalues]
        refine .level fun x hx => ?_
        rcases List.mem_append.mp hx with hx | hx
        · exact hsettled x hx
        · simp_all
      · have hsettle : (late ι capacity T).settle (front ++ [⟨p, value, false⟩]) t =
            front ++ [⟨p, value, false⟩] := by
          simp [late, map_settle_of_settled hsettled, Entry.settle, htp]
        refine ⟨_, .visible (.ret (by simpa [Ne.symm htp] using ht)) (.nil _), ?_⟩
        simp only
        rw [hsettle, Function.update_comm htp]
        exact .behind hsettled hroom (by simp [htp, hp])

end Lags

/-- With a single pushing thread, a list whose pops may miss an element still being pushed
shows no more histories than the list itself. -/
theorem linearizable_of_late {history : List (HistoryEvent ι (Op T) (Answer T))}
    (hone : ∀ t value, .call t (.push value) ∈ history → t = p)
    (h : (late ι capacity T).Linearizable history) :
    (shared ι capacity T).Linearizable history := by
  obtain ⟨c, h⟩ := h
  refine h.simulate (R := fun u w => OnePushing p u ∧ Lags capacity p u w)
    ⟨fun _ _ h => (by cases h), .level_nil⟩ ?_ ?_
  · rintro u v w ⟨hu, hw⟩ hpoint
    obtain ⟨w', htraces, hw'⟩ := hw.point hu hpoint
    exact ⟨w', htraces, hu.point hpoint, hw'⟩
  · rintro e he u v w ⟨hu, hw⟩ hvisible
    obtain ⟨w', htraces, hw'⟩ := hw.visible hu hvisible
    refine ⟨w', htraces, hu.visible (fun t value heq => ?_) hvisible, hw'⟩
    exact hone t value (heq ▸ he)

end OnePusher
end Obz.Foundation.BoundedFifo
