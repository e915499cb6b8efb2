import Obz.Foundation.NextCall
import Obz.SpscRingQueue.Observers

/-!
# What an owner has seen stays true

The consumer alone makes the queue emptier and the producer alone makes it
fuller. So an element that the consumer has seen is still there at its next
`try_pop`, and room that the producer has seen at its next `try_emplace`.
-/
namespace Obz.SpscRingQueue

open Foundation

variable {w N : ℕ} {T : Type*}

/-! ### The two calls -/

/-- `try_pop`; moving the element out may throw. -/
def popCall (w N : ℕ) (T : Type*) : CallKind (Observed w N T) (ObservedAction T) where
  enters a := a = .operate .callPop
  fails a := ∃ left, a = .operate (.moveThrows left)
  carries
    | .operate .consume => true
    | _ => false
  succeeded s := ∃ value, s.state.consumer = .returned (some value)

/-- `try_emplace`; constructing the element may throw. -/
def emplaceCall (w N : ℕ) (T : Type*) : CallKind (Observed w N T) (ObservedAction T) where
  enters a := ∃ value, a = .operate (.callEmplace value)
  fails a := a = .operate .constructThrows
  carries
    | .operate .produce => true
    | _ => false
  succeeded s := s.state.producer = .returned true

/-- The operations a call has still to perform at most. -/
def ConsumerPc.remaining : ConsumerPc T → ℕ
  | .loadRead => 5
  | .loadWrite _ => 4
  | .moveOut _ => 3
  | .destroy _ _ => 2
  | .storeRead _ _ => 1
  | _ => 0

def ProducerPc.remaining : ProducerPc T → ℕ
  | .loadWrite _ => 4
  | .loadRead _ _ => 3
  | .construct _ _ => 2
  | .storeWrite _ _ => 1
  | _ => 0

namespace State

/-- A `try_pop` that is going to return an element, or has returned one. -/
def PopOk (s : State N T) : ConsumerPc T → Prop
  | .loadRead => s.queue.readIndex < s.queue.writeIndex
  | .loadWrite read => read < s.queue.writeIndex
  | .moveOut _ | .destroy _ _ | .storeRead _ _ | .returned (some _) => True
  | _ => False

/-- A `try_emplace` that is going to store its element, or has stored it. -/
def EmplaceOk (s : State N T) : ProducerPc T → Prop
  | .loadWrite _ => s.queue.writeIndex < s.queue.readIndex + N
  | .loadRead _ write => write < s.queue.readIndex + N
  | .construct _ _ | .storeWrite _ _ | .returned true => True
  | _ => False

variable {s t : State N T}

theorem PopOk.mono {pc : ConsumerPc T} (h : s.PopOk pc)
    (hread : t.queue.readIndex = s.queue.readIndex)
    (hwrite : s.queue.writeIndex ≤ t.queue.writeIndex) : t.PopOk pc := by
  cases pc with
  | loadRead => exact (hread.trans_lt h).trans_le hwrite
  | loadWrite read => exact lt_of_lt_of_le (b := s.queue.writeIndex) h hwrite
  | returned value => cases value <;> exact h
  | _ => exact h

theorem EmplaceOk.mono {pc : ProducerPc T} (h : s.EmplaceOk pc)
    (hread : s.queue.readIndex ≤ t.queue.readIndex)
    (hwrite : t.queue.writeIndex = s.queue.writeIndex) : t.EmplaceOk pc := by
  have hroom := Nat.add_le_add_right hread N
  cases pc with
  | loadWrite value => exact (hwrite.trans_lt h).trans_le hroom
  | loadRead value write => exact lt_of_lt_of_le (b := s.queue.readIndex + N) h hroom
  | returned accepted => cases accepted <;> exact h
  | _ => exact h

theorem PopOk.inside_or {pc : ConsumerPc T} (h : s.PopOk pc) :
    (∃ value, pc = .returned (some value)) ∨ pc.outside = false := by
  cases pc with
  | returned value =>
    cases value with
    | some value => exact .inl ⟨value, rfl⟩
    | none => cases h
  | idle => cases h
  | threw => cases h
  | _ => exact .inr rfl

theorem EmplaceOk.inside_or {pc : ProducerPc T} (h : s.EmplaceOk pc) :
    pc = .returned true ∨ pc.outside = false := by
  cases pc with
  | returned accepted =>
    cases accepted with
    | true => exact .inl rfl
    | false => cases h
  | idle => cases h
  | threw => cases h
  | _ => exact .inr rfl

variable [NeZero N] {a : Action T}

theorem popOk_step (hinv : Invariant (fun _ : T => ()) s) (h : s.PopOk s.consumer)
    (hstep : s.step a = some t) (hcall : a ≠ .callPop) (hthrow : ∀ left, a ≠ .moveThrows left) :
    t.PopOk t.consumer := by
  have hwrite := writeIndex_le_of_step hinv hstep
  cases step_effect hstep with
  | callPop => exact absurd rfl hcall
  | moveThrows => exact absurd rfl (hthrow _)
  | consumerLoadRead hpc =>
    rw [hpc] at h
    exact h
  | miss hpc hmiss =>
    rw [hpc] at h
    exact absurd hmiss (Nat.ne_of_lt h)
  | hit | moveOut | destroy | storeRead => trivial
  | _ => exact h.mono rfl hwrite

theorem emplaceOk_step (hinv : Invariant (fun _ : T => ()) s) (h : s.EmplaceOk s.producer)
    (hstep : s.step a = some t) (hcall : ∀ value, a ≠ .callEmplace value)
    (hthrow : a ≠ .constructThrows) : t.EmplaceOk t.producer := by
  have hread := readIndex_le_of_step hinv hstep
  cases step_effect hstep with
  | callEmplace => exact absurd rfl (hcall _)
  | constructThrows => exact absurd rfl hthrow
  | producerLoadWrite hpc =>
    rw [hpc] at h
    exact h
  | full hpc hfull =>
    rw [hpc] at h
    exact absurd hfull (Nat.ne_of_lt h)
  | room | construct | storeWrite => trivial
  | _ => exact h.mono hread rfl

/-- An operation of a call leaves one fewer to perform; nothing else adds any. -/
theorem pop_remaining (hstep : s.step a = some t) (hcall : a ≠ .callPop) :
    ((popCall w N T).carries (.operate a)).toNat + t.consumer.remaining ≤
      s.consumer.remaining := by
  cases step_effect hstep with
  | callPop => exact absurd rfl hcall
  | consumerLoadRead hpc | miss hpc | hit hpc | moveOut hpc | destroy hpc | storeRead hpc =>
    rw [hpc]
    simp [popCall, setConsumer, ConsumerPc.remaining]
  | moveThrows => exact Nat.zero_le _
  | _ => exact (Nat.zero_add _).le

theorem emplace_remaining (hstep : s.step a = some t) (hcall : ∀ value, a ≠ .callEmplace value) :
    ((emplaceCall w N T).carries (.operate a)).toNat + t.producer.remaining ≤
      s.producer.remaining := by
  cases step_effect hstep with
  | callEmplace => exact absurd rfl (hcall _)
  | producerLoadWrite hpc | full hpc | room hpc | construct hpc | storeWrite hpc =>
    rw [hpc]
    simp [emplaceCall, setProducer, ProducerPc.remaining]
  | constructThrows => exact Nat.zero_le _
  | _ => exact (Nat.zero_add _).le

end State

/-! ### No operation inside a call is undefined -/

variable [NeZero N] {s t : State N T}

theorem consume_defined (h : Invariant (fun _ : T => ()) s) (hin : s.consumer.outside = false) :
    ∃ t, s.consume = some t := by
  unfold State.consume
  cases hpc : s.consumer with
  | loadRead => exact ⟨_, rfl⟩
  | loadWrite read =>
    dsimp only
    split_ifs
    · exact ⟨_, rfl⟩
    · exact ⟨_, rfl⟩
  | moveOut read =>
    have hok := h.consumerOk hpc
    obtain ⟨rfl, hread⟩ := hok
    obtain ⟨value, hslot, -⟩ := h.live _ le_rfl hread (by simp [hpc, ConsumerPc.taken])
    simp [hslot]
  | destroy read value =>
    have hok := h.consumerOk hpc
    obtain ⟨-, -, hslot, -⟩ := hok
    simp [hslot]
  | storeRead read value => exact ⟨_, rfl⟩
  | idle | returned | threw =>
    rw [hpc] at hin
    cases hin

theorem produce_defined (hin : s.producer.outside = false) : ∃ t, s.produce = some t := by
  unfold State.produce
  cases hpc : s.producer with
  | loadRead value write =>
    dsimp only
    split_ifs
    · exact ⟨_, rfl⟩
    · exact ⟨_, rfl⟩
  | idle | returned | threw =>
    rw [hpc] at hin
    cases hin
  | _ => exact ⟨_, rfl⟩

/-! ### From the answer to the next call -/

variable {u v : Observed w N T}

omit [NeZero N] in
/-- An answer comes with the second load. -/
theorem answer_of_read {q : Queue N T} {pc pc' : ReadingPc w} (h : q.read pc = some pc')
    (hout : pc'.outside = true) :
    ∃ query value,
      (pc = .loadSecond query .read value ∧ query.answer N q.writeIndex value = pc') ∨
        (pc = .loadSecond query .write value ∧ query.answer N value q.readIndex = pc') := by
  cases pc with
  | loadFirst query first =>
    cases h
    cases hout
  | loadSecond query first value =>
    cases first with
    | read => exact ⟨query, value, .inl ⟨rfl, Option.some.inj h⟩⟩
    | write => exact ⟨query, value, .inr ⟨rfl, Option.some.inj h⟩⟩
  | _ => cases h

omit [NeZero N] in
theorem Query.ne_of_empty_false {query : Query} {write read : ℕ}
    (h : query.answer N write read = (.returnedEmpty false : ReadingPc w)) :
    read ≠ write := by
  cases query with
  | empty => exact of_decide_eq_false (ReadingPc.returnedEmpty.inj h)
  | full => cases h
  | size => cases h

omit [NeZero N] in
theorem Query.ne_of_full_false {query : Query} {write read : ℕ}
    (h : query.answer N write read = (.returnedFull false : ReadingPc w)) :
    write ≠ read + N := by
  cases query with
  | full =>
    have hdistance := of_decide_eq_false (ReadingPc.returnedFull.inj h)
    exact (distance_eq_iff _ _ _).not.mp hdistance
  | empty => cases h
  | size => cases h

theorem load_of_read {i : Owner} (h : u.step (.read i) = some v) :
    v.state = u.state ∧ u.state.queue.read (u.reading i) = some (v.reading i) := by
  cases observed_effect h with
  | read hload => exact ⟨rfl, by rw [Observed.setReading_self]; exact hload⟩

/-- The consumer is outside `try_pop` and has seen an element. -/
theorem lt_of_empty_false (hreach : (observed w N T).Reachable u)
    (hstep : u.step (.read .consumer) = some v)
    (hanswer : v.reading .consumer = .returnedEmpty false) :
    v.state.consumer.outside = true ∧ v.state.queue.readIndex < v.state.queue.writeIndex := by
  have hreading := readingInvariant_of_reachable hreach
  have hinv := invariant_of_observed hreach
  have hle := hinv.read_le
  obtain ⟨hstate, hload⟩ := load_of_read hstep
  have hok := hreading.loaded .consumer
  rw [hanswer] at hload
  rw [hstate]
  obtain ⟨query, value, ⟨hpc, hvalues⟩ | ⟨hpc, hvalues⟩⟩ := answer_of_read hload rfl
  · have hne := Query.ne_of_empty_false hvalues
    rw [hpc] at hok
    obtain rfl : value = u.state.queue.readIndex := hok
    exact ⟨hreading.alone .consumer (by rw [hpc]; rfl), by omega⟩
  · have hne := Query.ne_of_empty_false hvalues
    rw [hpc] at hok
    obtain ⟨hlow, hhigh⟩ := hok
    exact ⟨hreading.alone .consumer (by rw [hpc]; rfl), by omega⟩

/-- The producer is outside `try_emplace` and has seen room. -/
theorem lt_of_full_false (hreach : (observed w N T).Reachable u)
    (hstep : u.step (.read .producer) = some v)
    (hanswer : v.reading .producer = .returnedFull false) :
    v.state.producer.outside = true ∧
      v.state.queue.writeIndex < v.state.queue.readIndex + N := by
  have hreading := readingInvariant_of_reachable hreach
  have hinv := invariant_of_observed hreach
  have hle := hinv.write_le
  obtain ⟨hstate, hload⟩ := load_of_read hstep
  have hok := hreading.loaded .producer
  rw [hanswer] at hload
  rw [hstate]
  obtain ⟨query, value, ⟨hpc, hvalues⟩ | ⟨hpc, hvalues⟩⟩ := answer_of_read hload rfl
  · have hne := Query.ne_of_full_false hvalues
    rw [hpc] at hok
    obtain ⟨hlow, hhigh⟩ := hok
    exact ⟨hreading.alone .producer (by rw [hpc]; rfl), by omega⟩
  · have hne := Query.ne_of_full_false hvalues
    rw [hpc] at hok
    obtain rfl : value = u.state.queue.writeIndex := hok
    exact ⟨hreading.alone .producer (by rw [hpc]; rfl), by omega⟩

/-- Until the consumer calls `try_pop`, the producer can only add elements. -/
theorem element_step {a : Action T} (hinv : Invariant (fun _ : T => ()) s)
    (hstep : s.step a = some t) (hcall : a ≠ .callPop)
    (h : s.consumer.outside = true ∧ s.queue.readIndex < s.queue.writeIndex) :
    t.consumer.outside = true ∧ t.queue.readIndex < t.queue.writeIndex := by
  have hwrite := State.writeIndex_le_of_step hinv hstep
  cases step_effect hstep with
  | callPop => exact absurd rfl hcall
  | consumerLoadRead hpc | miss hpc | hit hpc | moveOut hpc | moveThrows hpc | destroy hpc
  | storeRead hpc =>
    have hout := h.1
    rw [hpc] at hout
    cases hout
  | _ => exact ⟨h.1, lt_of_lt_of_le h.2 hwrite⟩

theorem room_step {a : Action T} (hinv : Invariant (fun _ : T => ()) s)
    (hstep : s.step a = some t) (hcall : ∀ value, a ≠ .callEmplace value)
    (h : s.producer.outside = true ∧ s.queue.writeIndex < s.queue.readIndex + N) :
    t.producer.outside = true ∧ t.queue.writeIndex < t.queue.readIndex + N := by
  have hread := State.readIndex_le_of_step hinv hstep
  cases step_effect hstep with
  | callEmplace => exact absurd rfl (hcall _)
  | producerLoadWrite hpc | full hpc | room hpc | construct hpc | constructThrows hpc
  | storeWrite hpc =>
    have hout := h.1
    rw [hpc] at hout
    cases hout
  | _ => exact ⟨h.1, lt_of_lt_of_le h.2 (Nat.add_le_add_right hread N)⟩

theorem popOk_call (hstep : s.step .callPop = some t)
    (h : s.queue.readIndex < s.queue.writeIndex) :
    t.PopOk t.consumer ∧ t.consumer.remaining ≤ 5 := by
  cases step_effect hstep with
  | callPop => exact ⟨h, le_rfl⟩

theorem emplaceOk_call {value : T} (hstep : s.step (.callEmplace value) = some t)
    (h : s.queue.writeIndex < s.queue.readIndex + N) :
    t.EmplaceOk t.producer ∧ t.producer.remaining ≤ 4 := by
  cases step_effect hstep with
  | callEmplace => exact ⟨h, le_rfl⟩

theorem operate_enabled {b : Action T} (hfree : (u.reading b.owner).outside = true)
    (h : ∃ t, u.state.step b = some t) :
    ∃ v, (observed w N T).step u (.operate b) = some v := by
  obtain ⟨t, ht⟩ := h
  refine ⟨{ u with state := t }, ?_⟩
  simp only [observed, Observed.step, hfree, if_true, ht]
  rfl

/-- An element that the consumer has seen is there at its next `try_pop`. -/
theorem pop_assured (hreach : (observed w N T).Reachable u)
    (hseen : u.state.consumer.outside = true ∧
      u.state.queue.readIndex < u.state.queue.writeIndex) :
    (observed w N T).Assures (popCall w N T) 5 u := by
  refine observed_extends.assures
    (P := fun s => s.consumer.outside = true ∧ s.queue.readIndex < s.queue.writeIndex)
    (Q := fun s => s.PopOk s.consumer) (μ := fun s => s.consumer.remaining)
    hreach hseen ?_ ?_ ?_ ?_ ?_ ?_
  · rintro a (hcall | hcarries)
    · exact ⟨_, hcall⟩
    · cases a with
      | operate b => exact ⟨b, rfl⟩
      | _ => cases hcarries
  · intro s b t hs hP hcall hstep
    exact element_step (invariant_of_reachable_unit hs) hstep (fun hb => hcall (hb ▸ rfl)) hP
  · intro s b t hP hcall hstep
    obtain rfl := ObservedAction.operate.inj hcall
    exact popOk_call hstep hP.2
  · intro s b t hs hQ hcall hthrow hstep
    exact State.popOk_step (invariant_of_reachable_unit hs) hQ hstep
      (fun hb => hcall (hb ▸ rfl)) fun left hb => hthrow ⟨left, hb ▸ rfl⟩
  · intro s b t hcall hstep
    exact State.pop_remaining hstep fun hb => hcall (hb ▸ rfl)
  · intro u hu hQ
    rcases hQ.inside_or with hdone | hin
    · exact .inl hdone
    · obtain ⟨v, hv⟩ := operate_enabled (b := .consume)
        ((readingInvariant_of_reachable hu).outside (i := .consumer) hin)
        (consume_defined (invariant_of_observed hu) hin)
      exact .inr ⟨.consume, v, rfl, hv⟩

/-- Room that the producer has seen is there at its next `try_emplace`. -/
theorem emplace_assured (hreach : (observed w N T).Reachable u)
    (hseen : u.state.producer.outside = true ∧
      u.state.queue.writeIndex < u.state.queue.readIndex + N) :
    (observed w N T).Assures (emplaceCall w N T) 4 u := by
  refine observed_extends.assures
    (P := fun s => s.producer.outside = true ∧ s.queue.writeIndex < s.queue.readIndex + N)
    (Q := fun s => s.EmplaceOk s.producer) (μ := fun s => s.producer.remaining)
    hreach hseen ?_ ?_ ?_ ?_ ?_ ?_
  · rintro a (⟨value, hcall⟩ | hcarries)
    · exact ⟨_, hcall⟩
    · cases a with
      | operate b => exact ⟨b, rfl⟩
      | _ => cases hcarries
  · intro s b t hs hP hcall hstep
    exact room_step (invariant_of_reachable_unit hs) hstep
      (fun value hb => hcall ⟨value, hb ▸ rfl⟩) hP
  · rintro s b t hP ⟨value, hcall⟩ hstep
    obtain rfl := ObservedAction.operate.inj hcall
    exact emplaceOk_call hstep hP.2
  · intro s b t hs hQ hcall hthrow hstep
    exact State.emplaceOk_step (invariant_of_reachable_unit hs) hQ hstep
      (fun value hb => hcall ⟨value, hb ▸ rfl⟩) fun hb => hthrow (hb ▸ rfl)
  · intro s b t hcall hstep
    exact State.emplace_remaining hstep fun value hb => hcall ⟨value, hb ▸ rfl⟩
  · intro u hu hQ
    rcases hQ.inside_or with hdone | hin
    · exact .inl hdone
    · obtain ⟨v, hv⟩ := operate_enabled (b := .produce)
        ((readingInvariant_of_reachable hu).outside (i := .producer) hin)
        (produce_defined hin)
      exact .inr ⟨.produce, v, rfl, hv⟩

end Obz.SpscRingQueue
