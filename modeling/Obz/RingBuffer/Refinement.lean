import Obz.Foundation.Simulation
import Obz.RingBuffer.Buffer

/-!
# `ring_buffer` as a bounded list

The live objects are those constructed and not yet destroyed, and they are
destroyed in the order of their construction. A move assignment that throws may
change the first element; it stays where it is.
-/
namespace Obz.RingBuffer

open Foundation Program

variable {capacity : ℕ} {T : Type}

/-- The operations on a list that holds at most `capacity` elements. -/
def listStep (capacity : ℕ) (xs : List T) : Op T → Result T × List T
  | .emplaceBack construction =>
    if xs.length < capacity then
      match construction with
      | some value => (.flag true, xs ++ [value])
      | none => (.threw .element, xs)
    else (.flag false, xs)
  | .popFront assignment =>
    match xs with
    | [] => (.popped none, [])
    | x :: xs =>
      if assignment.throws then (.threw .element, assignment.left :: xs) else (.popped (some x), xs)
  | .front =>
    match xs with
    | [] => (.threw (.runtimeError "cannot access front of empty ring_buffer"), [])
    | x :: _ => (.reference x, xs)
  | .clear => (.done, [])
  | .empty => (.flag xs.isEmpty, xs)
  | .full => (.flag (xs.length = capacity), xs)
  | .size => (.count xs.length, xs)
  | .capacity => (.count capacity, xs)

theorem listStep_defined (capacity : ℕ) (xs : List T) (op : Op T) :
    (listStep capacity xs op).1 ≠ .threw .undefined ∧
      (listStep capacity xs op).1 ≠ .threw .unfinished := by
  cases op with
  | emplaceBack construction => cases construction <;> simp only [listStep] <;> split <;> simp
  | popFront assignment =>
    cases xs with
    | nil => simp [listStep]
    | cons x xs => cases h : assignment.throws <;> simp [listStep, h]
  | front => cases xs <;> simp [listStep]
  | _ => simp [listStep]

/-- Objects with these values, numbered from `first`. -/
def numbered (first : ℕ) : List T → List (Object T)
  | [] => []
  | x :: xs => ⟨first, x⟩ :: numbered (first + 1) xs

@[simp] theorem length_numbered (first : ℕ) (xs : List T) :
    (numbered first xs).length = xs.length := by
  induction xs generalizing first with
  | nil => rfl
  | cons x xs ih => simp [numbered, ih]

theorem numbered_snoc (first : ℕ) (xs : List T) (x : T) :
    numbered first (xs ++ [x]) = numbered first xs ++ [⟨first + xs.length, x⟩] := by
  induction xs generalizing first with
  | nil => rfl
  | cons y xs ih =>
    simp only [List.cons_append, numbered, ih, List.length_cons]
    rw [Nat.add_right_comm, Nat.add_assoc]

variable [NeZero capacity]

/-- The buffer is usable and stores `xs`, oldest first. -/
structure Represents (b : Buffer capacity T) (xs : List T) : Prop where
  allocated : b.allocated = true
  head_lt : b.head < capacity
  tail_eq : b.tail = (b.head + b.size) % capacity
  size_eq : b.size = xs.length
  slots : b.buffer.Holds b.head (numbered b.destroyed.length xs)
  constructed_eq : b.constructed = b.destroyed.length + xs.length
  destroyed_eq : b.destroyed = List.range b.destroyed.length

theorem capacity_pos : 0 < capacity := Nat.pos_of_ne_zero (NeZero.ne capacity)

/-! ### Access to the storage -/

section Access

variable {b : Buffer capacity T} {index : ℕ} {object : Object T}

theorem call_readSlot (ha : b.allocated = true) (hi : index < capacity) :
    call (readSlot index) b = (.ok (b.buffer.get index), b) := by
  simp [readSlot, ha, hi]

theorem call_objectAt (ha : b.allocated = true) (hi : index < capacity)
    (ho : b.buffer.get index = .live object) : call (objectAt index) b = (.ok object, b) := by
  simp [objectAt, call_readSlot ha hi, ho]

theorem call_destroyAt (ha : b.allocated = true) (hi : index < capacity)
    (ho : b.buffer.get index = .live object) :
    call (destroyAt index) b =
      (.ok ⟨⟩, { b with
        buffer := b.buffer.set index .vacant
        destroyed := b.destroyed ++ [object.id] }) := by
  simp [destroyAt, call_objectAt ha hi ho]

theorem call_constructAt (ha : b.allocated = true) (hi : index < capacity)
    (hv : b.buffer.get index = .vacant) (construction : Option T) :
    call (constructAt index construction) b =
      match construction with
      | some value => (.ok ⟨⟩, { b with
          buffer := b.buffer.set index (.live ⟨b.constructed, value⟩)
          constructed := b.constructed + 1 })
      | none => (.error .element, b) := by
  cases construction <;> simp [constructAt, call_readSlot ha hi, hv]

theorem call_moveFrom (ha : b.allocated = true) (hi : index < capacity)
    (ho : b.buffer.get index = .live object) (assignment : MoveAssignment T) :
    call (moveFrom index assignment) b =
      (if assignment.throws then .error .element else .ok object.value,
        { b with
          buffer := b.buffer.set index (.live { object with value := assignment.left }) }) := by
  cases h : assignment.throws <;> simp [moveFrom, call_objectAt ha hi ho, h]

end Access

namespace Represents

variable {b : Buffer capacity T} {xs : List T} {x : T}

theorem length_le (h : Represents b xs) : xs.length ≤ capacity := by
  simpa using h.slots.bound

theorem tail_lt (h : Represents b xs) : b.tail < capacity := by
  rw [h.tail_eq]
  exact Nat.mod_lt _ capacity_pos

theorem index_tail (h : Represents b xs) :
    (CyclicBuffer.index b.tail : Fin capacity) =
      CyclicBuffer.index (b.head + (numbered b.destroyed.length xs).length) := by
  rw [h.tail_eq, h.size_eq, CyclicBuffer.index_mod, length_numbered]

theorem tail_vacant (h : Represents b xs) (hroom : xs.length < capacity) :
    b.buffer.get b.tail = .vacant := by
  rw [CyclicBuffer.get_congr h.index_tail]
  apply h.slots.unused
  · omega
  · simpa using hroom

theorem front_live (h : Represents b (x :: xs)) :
    b.buffer.get b.head = .live ⟨b.destroyed.length, x⟩ := h.slots.front

theorem not_full (h : Represents b xs) (hroom : xs.length < capacity) : b.full = false := by
  have := h.size_eq
  simp only [Buffer.full, decide_eq_false_iff_not]
  omega

theorem empty_eq (h : Represents b xs) : b.empty = xs.isEmpty := by
  cases xs <;> simp [Buffer.empty, h.size_eq]

/-- The front object is gone and the indices have moved on, as a pop or one pass of
`clear` leaves them. -/
theorem dropped (h : Represents b (x :: xs)) (object : Slot (Object T)) :
    Represents { b with
      buffer := (b.buffer.set b.head object).set b.head .vacant
      destroyed := b.destroyed ++ [b.destroyed.length]
      head := nextIndex capacity b.head
      size := b.size - 1 } xs where
  allocated := h.allocated
  head_lt := Nat.mod_lt _ capacity_pos
  tail_eq := by
    have hsize := h.size_eq
    simp only [List.length_cons] at hsize
    simp only [h.tail_eq, nextIndex, Nat.mod_add_mod]
    congr 1
    omega
  size_eq := by simp [h.size_eq]
  slots := by
    have hset : (b.buffer.set b.head object).set b.head .vacant = b.buffer.set b.head .vacant := by
      simp [CyclicBuffer.set]
    rw [hset]
    simpa [nextIndex] using h.slots.pop.congr_start (CyclicBuffer.index_mod _)
  constructed_eq := by
    have := h.constructed_eq
    simp only [List.length_cons, List.length_append, List.length_nil] at *
    omega
  destroyed_eq := by
    have hd := h.destroyed_eq
    simp only [List.length_append, List.length_singleton, List.range_succ]
    rw [← hd]

/-! ### The member functions -/

theorem emplaceBack_full (h : Represents b xs) (hfull : ¬ xs.length < capacity)
    (construction : Option T) : call (emplaceBack construction) b = (.ok false, b) := by
  have := h.length_le
  have hb : b.full = true := by
    simp only [Buffer.full, decide_eq_true_eq, h.size_eq]
    omega
  simp [emplaceBack, hb]

theorem emplaceBack_throws (h : Represents b xs) (hroom : xs.length < capacity) :
    call (emplaceBack none) b = (.error .element, b) := by
  simp [emplaceBack, h.not_full hroom,
    call_constructAt h.allocated h.tail_lt (h.tail_vacant hroom)]

theorem emplaceBack_room (h : Represents b xs) (hroom : xs.length < capacity) (value : T) :
    ∃ b', call (emplaceBack (some value)) b = (.ok true, b') ∧ Represents b' (xs ++ [value]) := by
  refine ⟨_, by simp [emplaceBack, h.not_full hroom,
    call_constructAt h.allocated h.tail_lt (h.tail_vacant hroom)]; rfl, ?_⟩
  exact {
    allocated := h.allocated
    head_lt := h.head_lt
    tail_eq := by simp [nextIndex, h.tail_eq, Nat.add_assoc]
    size_eq := by simp [h.size_eq]
    slots := by
      have hpush := h.slots.push (by simpa using hroom) ⟨b.constructed, value⟩
      rw [← CyclicBuffer.set_congr h.index_tail] at hpush
      simpa [numbered_snoc, h.constructed_eq] using hpush
    constructed_eq := by
      have := h.constructed_eq
      simp only [List.length_append, List.length_singleton]
      omega
    destroyed_eq := h.destroyed_eq }

theorem popFront_empty (h : Represents b []) (assignment : MoveAssignment T) :
    call (popFront assignment) b = (.ok none, b) := by
  simp [popFront, h.empty_eq]

theorem popFront_throws (h : Represents b (x :: xs)) {assignment : MoveAssignment T}
    (ht : assignment.throws = true) :
    call (popFront assignment) b = (.error .element, { b with
      buffer := b.buffer.set b.head (.live ⟨b.destroyed.length, assignment.left⟩) }) := by
  simp [popFront, h.empty_eq, call_moveFrom h.allocated h.head_lt h.front_live, ht]

theorem replaced (h : Represents b (x :: xs)) (y : T) :
    Represents { b with buffer := b.buffer.set b.head (.live ⟨b.destroyed.length, y⟩) }
      (y :: xs) where
  allocated := h.allocated
  head_lt := h.head_lt
  tail_eq := h.tail_eq
  size_eq := h.size_eq
  slots := h.slots.replace ⟨b.destroyed.length, y⟩
  constructed_eq := h.constructed_eq
  destroyed_eq := h.destroyed_eq

theorem popFront_succeeds (h : Represents b (x :: xs)) {assignment : MoveAssignment T}
    (ht : assignment.throws = false) :
    ∃ b', call (popFront assignment) b = (.ok (some x), b') ∧ Represents b' xs := by
  have hmoved := h.replaced assignment.left
  refine ⟨_, ?_, h.dropped (.live ⟨b.destroyed.length, assignment.left⟩)⟩
  simp [popFront, h.empty_eq, call_moveFrom h.allocated h.head_lt h.front_live, ht,
    call_destroyAt hmoved.allocated hmoved.head_lt hmoved.front_live]

theorem front_empty (h : Represents b []) :
    call front b = (.error (.runtimeError "cannot access front of empty ring_buffer"), b) := by
  simp [front, h.empty_eq]

theorem front_cons (h : Represents b (x :: xs)) : call front b = (.ok x, b) := by
  simp [front, h.empty_eq, call_objectAt h.allocated h.head_lt h.front_live]

theorem clearLoop_ends (h : Represents b xs) {fuel : ℕ} (hfuel : xs.length < fuel) :
    ∃ b', call (clearLoop fuel) b = (.ok ⟨⟩, b') ∧ Represents b' [] := by
  induction xs generalizing b fuel with
  | nil =>
    obtain ⟨fuel, rfl⟩ := Nat.exists_eq_add_of_lt hfuel
    exact ⟨b, by simp [clearLoop, h.empty_eq], h⟩
  | cons x xs ih =>
    obtain ⟨fuel, rfl⟩ := Nat.exists_eq_add_of_lt hfuel
    have hnext := h.dropped .vacant
    have hrest : xs.length < (x :: xs).length + fuel := by
      rw [List.length_cons]
      omega
    obtain ⟨b', hb', hrep⟩ := ih hnext hrest
    refine ⟨b', ?_, hrep⟩
    rw [← hb']
    simp [clearLoop, h.empty_eq, call_destroyAt h.allocated h.head_lt h.front_live,
      CyclicBuffer.set]

theorem clear_ends (h : Represents b xs) {fuel : ℕ} (hfuel : xs.length < fuel) :
    ∃ b', call (clear fuel) b = (.ok ⟨⟩, b') ∧ Represents b' [] := by
  obtain ⟨b', hb', hrep⟩ := h.clearLoop_ends hfuel
  refine ⟨_, by simp [clear, hb']; rfl, ?_⟩
  exact {
    allocated := hrep.allocated
    head_lt := capacity_pos
    tail_eq := by simp [hrep.size_eq]
    size_eq := hrep.size_eq
    slots := CyclicBuffer.Holds.of_vacant hrep.slots.vacant_of_nil 0
    constructed_eq := hrep.constructed_eq
    destroyed_eq := hrep.destroyed_eq }

theorem destroy_ends (h : Represents b xs) {fuel : ℕ} (hfuel : xs.length < fuel) :
    ∃ b', call (destroy fuel) b = (.ok ⟨⟩, b') ∧ b'.allocated = false ∧
      (∀ i, b'.buffer i = .vacant) ∧ b'.destroyed = List.range b'.constructed := by
  obtain ⟨b', hb', hrep⟩ := h.clear_ends hfuel
  refine ⟨{ b' with allocated := false }, by simp [destroy, hb', deallocate, hrep.allocated], rfl,
    hrep.slots.vacant_of_nil, ?_⟩
  rw [hrep.constructed_eq]
  exact hrep.destroyed_eq

end Represents

/-! ### Calls -/

/-- The slot holds an object. -/
def Buffer.Live (b : Buffer capacity T) (i : Fin capacity) : Prop :=
  ∃ object, b.buffer i = .live object

/-- The same indices and the same live slots. -/
def Buffer.SameShape (b b' : Buffer capacity T) : Prop :=
  b'.head = b.head ∧ b'.tail = b.tail ∧ b'.size = b.size ∧ ∀ i, b'.Live i ↔ b.Live i

theorem Represents.live_iff {b : Buffer capacity T} {xs : List T} (h : Represents b xs)
    (i : Fin capacity) : b.Live i ↔ ∃ k < b.size, i.val = (b.head + k) % capacity := by
  have hsize := h.size_eq
  constructor
  · rintro ⟨object, hobject⟩
    obtain ⟨k, hk, hcell, _⟩ := (h.slots.live_iff i object).mp hobject
    rw [length_numbered] at hk
    exact ⟨k, by omega, (congrArg Fin.val hcell).symm⟩
  · rintro ⟨k, hk, hi⟩
    have hlt : k < (numbered b.destroyed.length xs).length := by
      rw [length_numbered]
      omega
    exact ⟨_, (h.slots.live_iff i _).mpr ⟨k, hlt, Fin.ext hi.symm, rfl⟩⟩

theorem Represents.step {b : Buffer capacity T} {xs : List T} (h : Represents b xs) {fuel : ℕ}
    (hfuel : capacity < fuel) (op : Op T) :
    (step fuel b op).1 = (listStep capacity xs op).1 ∧
      Represents (step fuel b op).2 (listStep capacity xs op).2 := by
  cases op with
  | emplaceBack construction =>
    by_cases hroom : xs.length < capacity
    · cases construction with
      | some value =>
        obtain ⟨b', hb', hrep⟩ := h.emplaceBack_room hroom value
        simpa [RingBuffer.step, invoke, hb', listStep, hroom] using hrep
      | none => simpa [RingBuffer.step, invoke, h.emplaceBack_throws hroom, listStep, hroom] using h
    · simpa [RingBuffer.step, invoke, h.emplaceBack_full hroom, listStep, hroom] using h
  | popFront assignment =>
    cases xs with
    | nil => simpa [RingBuffer.step, invoke, h.popFront_empty, listStep] using h
    | cons x xs =>
      cases ht : assignment.throws with
      | true =>
        simpa [RingBuffer.step, invoke, h.popFront_throws ht, listStep, ht] using
          h.replaced assignment.left
      | false =>
        obtain ⟨b', hb', hrep⟩ := h.popFront_succeeds ht
        simpa [RingBuffer.step, invoke, hb', listStep, ht] using hrep
  | front =>
    cases xs with
    | nil => simpa [RingBuffer.step, invoke, h.front_empty, listStep] using h
    | cons x xs => simpa [RingBuffer.step, invoke, h.front_cons, listStep] using h
  | clear =>
    obtain ⟨b', hb', hrep⟩ := h.clear_ends (h.length_le.trans_lt hfuel)
    simpa [RingBuffer.step, invoke, hb', listStep] using hrep
  | empty => simpa [RingBuffer.step, invoke, listStep, h.empty_eq] using h
  | full => simpa [RingBuffer.step, invoke, listStep, Buffer.full, h.size_eq] using h
  | size => simpa [RingBuffer.step, invoke, listStep, h.size_eq] using h
  | capacity => simpa [RingBuffer.step, invoke, listStep] using h

/-- An operation that refuses changes at most the value of the first element. -/
theorem Represents.refused {b : Buffer capacity T} {xs : List T} (h : Represents b xs) {fuel : ℕ}
    (hfuel : capacity < fuel) {op : Op T} (hr : (RingBuffer.step fuel b op).1.refused = true) :
    (RingBuffer.step fuel b op).2 = b ∨ ∃ x rest y, xs = x :: rest ∧
      (RingBuffer.step fuel b op).2 =
        { b with buffer := b.buffer.set b.head (.live ⟨b.destroyed.length, y⟩) } := by
  cases op with
  | emplaceBack construction =>
    by_cases hroom : xs.length < capacity
    · cases construction with
      | some value =>
        obtain ⟨b', hb', _⟩ := h.emplaceBack_room hroom value
        simp [RingBuffer.step, invoke, hb', Result.refused] at hr
      | none => simp [RingBuffer.step, invoke, h.emplaceBack_throws hroom]
    · simp [RingBuffer.step, invoke, h.emplaceBack_full hroom]
  | popFront assignment =>
    cases xs with
    | nil => simp [RingBuffer.step, invoke, h.popFront_empty]
    | cons x xs =>
      cases ht : assignment.throws with
      | true =>
        exact Or.inr ⟨x, xs, assignment.left, rfl,
          by simp [RingBuffer.step, invoke, h.popFront_throws ht]⟩
      | false =>
        obtain ⟨b', hb', _⟩ := h.popFront_succeeds ht
        simp [RingBuffer.step, invoke, hb', Result.refused] at hr
  | front =>
    cases xs with
    | nil => simp [RingBuffer.step, invoke, h.front_empty]
    | cons x xs => simp [RingBuffer.step, invoke, h.front_cons]
  | clear =>
    obtain ⟨b', hb', _⟩ := h.clear_ends (h.length_le.trans_lt hfuel)
    simp [RingBuffer.step, invoke, hb', Result.refused] at hr
  | _ => simp [RingBuffer.step, invoke]

theorem Represents.sameShape {b : Buffer capacity T} {xs : List T} (h : Represents b xs)
    {fuel : ℕ} (hfuel : capacity < fuel) {op : Op T}
    (hr : (RingBuffer.step fuel b op).1.refused = true) :
    b.SameShape (RingBuffer.step fuel b op).2 := by
  rcases h.refused hfuel hr with hb | ⟨x, rest, y, rfl, hb⟩
  · rw [hb]
    exact ⟨rfl, rfl, rfl, fun _ => Iff.rfl⟩
  · rw [hb]
    exact ⟨rfl, rfl, rfl, fun i => ((h.replaced y).live_iff i).trans (h.live_iff i).symm⟩

theorem represents_new : ∃ b : Buffer capacity T, Buffer.new capacity T = .ok b ∧
    Represents b [] := by
  refine ⟨_, by simp [Buffer.new, validateCapacity, NeZero.ne capacity]; rfl, ?_⟩
  exact {
    allocated := rfl
    head_lt := capacity_pos
    tail_eq := by simp
    size_eq := rfl
    slots := CyclicBuffer.Holds.empty 0
    constructed_eq := rfl
    destroyed_eq := rfl }

/-- Every sequence of calls is answered as a list of at most `capacity` elements answers
it; the live objects are those from `head` on; a call that refuses leaves the indices and
the live slots as they are; and the destructor leaves nothing behind: each object that
was constructed has been destroyed once, in the order of construction. -/
theorem refines_bounded_list (capacity : ℕ) [NeZero capacity] (fuel : ℕ)
    (hfuel : capacity < fuel) :
    ∃ b₀ : Buffer capacity T, Buffer.new capacity T = .ok b₀ ∧ ∀ ops : List (Op T),
      let b := (perform (step fuel) b₀ ops).2
      let xs := (perform (listStep capacity) [] ops).2
      (perform (step fuel) b₀ ops).1 = (perform (listStep capacity) [] ops).1 ∧
      b.head < capacity ∧ b.tail = (b.head + b.size) % capacity ∧
      b.size = xs.length ∧ b.size ≤ capacity ∧
      (∀ i, b.Live i ↔ ∃ k < b.size, i.val = (b.head + k) % capacity) ∧
      (∀ op, (step fuel b op).1 ≠ .threw .undefined ∧ (step fuel b op).1 ≠ .threw .unfinished) ∧
      (∀ op, (step fuel b op).1.refused = true → b.SameShape (step fuel b op).2) ∧
      ∃ b', call (destroy fuel) b = (.ok ⟨⟩, b') ∧ (∀ i, ¬ b'.Live i) ∧
        b'.destroyed = List.range b'.constructed := by
  obtain ⟨b₀, hnew, hstart⟩ : ∃ b : Buffer capacity T, _ := represents_new
  refine ⟨b₀, hnew, fun ops => ?_⟩
  intro b xs
  have hsimulates : Simulates (step fuel) (listStep capacity) (fun _ => True)
      (fun (b : Buffer capacity T) xs => Represents b xs) := fun _ _ op h _ => h.step hfuel op
  have hops : ∀ op ∈ ops, (fun _ : Op T => True) op := fun _ _ => trivial
  obtain ⟨hanswers, hrep⟩ := hsimulates.run hstart hops
  refine ⟨hanswers, hrep.head_lt, hrep.tail_eq, hrep.size_eq, hrep.size_eq ▸ hrep.length_le,
    hrep.live_iff, fun op => ?_, fun op hr => hrep.sameShape hfuel hr, ?_⟩
  · rw [(hrep.step hfuel op).1]
    exact listStep_defined capacity xs op
  · obtain ⟨b', hb', _, hvacant, hdestroyed⟩ :=
      hrep.destroy_ends (hrep.length_le.trans_lt hfuel)
    refine ⟨b', hb', fun i => ?_, hdestroyed⟩
    rintro ⟨object, hobject⟩
    cases (hvacant i).symm.trans hobject

/-- The indices wrap, a construction and a move assignment throw, and one call is refused. -/
def wrapping : List (Op ℕ) :=
  [.emplaceBack (some 1), .emplaceBack (some 2), .emplaceBack (some 3), .popFront ⟨0, false⟩,
    .emplaceBack none, .emplaceBack (some 4), .popFront ⟨9, true⟩, .front]

theorem refines_bounded_list_wrapping :
    ∃ b₀ : Buffer 2 ℕ, Buffer.new 2 ℕ = .ok b₀ ∧
      (perform (step 3) b₀ wrapping).1 =
        [.flag true, .flag true, .flag false, .popped (some 1), .threw .element, .flag true,
          .threw .element, .reference 9] := by
  obtain ⟨b₀, hnew, hall⟩ : ∃ b₀ : Buffer 2 ℕ, _ := refines_bounded_list 2 3 (by decide)
  exact ⟨b₀, hnew, (hall wrapping).1⟩

end Obz.RingBuffer
