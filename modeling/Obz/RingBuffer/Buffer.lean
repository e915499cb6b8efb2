import Obz.Foundation.CyclicBuffer
import Obz.Foundation.Program

/-!
# The class `ring_buffer`

Every access to the storage asks whether it is allowed: an object is constructed
in an empty slot only, and only an object that is there is moved from or
destroyed. Everything else is `undefined`. The constructions are numbered, and
`destroyed` lists the objects whose lifetime has ended.
-/
namespace Obz.RingBuffer

open Foundation

structure Object (T : Type) where
  id : ℕ
  value : T
  deriving DecidableEq, Repr

/-- `element` is an exception of the element type, and `unfinished` a loop that has
used up the passes granted to it. -/
inductive Error where
  | invalidArgument (what : String)
  | runtimeError (what : String)
  | element
  | undefined
  | unfinished
  deriving DecidableEq, Repr

/-- What a move assignment leaves in its source, and whether it throws. -/
structure MoveAssignment (T : Type) where
  left : T
  throws : Bool
  deriving DecidableEq, Repr

structure Buffer (capacity : ℕ) (T : Type) where
  buffer : CyclicBuffer capacity (Slot (Object T))
  allocated : Bool
  head : ℕ
  tail : ℕ
  size : ℕ
  constructed : ℕ
  destroyed : List ℕ

variable {capacity : ℕ} {T : Type}

def validateCapacity (capacity : ℕ) : Except Error ℕ :=
  if capacity = 0 then
    throw (.invalidArgument "ring_buffer capacity must be greater than zero")
  else pure capacity

namespace Buffer

def new (capacity : ℕ) (T : Type) : Except Error (Buffer capacity T) :=
  (validateCapacity capacity).map fun _ => ⟨fun _ => .vacant, true, 0, 0, 0, 0, []⟩

def empty (b : Buffer capacity T) : Bool := b.size = 0

def full (b : Buffer capacity T) : Bool := b.size = capacity

end Buffer

def nextIndex (capacity index : ℕ) : ℕ := (index + 1) % capacity

/-- A member function; it may throw after it has changed the object. -/
abbrev Member (capacity : ℕ) (T α : Type) := Program Error (Buffer capacity T) α

variable [NeZero capacity]

/-! ### Access to the storage -/

def readSlot (index : ℕ) : Member capacity T (Slot (Object T)) := do
  let b ← get
  if b.allocated && decide (index < capacity) then pure (b.buffer.get index)
  else throw .undefined

/-- The object that lives in a slot. -/
def objectAt (index : ℕ) : Member capacity T (Object T) := do
  match ← readSlot index with
  | .live object => pure object
  | _ => throw .undefined

/-- `construction` is the value constructed, or `none` if the construction throws. -/
def constructAt (index : ℕ) (construction : Option T) : Member capacity T PUnit := do
  match ← readSlot index, construction with
  | .vacant, some value => modify fun b =>
      { b with
        buffer := b.buffer.set index (.live ⟨b.constructed, value⟩)
        constructed := b.constructed + 1 }
  | .vacant, none => throw .element
  | _, _ => throw .undefined

def moveFrom (index : ℕ) (assignment : MoveAssignment T) : Member capacity T T := do
  let object ← objectAt index
  modify fun b =>
    { b with buffer := b.buffer.set index (.live { object with value := assignment.left }) }
  if assignment.throws then throw .element else pure object.value

def destroyAt (index : ℕ) : Member capacity T PUnit := do
  let object ← objectAt index
  modify fun b =>
    { b with
      buffer := b.buffer.set index .vacant
      destroyed := b.destroyed ++ [object.id] }

def deallocate : Member capacity T PUnit := do
  let b ← get
  if b.allocated then modify fun b => { b with allocated := false } else throw .undefined

/-! ### Member functions -/

def emplaceBack (construction : Option T) : Member capacity T Bool := do
  let b ← get
  if b.full then pure false
  else do
    constructAt b.tail construction
    modify fun b => { b with tail := nextIndex capacity b.tail }
    modify fun b => { b with size := b.size + 1 }
    pure true

/-- The value popped, or `none` where the call returns false. -/
def popFront (assignment : MoveAssignment T) : Member capacity T (Option T) := do
  let b ← get
  if b.empty then pure none
  else do
    let current := b.head
    let value ← moveFrom current assignment
    destroyAt current
    modify fun b => { b with head := nextIndex capacity b.head }
    modify fun b => { b with size := b.size - 1 }
    pure (some value)

/-- Both overloads; the value is read through the reference. -/
def front : Member capacity T T := do
  let b ← get
  if b.empty then throw (.runtimeError "cannot access front of empty ring_buffer")
  else return (← objectAt b.head).value

def clearLoop : ℕ → Member capacity T PUnit
  | 0 => throw .unfinished
  | fuel + 1 => do
    let b ← get
    if b.empty then pure ⟨⟩
    else do
      destroyAt b.head
      modify fun b => { b with head := nextIndex capacity b.head }
      modify fun b => { b with size := b.size - 1 }
      clearLoop fuel

def clear (fuel : ℕ) : Member capacity T PUnit := do
  clearLoop fuel
  modify fun b => { b with head := 0 }
  modify fun b => { b with tail := 0 }

/-- The destructor. -/
def destroy (fuel : ℕ) : Member capacity T PUnit := do
  clear fuel
  deallocate

/-! ### Calls and their results -/

/-- `push_back` is `emplace_back`. -/
inductive Op (T : Type) where
  | emplaceBack (construction : Option T)
  | popFront (assignment : MoveAssignment T)
  | front
  | clear
  | empty
  | full
  | size
  | capacity
  deriving DecidableEq, Repr

inductive Result (T : Type) where
  | flag (value : Bool)
  | popped (value : Option T)
  | reference (value : T)
  | count (value : ℕ)
  | done
  | threw (error : Error)
  deriving DecidableEq, Repr

/-- The operation threw or returned false. -/
def Result.refused : Result T → Bool
  | .threw _ => true
  | .flag value => !value
  | .popped value => value.isNone
  | _ => false

def invoke (fuel : ℕ) : Op T → Member capacity T (Result T)
  | .emplaceBack construction => .flag <$> emplaceBack construction
  | .popFront assignment => .popped <$> popFront assignment
  | .front => .reference <$> front
  | .clear => (fun _ => .done) <$> clear fuel
  | .empty => (fun b => .flag b.empty) <$> get
  | .full => (fun b => .flag b.full) <$> get
  | .size => (fun b => .count b.size) <$> get
  | .capacity => pure (.count capacity)

/-- One call; an exception that leaves it is its result. -/
def step (fuel : ℕ) (b : Buffer capacity T) (op : Op T) : Result T × Buffer capacity T :=
  match Program.call (invoke fuel op) b with
  | (.ok result, b') => (result, b')
  | (.error error, b') => (.threw error, b')

end Obz.RingBuffer
