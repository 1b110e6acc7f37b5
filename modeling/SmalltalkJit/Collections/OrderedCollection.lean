import Mathlib.Data.Int.Notation
import Mathlib.Data.Nat.Notation
import Mathlib.Order.Lattice
import Mathlib.Data.Int.Order.Basic

/-! # Ordered collections

The elements lie in a window of an array, from `firstIndex` to `lastIndex`, and
the other slots are free. An index that a client gives counts from the start of
the window; the array counts from 1. An operation that signals an error leaves
the collection as it is at that moment.
-/
namespace SmalltalkJit.Collections

structure OrderedCollection (α : Type) where
  contents : List α
  firstIndex : ℤ
  lastIndex : ℤ
  deriving DecidableEq

inductive Signal (α : Type)
  | outOfRange (value lower upper : ℤ)
  | emptyCollection
  | notFound (object : α)
  | doesNotUnderstand (selector : String)
  deriving DecidableEq

def Action (α β : Type) := OrderedCollection α → Except (Signal α) β × OrderedCollection α

variable {α β γ : Type}

def Action.andThen (r : Except (Signal α) β × OrderedCollection α) (f : β → Action α γ) :
    Except (Signal α) γ × OrderedCollection α :=
  match r with
  | (.ok b,c) => f b c
  | (.error e,c) => (.error e,c)

instance : Monad (Action α) where
  pure b c := (.ok b,c)
  bind m f c := Action.andThen (m c) f

def self : Action α (OrderedCollection α) := fun c => (.ok c,c)

def change (f : OrderedCollection α → OrderedCollection α) : Action α Unit := fun c => (.ok (),f c)

def signal (e : Signal α) : Action α β := fun c => (.error e,c)

def arrayAt (array : List α) (index : ℤ) : Option α := if 1 ≤ index then array[(index-1).toNat]? else none

def arrayAtPut (array : List α) (index : ℤ) (object : α) : Option (List α) :=
  if 1 ≤ index ∧ index ≤ array.length then some (array.set (index-1).toNat object) else none

def contentsAt (index : ℤ) : Action α α := fun c =>
  match arrayAt c.contents index with
  | some object => (.ok object,c)
  | none => (.error (.outOfRange index 1 c.contents.length),c)

def contentsAtPut (index : ℤ) (object : α) : Action α α := fun c =>
  match arrayAtPut c.contents index object with
  | some contents => (.ok object,{ c with contents := contents })
  | none => (.error (.outOfRange index 1 c.contents.length),c)

/-- Turns of `replaceFrom:to:with:startingAt:` with another array. -/
def replaceFrom (replacement : List α) : ℕ → ℤ → ℤ → List α → Option (List α)
  | 0, _, _, array => some array
  | turns+1, i, j, array =>
    (arrayAt replacement j).bind fun object =>
      (arrayAtPut array i object).bind (replaceFrom replacement turns (i+1) (j+1))

/-- Turns of `replaceFrom:to:with:startingAt:` within the contents. -/
def moveDown : ℕ → ℤ → ℤ → Action α Unit
  | 0, _, _ => pure ()
  | turns+1, i, j => do
    let object ← contentsAt j
    let _ ← contentsAtPut i object
    moveDown turns (i+1) (j+1)

/-- Turns of the loop in `insert:beforeIndex:`, from index `i` down. -/
def moveUp : ℕ → ℤ → Action α Unit
  | 0, _ => pure ()
  | turns+1, i => do
    let object ← contentsAt (i-1)
    let _ ← contentsAtPut i object
    moveUp turns (i-1)

namespace OrderedCollection

def size (c : OrderedCollection α) : ℤ := c.lastIndex - c.firstIndex+1

def capacity (c : OrderedCollection α) : ℤ := c.contents.length

end OrderedCollection

def turns (start stop : ℤ) : ℕ := (stop - start+1).toNat

section Operations
variable (nil : α) (equals : α → α → Bool)

def new (n : ℕ) : OrderedCollection α := ⟨List.replicate n nil,max (n / 2) 1,max (n / 2) 1-1⟩

def atIndex (index : ℤ) : Action α α := do
  let c ← self
  let i := index + c.firstIndex-1
  if c.firstIndex ≤ i ∧ i ≤ c.lastIndex then contentsAt i else signal (.outOfRange index 1 c.size)

def atPut (index : ℤ) (object : α) : Action α α := do
  let c ← self
  let i := index + c.firstIndex-1
  if c.firstIndex ≤ i ∧ i ≤ c.lastIndex then contentsAtPut i object
  else signal (.outOfRange index 1 c.size)

def indexFrom (object : α) : ℕ → ℤ → Action α (Option ℤ)
  | 0, _ => pure none
  | turns+1, i => do
    let element ← atIndex i
    if equals element object then pure (some i) else indexFrom object turns (i+1)

variable (object : α)

def indexOf : Action α (Option ℤ) := do
  let c ← self
  indexFrom equals object (turns 1 c.size) 1

def find : Action α ℤ := do
  match ← indexOf equals object with
  | some index => pure index
  | none => signal (.notFound object)

/-- `find:` counts from the start of the window, `lastIndex` and the contents do not. -/
def after : Action α α := do
  let index ← find equals object
  let c ← self
  if index = c.lastIndex then signal (.doesNotUnderstand "errorLastObject") else contentsAt (index+1)

def before : Action α α := do
  let index ← find equals object
  let c ← self
  if index = c.firstIndex then signal (.doesNotUnderstand "errorFirstObject")
  else contentsAt (index-1)

def growBy (growSize shift : ℤ) : Action α Unit := do
  let c ← self
  let fresh := List.replicate (c.capacity + growSize).toNat nil
  match replaceFrom c.contents (turns (c.firstIndex + shift) (c.lastIndex + shift))
      (c.firstIndex + shift) c.firstIndex fresh with
  | some contents => change fun c => ⟨contents,c.firstIndex + shift,c.lastIndex + shift⟩
  | none => signal (.outOfRange c.firstIndex 1 c.capacity)

def addFirst : Action α α := do
  let c ← self
  if c.firstIndex = 1 then growBy nil (max c.capacity 8) (max c.capacity 8)
  change fun c => { c with firstIndex := c.firstIndex-1 }
  let c ← self
  contentsAtPut c.firstIndex object

def clearFrom : ℕ → ℤ → Action α Unit
  | 0, _ => pure ()
  | turns+1, i => do
    let _ ← contentsAtPut i nil
    clearFrom turns (i+1)

def makeRoomAtLast : Action α Unit := do
  let c ← self
  if c.firstIndex > 1 then
    moveDown (turns 1 c.size) 1 c.firstIndex
    clearFrom nil (turns (c.size+1) c.capacity) (c.size+1)
    change fun d => { d with firstIndex := 1, lastIndex := c.size }
  else growBy nil (max c.capacity 8) 0

def addLast : Action α α := do
  let c ← self
  if c.lastIndex = c.capacity then makeRoomAtLast nil
  change fun c => { c with lastIndex := c.lastIndex+1 }
  let c ← self
  contentsAtPut c.lastIndex object

def openSlot (index : ℤ) : Action α Unit := do
  change fun c => { c with lastIndex := c.lastIndex+1 }
  let c ← self
  moveUp (turns (index + c.firstIndex) c.lastIndex) c.lastIndex
  let _ ← contentsAtPut (index + c.firstIndex-1) object

/-- `insert:beforeIndex:` does not look whether there is such an index. -/
def insert (index : ℤ) : Action α Unit := do
  let c ← self
  if c.lastIndex = c.capacity then growBy nil (max c.capacity 8) 0
  openSlot object index

def addBeforeIndex (index : ℤ) : Action α α := do
  insert nil object index
  pure object

def addAfterIndex (index : ℤ) : Action α α := do
  insert nil object (index+1)
  pure object

def addBefore (object old : α) : Action α α := do
  let index ← find equals old
  addBeforeIndex nil object index

def addAfter (object old : α) : Action α α := do
  let index ← find equals old
  addAfterIndex nil object index

def removeIndex (index : ℤ) : Action α α := do
  let object ← atIndex index
  let c ← self
  moveDown (turns (index + c.firstIndex-1) (c.lastIndex-1)) (index + c.firstIndex-1)
    (index + c.firstIndex)
  let _ ← contentsAtPut c.lastIndex nil
  change fun c => { c with lastIndex := c.lastIndex-1 }
  pure object

/-- `remove:ifAbsent:`; the answer is none when the block is evaluated. -/
def remove : Action α (Option α) := do
  match ← indexOf equals object with
  | some index => some <$> removeIndex nil index
  | none => pure none

def emptyCheck : Action α Unit := do
  let c ← self
  if c.size = 0 then signal .emptyCollection

/-- An emptied window starts at the first slot again. -/
def rewind : Action α Unit :=
  change fun c => if c.firstIndex > c.lastIndex then { c with firstIndex := 1, lastIndex := 0 } else c

def removeFirst : Action α α := do
  emptyCheck
  let c ← self
  let object ← contentsAt c.firstIndex
  let _ ← contentsAtPut c.firstIndex nil
  change fun c => { c with firstIndex := c.firstIndex+1 }
  rewind
  pure object

def removeLast : Action α α := do
  emptyCheck
  let c ← self
  let object ← contentsAt c.lastIndex
  let _ ← contentsAtPut c.lastIndex nil
  change fun c => { c with lastIndex := c.lastIndex-1 }
  rewind
  pure object

def doFrom : ℕ → ℤ → Action α (List α)
  | 0, _ => pure []
  | turns+1, i => do
    let object ← contentsAt i
    let rest ← doFrom turns (i+1)
    pure (object :: rest)

def enumerate : Action α (List α) := do
  let c ← self
  doFrom (turns c.firstIndex c.lastIndex) c.firstIndex

end Operations

end SmalltalkJit.Collections
