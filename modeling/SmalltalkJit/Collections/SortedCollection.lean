import SmalltalkJit.Collections.Sequence
import SmalltalkJit.Collections.Sorting

/-! # Sorted collections

A `SortedCollection` is an ordered collection whose `add:` looks for the place by
binary search: past every element that the sort block lets stand before the new
one. The removals are those of an ordered collection.
-/
namespace SmalltalkJit.Collections
open List OrderedCollection

variable {α : Type}

namespace SortedCollection

inductive Operation (α : Type)
  | add (object : α)
  | addAll (objects : List α)
  | remove (object : α)
  | removeFirst
  | removeLast

section Operations
variable (nil : α) (equals block : α → α → Bool)

def placeFor (x : α) (low high : ℤ) : Action α ℤ :=
  if low ≤ high then do
    let mid := (low + high) / 2
    let y ← atIndex mid
    if block y x then placeFor x (mid+1) high else placeFor x low (mid-1)
  else pure low
termination_by (high+1 - low).toNat

def add (x : α) : Action α α := do
  let c ← self
  let low ← placeFor block x 1 c.size
  addBeforeIndex nil x low

def addEach : List α → Action α Unit
  | [] => pure ()
  | x :: l => do
    let _ ← add nil block x
    addEach l

def Operation.perform : Operation α → Action α (Answer α)
  | .add x => .object <$> SortedCollection.add nil block x
  | .addAll l => (fun _ => .objects l) <$> addEach nil block l
  | .remove x => (Collections.Operation.remove x).perform nil equals
  | .removeFirst => Collections.Operation.removeFirst.perform nil equals
  | .removeLast => Collections.Operation.removeLast.perform nil equals

/-- The list with the object behind all elements that may stand before it. -/
def place (x : α) (l : List α) : List α := l.takeWhile (block · x) ++ x :: l.dropWhile (block · x)

def Operation.expected : Operation α → List α → Option (Answer α) × List α
  | .add x, l => (some (.object x),place block x l)
  | .addAll xs, l => (some (.objects xs),xs.foldl (fun l x => place block x l) l)
  | .remove x, l => (Collections.Operation.remove x).expected equals l
  | .removeFirst, l => Collections.Operation.removeFirst.expected equals l
  | .removeLast, l => Collections.Operation.removeLast.expected equals l

end Operations

section Placing
variable {b : SortBlock α} {l l1 l2 l3 pre post : List α} {x : α}

abbrev Sorted (b : SortBlock α) (l : List α) : Prop := l.Pairwise fun y z => b.value y z = true

theorem place_eq (hb : ∀ y ∈ l1, b.value y x = true) (ha : ∀ y ∈ l2, ¬b.value y x = true) :
    place b.value x (l1 ++ l2) = l1 ++ x :: l2 := by
  rw [place,takeWhile_append_of_pos hb,dropWhile_append_of_pos hb]
  cases l2 with
  | nil => simp
  | cons y =>
    have hy := ha y mem_cons_self
    simp [hy]

end Placing

variable {b : SortBlock α} {l pre post : List α}

end SortedCollection

end SmalltalkJit.Collections
