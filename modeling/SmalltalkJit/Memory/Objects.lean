import SmalltalkJit.Classes.ClassTable

/-! # Heap objects and remembered sets

An object has a header (class word, hash, tags) and a body of 64-bit words; bit
3 of its address tells new space from old space. A word whose two low bits are 1
points to an object, one byte below its value. A remembered set is a chain of
blocks, the newest first; every thread fills its own and the heap has one more.
-/
namespace SmalltalkJit.Memory

def isNewObject (o : Oop) : Bool := o.testBit 3

def isOldObject (o : Oop) : Bool := !isNewObject o

def isPointer (w : ℕ) : Bool := w % 4 = 1

def asObject (w : ℕ) : Oop := w-1

def tagPtr (o : Oop) : ℕ := o+1

theorem isPointer_tagPtr (h : o % 4 = 0) : isPointer (tagPtr o) = true := by
  apply decide_eq_true
  change (o+1) % 4 = 1
  rw [Nat.add_mod,h]

/-- The bits of `ObjectTag`. -/
structure Tags where
  freeSpace : Bool
  marked : Bool
  forwarded : Bool
  finalized : Bool
  remembered : Bool
  deriving DecidableEq

def Tags.none : Tags := ⟨false,false,false,false,false⟩

structure RawObject where
  cls : Oop
  hash : ℕ
  tags : Tags
  body : List ℕ
  deriving DecidableEq

def blockSize : ℕ := 1024

/-- The entries of the newest block, and the older blocks behind it. -/
structure RememberedSet where
  head : List Oop
  prev : List (List Oop)
  deriving DecidableEq

namespace RememberedSet

def empty : RememberedSet := ⟨[],[]⟩

def members (s : RememberedSet) : List Oop := s.head ++ s.prev.flatten

/-- `rememberedSetAdd`, without the tag: a full block is left behind before the entry is written. -/
def add (s : RememberedSet) (o : Oop) : RememberedSet :=
  if s.head.length ≥ blockSize then ⟨[o],s.head :: s.prev⟩ else { s with head := s.head ++ [o] }

@[simp] theorem members_empty : empty.members = [] := rfl

end RememberedSet

/-- The objects of a heap and its remembered sets; a thread that has left has none. -/
structure Heap (T : Type) where
  objects : Oop → Option RawObject
  rememberedSet : RememberedSet
  threadSets : T → Option RememberedSet

section Heaps
variable {T : Type}

def Heap.Remembers (h : Heap T) (o : Oop) : Prop :=
  o ∈ h.rememberedSet.members ∨ ∃ t s, h.threadSets t = some s ∧ o ∈ s.members

def Heap.set (h : Heap T) (o : Oop) (object : RawObject) : Heap T :=
  { h with objects := Function.update h.objects o (some object) }

@[simp] theorem set_objects_self (h : Heap T) (o : Oop) (object : RawObject) :
    (h.set o object).objects o = some object := by
  simp [Heap.set]

@[simp] theorem set_objects_other (h : Heap T) (object : RawObject) (hx : x ≠ o) :
    (h.set o object).objects x = h.objects x := by
  simp [Heap.set,hx]

@[simp] theorem set_remembers (h : Heap T) (o : Oop) (object : RawObject) (x : Oop) :
    (h.set o object).Remembers x ↔ h.Remembers x := Iff.rfl

end Heaps

end SmalltalkJit.Memory
