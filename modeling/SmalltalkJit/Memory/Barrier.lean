import SmalltalkJit.Memory.Objects

/-! # Fields, stores and the write barrier

Which words of an object are fields is read off the shape in its class. A store
into an old object of a pointer to a young one remembers the object first,
unless its tag says that it is remembered already. The remembered sets are
sound when the tags agree with them and no old object with a young referent is
missing.
-/
namespace SmalltalkJit.Memory

def shapeWord (k : RawObject) : ℕ := k.body.getD 3 0

variable (shape : Classes.InstanceShape)

def rawObjectSize (object : RawObject) : ℕ := if shape.isIndexed = 0 then 0 else object.body.getD 0 0

def computeInstanceSize (size : ℕ) : ℕ := shape.size.toNat + size*if shape.isBytes = 0 then 8 else 1

/-- The number of words from `getRawObjectVars` on that can hold pointers. -/
def varsCount (object : RawObject) : ℕ :=
  shape.varsSize.toNat +
    if shape.isIndexed ≠ 0 ∧ shape.isBytes = 0 then rawObjectSize shape object else 0

def isField (object : RawObject) (i : ℕ) : Bool := shape.offset ≤ i && i < shape.offset + varsCount shape object

section Fields
variable {T : Type}

def Heap.shapeOf (h : Heap T) (object : RawObject) : Classes.InstanceShape :=
  .ofWord (UInt64.ofNat (((h.objects object.cls).map shapeWord).getD 0))

def Heap.computeRawObjectSize (h : Heap T) (object : RawObject) : ℕ :=
  computeInstanceSize (h.shapeOf object) (rawObjectSize (h.shapeOf object) object)

def Heap.fields (h : Heap T) (object : RawObject) : List ℕ :=
  List.range' (h.shapeOf object).offset (varsCount (h.shapeOf object) object)

theorem mem_fields {h : Heap T} : i ∈ h.fields object ↔ isField (h.shapeOf object) object i = true := by
  simp [Heap.fields,isField,List.mem_range'_1]

def Heap.PlainShapes (h : Heap T) : Prop :=
  ∀ o c w, (h.objects o).map RawObject.cls = some c → (h.objects c).map shapeWord = some w →
    isPointer w = false

/-- The objects of one heap are those of another, with the same classes and the same shapes. -/
structure Heap.SameShapes (h h' : Heap T) : Prop where
  cls : ∀ o, (h'.objects o).map RawObject.cls = (h.objects o).map RawObject.cls
  word : ∀ o c, (h.objects o).map RawObject.cls = some c →
    (h'.objects c).map shapeWord = (h.objects c).map shapeWord

section SameShapes
variable {h h' h'' : Heap T} {o : Oop} {object object' : RawObject}

theorem Heap.SameShapes.refl (h : Heap T) : h.SameShapes h := ⟨fun _ => rfl,fun _ _ _ => rfl⟩

variable (hs : h.SameShapes h')
include hs

theorem Heap.SameShapes.trans (hs' : h'.SameShapes h'') : h.SameShapes h'' := by
  refine ⟨fun o => (hs'.cls o).trans (hs.cls o),fun o c hc => ?_⟩
  exact (hs'.word o c ((hs.cls o).trans hc)).trans (hs.word o c hc)

theorem Heap.SameShapes.plain (hp : h.PlainShapes) : h'.PlainShapes := by
  intro o c w hc hw
  rw [hs.cls o] at hc
  rw [hs.word o c hc] at hw
  exact hp o c w hc hw

theorem Heap.SameShapes.shapeOf (ho : h.objects o = some object)
    (hc : object'.cls = object.cls) : h'.shapeOf object' = h.shapeOf object := by
  have hw := hs.word o object.cls (by rw [ho]; rfl)
  simp only [Heap.shapeOf,hc,hw]

theorem Heap.SameShapes.exists_object (ho : h'.objects o = some object') :
    ∃ object, h.objects o = some object ∧ object.cls = object'.cls := by
  have hc := hs.cls o
  rw [ho,Option.map_some] at hc
  exact Option.map_eq_some_iff.mp hc.symm

end SameShapes

def Heap.RefersToYoung (h : Heap T) (object : RawObject) : Prop :=
  isNewObject object.cls = true ∨ ∃ i w, isField (h.shapeOf object) object i = true ∧
    object.body[i]? = some w ∧ isPointer w = true ∧ isNewObject (asObject w) = true

theorem Heap.SameShapes.refersToYoung {h h' : Heap T} (hs : h.SameShapes h') (ho : h.objects o = some x)
    (hc : object.cls = x.cls) : h'.RefersToYoung object ↔ h.RefersToYoung object := by
  have hx : h'.shapeOf object = h.shapeOf object := by
    rw [hs.shapeOf ho hc]
    simp only [Heap.shapeOf,hc]
  simp only [Heap.RefersToYoung,hx]

structure Heap.Remembered (h : Heap T) : Prop where
  tag : ∀ o object, h.objects o = some object → (object.tags.remembered = true ↔ h.Remembers o)
  edge : ∀ o object, h.objects o = some object → isOldObject o = true → h.RefersToYoung object →
    h.Remembers o

variable [DecidableEq T]

def Heap.remember (h : Heap T) (t : T) (o : Oop) (object : RawObject) : Heap T :=
  { h.set o { object with tags := { object.tags with remembered := true } } with
    threadSets := Function.update h.threadSets t ((h.threadSets t).map (·.add o)) }

def Heap.storePtr (h : Heap T) (t : T) (o : Oop) (i : ℕ) (value : Oop) : Heap T :=
  match h.objects o with
  | none => h
  | some object =>
    if isOldObject o && isNewObject value && !object.tags.remembered then
      let h := h.remember t o object
      h.set o { object with
        tags := { object.tags with remembered := true }, body := object.body.set i (tagPtr value) }
    else h.set o { object with body := object.body.set i (tagPtr value) }

def stored (o : Oop) (object : RawObject) (i : ℕ) (value : Oop) : RawObject :=
  { object with
    tags := { object.tags with
      remembered := object.tags.remembered || isOldObject o && isNewObject value }
    body := object.body.set i (tagPtr value) }

variable {h : Heap T} {t : T} {o value : Oop} {object : RawObject} {i : ℕ}

theorem storePtr_objects_self (ho : h.objects o = some object) :
    (h.storePtr t o i value).objects o = some (stored o object i value) := by
  unfold Heap.storePtr
  rw [ho]
  obtain ⟨cls,hash,⟨freeSpace,marked,forwarded,finalized,remembered⟩,body⟩ := object
  dsimp only
  split
  · rename_i hg
    simp only [Bool.and_eq_true] at hg
    simp [stored,hg.1.1,hg.1.2]
  · rename_i hg
    rw [set_objects_self]
    cases remembered
    · have hy : (isOldObject o && isNewObject value) = false := by simpa using hg
      simp [stored,hy]
    · simp [stored]

theorem storePtr_objects_other (hx : x ≠ o) : (h.storePtr t o i value).objects x = h.objects x := by
  unfold Heap.storePtr
  split
  · rfl
  · dsimp only
    split
    · simp [Heap.remember,hx]
    · simp [hx]

end Fields

end SmalltalkJit.Memory
