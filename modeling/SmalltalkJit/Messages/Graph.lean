import SmalltalkJit.Messages.Serializer
import SmalltalkJit.Snapshot.Isomorphism

/-! # What a message should carry

A heap with its symbols, its core globals and room for new objects; the graph of a
value; what it means that a value of a later memory is a copy of it; and the walk
of a graph that meets the objects in depth-first order, with the conditions under
which an object survives being written and read.
-/
namespace SmalltalkJit.Messages
open ByteStream Snapshot

/-- Symbols are interned, the globals hold objects of the heap, and there is room for three new
objects for each that there is: itself, a string with a name, and a symbol. -/
structure MessageHeap where
  memory : ObjectMemory
  handles : Handles
  globals : Word → Option Word
  symbols : List Byte → Option Word
  free : List Word
  aligned : ∀ {a}, (memory.object a).isSome → a.toNat % 4 = 0
  nil : (memory.object handles.nil).isSome
  true : (memory.object handles.true).isSome
  false : (memory.object handles.false).isSome
  string : ((memory.object handles.String).bind RawObject.instanceShape).isSome
  text : ∀ {a o shape}, memory.object a = some o → o.cls = handles.Symbol →
    shapeOf memory.object o = some shape → shape.hasBytes
  interned : ∀ {a o}, memory.object a = some o → o.cls = handles.Symbol → symbols o.bytes = some a
  symbol : ∀ {bytes a}, symbols bytes = some a →
    ∃ o, memory.object a = some o ∧ o.cls = handles.Symbol ∧ o.bytes = bytes
  key : ∀ {a v}, globals a = some v → (memory.object a).isSome
  value : ∀ {a v}, globals a = some v → isPointer v → (memory.object (asObject v)).isSome
  distinct : free.Nodup
  fresh : ∀ {b}, b ∈ free → memory.object b = none ∧ b.toNat % 4 = 0
  room : 3 * {a | (memory.object a).isSome}.ncard ≤ free.length

namespace MessageHeap
variable (heap : MessageHeap)

def isSingleton (a : Word) : Bool := a = heap.handles.nil || a = heap.handles.true || a = heap.handles.false

def isClassObject (o : RawObject) : Bool := (heap.memory.object o.cls).any fun cls => cls.cls = heap.handles.MetaClass

/-- The objects that a message names instead of copying them. -/
def Shared (a : Word) : Prop :=
  heap.isSingleton a ∨ ∃ o, heap.memory.object a = some o ∧ (o.cls = heap.handles.Symbol ∨ heap.isClassObject o)

inductive Part (root : Word) : Word → Prop
  | root (h : isPointer root) : Part root (asObject root)
  | field {a o v} (h : Part root a) (hs : ¬ heap.Shared a) (ho : heap.memory.object a = some o) (hv : v ∈ o.vars)
    (hp : isPointer v) : Part root (asObject v)

def classNamed (name : List Byte) : Word :=
  (((heap.symbols (cString name)).bind heap.globals).map asObject).getD heap.handles.nil

end MessageHeap

structure CopyOf (ψ : Word → Word) (shape : Snapshot.InstanceShape) (o o' : RawObject) : Prop where
  cls : o'.cls = o.cls
  hash : o'.hash = o.hash
  size : o'.size = o.size
  vars : o'.vars = o.vars.map (imageOf ψ)
  bytes : o'.bytes = o.bytes
  float : shape.isFloatShape → o'.payload = o.payload

/-- A value of a memory is a copy of a value of the heap: one to one, with new objects in place of
those that are not shared, and nothing else changed. -/
structure Isomorphic (heap : MessageHeap) (root root' : Word) (memory : Memory) (ψ : Word → Word) : Prop where
  value : root' = imageOf ψ root
  injective : ∀ {a b}, heap.Part root a → heap.Part root b → ψ a = ψ b → a = b
  shared : ∀ {a}, heap.Part root a → heap.Shared a → ψ a = a
  copied : ∀ {a o}, heap.Part root a → ¬ heap.Shared a → heap.memory.object a = some o →
    heap.memory.object (ψ a) = none ∧ ∃ shape o', shapeOf heap.memory.object o = some shape ∧
      memory (ψ a) = some o' ∧ CopyOf ψ shape o o'
  kept : ∀ {a o}, heap.memory.object a = some o → memory a = some o

/-- The objects in the order in which they are met, and the positions of those that are met again. -/
structure Visit where
  met : List Word
  again : List ℕ

def visitValues (visit : Visit → Word → Visit) (s : Visit) (values : List Word) : Visit :=
  values.foldl (fun s v => if isPointer v then visit s (asObject v) else s) s

namespace MessageHeap
variable (heap : MessageHeap)

/-- The values that the walk follows from an object. The named variables of an object with bytes are
not among them. -/
def followed (a : Word) : List Word :=
  match heap.memory.object a with
  | none => []
  | some o =>
    if o.cls = heap.handles.Symbol ∨ heap.isClassObject o then []
    else match shapeOf heap.memory.object o with
      | none => []
      | some shape => if shape.hasBytes then [] else o.vars

def visit : ℕ → Visit → Word → Visit
  | 0, s, _ => s
  | depth+1, s, a =>
    if heap.isSingleton a then s
    else if a ∈ s.met then { s with again := s.again ++ [s.met.idxOf a] }
    else visitValues (visit depth) { s with met := s.met ++ [a] } (heap.followed a)

def walk (root : Word) : Visit := visitValues (heap.visit maxDepth) ⟨[],[]⟩ [root]

/-- What an object needs in order to be rebuilt from what is written of it. -/
inductive Fine : Word → Prop
  | symbol {a o} (ho : heap.memory.object a = some o) (hcls : o.cls = heap.handles.Symbol)
    (hsize : o.size.toNat < 4294967296) : Fine a
  | cls {a o name text} (ho : heap.memory.object a = some o) (hcls : o.cls ≠ heap.handles.Symbol)
    (hclass : heap.isClassObject o) (hname : className o = some name)
    (htext : nameText heap.memory.object name = some text) (hshort : text.length < nameSize)
    (hfound : heap.classNamed text = a) : Fine a
  | object {a o cls shape name text} (ho : heap.memory.object a = some o) (hcls : o.cls ≠ heap.handles.Symbol)
    (hclass : ¬ heap.isClassObject o) (hc : heap.memory.object o.cls = some cls)
    (hshape : cls.instanceShape = some shape) (hname : className cls = some name)
    (htext : nameText heap.memory.object name = some text) (hshort : text.length < nameSize)
    (hfound : heap.classNamed text = o.cls) (hsize : o.size.toNat < 4294967296)
    (hvars : shape.hasBytes → ∀ v ∈ o.vars, v = tagPtr heap.handles.nil) : Fine a

/-- Every object that has been met is fine, and those that were met again have numbers of 32 bits. -/
structure Good (s : Visit) : Prop where
  fine : ∀ a ∈ s.met, heap.Fine a
  numbered : ∀ i ∈ s.again, i < 4294967296

/-- The walk of the graph of a value meets nothing that a message cannot carry. -/
def Transferable (root : Word) : Prop := heap.Good (heap.walk root)

end MessageHeap

end SmalltalkJit.Messages
