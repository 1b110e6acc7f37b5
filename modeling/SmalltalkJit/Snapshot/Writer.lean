import SmalltalkJit.Snapshot.Dictionary
import SmalltalkJit.Snapshot.Format

/-! # Writing a snapshot

An object is written where it is first met, with an id under which it is referred
to from then on: the shape of its class, its header, its class, its fields, and
its bytes or the bits of a float. The class and the fields are written in the
same way, so that the objects are nested in the stream as in a depth-first walk.
-/
namespace SmalltalkJit.Snapshot
open ByteStream

/-- An object: its header, the size word of an indexed object, and what follows. The named and the
indexed pointer fields are one list. -/
structure RawObject where
  cls : Word
  hash : BitVec 32
  unused : Byte
  payloadSize : Byte
  varsSize : Byte
  tags : Byte
  size : Word
  payload : List Word
  vars : List Word
  bytes : List Byte
  deriving DecidableEq

abbrev Memory := Word → Option RawObject

def RawObject.instanceShape (cls : RawObject) : Option InstanceShape := cls.vars[3]?.map snapshotDecodeShape

def shapeOf (memory : Memory) (object : RawObject) : Option InstanceShape :=
  (memory object.cls).bind RawObject.instanceShape

namespace InstanceShape
variable (shape : InstanceShape)

def rawObjectSize (object : RawObject) : Word := if shape.isIndexed ≠ 0 then object.size else 0

def fields (size : Word) : ℕ :=
  shape.varsSize.toNat + if shape.isIndexed ≠ 0 ∧ shape.isBytes = 0 then size.toNat else 0

def hasBytes : Bool := shape.isIndexed ≠ 0 && shape.isBytes ≠ 0

def isFloatShape : Bool := shape.payloadSize = 1 && shape.varsSize = 0 && shape.isIndexed = 0

end InstanceShape

structure Output where
  file : List Byte
  dict : SnapshotDictionary

namespace Output
variable (s : Output)

def write (bytes : List Byte) : Output := { s with file := s.file ++ bytes }

def writeInt64 (value : Word) : Output := s.write (wordBytes value)

end Output

section Fields
variable (writeObject : Output → Word → Option Output)

def writeFieldObject (s : Output) (object : Word) : Option Output :=
  match s.dict.at? object with
  | some (id,true) => some (s.writeInt64 (id <<< 3 ||| objectPointer))
  | _ => writeObject s object

def writeField (s : Output) (value : Word) : Option Output :=
  if isPointer value then writeFieldObject writeObject s (asObject value) else some (s.writeInt64 value)

def writeFields : Output → List Word → Option Output
  | s, [] => some s
  | s, value :: values => (writeField writeObject s value).bind fun s => writeFields s values

def writeNewObject (s : Output) (object : Word) : Option Output :=
  match s.dict.at? object with
  | some (_,true) => some s
  | _ => writeObject s object

def iterateHandles : Output → List Word → Option Output
  | s, [] => some s
  | s, object :: objects => (writeNewObject writeObject s object).bind fun s => iterateHandles s objects

end Fields

def writeObjectStart (s : Output) (a : Word) (shape : InstanceShape) (object : RawObject) : Output :=
  let id := s.dict.id a true
  let s : Output := { s with dict := s.dict.register a true }
  let s := s.writeInt64 (id <<< 3 ||| objectInline)
  let s := s.writeInt64 (snapshotEncodeShape shape)
  let s := s.writeInt64 (snapshotEncodeObjectHeader object.hash object.payloadSize object.varsSize)
  if shape.isIndexed ≠ 0 then s.writeInt64 (shape.rawObjectSize object) else s

def writeObjectEnd (s : Output) (shape : InstanceShape) (object : RawObject) : Output :=
  let s := if shape.hasBytes then s.write (object.bytes.take (shape.rawObjectSize object).toNat) else s
  if shape.isFloatShape then s.writeInt64 (object.payload.headD 0) else s

/-- The recursion ends because every call writes an object that was not written; `depth` bounds the
calls that are open. -/
def writeObject (memory : Memory) : ℕ → Output → Word → Option Output
  | 0, _, _ => none
  | depth+1, s, a =>
    (memory a).bind fun object => (shapeOf memory object).bind fun shape =>
      (writeFieldObject (writeObject memory depth) (writeObjectStart s a shape object) object.cls).bind fun s =>
        (writeFields (writeObject memory depth) s
          (object.vars.take (shape.fields (shape.rawObjectSize object)))).map fun s => writeObjectEnd s shape object

/-- Fails when an object is denoted by two handles. -/
def registerBuiltinObjects : SnapshotDictionary → ℕ → List Word → Option SnapshotDictionary
  | dict, _, [] => some dict
  | dict, position, object :: objects =>
    if dict.id object false = BitVec.ofNat 64 position then
      registerBuiltinObjects (dict.register object false) (position+1) objects
    else none

/-- More than there are addresses. -/
def maxDepth : ℕ := 18446744073709551616

/-- The built-in handles in the order of their fields, and all handles of the thread. -/
def snapshotWrite (memory : Memory) (builtins handles : List Word) : Option (List Byte) :=
  (registerBuiltinObjects .new 0 builtins).bind fun dict =>
    (iterateHandles (writeObject memory maxDepth) ⟨snapshotWriteHeader,dict⟩ handles).map Output.file

end SmalltalkJit.Snapshot
