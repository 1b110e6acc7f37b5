import Mathlib.Logic.Function.Basic
import SmalltalkJit.Snapshot.Writer

/-! # Reading a snapshot

An object is allocated as soon as its shape and size are known, and its id is
entered before its class and its fields are read, so that they can refer to it.
The addresses that the allocator hands out are given in advance; the memory there
is zero.
-/
namespace SmalltalkJit.Snapshot
open ByteStream

structure Input where
  file : List Byte
  dict : SnapshotDictionary
  memory : Memory
  free : List Word

def blank (shape : InstanceShape) (indexedSize : Word) : RawObject where
  cls := 0
  hash := 0
  unused := 0
  payloadSize := 0
  varsSize := 0
  tags := 0
  size := 0
  payload := List.replicate shape.payloadSize.toNat 0
  vars := List.replicate (shape.fields indexedSize) 0
  bytes := List.replicate (if shape.hasBytes then indexedSize.toNat else 0) 0

namespace Input
variable (s : Input)

def readInt64 : Option (Word × Input) := (readWord s.file).map fun (value,file) => (value,{ s with file := file })

def allocate (shape : InstanceShape) (indexedSize : Word) : Option (Word × Input) :=
  match s.free with
  | [] => none
  | a :: free =>
    some (a,{ s with memory := Function.update s.memory a (some (blank shape indexedSize)), free := free })

def atPut (id value : Word) : Input := { s with dict := s.dict.atPut id value }

def modify (a : Word) (f : RawObject → RawObject) : Input :=
  { s with memory := Function.update s.memory a ((s.memory a).map f) }

/-- The bytes that are there; a short read is not noticed. -/
def readBytes (a : Word) (count : ℕ) : Input :=
  { s with file := s.file.drop count }.modify a fun object =>
    { object with bytes := s.file.take count ++ object.bytes.drop (s.file.take count).length }

end Input

section Fields
variable (readObject : Word → Input → Option (Word × Input))

def readField (s : Input) : Option (Word × Input) :=
  s.readInt64.bind fun (field,s) =>
    if field &&& objectFieldMask = objectInline then readObject field s
    else if field &&& objectFieldMask = objectPointer then
      (s.dict.at? (field.sshiftRight 3)).map fun assoc => (assoc.1,s)
    else some (field,s)

def readFields (a : Word) : ℕ → ℕ → Input → Option Input
  | _, 0, s => some s
  | i, count+1, s => (readField readObject s).bind fun (value,s) =>
    readFields a (i+1) count (s.modify a fun object => { object with vars := object.vars.set i value })

end Fields

def storeHeader (objectHeader indexedSize : Word) (object : RawObject) : RawObject :=
  let header := snapshotDecodeObjectHeader objectHeader
  { object with
    size := indexedSize, hash := header.1, payloadSize := header.2.1, varsSize := header.2.2, unused := 0
    tags := 0 }

def readObjectEnd (s : Input) (a : Word) (shape : InstanceShape) (indexedSize : Word) : Option Input :=
  let s := if shape.hasBytes then s.readBytes a indexedSize.toNat else s
  if shape.isFloatShape then
    s.readInt64.map fun (bits,s) => s.modify a fun object => { object with payload := object.payload.set 0 bits }
  else some s

/-- `depth` bounds the calls that are open; each has read a word of the file. -/
def readObject : ℕ → Word → Input → Option (Word × Input)
  | 0, _, _ => none
  | depth+1, field, s =>
    if field &&& objectFieldMask = objectInline then
      s.readInt64.bind fun (header,s) => s.readInt64.bind fun (objectHeader,s) =>
        let shape := snapshotDecodeShape header
        (if shape.isIndexed ≠ 0 then s.readInt64 else some (0,s)).bind fun (indexedSize,s) =>
          (s.allocate shape indexedSize).bind fun (a,s) =>
            let s := (s.atPut (field.sshiftRight 3) (tagPtr a)).modify a (storeHeader objectHeader indexedSize)
            (readField (readObject depth) s).bind fun (cls,s) =>
              if isPointer cls ∧ asObject cls ≠ 0 then
                (readFields (readObject depth) a 0 (shape.fields indexedSize)
                  (s.modify a fun object => { object with cls := asObject cls })).bind fun s =>
                    (readObjectEnd s a shape indexedSize).map fun s => (tagPtr a,s)
              else none
    else none

def readObjects (depth : ℕ) : ℕ → Input → Option Input
  | 0, _ => none
  | count+1, s =>
    match s.readInt64 with
    | none => some s
    | some (field,s) => (readObject depth field s).bind fun (_,s) => readObjects depth count s

def createBuiltinObjectsHandles (s : Input) : ℕ → ℕ → Option (List Word)
  | _, 0 => some []
  | i, count+1 => (s.dict.at? (BitVec.ofNat 64 i)).bind fun assoc =>
    (createBuiltinObjectsHandles s (i+1) count).map fun handles => asObject assoc.1 :: handles

structure Image where
  memory : Memory
  builtins : List Word

/-- Each object and each call takes a word of the file at least, so its length bounds them. -/
def snapshotRead (builtins : ℕ) (free : List Word) (file : List Byte) : Except String (Option Image) :=
  (snapshotCheckHeader file).map fun file =>
    (readObjects file.length (file.length+1) ⟨file,.new,fun _ => none,free⟩).bind fun s =>
      (createBuiltinObjectsHandles s 0 builtins).map fun builtins => ⟨s.memory,builtins⟩

end SmalltalkJit.Snapshot
