import SmalltalkJit.Messages.IdMap
import SmalltalkJit.Snapshot.Graph
import SmalltalkJit.Snapshot.Reader

/-! # Messages

A graph of objects is written as bytes, to be rebuilt in a heap. Objects are
numbered in the order in which they are first met, and one that is met again is
written as its number. Symbols and classes are written by name; an object is
written with the name of its class, and the reader takes its layout from the class
that it finds under that name among the core globals.
-/
namespace SmalltalkJit.Messages
open ByteStream Snapshot

inductive Tag
  | int
  | nil
  | true
  | false
  | symbol
  | cls
  | object
  | backref
  deriving DecidableEq

def Tag.byte : Tag → Byte
  | .int => 1
  | .nil => 2
  | .true => 3
  | .false => 4
  | .symbol => 5
  | .cls => 6
  | .object => 7
  | .backref => 8

def Tag.ofByte (b : Byte) : Option Tag :=
  [Tag.int,.nil,.true,.false,.symbol,.cls,.object,.backref].find? fun tag => tag.byte = b

@[simp] theorem Tag.ofByte_byte (tag : Tag) : Tag.ofByte tag.byte = some tag := by cases tag <;> rfl

def idBytes (id : Id) : List Byte := split 4 id.toNat

@[simp] theorem length_idBytes (id : Id) : (idBytes id).length = 4 := length_split 4 id.toNat

/-- The built-in objects that messages depend on. -/
structure Handles where
  nil : Word
  true : Word
  false : Word
  String : Word
  Symbol : Word
  MetaClass : Word
  Block : Word
  BlockContext : Word
  MethodContext : Word
  CompiledMethod : Word
  CompiledBlock : Word
  ExceptionHandler : Word
  UnwindHandler : Word

def Handles.isRejectedClass (handles : Handles) (cls : Word) : Bool :=
  cls = handles.Block || cls = handles.BlockContext || cls = handles.MethodContext ||
    cls = handles.CompiledMethod || cls = handles.CompiledBlock || cls = handles.ExceptionHandler ||
    cls = handles.UnwindHandler

def className (cls : RawObject) : Option Word := cls.vars[5]?.map asObject

def nfields (shape : Snapshot.InstanceShape) (indexed : ℕ) : ℕ :=
  shape.varsSize.toNat + if shape.isIndexed ≠ 0 then indexed else 0

structure Writer where
  buf : List Byte
  map : IdMap
  nextId : Id

def Writer.put (w : Writer) (bytes : List Byte) : Writer := { w with buf := w.buf ++ bytes }

section Writing
variable (handles : Handles) (memory : Memory)

/-- The text of a string or symbol as it is written: its size is cut to 32 bits. Nothing is said
about an object that has fewer bytes. -/
def nameText (a : Word) : Option (List Byte) :=
  (memory a).bind fun object => (shapeOf memory object).bind fun shape =>
    let len : Id := (shape.rawObjectSize object).setWidth 32
    if len.toNat ≤ object.bytes.length then some (object.bytes.take len.toNat) else none

def nameBytes (text : List Byte) : List Byte := idBytes (BitVec.ofNat 32 text.length) ++ text

def writeName (w : Writer) (a : Word) : Option Writer := (nameText memory a).map fun text => w.put (nameBytes text)

section Values
variable (writeObjectRef : Writer → Word → Option Writer)

def writeValue (w : Writer) (v : Word) : Option Writer :=
  if isPointer v then writeObjectRef w (asObject v) else some (w.put (Tag.int.byte :: wordBytes v))

def writeValues : Writer → List Word → Option Writer
  | w, [] => some w
  | w, v :: values => (writeValue writeObjectRef w v).bind fun w => writeValues w values

/-- An object that is met for the first time. Fails when its class is rejected. -/
def writeFirst (w : Writer) (a : Word) : Option Writer :=
  (memory a).bind fun o =>
    if o.cls = handles.Symbol then writeName memory (w.put [Tag.symbol.byte]) a
    else (memory o.cls).bind fun cls =>
      if cls.cls = handles.MetaClass then
        (className o).bind fun name => writeName memory (w.put [Tag.cls.byte]) name
      else if handles.isRejectedClass o.cls then none
      else cls.instanceShape.bind fun shape => (className cls).bind fun name =>
        (writeName memory (w.put [Tag.object.byte]) name).bind fun w =>
          let indexed := shape.rawObjectSize o
          let w := (w.put (wordBytes (o.hash.setWidth 64))).put (idBytes (indexed.setWidth 32))
          (if shape.hasBytes then some (w.put (o.bytes.take indexed.toNat))
            else writeValues writeObjectRef w (o.vars.take (nfields shape indexed.toNat))).map fun w =>
              if shape.isFloatShape then w.put (wordBytes (o.payload.headD 0)) else w

end Values

/-- `depth` bounds the calls that are open. -/
def writeObjectRef : ℕ → Writer → Word → Option Writer
  | 0, _, _ => none
  | depth+1, w, a =>
    if a = handles.nil then some (w.put [Tag.nil.byte])
    else if a = handles.true then some (w.put [Tag.true.byte])
    else if a = handles.false then some (w.put [Tag.false.byte])
    else if (w.map.numberOf a w.nextId).2 then
      some (Writer.put { w with map := w.map.getOrPut a w.nextId }
        (Tag.backref.byte :: idBytes (w.map.numberOf a w.nextId).1))
    else
      writeFirst handles memory (writeObjectRef depth)
        { w with map := w.map.getOrPut a w.nextId, nextId := w.nextId+1 } a

def messageSerialize (root : Word) : Option (List Byte) :=
  (writeValue (writeObjectRef handles memory maxDepth) ⟨[],.init,0⟩ root).map Writer.buf

end Writing

/-- The cursor, the objects by number, and the heap that the objects are rebuilt in: the symbols it
has interned, and the addresses that the allocator hands out next. -/
structure Reader where
  data : List Byte
  registry : List Word
  memory : Memory
  symbols : List Byte → Option Word
  free : List Word

namespace Reader
variable (r : Reader)

def curBytes (n : ℕ) : Option (List Byte × Reader) :=
  if n ≤ r.data.length then some (r.data.take n,{ r with data := r.data.drop n }) else none

def curU8 : Option (Byte × Reader) := (r.curBytes 1).map fun (bytes,r) => (bytes.headD 0,r)

def curU32 : Option (Id × Reader) := (r.curBytes 4).map fun (bytes,r) => (BitVec.ofNat 32 (combine bytes),r)

def curI64 : Option (Word × Reader) := (r.curBytes 8).map fun (bytes,r) => (BitVec.ofNat 64 (combine bytes),r)

def curName : Option (List Byte × Reader) := r.curU32.bind fun (len,r) => r.curBytes len.toNat

def regNew (a : Word) : Reader := { r with registry := r.registry ++ [a] }

def place (object : Word → RawObject) : Option (Word × Reader) :=
  match r.free with
  | [] => none
  | a :: free => some (a,{ r with memory := Function.update r.memory a (some (object a)), free := free })

def modify (a : Word) (f : RawObject → RawObject) : Reader :=
  { r with memory := Function.update r.memory a ((r.memory a).map f) }

end Reader

section Reading
variable (handles : Handles) (globals : Word → Option Word)

/-- A new object: its hash comes from its address, its fields are nil, its payload and bytes are zero. -/
def newRawObject (cls : Word) (shape : Snapshot.InstanceShape) (size a : Word) : RawObject where
  cls := cls
  hash := (a >>> 2).setWidth 32
  unused := 0
  payloadSize := shape.payloadSize
  varsSize := shape.varsSize
  tags := 0
  size := if shape.isIndexed ≠ 0 then size else 0
  payload := List.replicate shape.payloadSize.toNat 0
  vars := List.replicate (shape.varsSize.toNat + if shape.isBytes ≠ 0 then 0 else size.toNat) (tagPtr handles.nil)
  bytes := List.replicate (if shape.isBytes ≠ 0 then size.toNat else 0) 0

variable (r : Reader)

/-- What follows the header of something that is no class is not a shape. -/
def allocateObject (cls size : Word) : Option (Word × Snapshot.InstanceShape × Reader) :=
  ((r.memory cls).bind RawObject.instanceShape).bind fun shape =>
    (r.place (newRawObject handles cls shape size)).map fun (a,r) => (a,shape,r)

def newString (bytes : List Byte) : Option (Word × Reader) :=
  (allocateObject handles r handles.String (BitVec.ofNat 64 bytes.length)).map fun (a,_,r) =>
    (a,r.modify a fun object => { object with bytes := bytes })

/-- `asSymbol` of a new string. A symbol that is not in the table is a copy of the string. -/
def asSymbol (bytes : List Byte) : Option (Word × Reader) :=
  (newString handles r bytes).bind fun (string,r) =>
    match r.symbols bytes with
    | some symbol => some (symbol,r)
    | none =>
      (r.memory string).bind fun object =>
        (r.place fun _ => { object with cls := handles.Symbol }).map fun (symbol,r) =>
          (symbol,{ r with symbols := Function.update r.symbols bytes (some symbol) })

def cString (bytes : List Byte) : List Byte := bytes.takeWhile fun b => b ≠ 0

/-- The object under a name; a name that is not bound gives nil, never no object. -/
def getClass (name : List Byte) : Option (Word × Reader) :=
  (asSymbol handles r (cString name)).map fun (symbol,r) => (((globals symbol).map asObject).getD handles.nil,r)

def nameSize : ℕ := 512

section Values
variable (readValue : Reader → Option (Word × Reader))

def readFields (a : Word) : ℕ → ℕ → Reader → Option Reader
  | _, 0, r => some r
  | i, count+1, r => (readValue r).bind fun (value,r) =>
    readFields a (i+1) count (r.modify a fun object => { object with vars := object.vars.set i value })

def readBody (r : Reader) (a : Word) (shape : Snapshot.InstanceShape) (indexed : ℕ) : Option Reader :=
  (if shape.hasBytes then
    (r.curBytes indexed).map fun (bytes,r) => r.modify a fun object => { object with bytes := bytes }
  else readFields readValue a 0 (nfields shape indexed) r).bind fun r =>
    if shape.isFloatShape then
      r.curI64.map fun (bits,r) => r.modify a fun object => { object with payload := object.payload.set 0 bits }
    else some r

def readObject (r : Reader) : Option (Word × Reader) :=
  r.curName.bind fun (name,r) =>
    if name.length < nameSize then
      (getClass handles globals r name).bind fun (cls,r) => r.curI64.bind fun (hash,r) =>
        r.curU32.bind fun (indexed,r) =>
          (allocateObject handles r cls (indexed.setWidth 64)).bind fun (a,shape,r) =>
            let r := (r.modify a fun object => { object with hash := hash.setWidth 32 }).regNew a
            (readBody readValue r a shape indexed.toNat).map fun r => (tagPtr a,r)
    else none

end Values

def readBackref : Option (Word × Reader) :=
  r.curU32.bind fun (id,r) => r.registry[id.toNat]?.map fun a => (tagPtr a,r)

def readSymbol : Option (Word × Reader) :=
  r.curName.bind fun (bytes,r) => (asSymbol handles r bytes).map fun (symbol,r) => (tagPtr symbol,r.regNew symbol)

def readClass : Option (Word × Reader) :=
  r.curName.bind fun (name,r) =>
    if name.length < nameSize then
      (getClass handles globals r name).map fun (cls,r) => (tagPtr cls,r.regNew cls)
    else none

def readTagged (readValue : Reader → Option (Word × Reader)) (r : Reader) : Tag → Option (Word × Reader)
  | .int => r.curI64
  | .nil => some (tagPtr handles.nil,r)
  | .true => some (tagPtr handles.true,r)
  | .false => some (tagPtr handles.false,r)
  | .backref => readBackref r
  | .symbol => readSymbol handles r
  | .cls => readClass handles globals r
  | .object => readObject handles globals readValue r

/-- Read a value. An error ends the reading. `depth` bounds the calls that are open. -/
def readValue : ℕ → Reader → Option (Word × Reader)
  | 0, _ => none
  | depth+1, r =>
    r.curU8.bind fun (byte,r) => (Tag.ofByte byte).bind fun tag => readTagged handles globals (readValue depth) r tag

/-- The value and the memory after the reading. Every call takes a byte, so their number bounds the
calls that are open. -/
def messageDeserialize (memory : Memory) (symbols : List Byte → Option Word) (free : List Word)
    (bytes : List Byte) : Option (Word × Memory) :=
  (readValue handles globals (bytes.length+1) ⟨bytes,[],memory,symbols,free⟩).map fun (root,r) => (root,r.memory)

end Reading

end SmalltalkJit.Messages
