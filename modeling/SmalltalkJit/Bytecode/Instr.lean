import Mathlib.Data.Int.Notation
import SmalltalkJit.Lib.Assembly

/-! # Bytecodes, compiled code and the image they refer to

The register bytecode of `compiler/Bytecodes.h` as decoded instructions, each
with the number of bytes it takes in the stream, and the part of the object
memory that the code generators consult: literals, classes, method dictionaries
and instance shapes. Jump targets are a parameter of the instruction type: a
compiled stream holds displacements, an assembler buffer holds labels.
-/
namespace SmalltalkJit

abbrev Oop := ℕ

def contextIndex : ℕ := 0
def selfIndex : ℕ := 1

/-- `Operand` of `Bytecodes.h`. Arguments and temporaries share one numbering. -/
inductive Operand
  | value (v : UInt64)
  | nil
  | true
  | false
  | thisContext
  | tempVar (index : ℕ)
  | argVar (index : ℕ)
  | super
  | contextVar (index level : ℕ)
  | instVar (index : ℕ)
  | instVarOf (index : ℕ) (inst : Operand)
  | literal (index : ℕ)
  | assoc (index : ℕ)
  | block (index : ℕ)
  deriving DecidableEq, Repr, Inhabited

def Operand.size : Operand → ℕ
  | .value _ => 9
  | .tempVar _ | .argVar _ | .instVar _ | .literal _ | .assoc _ | .block _ => 3
  | .instVarOf _ inst => 3 + inst.size
  | .contextVar _ _ => 4
  | .nil | .true | .false | .thisContext | .super => 1

/-- A bytecode. The arguments of a send stand in stream order, which is the reverse of their
source order. -/
inductive Instr (T : Type)
  | copy (source dest : Operand)
  | send (selector : ℕ) (receiver : Operand) (args : List Operand)
  | sendWithStore (selector : ℕ) (receiver : Operand) (args : List Operand) (result : Operand)
  | ret (operand : Operand)
  | outerReturn (operand : Operand)
  | jump (target : T)
  | jumpNotMemberOf (classLiteral : ℕ) (operand : Operand) (target : T)
  deriving DecidableEq, Repr

/-- Bytes of one instruction: opcode, 16-bit literal indexes, 8-bit argument count, 32-bit
displacements. -/
def Instr.size {T : Type} : Instr T → ℕ
  | .copy source dest => 1 + source.size + dest.size
  | .send _ receiver args => 4 + receiver.size + Assembly.streamSize Operand.size args
  | .sendWithStore _ receiver args result => 4 + receiver.size + Assembly.streamSize Operand.size args + result.size
  | .ret operand | .outerReturn operand => 1 + operand.size
  | .jump _ => 5
  | .jumpNotMemberOf _ operand _ => 7 + operand.size

def Instr.mapTarget {T U : Type} (f : T → U) : Instr T → Instr U
  | .copy source dest => .copy source dest
  | .send selector receiver args => .send selector receiver args
  | .sendWithStore selector receiver args result => .sendWithStore selector receiver args result
  | .ret operand => .ret operand
  | .outerReturn operand => .outerReturn operand
  | .jump target => .jump (f target)
  | .jumpNotMemberOf classLiteral operand target => .jumpNotMemberOf classLiteral operand (f target)

theorem Instr.size_pos (i : Instr T) : 0 < i.size := by cases i <;> simp only [Instr.size] <;> omega

@[simp] theorem Instr.size_mapTarget (f : T → U) (i : Instr T) : (i.mapTarget f).size = i.size := by cases i <;> rfl

/-- A stream as the compiler leaves it: jump displacements count from the end of the jump. -/
abbrev Bytecodes := List (Instr ℤ)

abbrev bytecodesSize (code : Bytecodes) : ℕ := Assembly.streamSize Instr.size code

theorem bytecodesSize_cons (i : Instr ℤ) (code : Bytecodes) :
    bytecodesSize (i :: code) = i.size + bytecodesSize code := rfl

theorem bytecodesSize_append (code rest : Bytecodes) :
    bytecodesSize (code ++ rest) = bytecodesSize code + bytecodesSize rest :=
  Assembly.streamSize_append code rest

theorem bytecodesSize_snoc (code : Bytecodes) (i : Instr ℤ) :
    bytecodesSize (code ++ [i]) = bytecodesSize code + i.size := bytecodesSize_append code [i]

def jumpTarget (next : ℕ) (displacement : ℤ) : ℤ := next + displacement

def targetsOf (next : ℕ) : Instr ℤ → List ℤ
  | .jump displacement | .jumpNotMemberOf _ _ displacement => [jumpTarget next displacement]
  | _ => []

def jumpTargets : ℕ → Bytecodes → List ℤ
  | _, [] => []
  | offset, i :: rest => targetsOf (offset + i.size) i ++ jumpTargets (offset + i.size) rest

def starts : ℕ → Bytecodes → List ℕ
  | _, [] => []
  | offset, i :: rest => offset :: starts (offset + i.size) rest

def isStart (code : Bytecodes) (target : ℤ) : Bool :=
  target = bytecodesSize code || (starts 0 code).any fun start => target = start

structure InstanceShape where
  payloadSize : ℕ
  isIndexed : Bool
  deriving DecidableEq, Repr

def InstanceShape.slot (shape : InstanceShape) (index : ℕ) : ℕ := shape.payloadSize + index + shape.isIndexed.toNat

structure CompiledCodeHeader where
  argsSize : ℕ
  tempsSize : ℕ
  hasContext : Bool
  contextSize : ℕ
  outerReturns : ℕ
  primitive : ℕ
  deriving DecidableEq, Repr

structure CompiledCode where
  isBlock : Bool
  header : CompiledCodeHeader
  literals : List Oop
  ownerClass : Oop
  bytecodes : Bytecodes
  deriving DecidableEq, Repr

def CompiledCode.literalAt (code : CompiledCode) (index : ℕ) : Oop := code.literals.getD index 0

def CompiledCode.tempsEnd (code : CompiledCode) : ℕ := 2 + code.header.argsSize + code.header.tempsSize

theorem selfIndex_lt_tempsEnd (code : CompiledCode) : selfIndex < code.tempsEnd := by
  unfold selfIndex CompiledCode.tempsEnd
  omega

theorem contextIndex_lt_tempsEnd (code : CompiledCode) : contextIndex < code.tempsEnd := by
  unfold contextIndex CompiledCode.tempsEnd
  omega

inductive Class
  | mk (oop : Oop) (instanceShape : InstanceShape) (methodDictionary : List (Oop × CompiledCode))
      (superClass : Option Class)

def Class.oop : Class → Oop
  | .mk oop _ _ _ => oop

def Class.instanceShape : Class → InstanceShape
  | .mk _ instanceShape _ _ => instanceShape

def Class.superClass : Class → Option Class
  | .mk _ _ _ superClass => superClass

def lookupSelector : Class → Oop → Option CompiledCode
  | .mk _ _ methodDictionary none, selector => methodDictionary.lookup selector
  | .mk _ _ methodDictionary (some superClass), selector =>
    match methodDictionary.lookup selector with
    | some method => some method
    | none => lookupSelector superClass selector

/-- What the compilers ask the object memory. `bytes` are the indexed bytes of a String or a
Symbol; the remaining fields are the well known objects of `Handles`. -/
structure Image where
  classAt : Oop → Class
  classOf : Oop → Oop
  classOfValue : UInt64 → Oop
  bytes : Oop → List Char
  nilObject : Oop
  undefinedObjectClass : Oop
  trueClass : Oop
  falseClass : Oop
  methodContextClass : Oop
  blockContextClass : Oop
  blockClass : Oop
  stringClass : Oop

def Image.uniform (methods : List (Oop × CompiledCode)) : Image where
  classAt _ := .mk 10 ⟨0,false⟩ methods none
  classOf _ := 11
  classOfValue _ := 12
  bytes _ := []
  nilObject := 1
  undefinedObjectClass := 2
  trueClass := 3
  falseClass := 4
  methodContextClass := 5
  blockContextClass := 6
  blockClass := 7
  stringClass := 8

/-- The class of an operand that is known at compile time. A class without superclass has nil in
its `superClass` field, and `super` then resolves to that object. -/
def resolveOperandClass (image : Image) (code : CompiledCode) : Operand → Option Oop
  | .value v => some (image.classOfValue v)
  | .nil => some image.undefinedObjectClass
  | .true => some image.trueClass
  | .false => some image.falseClass
  | .thisContext => some (if code.isBlock then image.blockContextClass else image.methodContextClass)
  | .super => some (((image.classAt code.ownerClass).superClass.map Class.oop).getD image.nilObject)
  | .literal index => some (image.classOf (code.literalAt index))
  | .block _ => some image.blockClass
  | .tempVar _ | .argVar _ | .contextVar _ _ | .instVar _ | .instVarOf _ _ | .assoc _ => none

def rawSelectorIs (image : Image) (selector : Oop) (name : String) : Bool := image.bytes selector = name.toList

inductive IdentityKind
  | none
  | eq
  | ne
  | isNil
  | notNil
  deriving DecidableEq, Repr

def classifyIdentity (image : Image) (selector : Oop) (argsSize : ℕ) : IdentityKind :=
  if argsSize = 1 then
    if rawSelectorIs image selector "==" then .eq
    else if rawSelectorIs image selector "~~" then .ne
    else .none
  else if argsSize = 0 then
    if rawSelectorIs image selector "isNil" then .isNil
    else if rawSelectorIs image selector "notNil" then .notNil
    else .none
  else .none

end SmalltalkJit
