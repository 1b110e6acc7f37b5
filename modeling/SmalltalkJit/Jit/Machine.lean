import SmalltalkJit.Jit.CodeGenerator
import SmalltalkJit.Jit.LiveRanges

/-! # Running the emitted code

Registers, frame slots and, beside them, the values that the variables of the
method hold by the stores made on the path so far. An operation that loads an
object's word or a constant may get any value and a call may leave anything in
the registers. A called method without a frame of its own addresses its spills
off the caller's frame pointer.
-/
namespace SmalltalkJit.Jit
open Function
open Assembly Emission

structure MachineState (V : Type) where
  regs : Reg → V
  slots : Base → ℤ → V
  /-- The value last written to each variable. -/
  vars : ℕ → V

section State
variable {V : Type} (s : MachineState V)

@[simp] def MachineState.setReg (r : Reg) (v : V) : MachineState V := { s with regs := update s.regs r v }

@[simp] def MachineState.setSlot (offset : ℤ) (v : V) : MachineState V :=
  { s with slots := update s.slots .rbp (update (s.slots .rbp) offset v) }

def MachineState.setVar (index : ℕ) (v : V) : MachineState V := { s with vars := update s.vars index v }

end State

def spillOffset : Op → Option ℤ
  | .spill _ offset => some offset
  | _ => none

/-- The slots of its caller's frame that a method without a frame writes. -/
def clobberedSlots (callee : CodeGenerator) : List ℤ :=
  if callee.alloc.frameLess then (generateBody callee).flatMap fun block => block.ops.filterMap spillOffset
  else []

/-- What the environment decides in a step: the word that is loaded; or the called method, if it
is compiled Smalltalk code, and what it leaves behind. -/
inductive Choice (V : Type)
  | silent
  | value (v : V)
  | call (callee : Option CodeGenerator) (regs : Reg → V) (slots : ℤ → V)

section Exec
variable {V : Type} (nil : V)

def execOp (s : MachineState V) : Op → Choice V → Option (MachineState V)
  | .fill r base offset, .silent => some (s.setReg r (s.slots base offset))
  | .spill r offset, .silent => some (s.setSlot offset (s.regs r))
  | .loadNil r, .silent => some (s.setReg r nil)
  | .move source dest, .silent => some (s.setReg dest (s.regs source))
  | .load r, .value v => some (s.setReg r v)
  | .call, .call callee regs slots => some
      { s with
        regs := regs
        slots := update s.slots .rbp fun offset =>
          if callee.any fun callee => (clobberedSlots callee).contains offset then slots offset
          else s.slots .rbp offset }
  | .read _ _, .silent => some s
  | .write index r, .silent => some (s.setVar index (s.regs r))
  | _, _ => none

def sourceValue (s : MachineState V) : Source → V
  | .reg r => s.regs r
  | .slot offset => s.slots .rbp offset
  | .nil => nil

/-- A read must get the value last written on the path. -/
def machine : Target Op (Choice V) (MachineState V) where
  exec o choice s s' := execOp nil s o choice = some s'
  demands o s :=
    match o with
    | .read index source => sourceValue nil s source = s.vars index
    | _ => True

/-- On entry self and the arguments are in their slots and no temporary has been written. -/
structure Entry (gen : CodeGenerator) (s : MachineState V) : Prop where
  args : ∀ index, 1 ≤ index → index ≤ gen.alloc.argsSize+1 →
    s.slots gen.alloc.base (gen.alloc.frameOffset (.tmp index)) = s.vars index
  temps : ∀ index, gen.alloc.argsSize+1 < index → s.vars index = nil

end Exec

section Conditions

def tempOperand : Operand → List ℕ
  | .tempVar index | .argVar index => [index]
  | .instVarOf _ inst => [instanceIndex inst]
  | _ => []

@[simp] def operandsOf (i : Instr ℤ) : List Operand := usedOperands i ++ resultOperands i

def readTemps : Instr ℤ → List ℕ
  | .copy source (.instVarOf _ inst) => tempOperand source ++ [instanceIndex inst]
  | .copy source _ => tempOperand source
  | .send _ receiver args => (receiver :: args).flatMap tempOperand
  | .sendWithStore _ receiver args (.instVarOf _ inst) =>
    (receiver :: args).flatMap tempOperand ++ [instanceIndex inst]
  | .sendWithStore _ receiver args _ => (receiver :: args).flatMap tempOperand
  | .ret operand | .outerReturn operand | .jumpNotMemberOf _ operand _ => tempOperand operand
  | .jump _ => []

def writtenTemp : Instr ℤ → Option ℕ
  | .copy _ (.tempVar index) | .sendWithStore _ _ _ (.tempVar index) => some index
  | _ => none

def WrittenAbove (code : Bytecodes) (offset index : ℕ) : Prop :=
  ∃ pre i post, code = pre ++ i :: post ∧ bytecodesSize pre < offset ∧ writtenTemp i = some index

def isJump : Instr ℤ → Bool
  | .jump _ | .jumpNotMemberOf _ _ _ => true
  | _ => false

def isSend : Instr ℤ → Bool
  | .send _ _ _ | .sendWithStore _ _ _ _ => true
  | _ => false

def SelfUnmentioned (code : Bytecodes) : Prop :=
  (∀ i ∈ code, ∀ operand ∈ operandsOf i, .tmp selfIndex ∉ examined operand) ∨
  ∃ pre i post, code = pre ++ i :: post ∧ isSend i = true ∧
    (∀ operand ∈ resultOperands i, .tmp selfIndex ∉ examined operand) ∧
    ∀ j ∈ post, ∀ operand ∈ operandsOf j, .tmp selfIndex ∉ examined operand

/-- The end of the stream may be entered: when self is not mentioned since the last send, or by
falling through in a stream without returns. -/
def EndsWell (code : Bytecodes) (source : Option ℕ) : Prop :=
  SelfUnmentioned code ∨
  (code.any isReturn = false ∧
    (source = none ∨ ∃ pre i, code = pre ++ [i] ∧ isJump i = false ∧ source = some (bytecodesSize pre)))

variable {V : Type} (nil : V)

/-- When a path may go on at an offset: no return to a dead home came back; a temporary that is
read is written by an instruction further up or still nil; and the end answers self as expected. -/
structure MayEnter (gen : CodeGenerator) (source target : Option ℕ) (s : MachineState V) : Prop where
  live : ∀ offset operand, source = some offset →
    fetch Instr.size gen.code.bytecodes offset ≠ some (.outerReturn operand)
  temps : ∀ offset i, target = some offset → fetch Instr.size gen.code.bytecodes offset = some i →
    ∀ index ∈ readTemps i, gen.alloc.argsSize+1 < index →
      WrittenAbove gen.code.bytecodes offset index ∨ s.vars index = nil
  last : target = some (bytecodesSize gen.code.bytecodes) →
    returnsAtEnd gen.code.bytecodes = false → EndsWell gen.code.bytecodes source

/-- A method that may be called: it has a frame, or assigns no temporary. -/
def FrameSafe (callee : CodeGenerator) : Prop :=
  callee.alloc.frameLess = false ∨ ∀ i ∈ callee.code.bytecodes, writtenTemp i = none

def SafeChoice : Choice V → Prop
  | .call (some callee) _ _ => FrameSafe callee
  | _ => True

def isInstVarOf : Operand → Bool
  | .instVarOf _ _ => true
  | _ => false

/-- Associations are named in eight bits, and code without a frame does not jump or reach into
other objects. -/
structure Compilable (gen : CodeGenerator) : Prop where
  assocs : ∀ i ∈ gen.code.bytecodes, ∀ index, .assoc index ∈ operandsOf i → index < 256
  straight : gen.alloc.frameLess = true → ∀ i ∈ gen.code.bytecodes, isJump i = false ∧
    ∀ operand ∈ operandsOf i, isInstVarOf operand = false

end Conditions

end SmalltalkJit.Jit
