import SmalltalkJit.Bytecode.Instr
import SmalltalkJit.Lib.LinearScan

/-! # Linear-scan register allocation

`computeRegsAlloc`: one pass over the bytecodes gives every variable a live
range in bytecode numbers and a frame slot, in the order of first mention; a
second pass over the variables in that order hands out the registers of the
pool by linear scan. A variable that gets none is spilled and lives in its slot
only. The bound of a range that only the stackmaps read is left out.
-/
namespace SmalltalkJit.Jit

inductive Reg
  | rax
  | rcx
  | rdx
  | rbx
  | rsi
  | rdi
  | r8
  | r9
  | r10
  | r11
  | r12
  | r13
  | r14
  | r15
  deriving DecidableEq, Repr

/-- `TMP` and `CTX` of the x64 backend. -/
abbrev Reg.tmp : Reg := .r10
abbrev Reg.ctx : Reg := .r12

def availableRegs : List Reg := [.r11,.r13,.r14,.r15,.rbx,.r9,.r8,.rcx,.rdx]

/-- The variables of a code generator: the frame's own, outer contexts by level, associations by
literal index. -/
inductive Var
  | tmp (index : ℕ)
  | context (level : ℕ)
  | assoc (index : ℕ)
  deriving DecidableEq, Repr

def contextVar (level : ℕ) : Var := if level = 0 then .tmp contextIndex else .context level

structure Interval extends LinearScan.Range Var where
  frameOffset : ℤ
  deriving DecidableEq, Repr

/-- The variables defined so far in definition order, and the next free frame slot. -/
structure Vars where
  order : List Interval
  frameSize : ℤ
  frameLess : Bool

section Scan

variable (vars : Vars)

def Vars.find (v : Var) : Option Interval := vars.order.find? fun i => i.var = v

def hasSlot : Var → Bool
  | .tmp _ | .context _ => true
  | .assoc _ => false

/-- A mention of a variable: the first one defines it, the others move the end of its range. -/
def Vars.define (v : Var) (offset : ℕ) : Vars :=
  match vars.find v with
  | some _ => { vars with
      order := vars.order.map fun i => if i.var = v then { i with stop := offset } else i }
  | none => { vars with
      order := vars.order ++ [⟨⟨v,offset,offset⟩,if hasSlot v then vars.frameSize else 0⟩]
      frameSize := if hasSlot v then vars.frameSize-1 else vars.frameSize }

/-- The first mention of an outer context also moves the end of the frame's own. -/
def defineContext (level offset : ℕ) : Vars :=
  match vars.find (contextVar level) with
  | some _ => vars.define (contextVar level) offset
  | none => (vars.define (.tmp contextIndex) offset).define (contextVar level) offset

def instanceIndex : Operand → ℕ
  | .tempVar index | .argVar index => index
  | _ => 0

def examineOperand (offset : ℕ) : Operand → Vars
  | .tempVar index | .argVar index => vars.define (.tmp index) offset
  | .super | .instVar _ => vars.define (.tmp selfIndex) offset
  | .contextVar _ level => defineContext { vars with frameLess := false } level offset
  | .assoc index => vars.define (.assoc index) offset
  | .block _ => defineContext ({ vars with frameLess := false }.define (.tmp selfIndex) offset) 0 offset
  | .instVarOf _ inst => vars.define (.tmp (instanceIndex inst)) offset
  | .value _ | .nil | .true | .false | .thisContext | .literal _ => vars

def examineOperands (offset : ℕ) (operands : List Operand) : Vars :=
  operands.foldl (fun vars operand => examineOperand vars offset operand) vars

/-- One bytecode, given its number. The result of a send is written after it. -/
def scanInstr (number : ℕ) : Instr ℤ → Vars
  | .copy source dest => examineOperands vars number [source,dest]
  | .send _ receiver args => examineOperands { vars with frameLess := false } number (receiver :: args)
  | .sendWithStore _ receiver args result =>
    examineOperand (examineOperands { vars with frameLess := false } number (receiver :: args))
      (number+1) result
  | .ret operand => examineOperand vars number operand
  | .outerReturn operand => examineOperand { vars with frameLess := false } number operand
  | .jump _ => vars
  | .jumpNotMemberOf _ operand _ => examineOperand vars number operand

def scanFrom (vars : Vars) : ℕ → Bytecodes → Vars
  | _, [] => vars
  | number, i :: rest => scanFrom (scanInstr vars number i) (number+1) rest

def isReturn : Instr ℤ → Bool
  | .ret _ | .outerReturn _ => true
  | _ => false

/-- Without any return the end of the stream answers self. -/
def scanCode (code : Bytecodes) : Vars :=
  if code.any isReturn then scanFrom vars 0 code
  else (scanFrom vars 0 code).define (.tmp selfIndex) (code.length-1)

/-- Self and the arguments, from the last one down, then the context: slot -1 is the return
address of the inline cache. -/
def initialVars (argsSize : ℕ) : Vars :=
  { order := ((List.range (argsSize+1)).reverse.map fun i => ⟨⟨.tmp (i+1),0,0⟩,(i : ℤ)⟩) ++
      [⟨⟨.tmp contextIndex,0,0⟩,-2⟩]
    frameSize := -3
    frameLess := true }

end Scan

/-- The frame's own context is pinned. -/
def pinnedRegs (v : Var) : Option Reg := if v = .tmp contextIndex then some .ctx else none

def scanRegisters (regs : List Reg) (order : List Interval) : Var → Option Reg :=
  (LinearScan.scan ⟨pinnedRegs,[],regs⟩
    ((order.filter fun i => !(i.var = .tmp contextIndex)).map Interval.toRange)).reg

structure RegsAlloc where
  order : List Interval
  reg : Var → Option Reg
  frameSize : ℕ
  frameLess : Bool
  argsSize : ℕ

def RegsAlloc.interval (alloc : RegsAlloc) (v : Var) : Option Interval := alloc.order.find? fun i => i.var = v

/-- A frameless method has no saved frame pointer between its arguments and the stack top. -/
def RegsAlloc.frameOffset (alloc : RegsAlloc) (v : Var) : ℤ :=
  let offset := ((alloc.interval v).map Interval.frameOffset).getD 0
  match v with
  | .tmp index =>
    if 1 ≤ index ∧ index ≤ alloc.argsSize+1 then offset + (if alloc.frameLess then 1 else 2)
    else offset
  | _ => offset

/-- Spilling requires a frame. -/
def computeRegsAlloc (regs : List Reg) (code : CompiledCode) : RegsAlloc :=
  let vars := scanCode (initialVars code.header.argsSize) code.bytecodes
  let reg := scanRegisters regs vars.order
  { order := vars.order
    reg := reg
    frameSize := (-vars.frameSize-1).toNat
    frameLess := vars.frameLess && vars.order.all fun i => (reg i.var).isSome
    argsSize := code.header.argsSize }

end SmalltalkJit.Jit
