import SmalltalkJit.Jit.RegisterAllocator
import SmalltalkJit.Lib.Emission

/-! # Emitting the body of a method

The x64 `generateBody` with everything that moves variables between registers
and the frame. Of the emitted instructions those are kept that write a register
of the pool or a frame slot, together with two marks: `read`, where the code
takes a register, slot or constant for the value of a variable, and `write`,
where a register becomes the value of one. The flags `VAR_IN_REG` and
`VAR_ON_STACK` run through the bytecodes in textual order. Assertions are off, as
in a release build.
-/
namespace SmalltalkJit.Jit
open Assembly Emission

inductive Base
  | rbp
  | rsp
  deriving DecidableEq, Repr

inductive Source
  | reg (r : Reg)
  | slot (offset : ℤ)
  | nil
  deriving DecidableEq, Repr

inductive Op
  | fill (r : Reg) (base : Base) (offset : ℤ)
  | spill (r : Reg) (offset : ℤ)
  | loadNil (r : Reg)
  | move (source dest : Reg)
  /-- A constant, or a word of an object or a context. -/
  | load (r : Reg)
  | call
  | read (index : ℕ) (source : Source)
  | write (index : ℕ) (source : Reg)
  deriving DecidableEq, Repr

structure Flags where
  inReg : Var → Bool
  onStack : Var → Bool

def Flags.setInReg (v : Var) (flags : Flags) : Flags := { flags with inReg := Function.update flags.inReg v true }

def Flags.setOnStack (v : Var) (flags : Flags) : Flags :=
  { flags with onStack := Function.update flags.onStack v true }

def invalidateRegs (flags : Flags) : Flags := { flags with inReg := fun _ => false }

inductive VariableType
  | context
  | assoc
  | tmp
  deriving DecidableEq, Repr

/-- `defineVar` is passed a type and never stores it, so that every variable keeps the zero its
record was cleared with. -/
def variableType (_ : Var) : VariableType := .context

/-- What a jump target forgets. -/
def dropFilled (flags : Flags) : Flags :=
  { flags with
    inReg := fun v => flags.inReg v && !(flags.onStack v || variableType v ≠ .tmp) }

/-- `regsLimit` shrinks the pool when it is positive; `isSpecGuard` knows the numbers of the
bytecodes that guard inlined sends. -/
structure CodeGenerator where
  image : Image
  code : CompiledCode
  regsLimit : ℕ
  fuseBooleanEnabled : Bool
  isSpecGuard : ℕ → Bool

def availableRegsSize (limit : ℕ) : ℕ :=
  if 0 < limit ∧ limit < availableRegs.length then limit else availableRegs.length

def CodeGenerator.alloc (gen : CodeGenerator) : RegsAlloc :=
  computeRegsAlloc (availableRegs.take (availableRegsSize gen.regsLimit)) gen.code

section Variables
variable (alloc : RegsAlloc)

/-- The mark of a use of a variable. The frame's own context is no argument or temporary. -/
def useVar (source : Source) : Var → List Op
  | .tmp index => if index = contextIndex then [] else [.read index source]
  | _ => []

def RegsAlloc.base : Base := if alloc.frameLess then .rsp else .rbp

def fillVar (v : Var) : Emitter Flags Op := fun flags =>
  if flags.inReg v then (flags,[])
  else
    match alloc.reg v with
    | some r => (flags.setInReg v,[.fill r alloc.base (alloc.frameOffset v)])
    | none => (flags,[])

/-- Only `fillVar` knows frameless methods: the other accessors address the slot off the frame
pointer. -/
def spillVar (v : Var) : Emitter Flags Op := fun flags =>
  match alloc.reg v with
  | some r => (flags.setOnStack v,[.spill r (alloc.frameOffset v)])
  | none => (flags,[])

def movVar (v : Var) (dest : Reg) : Emitter Flags Op := fun flags =>
  match alloc.reg v with
  | none =>
    if flags.onStack v then (flags,.fill dest .rbp (alloc.frameOffset v) :: useVar (.reg dest) v)
    else (flags,.loadNil dest :: useVar (.reg dest) v)
  | some r =>
    if flags.inReg v || flags.onStack v then
      (fillVar alloc v).andThen (emit (useVar (.reg r) v ++ [.move r dest])) flags
    else (flags,.loadNil dest :: useVar (.reg dest) v)

def RegsAlloc.regOr (v : Var) (scratch : Reg) : Reg := (alloc.reg v).getD scratch

def fillVarToReg (v : Var) (scratch : Reg) : Emitter Flags Op :=
  match alloc.reg v with
  | none => movVar alloc v scratch
  | some r => (fillVar alloc v).andThen (emit (useVar (.reg r) v))

def movToVar (source : Reg) (index : ℕ) : Emitter Flags Op :=
  match alloc.reg (.tmp index) with
  | none => (track (Flags.setOnStack (.tmp index))).andThen
      (emit [.write index source,.spill source (alloc.frameOffset (.tmp index))])
  | some r => ((track (Flags.setInReg (.tmp index))).andThen
      (emit [.write index source,.move source r])).andThen (spillVar alloc (.tmp index))

def fillContext (level : ℕ) : Emitter Flags Op := fun flags =>
  if flags.inReg (contextVar level) then (flags,[])
  else if level = 0 ∧ flags.onStack (contextVar level) then fillVar alloc (contextVar level) flags
  else
    match alloc.reg (contextVar level) with
    | none => (flags,[])
    | some r =>
      ((fillVar alloc (.tmp contextIndex)).andThen
        ((emit (if level = 0 then [] else [.load r])).andThen
          ((track (Flags.setInReg (contextVar level))).andThen
            (if level = 0 then spillVar alloc (contextVar level) else skip)))) flags

def fillContextToReg (level : ℕ) (scratch : Reg) : Emitter Flags Op :=
  match alloc.reg (contextVar level) with
  | some _ => fillContext alloc level
  | none => (fillVar alloc (.tmp contextIndex)).andThen
      (emit (if level = 0 then [] else [.load scratch]))

/-- The index is passed in eight bits. -/
def fillAssoc (index : ℕ) : Emitter Flags Op := fun flags =>
  if flags.inReg (.assoc (index % 256)) then (flags,[])
  else
    match alloc.reg (.assoc (index % 256)) with
    | some r => (flags.setInReg (.assoc (index % 256)),[.load r])
    | none => (flags,[])

/-- The allocation stub destroys the registers. -/
def generateLoadBlock : Emitter Flags Op :=
  (emit [.load .rsi,.load .rdx,.call]).andThen
    ((track invalidateRegs).andThen
      ((fillVar alloc (.tmp contextIndex)).andThen
        ((emit [.load .tmp]).andThen (fillVarToReg alloc (.tmp selfIndex) .tmp))))

def pushVar (v : Var) : Emitter Flags Op := fun flags =>
  match alloc.reg v with
  | none =>
    if flags.onStack v then (flags,useVar (.slot (alloc.frameOffset v)) v)
    else (flags,.loadNil .tmp :: useVar (.reg .tmp) v)
  | some r =>
    if flags.inReg v then (flags,useVar (.reg r) v)
    else if flags.onStack v then (flags,useVar (.slot (alloc.frameOffset v)) v)
    else (flags.setInReg v,.loadNil r :: useVar (.reg r) v)

def pushOperand : Operand → Emitter Flags Op
  | .value _ | .nil | .true | .false | .literal _ | .assoc _ => emit [.load .tmp]
  | .thisContext => fillVar alloc (.tmp contextIndex)
  | .tempVar index | .argVar index => pushVar alloc (.tmp index)
  | .super | .instVar _ => fillVarToReg alloc (.tmp selfIndex) .tmp
  | .contextVar _ level => fillContextToReg alloc level .tmp
  | .instVarOf _ inst => fillVarToReg alloc (.tmp (instanceIndex inst)) .tmp
  | .block _ => generateLoadBlock alloc

def movOperand (dest : Reg) : Operand → Emitter Flags Op
  | .value _ | .nil | .true | .false | .literal _ => emit [.load dest]
  | .thisContext => movVar alloc (.tmp contextIndex) dest
  | .tempVar index | .argVar index => movVar alloc (.tmp index) dest
  | .super => movVar alloc (.tmp selfIndex) dest
  | .contextVar _ level => (fillContextToReg alloc level .tmp).andThen (emit [.load dest])
  | .instVar _ => (fillVarToReg alloc (.tmp selfIndex) .tmp).andThen (emit [.load dest])
  | .instVarOf _ inst => (fillVarToReg alloc (.tmp (instanceIndex inst)) .tmp).andThen (emit [.load dest])
  | .assoc index =>
    (if (alloc.reg (.assoc index)).isSome then fillAssoc alloc index else emit [.load dest]).andThen
      (emit [.load dest])
  | .block _ => (generateLoadBlock alloc).andThen (emit [.move .rax dest])

/-- Stores to objects write no register of the pool once their holder is in one. -/
def movToOperand (source : Reg) : Operand → Emitter Flags Op
  | .tempVar index => movToVar alloc source index
  | .contextVar _ level => fillContextToReg alloc level .rsi
  | .instVar _ => fillVarToReg alloc (.tmp selfIndex) .rsi
  | .instVarOf _ inst => fillVarToReg alloc (.tmp (instanceIndex inst)) .rsi
  | .assoc index => if (alloc.reg (.assoc index)).isSome then fillAssoc alloc index else emit [.load .rsi]
  | _ => skip

def copySource (v : Var) : Emitter Flags Op := fun flags =>
  match alloc.reg v with
  | none => movVar alloc v .rax flags
  | some r =>
    if flags.inReg v || flags.onStack v then
      (fillVar alloc v).andThen (emit (useVar (.reg r) v)) flags
    else (flags.setInReg v,.loadNil r :: useVar (.reg r) v)

def copyToVar (source : Operand) (index : ℕ) : Emitter Flags Op :=
  match alloc.reg (.tmp index) with
  | none => (movOperand alloc .rax source).andThen
      ((emit [.write index .rax,.spill .rax (alloc.frameOffset (.tmp index))]).andThen
        (track (Flags.setOnStack (.tmp index))))
  | some r => (movOperand alloc r source).andThen
      ((emit [.write index r]).andThen
        ((track (Flags.setInReg (.tmp index))).andThen (spillVar alloc (.tmp index))))

def generateCopy (source dest : Operand) : Emitter Flags Op :=
  match source with
  | .tempVar index | .argVar index =>
    (copySource alloc (.tmp index)).andThen (movToOperand alloc (alloc.regOr (.tmp index) .rax) dest)
  | _ =>
    match dest with
    | .tempVar index => copyToVar alloc source index
    | _ => (movOperand alloc .rax source).andThen (movToOperand alloc .rax dest)

def generateSendCode (receiver : Operand) (args : List Operand) : Emitter Flags Op :=
  (emitAll (pushOperand alloc) args).andThen
    ((movOperand alloc .tmp receiver).andThen ((emit [.call]).andThen (track invalidateRegs)))

/-- Operands whose class is known are decided when the code is generated. -/
def generateClassCheck : Operand → Emitter Flags Op
  | .tempVar index | .argVar index => fillVarToReg alloc (.tmp index) .tmp
  | .contextVar _ level => (fillContextToReg alloc level .tmp).andThen (emit [.load .tmp])
  | .instVar _ => (fillVarToReg alloc (.tmp selfIndex) .tmp).andThen (emit [.load .tmp])
  | .instVarOf _ inst => (fillVarToReg alloc (.tmp (instanceIndex inst)) .tmp).andThen (emit [.load .tmp])
  | .assoc _ => emit [.load .tmp]
  | _ => skip

/-- The call is `cannotReturn:`, for a home frame that is gone. -/
def generateOuterReturn (operand : Operand) : Emitter Flags Op :=
  (movOperand alloc .rax operand).andThen
    ((fillVar alloc (.tmp contextIndex)).andThen (emit [.load .ctx,.load .rdi,.load .rsi,.call]))

end Variables

section Body
variable (gen : CodeGenerator)

/-- The targets of the jumps that lead back in a stream that starts at an offset. -/
def backwardTargetsFrom : ℕ → Bytecodes → List ℤ
  | _, [] => []
  | offset, i :: rest =>
    (targetsOf (offset + i.size) i).filter (fun target => target < ((offset + i.size : ℕ) : ℤ)) ++
      backwardTargetsFrom (offset + i.size) rest

def isBackwardTarget (code : Bytecodes) (offset : ℤ) : Bool := (backwardTargetsFrom 0 code).contains offset

def fuseOperandIsDynamic : Operand → Bool
  | .tempVar _ | .argVar _ | .instVar _ | .instVarOf _ _ | .contextVar _ _ | .assoc _ => true
  | _ => false

/-- `boolFuseSecondCheckAt`: where the check at the target, for the other Boolean class and the
same operand, sends what is no Boolean. -/
def secondCheckAt (target : ℤ) (firstClass : Oop) (operand : Operand) : Option ℤ :=
  match fetch Instr.size gen.code.bytecodes target.toNat with
  | some (.jumpNotMemberOf classLiteral operand' displacement) =>
    if (firstClass = gen.image.trueClass ∨ firstClass = gen.image.falseClass) ∧
        fuseOperandIsDynamic operand ∧ 0 ≤ target ∧ operand' = operand ∧
        gen.code.literalAt classLiteral =
          (if firstClass = gen.image.trueClass then gen.image.falseClass else gen.image.trueClass) then
      some (target + (7 + operand'.size : ℕ) + displacement)
    else none
  | _ => none

def numberAt (code : Bytecodes) (offset : ℤ) : ℕ := (starts 0 code).findIdx fun start => (start : ℤ) = offset

/-- The third target of a class check that answers the check at its own target as well. -/
def fusedTarget (number next : ℕ) (cls : Oop) (operand : Operand) (displacement : ℤ) : Option ℤ :=
  let target := jumpTarget next displacement
  if !gen.isSpecGuard number && gen.fuseBooleanEnabled && 0 < displacement &&
      (jumpTargets 0 gen.code.bytecodes).count target = 1 &&
      !isBackwardTarget gen.code.bytecodes target &&
      !gen.isSpecGuard (numberAt gen.code.bytecodes target) then
    secondCheckAt gen target cls operand
  else none

structure BodyState where
  flags : Flags
  labels : List ℤ
  fusedAway : List ℤ

structure Block where
  offset : ℕ
  ops : List Op
  succs : List ℕ

def BodyState.run (state : BodyState) (e : Emitter Flags Op) : BodyState × List Op :=
  ({ state with flags := (e state.flags).1 },(e state.flags).2)

def enterOffset (state : BodyState) (offset : ℕ) : BodyState :=
  if isBackwardTarget gen.code.bytecodes offset || state.labels.contains (offset : ℤ) then
    { state with flags := dropFilled state.flags }
  else state

/-- A jump back is bound at once and polls for a safepoint. -/
def generateJump (state : BodyState) (next : ℕ) (displacement : ℤ) : BodyState × List Op × List ℕ :=
  let target := jumpTarget next displacement
  if displacement < 0 then (state,[.call],[target.toNat])
  else ({ state with labels := target :: state.labels },[],[target.toNat])

def generateCheck (state : BodyState) (number offset next : ℕ) (classLiteral : ℕ) (operand : Operand)
    (displacement : ℤ) : BodyState × List Op × List ℕ :=
  let target := jumpTarget next displacement
  if state.fusedAway.contains (offset : ℤ) then (state,[],[next])
  else
    let (state',ops) := state.run (generateClassCheck gen.alloc operand)
    match fusedTarget gen number next (gen.code.literalAt classLiteral) operand displacement with
    | some notBool =>
      ({ state' with
          labels := target :: notBool :: state'.labels
          fusedAway := target :: state'.fusedAway },ops,[next,target.toNat,notBool.toNat])
    | none =>
      ({ state' with
          labels := if displacement < 0 then state'.labels else target :: state'.labels },ops,
        [next,target.toNat])

def generateInstr (state : BodyState) (number offset next : ℕ) : Instr ℤ → BodyState × List Op × List ℕ
  | .copy source dest =>
    let (state',ops) := state.run (generateCopy gen.alloc source dest)
    (state',ops,[next])
  | .send _ receiver args =>
    let (state',ops) := state.run (generateSendCode gen.alloc receiver args)
    (state',ops,[next])
  | .sendWithStore _ receiver args result =>
    let (state',ops) := state.run
      ((generateSendCode gen.alloc receiver args).andThen (movToOperand gen.alloc .rax result))
    (state',ops,[next])
  | .ret operand =>
    let (state',ops) := state.run (movOperand gen.alloc .rax operand)
    (state',ops,[])
  | .outerReturn operand =>
    let (state',ops) := state.run (generateOuterReturn gen.alloc operand)
    (state',ops,[next])
  | .jump displacement => generateJump state next displacement
  | .jumpNotMemberOf classLiteral operand displacement =>
    generateCheck gen state number offset next classLiteral operand displacement

def returnsAtEnd (code : Bytecodes) : Bool :=
  (match code.getLast? with
    | some (.ret _) => true
    | _ => false) ||
  code.any fun i => match i with
    | .outerReturn _ => true
    | _ => false

def generateFrom (state : BodyState) : ℕ → ℕ → Bytecodes → List Block
  | _, offset, [] =>
    [{ offset := offset
       ops := if returnsAtEnd gen.code.bytecodes then []
         else (movVar gen.alloc (.tmp selfIndex) .rax state.flags).2
       succs := [] }]
  | number, offset, i :: rest =>
    let (state',ops,succs) := generateInstr gen (enterOffset gen state offset) number offset (offset + i.size) i
    { offset := offset, ops := ops, succs := succs } ::
      generateFrom state' (number+1) (offset + i.size) rest

/-- Arguments come on the stack. A framed method and a block start with their context at hand. -/
def initialFlags : Flags :=
  { inReg := fun v => v = .tmp contextIndex && (!gen.alloc.frameLess || gen.code.isBlock)
    onStack := fun v =>
      match v with
      | .tmp index => if index = contextIndex then !gen.alloc.frameLess
          else index ≤ gen.alloc.argsSize+1
      | _ => false }

def generateBody : List Block := generateFrom gen ⟨initialFlags gen,[],[]⟩ 0 0 gen.code.bytecodes

/-- Slots that the context definition writes right after the prologue. -/
def deadContextSlot : ℤ :=
  if !gen.code.isBlock && gen.code.header.hasContext then 0
  else gen.alloc.frameOffset (.tmp contextIndex)

def clearedSlot (i : ℕ) : Option ℤ :=
  if -((i : ℤ)+1) = -1 ∨ -((i : ℤ)+1) = deadContextSlot gen then none else some (-((i : ℤ)+1))

/-- Nil in every other local slot. -/
def generatePrologue : List Op :=
  .loadNil .tmp :: ((List.range gen.alloc.frameSize).filterMap (clearedSlot gen)).map (Op.spill .tmp)

/-- The native code entry and the context go to their slots; the context of a method is allocated
first, or the thread's dummy one. -/
def generateContextDefinition : List Op :=
  .spill .r11 (-1) ::
    if gen.code.isBlock then [.spill .ctx (gen.alloc.frameOffset (.tmp contextIndex))]
    else if gen.code.header.hasContext then
      [.call,.spill .ctx (gen.alloc.frameOffset (.tmp contextIndex))]
    else [.load .tmp,.spill .tmp (gen.alloc.frameOffset (.tmp contextIndex))]

/-- The safepoint poll and the tier check of a method come before its first bytecode. -/
def generateEntry : List Op :=
  if gen.alloc.frameLess then []
  else generatePrologue gen ++ generateContextDefinition gen ++
    if gen.code.isBlock then [] else [.call,.call]

/-- The emitted code by offset; `none` is the entry. -/
def generateCode : Option ℕ → Option (List Op × List (Option ℕ))
  | none => some (generateEntry gen,[some 0])
  | some offset => ((generateBody gen).find? fun block => block.offset = offset).map fun block =>
      (block.ops,block.succs.map some)

end Body

end SmalltalkJit.Jit
