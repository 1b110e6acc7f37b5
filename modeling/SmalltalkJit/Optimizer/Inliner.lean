import SmalltalkJit.Bytecode.Assembler

/-! # The tier-1 bytecode inliner

`compiler/Optimizer.c`: the walk over a hot method that pairs dynamic sends with
the inline-cache cells of the superseded code, and the rewriting of an accepted
send into a class guard, spills, a copy of the callee and the original send as
fallback. Every jump is emitted through a label. The label of an original jump
is keyed by the original offset it aims at, in the stream it comes from: forward
and backward jumps to one place then share it.
-/
namespace SmalltalkJit.Inlining
open Assembly

def optMaxArgs : ℕ := 15
def optMaxLiterals : ℕ := 240
def optMaxTemps : ℕ := 120
def optMaxCalleeBytes : ℕ := 512

inductive IcState
  | unlinked
  | mono (cls : Oop)
  | pic
  | mega
  deriving DecidableEq, Repr

/-- Labels of the rewritten stream. A site is the original offset of the send it replaces. -/
inductive Label
  | orig (target : ℤ)
  | callee (site : ℕ) (target : ℤ)
  | exit (site : ℕ)
  | fallback (site : ℕ)
  | done (site : ℕ)
  deriving DecidableEq, Repr

abbrev Text := List (Item Label (Instr Label))

/-- What the code generator finds in the site map at an instruction number. -/
inductive SiteMark
  | cell (index : ℕ)
  | specGuard
  deriving DecidableEq, Repr

/-- A send that was replaced: where it stands, the cell its guard consumed and the class found
there. -/
structure InlinedSite where
  offset : ℕ
  cell : ℕ
  selector : ℕ
  guardClass : Oop
  deriving DecidableEq, Repr

structure Optimizer where
  text : Text
  literals : List Oop
  inlineAreaSize : ℕ
  oldSiteIndex : ℕ
  siteMap : List (ℕ × SiteMark)
  inlined : List InlinedSite

/-- The callee's literals, the guard class's shape and the temporary that holds the receiver. -/
structure InlineContext where
  calleeLiterals : List Oop
  shape : InstanceShape
  base : ℕ
  calleeArgs : ℕ

section Body
variable (image : Image) (ctx : InlineContext)

def adjustOperand (literals : List Oop) : Operand → Operand × List Oop
  | .tempVar index => (.tempVar (ctx.base+1 + ctx.calleeArgs + (index-2 - ctx.calleeArgs)),literals)
  | .argVar index => (.tempVar (if index = selfIndex then ctx.base else ctx.base+1 + (index-2)),literals)
  | .instVar index => (.instVarOf (ctx.shape.slot index) (.tempVar ctx.base),literals)
  | .literal index =>
    let (index',literals') := ordCollAddObjectIfNotExists image literals (ctx.calleeLiterals.getD index 0)
    (.literal index',literals')
  | .assoc index =>
    let (index',literals') := ordCollAddObjectIfNotExists image literals (ctx.calleeLiterals.getD index 0)
    (.assoc index',literals')
  | operand => (operand,literals)

def adjustOperands (literals : List Oop) : List Operand → List Operand × List Oop
  | [] => ([],literals)
  | operand :: rest =>
    let (operand',literals') := adjustOperand image ctx literals operand
    let (rest',literals'') := adjustOperands literals' rest
    (operand' :: rest',literals'')

/-- The instructions of the inlined body for one callee instruction that ends at `next`.
`result` is the destination of the replaced send, `selfCopy` whether a copy of self follows the
body. Eligibility has excluded outer returns. -/
def emitInlinedInstr (site next : ℕ) (hasNext selfCopy : Bool) (result : Option Operand)
    (literals : List Oop) : Instr ℤ → Text × List Oop
  | .copy source dest =>
    let (source',literals1) := adjustOperand image ctx literals source
    let (dest',literals2) := adjustOperand image ctx literals1 dest
    ([.instr (.copy source' dest')],literals2)
  | .send selector receiver args =>
    let (receiver',literals1) := adjustOperand image ctx literals receiver
    let (args',literals2) := adjustOperands image ctx literals1 args
    let (selector',literals3) := ordCollAddObjectIfNotExists image literals2 (ctx.calleeLiterals.getD selector 0)
    ([.instr (.send selector' receiver' args')],literals3)
  | .sendWithStore selector receiver args dest =>
    let (receiver',literals1) := adjustOperand image ctx literals receiver
    let (args',literals2) := adjustOperands image ctx literals1 args
    let (selector',literals3) := ordCollAddObjectIfNotExists image literals2 (ctx.calleeLiterals.getD selector 0)
    let (dest',literals4) := adjustOperand image ctx literals3 dest
    ([.instr (.sendWithStore selector' receiver' args' dest')],literals4)
  | .ret value =>
    let leave : Text := if hasNext || selfCopy then [.instr (.jump (.exit site))] else []
    match result with
    | some dest =>
      let (value',literals1) := adjustOperand image ctx literals value
      (.instr (.copy value' dest) :: leave,literals1)
    | none => (leave,literals)
  | .jump displacement => ([.instr (.jump (.callee site (jumpTarget next displacement)))],literals)
  | .jumpNotMemberOf classLiteral operand displacement =>
    let (operand',literals1) := adjustOperand image ctx literals operand
    let (classLiteral',literals2) :=
      ordCollAddObjectIfNotExists image literals1 (ctx.calleeLiterals.getD classLiteral 0)
    ([.instr (.jumpNotMemberOf classLiteral' operand'
      (.callee site (jumpTarget next displacement)))],literals2)
  | .outerReturn _ => ([],literals)

def emitInlinedFrom (site : ℕ) (selfCopy : Bool) (result : Option Operand) :
    ℕ → Bytecodes → List Oop → Text × List Oop
  | offset, [], literals => ([.label (.callee site offset)],literals)
  | offset, i :: rest, literals =>
    let (items,literals1) := emitInlinedInstr image ctx site (offset + i.size) (!rest.isEmpty)
      selfCopy result literals i
    let (more,literals2) := emitInlinedFrom site selfCopy result (offset + i.size) rest literals1
    (.label (.callee site offset) :: items ++ more,literals2)

end Body

def calleeCanFallThrough (callee : CompiledCode) : Bool :=
  (jumpTargets 0 callee.bytecodes).contains (bytecodesSize callee.bytecodes : ℤ) ||
    match callee.bytecodes.getLast? with
    | some (.ret _) | some (.jump _) => false
    | _ => true

/-- The copy of self for a body that can reach its end. -/
def answerSelf (base : ℕ) (selfCopy : Bool) : Option Operand → Text
  | some dest => if selfCopy then [.instr (.copy (.tempVar base) dest)] else []
  | none => []

def emitInlinedBody (image : Image) (ctx : InlineContext) (site : ℕ) (callee : CompiledCode)
    (result : Option Operand) (literals : List Oop) : Text × List Oop :=
  let selfCopy := result.isSome && calleeCanFallThrough callee
  let (items,literals') := emitInlinedFrom image ctx site selfCopy result 0 callee.bytecodes literals
  (items ++ answerSelf ctx.base selfCopy result ++ [.label (.exit site)],literals')

section Eligible
variable (shape : InstanceShape)

def operandEligible : Operand → Bool
  | .value _ | .nil | .true | .false | .tempVar _ | .argVar _ | .literal _ | .assoc _ => true
  | .instVar index => decide (shape.slot index ≤ 255)
  | .super | .thisContext | .contextVar _ _ | .block _ | .instVarOf _ _ => false

def isArgVar : Operand → Bool
  | .argVar _ => true
  | _ => false

def instrEligible : Instr ℤ → Bool
  | .copy source dest => operandEligible shape source && operandEligible shape dest && !isArgVar dest
  | .send _ receiver args => decide (args.length ≤ optMaxArgs) && (receiver :: args).all (operandEligible shape)
  | .sendWithStore _ receiver args result =>
    decide (args.length ≤ optMaxArgs) && (receiver :: args).all (operandEligible shape) &&
      operandEligible shape result && !isArgVar result
  | .ret operand => operandEligible shape operand
  | .jump _ => true
  | .jumpNotMemberOf _ operand _ => operandEligible shape operand
  | .outerReturn _ => false

def inlineEligible (tierInlineMax : ℕ) (callee : CompiledCode) : Bool :=
  callee.header.primitive = 0 && !callee.header.hasContext && callee.header.outerReturns = 0 &&
    bytecodesSize callee.bytecodes ≠ 0 && bytecodesSize callee.bytecodes ≤ tierInlineMax &&
    bytecodesSize callee.bytecodes ≤ optMaxCalleeBytes &&
    callee.bytecodes.all (instrEligible shape) &&
    (jumpTargets 0 callee.bytecodes).all (isStart callee.bytecodes)

end Eligible

/-- The guard re-reads the receiver, which must be a form it can check. -/
def guardable : Operand → Bool
  | .tempVar _ | .argVar _ | .contextVar _ _ | .instVar _ | .assoc _ => true
  | _ => false

def storable : Operand → Bool
  | .tempVar _ | .contextVar _ _ | .instVar _ | .assoc _ => true
  | _ => false

/-- Inputs of one optimization: the image, the inlining limit, the hot method and the cells of
its superseded native code. -/
structure Input where
  image : Image
  tierInlineMax : ℕ
  code : CompiledCode
  oldCells : List IcState

variable (input : Input)

def emitSend {T : Type} (selector : ℕ) (receiver : Operand) (args : List Operand) : Option Operand → Instr T
  | some result => .sendWithStore selector receiver args result
  | none => .send selector receiver args

def spillArgs : ℕ → List Operand → Text
  | _, [] => []
  | dest, arg :: args => .instr (.copy arg (.tempVar dest)) :: spillArgs (dest+1) args

def inlineContext (guardClass : Oop) (callee : CompiledCode) : InlineContext :=
  { calleeLiterals := callee.literals
    shape := (input.image.classAt guardClass).instanceShape
    base := input.code.tempsEnd
    calleeArgs := callee.header.argsSize }

/-- Guard, spills, body, jump over the fallback, fallback. -/
def inlinedItems (literals : List Oop) (site selector : ℕ) (receiver : Operand)
    (args : List Operand) (result : Option Operand) (guardClass : Oop) (callee : CompiledCode) : Text × List Oop :=
  let base := input.code.tempsEnd
  let (classLiteral,literals1) := ordCollAddObjectIfNotExists input.image literals guardClass
  let (body,literals2) := emitInlinedBody input.image (inlineContext input guardClass callee) site
    callee result literals1
  (.instr (.jumpNotMemberOf classLiteral receiver (.fallback site)) ::
    .instr (.copy receiver (.tempVar base)) :: spillArgs (base+1) args.reverse ++ body ++
    [.instr (.jump (.done site)),.label (.fallback site),
      .instr (emitSend selector receiver args result),.label (.done site)],literals2)

/-- The class of a monomorphic cell and the method that it dispatches to, when the site meets
every condition for inlining. -/
def inlineTarget (literalsSize : ℕ) (cell : ℕ) (selector : ℕ) (receiver : Operand)
    (args : List Operand) (result : Option Operand) : Option (Oop × CompiledCode) :=
  if guardable receiver && result.all storable then
    match input.oldCells[cell]? with
    | some (.mono guardClass) =>
      match lookupSelector (input.image.classAt guardClass) (input.code.literalAt selector) with
      | some callee =>
        if callee.header.argsSize = args.length &&
            inlineEligible (input.image.classAt guardClass).instanceShape input.tierInlineMax callee &&
            literalsSize + bytecodesSize callee.bytecodes / 2+1 ≤ optMaxLiterals &&
            input.code.tempsEnd-2+1 + args.length + callee.header.tempsSize ≤ optMaxTemps then
          some (guardClass,callee)
        else none
      | none => none
    | _ => none
  else none

def instructionCount (text : Text) : ℕ := (instrs text).length

/-- The accepted site, or nothing when the send has to stay. -/
def tryInlineSite (opt : Optimizer) (site cell selector : ℕ) (receiver : Operand)
    (args : List Operand) (result : Option Operand) : Option Optimizer :=
  match inlineTarget input opt.literals.length cell selector receiver args result with
  | none => none
  | some (guardClass,callee) =>
    let (items,literals) := inlinedItems input opt.literals site selector receiver args result guardClass callee
    some { opt with
      text := opt.text ++ items
      literals := literals
      inlineAreaSize := max opt.inlineAreaSize (1 + args.length + callee.header.tempsSize)
      siteMap := opt.siteMap ++ [(instructionCount opt.text,.specGuard)]
      inlined := opt.inlined ++ [⟨site,cell,selector,guardClass⟩] }

/-- The optimizer's reading of which sends the code generator turns into inline-cache sites. -/
def isDynamic (selector : ℕ) (receiver : Operand) (args : List Operand) : Bool :=
  (resolveOperandClass input.image input.code receiver).isNone &&
    classifyIdentity input.image (input.code.literalAt selector) args.length = .none

def assignedCell (opt : Optimizer) (selector : ℕ) (receiver : Operand) (args : List Operand) : Option ℕ :=
  if isDynamic input selector receiver args && opt.oldSiteIndex < input.oldCells.length then
    some opt.oldSiteIndex
  else none

def optimizeSend (opt : Optimizer) (site selector : ℕ) (receiver : Operand) (args : List Operand)
    (result : Option Operand) : Optimizer :=
  let dynamic := isDynamic input selector receiver args
  let cell := assignedCell input opt selector receiver args
  let opt := if dynamic then { opt with oldSiteIndex := opt.oldSiteIndex+1 } else opt
  match cell with
  | none => { opt with text := opt.text ++ [.instr (emitSend selector receiver args result)] }
  | some cell =>
    match (if args.length ≤ optMaxArgs then
        tryInlineSite input opt site cell selector receiver args result else none) with
    | some opt' => opt'
    | none => { opt with
        text := opt.text ++ [.instr (emitSend selector receiver args result)]
        siteMap := opt.siteMap ++ [(instructionCount opt.text,.cell cell)] }

def optimizeInstr (opt : Optimizer) (offset : ℕ) (i : Instr ℤ) : Optimizer :=
  let next := offset + i.size
  let opt := { opt with text := opt.text ++ [.label (.orig offset)] }
  match i with
  | .send selector receiver args => optimizeSend input opt offset selector receiver args none
  | .sendWithStore selector receiver args result => optimizeSend input opt offset selector receiver args (some result)
  | i => { opt with text := opt.text ++ [.instr (i.mapTarget fun d => .orig (jumpTarget next d))] }

def optimizeFrom (opt : Optimizer) : ℕ → Bytecodes → Optimizer
  | offset, [] => { opt with text := opt.text ++ [.label (.orig offset)] }
  | offset, i :: rest => optimizeFrom (optimizeInstr input opt offset i) (offset + i.size) rest

def initial : Optimizer :=
  { text := []
    literals := input.code.literals
    inlineAreaSize := 0
    oldSiteIndex := 0
    siteMap := []
    inlined := [] }

def optimizer : Optimizer := optimizeFrom input (initial input) 0 input.code.bytecodes

/-- The rewritten method: merged literals, the widened temporary area, the new stream. -/
def optimizedCode : CompiledCode :=
  { input.code with
    header := { input.code.header with
      tempsSize := input.code.header.tempsSize + (optimizer input).inlineAreaSize }
    literals := (optimizer input).literals
    bytecodes := assemble (optimizer input).text }

/-- The rewritten method with its site map and the sites that were replaced. -/
structure Optimized where
  code : CompiledCode
  siteMap : List (ℕ × SiteMark)
  inlined : List InlinedSite

/-- Nothing when no send was inlined. -/
def optimizeMethod : Option Optimized :=
  if input.tierInlineMax = 0 then none
  else if (optimizer input).inlined.isEmpty then none
  else some
    { code := optimizedCode input
      siteMap := (optimizer input).siteMap
      inlined := (optimizer input).inlined }

end SmalltalkJit.Inlining
