import SmalltalkJit.Lib.Machine
import SmalltalkJit.Bytecode.Instr

/-! # Running a bytecode stream

One activation runs its stream over the variables of its frame and over a world
that sends may change in any way. Sends and stores to instance variables,
context variables and associations are the observable events; a send answers a
value and a new world, or never comes back. The world is a parameter, so nothing
is assumed about what the sent messages do.
-/
namespace SmalltalkJit
open Assembly Machine

/-- Objects, contexts and associations as running code sees them. -/
structure Runtime (V W : Type) where
  nil : V
  true : V
  false : V
  ofValue : UInt64 → V
  ofLiteral : Oop → V
  newBlock : W → Oop → V → V → V
  classOf : W → V → Oop
  instVarAt : W → V → ℕ → V
  instVarPut : W → V → ℕ → V → W
  contextVarAt : W → V → ℕ → ℕ → V
  contextVarPut : W → V → ℕ → ℕ → V → W
  assocValue : W → Oop → V
  assocPut : W → Oop → V → W
  send : W → Oop → Option Oop → V → List V → Option (V × W)

/-- What an observer of a run sees. A send to `super` names the class that owns the method. -/
inductive Event (V : Type)
  | send (selector : Oop) (superOf : Option Oop) (receiver : V) (args : List V)
  | storeInstVar (object : V) (slot : ℕ) (value : V)
  | storeContextVar (context : V) (level index : ℕ) (value : V)
  | storeAssoc (assoc : Oop) (value : V)
  deriving DecidableEq

/-- How a run ends. `unwound` names a send that never returned; `stuck` is an undecodable offset
or a destination that is not one. -/
inductive Result (V : Type)
  | returned (value : V)
  | outerReturned (value : V)
  | unwound (send : Event V)
  | stuck
  deriving DecidableEq

/-- The variables of a frame by index: the context, self, the arguments, the temporaries. -/
abbrev Frame (V : Type) := ℕ → V

section Operands
variable {V W : Type} (image : Image) (rt : Runtime V W) (code : CompiledCode)

def readOperand (world : W) (vars : Frame V) : Operand → V
  | .value v => rt.ofValue v
  | .nil => rt.nil
  | .true => rt.true
  | .false => rt.false
  | .thisContext => vars contextIndex
  | .tempVar index | .argVar index => vars index
  | .super => vars selfIndex
  | .contextVar index level => rt.contextVarAt world (vars contextIndex) level index
  | .instVar index => rt.instVarAt world (vars selfIndex)
      ((image.classAt code.ownerClass).instanceShape.slot index)
  | .instVarOf index inst => rt.instVarAt world (readOperand world vars inst) index
  | .literal index => rt.ofLiteral (code.literalAt index)
  | .assoc index => rt.assocValue world (code.literalAt index)
  | .block index => rt.newBlock world (code.literalAt index) (vars selfIndex) (vars contextIndex)

def writeOperand (world : W) (vars : Frame V) (v : V) : Operand → Option (W × Frame V × List (Event V))
  | .tempVar index | .argVar index => some (world,Function.update vars index v,[])
  | .contextVar index level => some (rt.contextVarPut world (vars contextIndex) level index v,vars,
      [.storeContextVar (vars contextIndex) level index v])
  | .instVar index =>
    let slot := (image.classAt code.ownerClass).instanceShape.slot index
    some (rt.instVarPut world (vars selfIndex) slot v,vars,[.storeInstVar (vars selfIndex) slot v])
  | .instVarOf index inst =>
    let object := readOperand image rt code world vars inst
    some (rt.instVarPut world object index v,vars,[.storeInstVar object index v])
  | .assoc index => some (rt.assocPut world (code.literalAt index) v,vars,
      [.storeAssoc (code.literalAt index) v])
  | _ => none

def superOf : Operand → Option Oop
  | .super => some code.ownerClass
  | _ => none

structure Activation (V W : Type) where
  world : W
  pc : ℕ
  vars : Frame V

def storeAndGo (world : W) (vars : Frame V) (v : V) (dest : Operand) (next : ℕ)
    (events : List (Event V)) : Outcome (Activation V W) (Event V) (Result V) :=
  match writeOperand image rt code world vars v dest with
  | some (world',vars',stores) => .next ⟨world',next,vars'⟩ (events ++ stores)
  | none => .halt .stuck

def sendEvent (world : W) (vars : Frame V) (selector : ℕ) (receiver : Operand) (args : List Operand) : Event V :=
  .send (code.literalAt selector) (superOf code receiver)
    (readOperand image rt code world vars receiver)
    (args.reverse.map (readOperand image rt code world vars))

def performSend (world : W) (vars : Frame V) (selector : ℕ) (receiver : Operand)
    (args : List Operand) : Option (V × W) :=
  rt.send world (code.literalAt selector) (superOf code receiver)
    (readOperand image rt code world vars receiver)
    (args.reverse.map (readOperand image rt code world vars))

def execInstr (s : Activation V W) (next : ℕ) : Instr ℤ → Outcome (Activation V W) (Event V) (Result V)
  | .copy source dest =>
    storeAndGo image rt code s.world s.vars (readOperand image rt code s.world s.vars source)
      dest next []
  | .send selector receiver args =>
    match performSend image rt code s.world s.vars selector receiver args with
    | some (_,world) => .next ⟨world,next,s.vars⟩
        [sendEvent image rt code s.world s.vars selector receiver args]
    | none => .halt (.unwound (sendEvent image rt code s.world s.vars selector receiver args))
  | .sendWithStore selector receiver args result =>
    match performSend image rt code s.world s.vars selector receiver args with
    | some (v,world) => storeAndGo image rt code world s.vars v result next
        [sendEvent image rt code s.world s.vars selector receiver args]
    | none => .halt (.unwound (sendEvent image rt code s.world s.vars selector receiver args))
  | .ret operand => .halt (.returned (readOperand image rt code s.world s.vars operand))
  | .outerReturn operand => .halt (.outerReturned (readOperand image rt code s.world s.vars operand))
  | .jump displacement => .next ⟨s.world,(jumpTarget next displacement).toNat,s.vars⟩ []
  | .jumpNotMemberOf classLiteral operand displacement =>
    if rt.classOf s.world (readOperand image rt code s.world s.vars operand) =
        code.literalAt classLiteral then
      .next ⟨s.world,next,s.vars⟩ []
    else
      .next ⟨s.world,(jumpTarget next displacement).toNat,s.vars⟩ []

/-- A method that runs off the end of its stream answers self. -/
def step (s : Activation V W) : Outcome (Activation V W) (Event V) (Result V) :=
  match fetch Instr.size code.bytecodes s.pc with
  | some i => execInstr image rt code s (s.pc + i.size) i
  | none =>
    if s.pc = bytecodesSize code.bytecodes then .halt (.returned (s.vars selfIndex))
    else .halt .stuck

end Operands

end SmalltalkJit
