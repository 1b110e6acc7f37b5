import SmalltalkJit.Bytecode.Semantics
import SmalltalkJit.Optimizer.Inliner

/-! # The original method with its calls followed

The reference for inlining. The original stream runs as it is, except that a
send at a chosen offset, when the receiver has the class recorded for it, is
followed into the method that the lookup finds: a fresh activation whose
temporaries all hold nil runs the callee's stream, and its answer goes where the
send stores it. All other sends stay single events. Two history components are
kept beside the state, which no step reads: the variables that the current
activation has written, and those that any followed activation ever wrote.
-/
namespace SmalltalkJit.Inlining
open Assembly Machine

/-- A callee activation. `site` is the offset of its send. -/
structure Inner (V : Type) where
  site : ℕ
  callee : CompiledCode
  result : Option Operand
  pc : ℕ
  vars : Frame V
  written : List ℕ

/-- The caller's activation, at the offset after the send while a callee is active. -/
structure CallState (V W : Type) where
  world : W
  pc : ℕ
  vars : Frame V
  inner : Option (Inner V)
  dirty : List ℕ

section Calls
variable {V W : Type} (image : Image) (rt : Runtime V W) (code : CompiledCode)
variable (guardAt : ℕ → Option Oop)

def calleeFrame (receiver : V) (args : List V) : Frame V := fun index =>
  if index = selfIndex then receiver
  else if 2 ≤ index then args.getD (index-2) rt.nil
  else rt.nil

variable (s : CallState V W)

def activate (selector : ℕ) (receiver : Operand) (args : List Operand) (result : Option Operand) : Option (Inner V) :=
  match guardAt s.pc with
  | none => none
  | some guardClass =>
    let self := readOperand image rt code s.world s.vars receiver
    if rt.classOf s.world self = guardClass then
      match lookupSelector (image.classAt guardClass) (code.literalAt selector) with
      | none => none
      | some callee => some
          { site := s.pc
            callee := callee
            result := result
            pc := 0
            vars := calleeFrame rt self (args.reverse.map (readOperand image rt code s.world s.vars))
            written := List.range' 1 (args.length+1) }
    else none

def enter (s : CallState V W) : Instr ℤ → Option (Inner V)
  | .send selector receiver args => activate image rt code guardAt s selector receiver args none
  | .sendWithStore selector receiver args result =>
    activate image rt code guardAt s selector receiver args (some result)
  | _ => none

def leave (result : Option Operand) (v : V) : Outcome (CallState V W) (Event V) (Result V) :=
  match result with
  | none => .next { s with inner := none } []
  | some dest =>
    match writeOperand image rt code s.world s.vars v dest with
    | some (world,vars,events) => .next { s with world := world, vars := vars, inner := none } events
    | none => .halt .stuck

def tempOf : Operand → List ℕ
  | .tempVar index => [index]
  | _ => []

def writtenBy : Instr ℤ → List ℕ
  | .copy _ dest | .sendWithStore _ _ _ dest => tempOf dest
  | _ => []

def resumeInner (a : Inner V) (i : Instr ℤ) :
    Outcome (Activation V W) (Event V) (Result V) → Outcome (CallState V W) (Event V) (Result V)
  | .halt r => .halt r
  | .next t events => .next
      { s with
        world := t.world
        inner := some { a with pc := t.pc, vars := t.vars, written := writtenBy i ++ a.written }
        dirty := writtenBy i ++ s.dirty } events

def resumeOuter : Outcome (Activation V W) (Event V) (Result V) → Outcome (CallState V W) (Event V) (Result V)
  | .halt r => .halt r
  | .next t events => .next { s with world := t.world, pc := t.pc, vars := t.vars } events

def innerStep (a : Inner V) : Outcome (CallState V W) (Event V) (Result V) :=
  match fetch Instr.size a.callee.bytecodes a.pc with
  | none =>
    if a.pc = bytecodesSize a.callee.bytecodes then
      leave image rt code s a.result (a.vars selfIndex)
    else .halt .stuck
  | some (.ret operand) => leave image rt code s a.result (readOperand image rt a.callee s.world a.vars operand)
  | some i => resumeInner s a i (execInstr image rt a.callee ⟨s.world,a.pc,a.vars⟩ (a.pc + i.size) i)

def outerStep : Outcome (CallState V W) (Event V) (Result V) :=
  match fetch Instr.size code.bytecodes s.pc with
  | none =>
    if s.pc = bytecodesSize code.bytecodes then .halt (.returned (s.vars selfIndex))
    else .halt .stuck
  | some i =>
    match enter image rt code guardAt s i with
    | some a => .next
        { s with pc := s.pc + i.size, inner := some a, dirty := a.written ++ s.dirty } []
    | none => resumeOuter s (execInstr image rt code ⟨s.world,s.pc,s.vars⟩ (s.pc + i.size) i)

def callStep : Outcome (CallState V W) (Event V) (Result V) :=
  match s.inner with
  | none => outerStep image rt code guardAt s
  | some a => innerStep image rt code s a

def callStart (world : W) (vars : Frame V) : CallState V W := ⟨world,0,vars,none,[]⟩

end Calls

/-- The operands whose values an instruction of a callee uses. A returned value that nobody
stores is not used. -/
def usedOperands (result : Option Operand) : Instr ℤ → List Operand
  | .copy source _ => [source]
  | .send _ receiver args | .sendWithStore _ receiver args _ => receiver :: args
  | .ret operand => if result.isSome then [operand] else []
  | .outerReturn operand => [operand]
  | .jump _ => []
  | .jumpNotMemberOf _ operand _ => [operand]

/-- No temporary is used that this activation has not written while an earlier one has written
the variable of the same number. -/
def FreshTemps {V W : Type} (s : CallState V W) : Prop :=
  ∀ a, s.inner = some a → ∀ i, fetch Instr.size a.callee.bytecodes a.pc = some i →
    ∀ index, .tempVar index ∈ usedOperands a.result i → index ∈ a.written ∨ index ∉ s.dirty

theorem freshTemps_iff (s : CallState V W) : FreshTemps s ↔ ∀ a ∈ s.inner,
      ∀ i ∈ fetch Instr.size a.callee.bytecodes a.pc, ∀ operand ∈ usedOperands a.result i, ∀ index ∈ tempOf operand,
      index ∈ a.written ∨ index ∉ s.dirty := by
  constructor
  · intro h a ha i hi operand hu index hin
    cases operand with
    | tempVar n =>
      obtain rfl : index = n := List.mem_singleton.mp hin
      exact h a ha i hi index hu
    | _ => cases hin
  · intro h a ha i hi index hu
    exact h a ha i hi (.tempVar index) hu index List.mem_cons_self

instance {V W : Type} : DecidablePred (FreshTemps (V := V) (W := W)) :=
  fun s => decidable_of_iff _ (freshTemps_iff s).symm

section WellFormed
variable (code : CompiledCode)

def OperandOk : Operand → Prop
  | .tempVar index => 2 + code.header.argsSize ≤ index ∧ index < code.tempsEnd
  | .argVar index => 1 ≤ index ∧ index < 2 + code.header.argsSize
  | .literal index | .assoc index | .block index => index < code.literals.length
  | .instVarOf _ inst => OperandOk inst
  | _ => True

def InstrOk : Instr ℤ → Prop
  | .copy source dest => OperandOk code source ∧ OperandOk code dest
  | .send selector receiver args => selector < code.literals.length ∧ OperandOk code receiver ∧
      ∀ arg ∈ args, OperandOk code arg
  | .sendWithStore selector receiver args result => selector < code.literals.length ∧
      OperandOk code receiver ∧ (∀ arg ∈ args, OperandOk code arg) ∧ OperandOk code result
  | .ret operand | .outerReturn operand => OperandOk code operand
  | .jump _ => True
  | .jumpNotMemberOf classLiteral operand _ => classLiteral < code.literals.length ∧
      OperandOk code operand

/-- A stream as the compiler emits it. -/
structure WellFormed : Prop where
  instrs : ∀ i ∈ code.bytecodes, InstrOk code i
  targets : ∀ target ∈ jumpTargets 0 code.bytecodes, isStart code.bytecodes target = true

end WellFormed

end SmalltalkJit.Inlining
