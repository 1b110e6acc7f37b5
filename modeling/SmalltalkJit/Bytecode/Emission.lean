import SmalltalkJit.Bytecode.Instr
import SmalltalkJit.Lib.Interleaving

/-! # The room of the assembler buffer

An emitter looks for room once, before it writes, and a gap behind the end takes what
runs over. A send is longer than the gap when it has many arguments.
-/
namespace SmalltalkJit
open Interleaving

def asmBufferGap : ℕ := 64

/-- Offsets from the start of the buffer. -/
structure AssemblerBuffer where
  limit : ℕ
  p : ℕ
  deriving DecidableEq

namespace AssemblerBuffer

def asmInitBuffer (size : ℕ) : AssemblerBuffer := ⟨size,0⟩

def capacity (b : AssemblerBuffer) : ℕ := b.limit + asmBufferGap

def asmEnsureCapacity (b : AssemblerBuffer) : AssemblerBuffer :=
  if b.p ≥ b.limit then ⟨(b.limit + asmBufferGap)*2 - asmBufferGap,b.p⟩ else b

/-- The check, and as many bytes as given, unless they run out of the buffer. -/
def write (b : AssemblerBuffer) (bytes : ℕ) : Option AssemblerBuffer :=
  let b := b.asmEnsureCapacity
  if b.p + bytes ≤ b.capacity then some { b with p := b.p + bytes } else none

end AssemblerBuffer

variable {T : Type}

/-- What an emitter writes after each check; `asmEmitLabel32` makes its own. -/
def Instr.chunks : Instr T → List ℕ
  | .jump _ => [1,4]
  | .jumpNotMemberOf _ operand _ => [3 + operand.size,4]
  | i => [i.size]

def emitInstr (b : AssemblerBuffer) (i : Instr T) : Option AssemblerBuffer := perform AssemblerBuffer.write b i.chunks

def emitCode (code : List (Instr T)) : Option AssemblerBuffer := perform emitInstr (.asmInitBuffer 256) code

def message (selector : ℕ) (receiver : Operand) (args : List Operand) : Option Operand → Instr T
  | none => .send selector receiver args
  | some result => .sendWithStore selector receiver args result

/-- Whatever was emitted before, the instruction is written inside the buffer. -/
def StaysInside (i : Instr T) : Prop := ∀ code b, emitCode (T := T) code = some b → (emitInstr b i).isSome

structure AssemblerBuffer.Inside (b : AssemblerBuffer) : Prop where
  limit : 0 < b.limit
  p : b.p ≤ b.capacity

section
variable {b b' : AssemblerBuffer}

theorem AssemblerBuffer.Inside.ensure (h : b.Inside) : b.asmEnsureCapacity.Inside ∧
    b.asmEnsureCapacity.p < b.asmEnsureCapacity.limit := by
  obtain ⟨hl,hp⟩ := h
  unfold asmEnsureCapacity
  unfold capacity asmBufferGap at *
  split
  · refine ⟨⟨?_,?_⟩,?_⟩ <;> simp only [capacity,asmBufferGap] <;> omega
  · exact ⟨⟨hl,hp⟩,by omega⟩

theorem AssemblerBuffer.Inside.write (h : b.Inside) (hw : b.write bytes = some b') : b'.Inside := by
  obtain ⟨hr,heq⟩ := Option.ite_none_right_eq_some.mp hw
  cases heq
  exact ⟨h.ensure.1.limit,hr⟩

theorem inside_of_emitCode (h : emitCode code = some b) : b.Inside :=
  invariant (P := AssemblerBuffer.Inside) (fun _ _ _ hb hs => invariant (fun _ _ _ hb hw => hb.write hw) hb hs)
    ⟨by decide,Nat.zero_le _⟩ h

end

theorem emitInstr_message (b : AssemblerBuffer) (selector : ℕ) (receiver : Operand) (args : List Operand)
    (result : Option Operand) : emitInstr b (message (T := T) selector receiver args result) =
      b.write (message (T := T) selector receiver args result).size := by
  unfold emitInstr
  cases result with
  | none | some =>
    simp only [message,Instr.chunks,perform]
    split <;> simp_all

def filling : Instr T := message 0 (.contextVar 0 0) (List.replicate 27 (.value 0)) (some (.contextVar 0 0))

theorem emitCode_filling : emitCode [filling (T := T)] = some ⟨256,255⟩ := by
  have hs : (filling (T := T)).size = 255 := rfl
  have hw : (AssemblerBuffer.asmInitBuffer 256).write 255 = some ⟨256,255⟩ := by decide
  rw [emitCode,perform,filling,emitInstr_message,← filling,hs,hw]
  rfl

/-- A send stays inside whatever was emitted before exactly when it takes at most 65 bytes. -/
theorem staysInside_message_iff (selector : ℕ) (receiver : Operand) (args : List Operand) (result : Option Operand) :
    StaysInside (message (T := T) selector receiver args result) ↔
      (message (T := T) selector receiver args result).size ≤ 65 := by
  simp only [StaysInside,emitInstr_message]
  generalize (message (T := T) selector receiver args result).size = size
  constructor
  · intro h
    obtain ⟨b,hb⟩ := Option.isSome_iff_exists.mp (h [filling] _ emitCode_filling)
    have hr : 255 + size ≤ 320 := (Option.ite_none_right_eq_some.mp hb).1
    omega
  · intro hs code b hb
    obtain ⟨-,hlt⟩ := (inside_of_emitCode hb).ensure
    have hr : b.asmEnsureCapacity.p + size ≤ b.asmEnsureCapacity.capacity := by
      unfold AssemblerBuffer.capacity asmBufferGap
      omega
    rw [AssemblerBuffer.write,if_pos hr]
    rfl

/-- Seven arguments are immediate values. -/
theorem seven_values_leave_buffer : ¬ StaysInside (.send 0 .nil (List.replicate 7 (.value 2)) : Instr ℤ) :=
  fun h => absurd (h [filling] _ emitCode_filling) (by decide)

end SmalltalkJit
