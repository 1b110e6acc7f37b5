import Mathlib.Logic.Function.Basic
import SmalltalkJit.Lib.Interleaving

/-! # Unwinding

`ensure:` and `ifCurtailed:` register a cleanup block in a chain that belongs to
the process. The loops that run cleanups are activations on the stack like any
other: a cleanup runs on top of the loop that called it, and on top of the frames
that are being left, which are cut only when the loop has ended. What the code of
a process does between these points is left open, so that a run of the machine is
a run of any program. The addresses of frames are their depths in the stack.
-/
namespace SmalltalkJit.Exceptions
open Option

/-- An activation: of ordinary code, of `valueUnwindProtected:`, of a cleanup block, of
`runUnwindHandlersBelow` on behalf of an unwind to a frame or of `schedulerTerminate`, or of
`runUnwindHandlerChain` with the handlers of another process that are left. -/
inductive Frame
  | plain
  | protect (u : ℕ)
  | cleanup
  | unwind (target : ℕ)
  | terminate
  | walk (owner : ℕ) (head : Option ℕ)
  deriving DecidableEq

def Frame.isCode : Frame → Bool
  | .plain | .protect _ | .cleanup => true
  | _ => false

structure UnwindHandler where
  parent : Option ℕ
  frame : ℕ
  curtailed : Bool

/-- A process runs on some worker, or waits to be run again. -/
structure Process where
  stack : List Frame
  unwindHandler : Option ℕ
  running : Bool

/-- What happens to a cleanup: it is registered, it is run, or it is dropped because its block was not
curtailed. -/
inductive Entry
  | register (u : ℕ)
  | execute (u : ℕ)
  | skip (u : ℕ)
  deriving DecidableEq

/-- The log of a process tells what happened to the cleanups that it has registered; nothing in the
program reads it. -/
structure State where
  processes : ℕ → Option Process
  nextProcess : ℕ
  handlers : ℕ → UnwindHandler
  nextHandler : ℕ
  log : ℕ → List Entry

def frameAt (stack : List Frame) (depth : ℕ) : Option Frame := stack.reverse[depth]?

def cut (stack : List Frame) (depth : ℕ) : List Frame := stack.drop (stack.length - (depth+1))

namespace State
variable (s : State)

variable (p : ℕ)

def put (proc : Option Process) : State := { s with processes := Function.update s.processes p proc }

def record (entry : Entry) : State := { s with log := Function.update s.log p (s.log p ++ [entry]) }

def code : Option Process := (s.processes p).filter fun proc => proc.running && proc.stack.head?.any Frame.isCode

variable (proc : Process)

def push (frame : Frame) : State := s.put p (some { proc with stack := frame :: proc.stack })

def spawn : State := { s.put s.nextProcess (some ⟨[.plain],none,false⟩) with nextProcess := s.nextProcess+1 }

def register (curtailed : Bool) : State :=
  let u := s.nextHandler
  ({ s with
    handlers := Function.update s.handlers u ⟨proc.unwindHandler,proc.stack.length,curtailed⟩
    nextHandler := u+1 }.record p (.register u)).put p
      (some { proc with stack := .protect u :: proc.stack, unwindHandler := some u })

def complete (p : ℕ) (proc : Process) (u : ℕ) (rest : List Frame) : State :=
  if (s.handlers u).curtailed then
    (s.record p (.skip u)).put p
      (some { proc with stack := rest, unwindHandler := (s.handlers u).parent })
  else
    (s.record p (.execute u)).put p
      (some { proc with stack := .cleanup :: rest, unwindHandler := (s.handlers u).parent })

/-- The handler is unlinked before its block is run. -/
def runCleanupBlock (u : ℕ) : State :=
  (s.record p (.execute u)).put p
    (some { proc with stack := .cleanup :: proc.stack, unwindHandler := (s.handlers u).parent })

/-- One turn of the loop of `runUnwindHandlersBelow`, and the cut that follows it. -/
def runUnwindHandlersBelow (target : ℕ) : State :=
  match proc.unwindHandler with
  | some u =>
    if target < (s.handlers u).frame then s.runCleanupBlock p proc u
    else s.put p (some { proc with stack := cut proc.stack target })
  | none => s.put p (some { proc with stack := cut proc.stack target })

/-- One turn of the loop of `runAllUnwindHandlers`, and the end of the process. -/
def runAllUnwindHandlers : State :=
  match proc.unwindHandler with
  | some u => s.runCleanupBlock p proc u
  | none => s.put p none

/-- One turn of the loop of `runUnwindHandlerChain`. The parent is read after the cleanup has run; no code
changes it after the handler has been registered. -/
def runUnwindHandlerChain (owner : ℕ) (head : Option ℕ) (rest : List Frame) : State :=
  match head with
  | some u =>
    (s.record owner (.execute u)).put p
      (some { proc with stack := .cleanup :: .walk owner (s.handlers u).parent :: rest })
  | none => s.put p (some { proc with stack := rest })

/-- `schedulerTerminate`: nothing happens to a process that is running on another worker. -/
def schedulerTerminate (target : ℕ) : State :=
  if target = p then s.push p proc .terminate
  else match s.processes target with
    | none => s
    | some victim =>
      if victim.running then s
      else (s.put target none).push p proc (.walk target victim.unwindHandler)

end State

inductive Action
  | spawn (p : ℕ)
  | park (p : ℕ)
  | resume (p : ℕ)
  | call (p : ℕ)
  | protect (p : ℕ) (curtailed : Bool)
  | ret (p : ℕ)
  | complete (p : ℕ)
  /-- an exception is handled, or a block returns, to a frame -/
  | unwind (p target : ℕ)
  /-- the loop on top of the stack takes a turn -/
  | advance (p : ℕ)
  | terminate (p target : ℕ)
  | finish (p : ℕ)
  deriving DecidableEq

open State

def step (s : State) : Action → Option State
  | .spawn p => (s.code p).map fun _ => s.spawn
  | .park p => (s.code p).map fun proc => s.put p (some { proc with running := false })
  | .resume p =>
    ((s.processes p).filter fun proc => !proc.running).map fun proc => s.put p (some { proc with running := true })
  | .call p => (s.code p).map fun proc => s.push p proc .plain
  | .protect p curtailed => (s.code p).map fun proc => s.register p proc curtailed
  | .ret p => (s.code p).bind fun proc =>
    match proc.stack with
    | .plain :: rest | .cleanup :: rest => some (s.put p (some { proc with stack := rest }))
    | _ => none
  | .complete p => (s.code p).bind fun proc =>
    match proc.stack with
    | .protect u :: rest => some (s.complete p proc u rest)
    | _ => none
  | .unwind p target => (s.code p).bind fun proc =>
    if frameAt proc.stack target = some .plain then some (s.push p proc (.unwind target)) else none
  | .advance p => (s.processes p).bind fun proc =>
    if proc.running then
      match proc.stack with
      | .unwind target :: _ => some (s.runUnwindHandlersBelow p proc target)
      | .terminate :: _ => some (s.runAllUnwindHandlers p proc)
      | .walk owner head :: rest => some (s.runUnwindHandlerChain p proc owner head rest)
      | _ => none
    else none
  | .terminate p target => (s.code p).map fun proc => s.schedulerTerminate p proc target
  | .finish p => (s.processes p).bind fun proc => if proc.stack = [] then some (s.put p none) else none

inductive Steps (s : State) : Action → State → Prop
  | spawn {p proc} (hp : s.processes p = some proc) : Steps s (.spawn p) s.spawn
  | run {a p proc} (running : Bool) (ha : a = .park p ∨ a = .resume p) (hp : s.processes p = some proc) :
    Steps s a (s.put p (some { proc with running := running }))
  | call {p proc} (hp : s.processes p = some proc) : Steps s (.call p) (s.push p proc .plain)
  | protect {p proc curtailed} (hp : s.processes p = some proc) :
    Steps s (.protect p curtailed) (s.register p proc curtailed)
  | ret {p proc frame rest} (hp : s.processes p = some proc) (hstack : proc.stack = frame :: rest)
    (hframe : frame = .plain ∨ frame = .cleanup) :
    Steps s (.ret p) (s.put p (some { proc with stack := rest }))
  | complete {p proc u rest} (hp : s.processes p = some proc) (hstack : proc.stack = .protect u :: rest) :
    Steps s (.complete p) (s.complete p proc u rest)
  | unwind {p proc target} (hp : s.processes p = some proc)
    (htarget : frameAt proc.stack target = some .plain) :
    Steps s (.unwind p target) (s.push p proc (.unwind target))
  | cleanup {p proc u frame rest} (hp : s.processes p = some proc) (hhead : proc.unwindHandler = some u)
    (hstack : proc.stack = frame :: rest)
    (hframe : frame = .terminate ∨ ∃ target, frame = .unwind target ∧ target < (s.handlers u).frame) :
    Steps s (.advance p) (s.runCleanupBlock p proc u)
  | cut {p proc target rest} (hp : s.processes p = some proc) (hstack : proc.stack = .unwind target :: rest)
    (hhead : ∀ u, proc.unwindHandler = some u → (s.handlers u).frame ≤ target) :
    Steps s (.advance p) (s.put p (some { proc with stack := cut proc.stack target }))
  | die {p proc rest} (hp : s.processes p = some proc) (hstack : proc.stack = .terminate :: rest)
    (hhead : proc.unwindHandler = none) : Steps s (.advance p) (s.put p none)
  | walk {p proc owner head rest} (hp : s.processes p = some proc)
    (hstack : proc.stack = .walk owner head :: rest) :
    Steps s (.advance p) (s.runUnwindHandlerChain p proc owner head rest)
  | terminateSelf {p proc} (hp : s.processes p = some proc) :
    Steps s (.terminate p p) (s.push p proc .terminate)
  | terminateOther {p proc target victim} (hp : s.processes p = some proc) (hne : target ≠ p)
    (htarget : s.processes target = some victim) (hrunning : victim.running = false) :
    Steps s (.terminate p target) ((s.put target none).push p proc (.walk target victim.unwindHandler))
  | terminateNot {p target} (hnot : ∀ victim, s.processes target = some victim → victim.running) :
    Steps s (.terminate p target) s
  | finish {p proc} (hp : s.processes p = some proc) (hstack : proc.stack = []) :
    Steps s (.finish p) (s.put p none)

theorem processes_of_code {s : State} (h : s.code p = some proc) : s.processes p = some proc := by
  rw [code,filter_eq_some_iff] at h
  exact h.1

theorem steps_of_step (h : step s a = some s') : Steps s a s' := by
  cases a <;> simp only [step,bind_eq_some_iff,map_eq_some_iff,ite_none_right_eq_some,some.injEq] at h
  case spawn | call | protect =>
    obtain ⟨proc,hc,rfl⟩ := h
    constructor
    exact processes_of_code hc
  case park =>
    obtain ⟨proc,hc,rfl⟩ := h
    exact .run false (.inl rfl) (processes_of_code hc)
  case resume =>
    obtain ⟨proc,hpr,rfl⟩ := h
    exact .run true (.inr rfl) (filter_eq_some_iff.mp hpr).1
  case ret =>
    obtain ⟨proc,hc,h⟩ := h
    split at h
    · next hs =>
      cases h
      exact .ret (processes_of_code hc) hs (.inl rfl)
    · next hs =>
      cases h
      exact .ret (processes_of_code hc) hs (.inr rfl)
    · cases h
  case complete =>
    obtain ⟨proc,hc,h⟩ := h
    split at h
    · next hs =>
      cases h
      exact .complete (processes_of_code hc) hs
    · cases h
  case unwind =>
    obtain ⟨proc,hc,ht,rfl⟩ := h
    exact .unwind (processes_of_code hc) ht
  case advance =>
    obtain ⟨proc,hp,-,h⟩ := h
    split at h
    · next hs =>
      cases h
      rw [runUnwindHandlersBelow]
      split
      · next u hh =>
        split
        · next hlt => exact .cleanup hp hh hs (.inr ⟨_,rfl,hlt⟩)
        · next hle =>
          refine .cut hp hs fun v hv => ?_
          rw [hh] at hv
          cases hv
          exact Nat.le_of_not_lt hle
      · next hh => exact .cut hp hs fun v hv => absurd (hh.symm.trans hv) nofun
    · next hs =>
      cases h
      rw [runAllUnwindHandlers]
      split
      · next hh => exact .cleanup hp hh hs (.inl rfl)
      · next hh => exact .die hp hs hh
    · next hs =>
      cases h
      exact .walk hp hs
    · cases h
  case terminate =>
    obtain ⟨proc,hc,rfl⟩ := h
    rw [schedulerTerminate]
    split
    · next heq =>
      cases heq
      exact .terminateSelf (processes_of_code hc)
    · next hne =>
      split
      · next hn => exact .terminateNot fun victim hv => absurd (hn.symm.trans hv) nofun
      · next victim hvi =>
        split
        · next hr =>
          refine .terminateNot fun o ho => ?_
          cases hvi.symm.trans ho
          exact hr
        · next hr => exact .terminateOther (processes_of_code hc) hne hvi (Bool.eq_false_iff.mpr hr)
  case finish =>
    obtain ⟨proc,hp,hs,rfl⟩ := h
    exact .finish hp hs

def start : State where
  processes := Function.update (fun _ => none) 0 (some ⟨[.plain],none,true⟩)
  nextProcess := 1
  handlers _ := ⟨none,0,false⟩
  nextHandler := 0
  log _ := []

end SmalltalkJit.Exceptions
