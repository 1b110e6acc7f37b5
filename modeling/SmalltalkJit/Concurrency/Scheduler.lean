import Mathlib.Logic.Function.Basic
import SmalltalkJit.Lib.BinaryHeap
import SmalltalkJit.Lib.Interleaving

/-! # The fiber scheduler

A pool of workers shares a registry of fibers, a ready queue for each worker, a
heap of timers and an event loop. Every section under the lock of the scheduler
is one step, and so is every write to shared state outside of it. A worker whose
fiber has been destroyed has no further step. The number of parks so far tells
the calls that park a fiber apart; nothing in the program reads it.
-/
namespace SmalltalkJit.Concurrency
open Option Function

inductive FiberState
  | ready
  | running
  | parking
  | suspended
  | done
  deriving DecidableEq

inductive ParkIntent
  | none
  | yield
  | suspend
  deriving DecidableEq

/-- `park` is the number of the last call that parked the fiber. -/
structure Fiber where
  state : FiberState
  parkIntent : ParkIntent
  parkPending : Bool
  homeWorker : ℕ
  waitFd : Option ℕ
  park : ℕ
  deriving DecidableEq

structure Timer where
  deadline : ℤ
  fiberId : ℕ
  park : ℕ
  deriving DecidableEq

/-- The tag of a registration with the event loop, with the call that made it. -/
structure Event where
  tag : ℕ
  park : ℕ
  deriving DecidableEq

/-- A registration that has fired stays known to the event loop, but is not live. -/
structure Registration where
  event : Event
  live : Bool
  deriving DecidableEq

/-- How far a worker is with the fiber it has popped: not running yet, on the stack of the fiber, on
it for the last time before the switch, or back on its own stack. -/
inductive Phase
  | popped
  | running
  | leaving
  | left
  deriving DecidableEq

inductive Pc
  /-- about to take the lock at the top of `schedulerRunWorker` -/
  | top
  | holds (phase : Phase) (id : ℕ)
  /-- in `waitForEvents`, before the timeout is computed -/
  | polling
  /-- in `osEventLoopWait`; no expiry is an infinite timeout -/
  | blocked (expiry : Option ℤ)
  | collected (events : List Event)
  /-- counted as idle, but not yet at the condition -/
  | idling
  | waiting (signalled : Bool)
  | exited
  deriving DecidableEq

def Pc.signalled : Pc → Pc
  | .waiting _ => .waiting true
  | pc => pc

structure Scheduler where
  workerCount : ℕ
  fibers : ℕ → Option Fiber
  nextId : ℕ
  nextHome : ℕ
  ready : ℕ → List ℕ
  timers : BinaryHeap Timer
  armedWaiters : ℕ
  registrations : ℕ → Option Registration
  wakePending : Bool
  runningCount : ℕ
  pollerActive : Bool
  shutdown : Bool
  now : ℤ
  pc : ℕ → Pc
  parks : ℕ

namespace Scheduler
variable (s : Scheduler)

def setFiber (id : ℕ) (fiber : Option Fiber) : Scheduler := { s with fibers := update s.fibers id fiber }

def setPc (w : ℕ) (pc : Pc) : Scheduler := { s with pc := update s.pc w pc }

/-- The registry hands out an id that was never used before: the generation of a slot is part of it. -/
def registerFiber (fiber : Fiber) : Scheduler :=
  { s.setFiber s.nextId (some { fiber with homeWorker := s.nextHome }) with
    nextId := s.nextId+1
    nextHome := (s.nextHome+1) % s.workerCount }

def unregisterFiber (id : ℕ) : Scheduler := s.setFiber id none

variable (w id : ℕ)

def readyPush : Scheduler := { s with ready := update s.ready w (s.ready w ++ [id]) }

def readyRemove : Scheduler := { s with ready := update s.ready w ((s.ready w).erase id) }

def timerPush (timer : Timer) : Scheduler := { s with timers := s.timers.push Timer.deadline timer }

def timerPop : Scheduler := { s with timers := s.timers.pop Timer.deadline }

def broadcast : Scheduler := { s with pc := fun w => (s.pc w).signalled }

def wakePoller : Scheduler := { s with wakePending := s.wakePending || s.pollerActive }

def signalWork : Scheduler := s.broadcast.wakePoller

def fiberCreate : Fiber := ⟨.suspended,.none,false,0,none,0⟩

def schedulerSpawnC : Scheduler :=
  ((s.registerFiber { fiberCreate with state := .ready }).readyPush s.nextHome s.nextId).signalWork

/-- The id is published after the context has been made, so that the call is one step. -/
def schedulerSpawnBlock : Scheduler := s.registerFiber fiberCreate

def allQueuesEmpty : Bool := ∀ w < s.workerCount, s.ready w = []

/-- The end of `schedulerResumeLocked` and of `commitFiber`: the fiber is runnable. -/
def makeReady (id : ℕ) (fiber : Fiber) : Scheduler :=
  ((s.setFiber id (some { fiber with state := .ready })).readyPush fiber.homeWorker id).signalWork

def schedulerResumeLocked (id : ℕ) : Scheduler :=
  match s.fibers id with
  | none => s
  | some fiber =>
    match fiber.state with
    | .suspended => s.makeReady id fiber
    | .parking => s.setFiber id (some { fiber with parkPending := true })
    | _ => s

def parkSelf (fiber : Fiber) (intent : ParkIntent) : Scheduler :=
  { (s.setFiber id (some { fiber with
        parkIntent := intent
        parkPending := false
        state := .parking
        park := s.parks })).setPc w (.holds .leaving id) with
    parks := s.parks+1 }

def schedulerSuspend (fiber : Fiber) : Scheduler := s.parkSelf w id fiber .suspend

def schedulerYield (fiber : Fiber) : Scheduler := s.parkSelf w id fiber .yield

def schedulerSleep (fiber : Fiber) (micros : ℤ) : Scheduler :=
  (s.timerPush ⟨s.now + max micros 0,id,s.parks⟩).parkSelf w id fiber .suspend

def osEventLoopArm (fd : ℕ) (event : Event) : Scheduler :=
  { s with registrations := update s.registrations fd (some ⟨event,true⟩) }

def osEventLoopDisarm (fd : ℕ) : Scheduler := { s with registrations := update s.registrations fd none }

def schedulerWaitFd (fiber : Fiber) (fd : ℕ) : Scheduler :=
  { s.osEventLoopArm fd ⟨id,s.parks⟩ with armedWaiters := s.armedWaiters+1 }.parkSelf w id
    { fiber with waitFd := some fd } .suspend

def finish (w id : ℕ) (fiber : Fiber) : Scheduler :=
  (s.setFiber id (some { fiber with state := .done })).setPc w (.holds .leaving id)

/-- The section of `schedulerTerminate` under the lock, for a fiber that is not the current one. -/
def schedulerTerminate (id : ℕ) : Scheduler :=
  match s.fibers id with
  | none => s
  | some fiber =>
    match fiber.state with
    | .ready => (s.readyRemove fiber.homeWorker id).unregisterFiber id
    | .suspended =>
      match fiber.waitFd with
      | some fd => { s.osEventLoopDisarm fd with armedWaiters := s.armedWaiters-1 }.unregisterFiber id
      | none => s.unregisterFiber id
    | .done => s.unregisterFiber id
    | .running | .parking => s

def release (w : ℕ) : Scheduler := { s.setPc w .top with runningCount := s.runningCount-1 }

def commitFiber (fiber : Fiber) : Scheduler :=
  let s := s.release w
  if fiber.state = .done then s.unregisterFiber id
  else if fiber.parkIntent = .yield then s.makeReady id { fiber with parkIntent := .none }
  else if fiber.parkPending then
    s.makeReady id { fiber with parkIntent := .none, parkPending := false }
  else s.setFiber id (some { fiber with state := .suspended, parkIntent := .none })

/-- The conversion of a 64-bit integer to `int`. -/
def toInt32 (x : ℤ) : ℤ := x.bmod 4294967296

/-- The timeout of `waitForEvents`, in milliseconds. -/
def timeout : ℤ :=
  if 0 < s.timers.count then
    let wait := (s.timers.entries 0).deadline - s.now
    if wait ≤ 0 then 0 else toInt32 ((wait+999) / 1000)
  else -1

/-- When `osEventLoopWait` returns at the latest. -/
def expiry : Option ℤ := if s.timeout < 0 then none else some (s.now+1000*s.timeout)

/-- The event loop reports some of the live registrations, each one only once. -/
def report (fds : List ℕ) : Scheduler :=
  { s with registrations := fun fd =>
    if fd ∈ fds then (s.registrations fd).map fun r => { r with live := false }
    else s.registrations fd }

def eventsOf (fds : List ℕ) : List Event := fds.filterMap fun fd => (s.registrations fd).map Registration.event

def isLive (fd : ℕ) : Bool := ((s.registrations fd).map Registration.live).getD false

def applyEvent (e : Event) : Scheduler := { s with armedWaiters := s.armedWaiters-1 }.schedulerResumeLocked e.tag

/-- The loop of `wakeExpiredTimers`, for as many turns as given. -/
def wakeExpired : ℕ → Scheduler → Scheduler
  | 0,s => s
  | fuel+1,s =>
    if 0 < s.timers.count ∧ (s.timers.entries 0).deadline ≤ s.now then
      wakeExpired fuel (s.timerPop.schedulerResumeLocked (s.timers.entries 0).fiberId)
    else s

def wakeExpiredTimers : Scheduler := wakeExpired s.timers.count s

def applyEvents (w : ℕ) (events : List Event) : Scheduler :=
  { (events.foldl applyEvent s).wakeExpiredTimers with pollerActive := false }.broadcast.setPc w .top

def needsPoller : Bool := (0 < s.armedWaiters ∨ 0 < s.timers.count) ∧ ¬ s.pollerActive

def quiet : Bool := s.runningCount = 0 ∧ s.allQueuesEmpty ∧ s.armedWaiters = 0 ∧ s.timers.count = 0

def loop (w : ℕ) : Scheduler :=
  match s.ready w with
  | id :: rest =>
    { s.setPc w (.holds .popped id) with
      ready := update s.ready w rest
      runningCount := s.runningCount+1 }
  | [] =>
    if s.shutdown then s.setPc w .exited
    else if s.quiet then { s with shutdown := true }.broadcast.setPc w .exited
    else if s.needsPoller then { s with pollerActive := true }.setPc w .polling
    else s.setPc w .idling

def idle (w : ℕ) : Scheduler :=
  if s.ready w = [] ∧ ¬ s.shutdown ∧ ¬ s.needsPoller then s.setPc w (.waiting false)
  else s.setPc w .top

/-- Up to the first instruction of the fiber. Nobody reads `waitFd` of a running fiber, so that it is
reset together with the state. -/
def runFiber (fiber : Fiber) : Scheduler :=
  (s.setFiber id (some { fiber with state := .running, waitFd := none })).setPc w (.holds .running id)

/-- The return of `osEventLoopWait` with the tags of some descriptors; a pending wake may be drained. -/
def osEventLoopWait (w : ℕ) (fds : List ℕ) (drain : Bool) : Scheduler :=
  { s.report fds with wakePending := s.wakePending && !drain }.setPc w (.collected (s.eventsOf fds))

/-- The event loop returns on readiness, on a wake or when the timeout expires. -/
def CanWake (expiry : Option ℤ) (fds : List ℕ) (drain : Bool) : Prop :=
  fds.Nodup ∧ fds.length ≤ 64 ∧ (∀ fd ∈ fds, s.isLive fd) ∧ (drain → s.wakePending) ∧
    (fds ≠ [] ∨ drain ∨ expiry.any (· ≤ s.now))

instance (expiry : Option ℤ) (fds : List ℕ) (drain : Bool) : Decidable (s.CanWake expiry fds drain) :=
  inferInstanceAs (Decidable (_ ∧ _))

def current (w : ℕ) : Option (ℕ × Fiber) :=
  match s.pc w with
  | .holds .running id => (s.fibers id).map fun fiber => (id,fiber)
  | _ => none

end Scheduler

inductive Action
  | loop (w : ℕ)
  | run (w : ℕ)
  | spawnC (w : ℕ)
  | spawnBlock (w : ℕ)
  | resume (w id : ℕ)
  | yield (w : ℕ)
  | suspend (w : ℕ)
  | sleep (w : ℕ) (micros : ℤ)
  | waitFd (w fd : ℕ)
  | terminate (w id : ℕ)
  | finish (w : ℕ)
  /-- `fiberSwitchAsm`, back to the stack of the worker -/
  | switch (w : ℕ)
  | commit (w : ℕ)
  | poll (w : ℕ)
  /-- the return of `osEventLoopWait` -/
  | wake (w : ℕ) (fds : List ℕ) (drain : Bool)
  | apply (w : ℕ)
  | idle (w : ℕ)
  | tick (micros : ℕ)
  deriving DecidableEq

open Scheduler

def step (s : Scheduler) : Action → Option Scheduler
  | .loop w => if s.pc w = .top then some (s.loop w) else none
  | .run w =>
    match s.pc w with
    | .holds .popped id => (s.fibers id).map fun fiber => s.runFiber w id fiber
    | _ => none
  | .spawnC w => (s.current w).map fun _ => s.schedulerSpawnC
  | .spawnBlock w => (s.current w).map fun _ => s.schedulerSpawnBlock
  | .resume w id => (s.current w).map fun _ => s.schedulerResumeLocked id
  | .yield w => (s.current w).map fun (id,fiber) => s.schedulerYield w id fiber
  | .suspend w => (s.current w).map fun (id,fiber) => s.schedulerSuspend w id fiber
  | .sleep w micros => (s.current w).map fun (id,fiber) => s.schedulerSleep w id fiber micros
  | .waitFd w fd => (s.current w).map fun (id,fiber) => s.schedulerWaitFd w id fiber fd
  | .terminate w target => (s.current w).map fun (id,fiber) =>
      if target = id then s.finish w id fiber else s.schedulerTerminate target
  | .finish w => (s.current w).map fun (id,fiber) => s.finish w id fiber
  | .switch w =>
    match s.pc w with
    | .holds .leaving id => some (s.setPc w (.holds .left id))
    | _ => none
  | .commit w =>
    match s.pc w with
    | .holds .left id => (s.fibers id).map fun fiber => s.commitFiber w id fiber
    | _ => none
  | .poll w => if s.pc w = .polling then some (s.setPc w (.blocked s.expiry)) else none
  | .wake w fds drain =>
    match s.pc w with
    | .blocked expiry => if s.CanWake expiry fds drain then some (s.osEventLoopWait w fds drain) else none
    | _ => none
  | .apply w =>
    match s.pc w with
    | .collected events => some (s.applyEvents w events)
    | _ => none
  | .idle w =>
    match s.pc w with
    | .idling | .waiting _ => some (s.idle w)
    | _ => none
  | .tick micros => some { s with now := s.now + micros }

inductive Steps (s : Scheduler) : Action → Scheduler → Prop
  | loop {w} (hpc : s.pc w = .top) : Steps s (.loop w) (s.loop w)
  | run {w id fiber} (hpc : s.pc w = .holds .popped id) (hfiber : s.fibers id = some fiber) :
    Steps s (.run w) (s.runFiber w id fiber)
  | spawnC {w id} (hpc : s.pc w = .holds .running id) : Steps s (.spawnC w) s.schedulerSpawnC
  | spawnBlock {w id} (hpc : s.pc w = .holds .running id) :
    Steps s (.spawnBlock w) s.schedulerSpawnBlock
  | resume {w id target} (hpc : s.pc w = .holds .running id) :
    Steps s (.resume w target) (s.schedulerResumeLocked target)
  | yield {w id fiber} (hpc : s.pc w = .holds .running id) (hfiber : s.fibers id = some fiber) :
    Steps s (.yield w) (s.schedulerYield w id fiber)
  | suspend {w id fiber} (hpc : s.pc w = .holds .running id) (hfiber : s.fibers id = some fiber) :
    Steps s (.suspend w) (s.schedulerSuspend w id fiber)
  | sleep {w id fiber micros} (hpc : s.pc w = .holds .running id)
    (hfiber : s.fibers id = some fiber) :
    Steps s (.sleep w micros) (s.schedulerSleep w id fiber micros)
  | waitFd {w id fiber fd} (hpc : s.pc w = .holds .running id) (hfiber : s.fibers id = some fiber) :
    Steps s (.waitFd w fd) (s.schedulerWaitFd w id fiber fd)
  | terminateSelf {w id fiber} (hpc : s.pc w = .holds .running id)
    (hfiber : s.fibers id = some fiber) : Steps s (.terminate w id) (s.finish w id fiber)
  | terminate {w id target} (hpc : s.pc w = .holds .running id) (hother : target ≠ id) :
    Steps s (.terminate w target) (s.schedulerTerminate target)
  | finish {w id fiber} (hpc : s.pc w = .holds .running id) (hfiber : s.fibers id = some fiber) :
    Steps s (.finish w) (s.finish w id fiber)
  | switch {w id} (hpc : s.pc w = .holds .leaving id) :
    Steps s (.switch w) (s.setPc w (.holds .left id))
  | commit {w id fiber} (hpc : s.pc w = .holds .left id) (hfiber : s.fibers id = some fiber) :
    Steps s (.commit w) (s.commitFiber w id fiber)
  | poll {w} (hpc : s.pc w = .polling) : Steps s (.poll w) (s.setPc w (.blocked s.expiry))
  | wake {w expiry fds drain} (hpc : s.pc w = .blocked expiry) (hcan : s.CanWake expiry fds drain) :
    Steps s (.wake w fds drain) (s.osEventLoopWait w fds drain)
  | apply {w events} (hpc : s.pc w = .collected events) :
    Steps s (.apply w) (s.applyEvents w events)
  | idle {w} (hpc : s.pc w = .idling ∨ ∃ signalled, s.pc w = .waiting signalled) :
    Steps s (.idle w) (s.idle w)
  | tick {micros} : Steps s (.tick micros) { s with now := s.now + micros }

theorem current_eq_some {s : Scheduler} {w id : ℕ} (h : s.current w = some (id,fiber)) :
    s.pc w = .holds .running id ∧ s.fibers id = some fiber := by
  unfold current at h
  split at h
  · next hpc =>
    obtain ⟨fiber,hf,heq⟩ := map_eq_some_iff.mp h
    cases heq
    exact ⟨hpc,hf⟩
  · cases h

theorem steps_of_step {s s' : Scheduler} {a : Action} (h : step s a = some s') : Steps s a s' := by
  cases a <;> simp only [step,ite_none_right_eq_some,map_eq_some_iff,some.injEq] at h
  case loop | poll =>
    obtain ⟨hpc,rfl⟩ := h
    constructor
    exact hpc
  case run | commit =>
    split at h
    · next hpc =>
      obtain ⟨f,hf,rfl⟩ := map_eq_some_iff.mp h
      constructor <;> assumption
    · cases h
  case spawnC | spawnBlock | resume =>
    obtain ⟨⟨id,f⟩,hc,rfl⟩ := h
    constructor
    exact (current_eq_some hc).1
  case yield | suspend | sleep | waitFd | finish =>
    obtain ⟨⟨id,f⟩,hc,rfl⟩ := h
    obtain ⟨hpc,hf⟩ := current_eq_some hc
    constructor <;> assumption
  case terminate =>
    obtain ⟨⟨id,f⟩,hc,rfl⟩ := h
    obtain ⟨hpc,hf⟩ := current_eq_some hc
    dsimp only
    split
    · next heq =>
      rw [heq]
      exact .terminateSelf hpc hf
    · next ho => exact .terminate hpc ho
  case switch | apply =>
    split at h
    · next hpc =>
      cases h
      constructor
      exact hpc
    · cases h
  case wake =>
    split at h
    · next hpc =>
      obtain ⟨hcan,rfl⟩ := ite_none_right_eq_some.mp h |>.imp_right Option.some.inj
      exact .wake hpc hcan
    · cases h
  case idle =>
    split at h
    · next hpc =>
      cases h
      exact .idle (.inl hpc)
    · next hpc =>
      cases h
      exact .idle (.inr ⟨_,hpc⟩)
    · cases h
  case tick =>
    cases h
    exact .tick

def schedulerInit (workerCount : ℕ) : Scheduler where
  workerCount := workerCount
  fibers _ := none
  nextId := 0
  nextHome := 0
  ready _ := []
  timers := BinaryHeap.empty ⟨0,0,0⟩
  armedWaiters := 0
  registrations _ := none
  wakePending := false
  runningCount := 0
  pollerActive := false
  shutdown := false
  now := 0
  pc w := if w < workerCount then .top else .exited
  parks := 0

def start (workerCount fibers : ℕ) : Scheduler := schedulerSpawnC^[fibers] (schedulerInit workerCount)

end SmalltalkJit.Concurrency
