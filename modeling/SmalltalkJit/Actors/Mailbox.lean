import SmalltalkJit.Concurrency.Semaphore

/-! # Mailboxes

A mailbox has a queue of system messages and one of user messages, and a fiber of
its own, the runner, that takes the messages out and hands them to the actor.
Senders and runner meet under the monitor of the mailbox, on top of the scheduler.
Every part of a section under the monitor is one step. The actor itself is left
open: while it handles a message the runner can do whatever a process can do, and
can suspend, resume and stop its own mailbox.
-/
namespace SmalltalkJit.Actors
open Concurrency Scheduler Interleaving

structure Envelope (M : Type) where
  message : M
  sender : Option ℕ
  deriving DecidableEq

/-- What `takeNext:` answers, with `lastWasSystem`. -/
inductive Item (M : Type)
  | system (message : M)
  | user (envelope : Envelope M)
  deriving DecidableEq

structure Mailbox (M : Type) where
  systemQueue : List M
  userQueue : List (Envelope M)
  suspended : Bool
  idle : Bool
  running : Bool
  runnerId : Option ℕ
  deriving DecidableEq

namespace Mailbox
variable {M : Type} (m : Mailbox M)

def new : Mailbox M := ⟨[],[],false,false,true,none⟩

def hasProcessable : Bool := m.systemQueue ≠ [] ∨ ¬ m.suspended ∧ m.userQueue ≠ []

def takeNext (throughput : ℤ) (userCount : ℕ) : Option (Item M) × Mailbox M :=
  if m.running then
    match m.systemQueue with
    | message :: rest => (some (.system message),{ m with systemQueue := rest })
    | [] =>
      if ¬ m.suspended ∧ userCount < throughput then
        match m.userQueue with
        | envelope :: rest => (some (.user envelope),{ m with userQueue := rest })
        | [] => (none,m)
      else (none,m)
  else (none,m)

end Mailbox

/-- `takeNext:` answers nothing, the first system message, or the first user message when it may. -/
theorem takeNext_cases (throughput : ℤ) (m : Mailbox M) (count : ℕ) : m.takeNext throughput count = (none,m) ∨
    (∃ message rest, m.systemQueue = message :: rest ∧
      m.takeNext throughput count = (some (.system message),{ m with systemQueue := rest })) ∨
    ∃ e rest, m.systemQueue = [] ∧ m.suspended = false ∧ count < throughput ∧
      m.userQueue = e :: rest ∧
      m.takeNext throughput count = (some (.user e),{ m with userQueue := rest }) := by
  unfold Mailbox.takeNext
  split
  · split
    · next message rest hs => exact .inr (.inl ⟨message,rest,hs,rfl⟩)
    · next hs =>
      split
      · next hmay =>
        split
        · next e rest hu => exact .inr (.inr ⟨e,rest,hs,by simpa using hmay.1,hmay.2,hu,rfl⟩)
        · exact .inl rfl
      · exact .inl rfl
  · exact .inl rfl

inductive RunnerPc (M : Type)
  | started
  /-- at the test of the loop of `run` -/
  | loop
  /-- at the test of the loop of `processBatch` -/
  | take (count : ℕ)
  | taken (item : Item M) (count : ℕ)
  /-- in `invokeSystem:` or `invokeUser:` -/
  | invoking (item : Item M) (count : ℕ)
  /-- `processBatch` has returned -/
  | drained
  | check
  | yield
  | parked
  | ended
  deriving DecidableEq

inductive Section (M : Type)
  | setId
  | postUser (envelope : Envelope M)
  | postSystem (message : M)
  | resume
  | schedule
  | resumeId
  | take (count : ℕ)
  | check
  | park
  | exit
  deriving DecidableEq

/-- What has happened so far; nothing in the program reads it. The batch counts the user messages
that have been handed over since `processBatch` was called. -/
structure Log (M : Type) where
  postedUser : List (Envelope M)
  postedSystem : List M
  handedUser : List (Envelope M)
  handedSystem : List M
  batch : ℕ

def Log.hand {M : Type} (log : Log M) : Item M → Log M
  | .system message => { log with handedSystem := log.handedSystem ++ [message] }
  | .user envelope => { log with
      handedUser := log.handedUser ++ [envelope]
      batch := log.batch+1 }

structure MailboxState (M : Type) where
  sched : Scheduler
  mailbox : Mailbox M
  monitor : Option (ℕ × Section M)
  runner : Option (ℕ × RunnerPc M)
  log : Log M

inductive MailboxAction (M : Type)
  | sched (a : Action)
  | start (w : ℕ)
  | postUser (w : ℕ) (envelope : Envelope M)
  | postSystem (w : ℕ) (message : M)
  | resume (w : ℕ)
  | suspend (w : ℕ)
  | stopRunner (w : ℕ)
  /-- the next part of a section under the monitor -/
  | inside (w : ℕ)
  /-- the next part of the code of the runner outside of it -/
  | runner (w : ℕ)

def roleAt {α : Type} (s : Scheduler) (part : Option (ℕ × α)) (w : ℕ) : Option (ℕ × Fiber × α) :=
  (s.current w).bind fun (id,fiber) => part.bind fun (owner,x) => if owner = id then some (id,fiber,x) else none

namespace MailboxState
variable {M : Type} (s : MailboxState M)

/-- The process on a worker is not in the monitor, and not in the code of the runner. -/
def free (w : ℕ) : Bool :=
  (roleAt s.sched s.monitor w).isNone &&
    match roleAt s.sched s.runner w with
    | none | some (_,_,.invoking ..) | some (_,_,.ended) => true
    | _ => false

def handling (w : ℕ) : Bool :=
  s.free w && match roleAt s.sched s.runner w with
    | some (_,_,.invoking ..) => true
    | _ => false

def enter (id : ℕ) (part : Section M) : Option (MailboxState M) :=
  if s.monitor = none then some { s with monitor := some (id,part) } else none

def enterFrom (w : ℕ) (part : Section M) : Option (MailboxState M) :=
  if s.free w then (s.sched.current w).bind fun (id,_) => s.enter id part else none

/-- `start`: the runner is forked once, when the actor is spawned. -/
def start (w : ℕ) : Option (MailboxState M) :=
  if s.runner = none ∧ s.free w then (s.sched.current w).map fun _ =>
    { s with
      sched := s.sched.schedulerSpawnBlock
      runner := some (s.sched.nextId,.started) }
  else none

def setPc (id : ℕ) (pc : RunnerPc M) : MailboxState M := { s with runner := some (id,pc) }

def perform (throughput : ℤ) (w id : ℕ) (fiber : Fiber) : Section M → Option (MailboxState M)
  | .setId => some { s.setPc id .loop with
      mailbox := { s.mailbox with runnerId := some id }
      monitor := some (id,.exit) }
  | .postUser envelope => some { s with
      mailbox := { s.mailbox with userQueue := s.mailbox.userQueue ++ [envelope] }
      monitor := some (id,.schedule)
      log := { s.log with postedUser := s.log.postedUser ++ [envelope] } }
  | .postSystem message => some { s with
      mailbox := { s.mailbox with systemQueue := s.mailbox.systemQueue ++ [message] }
      monitor := some (id,.schedule)
      log := { s.log with postedSystem := s.log.postedSystem ++ [message] } }
  | .resume => some { s with
      mailbox := { s.mailbox with suspended := false }
      monitor := some (id,.schedule) }
  | .schedule =>
    if s.mailbox.idle then some { s with
      mailbox := { s.mailbox with idle := false }
      monitor := some (id,.resumeId) }
    else some { s with monitor := some (id,.exit) }
  -- the primitive fails for an id that is nil
  | .resumeId => s.mailbox.runnerId.map fun target => { s with
      sched := s.sched.schedulerResumeLocked target
      monitor := some (id,.exit) }
  | .take count =>
    let (item,mailbox) := s.mailbox.takeNext throughput count
    some { s.setPc id (item.elim .drained fun item => .taken item count) with
      mailbox := mailbox
      monitor := some (id,.exit) }
  | .check =>
    if s.mailbox.hasProcessable then some { s.setPc id .yield with monitor := some (id,.exit) }
    else some { s with
      mailbox := { s.mailbox with idle := true }
      monitor := some (id,.park) }
  -- the parked state is published before the monitor is released
  | .park => some { s.setPc id .parked with
      sched := s.sched.schedulerSuspend w id fiber
      monitor := none }
  | .exit => some { s with monitor := none }

def proceed (w id : ℕ) (fiber : Fiber) : RunnerPc M → Option (MailboxState M)
  | .started => s.enter id .setId
  | .loop =>
    if s.mailbox.running then some { s.setPc id (.take 0) with log := { s.log with batch := 0 } }
    else some (s.setPc id .ended)
  | .take count => s.enter id (.take count)
  | .taken item count => some { s.setPc id (.invoking item count) with log := s.log.hand item }
  | .invoking (.system _) count => some (s.setPc id (.take count))
  | .invoking (.user _) count => some (s.setPc id (.take (count+1)))
  | .drained => some (s.setPc id (if s.mailbox.running then .check else .loop))
  | .check => s.enter id .check
  | .yield => some { s.setPc id .loop with sched := s.sched.schedulerYield w id fiber }
  | .parked => some (s.setPc id .loop)
  | .ended => none

end MailboxState

open MailboxState in
def mailboxStep {M : Type} (throughput : ℤ) (s : MailboxState M) : MailboxAction M → Option (MailboxState M)
  | .sched a =>
    if ∀ w ∈ a.process, s.free w then (step s.sched a).map fun sched => { s with sched := sched } else none
  | .start w => s.start w
  | .postUser w envelope => s.enterFrom w (.postUser envelope)
  | .postSystem w message => s.enterFrom w (.postSystem message)
  | .resume w => s.enterFrom w .resume
  | .suspend w => if s.handling w then some { s with mailbox := { s.mailbox with suspended := true } } else none
  | .stopRunner w => if s.handling w then some { s with mailbox := { s.mailbox with running := false } } else none
  | .inside w => (roleAt s.sched s.monitor w).bind fun (id,fiber,part) => s.perform throughput w id fiber part
  | .runner w =>
    if (roleAt s.sched s.monitor w).isNone then
      (roleAt s.sched s.runner w).bind fun (id,fiber,pc) => s.proceed w id fiber pc
    else none

def mailboxStart (M : Type) (workerCount fibers : ℕ) : MailboxState M :=
  ⟨Concurrency.start workerCount fibers,.new,none,none,⟨[],[],[],[],0⟩⟩

end SmalltalkJit.Actors
