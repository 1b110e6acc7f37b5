import Mathlib.Logic.Function.Basic
import SmalltalkJit.Actors.Mailbox

/-! # Actors and their supervision

An actor has a context, a mailbox and a parent. The runner of the mailbox hands one
message after the other to the context, which calls the actor and follows the rules
of the lifecycle. The code of an actor is left open: while it runs it can spawn
children, and it can fail; messages can be sent by anybody at any time. Every part
of a method of the context that touches something shared is one step.
-/
namespace SmalltalkJit.Actors

/-- What is sent to an actor. The lifecycle messages are objects like any others, so that they can also
travel as user messages. -/
inductive Message
  | user (payload : ℕ)
  | poisonPill
  | actorStarted
  | systemStop
  | systemRestart
  | systemResume
  | actorFailure (child : ℕ)
  | actorTerminated (who : ℕ)
  deriving DecidableEq

/-- What a context does after the actor has received a message. -/
inductive Next
  | done
  /-- the rest of `handleStop` -/
  | stop
  /-- the rest of `finishStop` -/
  | finish
  /-- the rest of `handleRestart` -/
  | restart
  /-- the rest of `handleChildTerminated:` -/
  | terminated
  deriving DecidableEq

inductive Activity
  | idle
  /-- in `runReceive` -/
  | delivering (next : Next)
  /-- in `failWith:`, after the mailbox has been suspended -/
  | failing (next : Next)
  | delivered (next : Next)
  /-- in `handleChildFailure:` -/
  | supervising (child : ℕ)
  /-- in the loop of `handleStop` -/
  | stopping (pids : List ℕ)
  /-- in the loop of `handleRestart` -/
  | restarting (pids : List ℕ)
  | unregister
  | stopRunner
  | report
  /-- the process has been terminated -/
  | dead
  deriving DecidableEq

inductive Directive
  | resume
  | restart
  | stop
  | escalate
  deriving DecidableEq

/-- The children ever spawned, the calls of `finishStop` that have come to their end and the user
messages handled are recorded; nothing in the program reads these. -/
structure ActorContext where
  parent : Option ℕ
  mailbox : Mailbox Message
  registered : Bool
  children : List ℕ
  stopping : Bool
  activity : Activity
  spawned : List ℕ
  reports : ℕ
  handled : ℕ
  deriving DecidableEq

namespace ActorContext
variable (a : ActorContext)

def spawnProps (parent : Option ℕ) : ActorContext where
  parent := parent
  mailbox := { Mailbox.new with systemQueue := [.actorStarted] }
  registered := true
  children := []
  stopping := false
  activity := .idle
  spawned := []
  reports := 0
  handled := 0

def setActivity (activity : Activity) : ActorContext := { a with activity := activity }

def suspend : ActorContext := { a with mailbox := { a.mailbox with suspended := true } }

def resume : ActorContext := { a with mailbox := { a.mailbox with suspended := false } }

/-- Up to the delivery of `ActorStopping`. -/
def handleStop : ActorContext := if a.stopping then a else { a with stopping := true, activity := .delivering .stop }

/-- Up to the delivery of the notice. -/
def handleChildTerminated (who : ℕ) : ActorContext :=
  { a with children := a.children.erase who, activity := .delivering .terminated }

def invokeUser (message : Message) : ActorContext :=
  let a := { a with handled := a.handled+1 }
  if message = .poisonPill then a.handleStop else a.setActivity (.delivering .done)

def invokeSystem : Message → ActorContext
  | .actorStarted => a.setActivity (.delivering .done)
  | .systemStop => a.handleStop
  | .systemRestart => a.setActivity (.delivering .restart)
  | .systemResume => a.resume
  | .actorFailure child => a.setActivity (.supervising child)
  | .actorTerminated who => a.handleChildTerminated who
  | .user _ | .poisonPill => a

def take (throughput : ℤ) (count : ℕ) : Option ActorContext :=
  if a.activity = .idle then
    match a.mailbox.takeNext throughput count with
    | (some (.system message),mailbox) => some ({ a with mailbox := mailbox }.invokeSystem message)
    | (some (.user envelope),mailbox) => some ({ a with mailbox := mailbox }.invokeUser envelope.message)
    | (none,_) => none
  else none

/-- `spawn:`. Nobody else reads the children, so that they are updated together with the registry. -/
def spawn (child : ℕ) : Option ActorContext :=
  match a.activity with
  | .delivering _ => some { a with children := a.children ++ [child], spawned := a.spawned ++ [child] }
  | _ => none

def fail : Option ActorContext :=
  match a.activity with
  | .delivering next => some (a.suspend.setActivity (.failing next))
  | _ => none

/-- The message of `failWith:`. The guardian of the system restarts every actor that fails. -/
def failure (pid : ℕ) : ℕ × Message :=
  match a.parent with
  | some parent => (parent,.actorFailure pid)
  | none => (pid,.systemRestart)

/-- `handleFailure:context:`, with the directive that the decider answers. -/
def handleFailure (directive : Directive) : Option (ActorContext × Option (ℕ × Message)) :=
  match a.activity with
  | .supervising child =>
    match directive with
    | .resume => some (a.setActivity .idle,some (child,.systemResume))
    | .restart => some (a.setActivity .idle,some (child,.systemRestart))
    | .stop => some (a.setActivity .idle,some (child,.systemStop))
    | .escalate => some (a.suspend.setActivity (.failing .done),none)
  | _ => none

def goOn : Next → ActorContext
  | .done => a.setActivity .idle
  | .stop => a.setActivity (if a.children = [] then .delivering .finish else .stopping a.children)
  | .finish => a.setActivity .unregister
  | .restart => a.setActivity (.restarting a.children)
  | .terminated => a.setActivity (if a.stopping ∧ a.children = [] then .delivering .finish else .idle)

/-- The next part of the code of the context, with the system message that it sends. -/
def proceed (pid : ℕ) : Option (ActorContext × Option (ℕ × Message)) :=
  match a.activity with
  | .idle | .supervising _ | .dead => none
  | .delivering next => some (a.setActivity (.delivered next),none)
  | .failing next => some (a.setActivity (.delivered next),some (a.failure pid))
  | .delivered next => some (a.goOn next,none)
  | .stopping [] => some (a.setActivity .idle,none)
  | .stopping (child :: rest) => some (a.setActivity (.stopping rest),some (child,.systemStop))
  -- the new actor starts without children, whatever has become of the old ones
  | .restarting [] => some ({ a.resume with children := [], activity := .delivering .done },none)
  | .restarting (child :: rest) => some (a.setActivity (.restarting rest),some (child,.systemStop))
  | .unregister => some ({ a with registered := false, activity := .stopRunner },none)
  | .stopRunner => some ({ a with
      mailbox := { a.mailbox with running := false }
      activity := .report },none)
  | .report => some ({ a with reports := a.reports+1, activity := .idle },
      a.parent.map fun parent => (parent,.actorTerminated pid))

def postSystem (message : Message) : ActorContext :=
  { a with mailbox := { a.mailbox with systemQueue := a.mailbox.systemQueue ++ [message] } }

def postUser (envelope : Envelope Message) : ActorContext :=
  { a with mailbox := { a.mailbox with userQueue := a.mailbox.userQueue ++ [envelope] } }

end ActorContext

structure ActorSystem where
  actors : ℕ → Option ActorContext
  nextId : ℕ

namespace ActorSystem
variable (s : ActorSystem)

def set (pid : ℕ) (a : ActorContext) : ActorSystem := { s with actors := Function.update s.actors pid (some a) }

/-- What is sent to a pid that is not registered is dropped. -/
def deliver (pid : ℕ) (post : ActorContext → ActorContext) : ActorSystem :=
  match s.actors pid with
  | some a => if a.registered then s.set pid (post a) else s
  | none => s

def deliverSystem (pid : ℕ) (message : Message) : ActorSystem := s.deliver pid fun a => a.postSystem message

def deliverUser (pid : ℕ) (envelope : Envelope Message) : ActorSystem := s.deliver pid fun a => a.postUser envelope

def spawnProps (parent : Option ℕ) : ActorSystem := { s.set s.nextId (.spawnProps parent) with nextId := s.nextId+1 }

def update (pid : ℕ) (result : ActorContext × Option (ℕ × Message)) : ActorSystem :=
  match result.2 with
  | some (target,message) => (s.set pid result.1).deliverSystem target message
  | none => s.set pid result.1

end ActorSystem

inductive ActorAction
  /-- `spawn:` of the system -/
  | spawnRoot
  | tell (pid : ℕ) (envelope : Envelope Message)
  | sendSystem (pid : ℕ) (message : Message)
  | take (pid count : ℕ)
  | spawn (pid : ℕ)
  | fail (pid : ℕ)
  | handleFailure (pid : ℕ) (directive : Directive)
  | proceed (pid : ℕ)
  | die (pid : ℕ)
  deriving DecidableEq

/-- Only `finishStop` sends the notice of a termination. -/
def Message.isNotice : Message → Bool
  | .actorTerminated _ => true
  | _ => false

def actorStep (throughput : ℕ → ℤ) (s : ActorSystem) : ActorAction → Option ActorSystem
  | .spawnRoot => some (s.spawnProps none)
  | .tell pid envelope => some (s.deliverUser pid envelope)
  | .sendSystem pid message => if message.isNotice then none else some (s.deliverSystem pid message)
  | .take pid count => (s.actors pid).bind fun a => (a.take (throughput pid) count).map (s.set pid)
  | .spawn pid => (s.actors pid).bind fun a => (a.spawn s.nextId).map fun a => (s.set pid a).spawnProps (some pid)
  | .fail pid => (s.actors pid).bind fun a => a.fail.map (s.set pid)
  | .handleFailure pid directive => (s.actors pid).bind fun a => (a.handleFailure directive).map (s.update pid)
  | .proceed pid => (s.actors pid).bind fun a => (a.proceed pid).map (s.update pid)
  | .die pid => (s.actors pid).map fun a => s.set pid (a.setActivity .dead)

theorem exists_actor {s : ActorSystem} {f : ActorContext → Option α} {g : α → β}
    (h : ((s.actors pid).bind fun a => (f a).map g) = some b) : ∃ a a', s.actors pid = some a ∧ f a = some a' ∧ g a' = b := by
  obtain ⟨a,ha,h⟩ := Option.bind_eq_some_iff.mp h
  obtain ⟨a',ha',h⟩ := Option.map_eq_some_iff.mp h
  exact ⟨a,a',ha,ha',h⟩

def ActorSystem.new : ActorSystem := ⟨fun _ => none,0⟩

end SmalltalkJit.Actors
