import SmalltalkJit.Actors.Termination

/-! # Errors of the code of actors

While the runner of an actor executes its context, code of the user is called: by
`runReceive` for messages, behaviours and the hooks of the lifecycle, which includes
the producers of new children; by `directiveFor:`, when a child has failed; and by
`handleRestart`, for a new actor. An error that it signals becomes a failure where a
handler is around the call, which is so in `deliver:from:` only. Elsewhere the error
leaves the loop of the mailbox, and ends the process of the runner.
-/
namespace SmalltalkJit.Actors
open Interleaving Function Option

/-- What `directiveFor:` answers: there is no decider, or its block answers a directive or something else. -/
inductive Answer
  | default
  | answers (directive : Directive)
  | other
  deriving DecidableEq

def Answer.followed : Answer → Directive
  | .answers directive => directive
  | .default | .other => .restart

/-- Code of the user signals an error. The children of a restarted actor are forgotten before the
producer is called, and its mailbox is resumed afterwards. -/
def ActorContext.signal (a : ActorContext) : Option ActorContext :=
  match a.activity with
  | .delivering _ => a.fail
  | .supervising _ => some (a.setActivity .dead)
  | .restarting [] => some ({ a with children := [] }.setActivity .dead)
  | _ => none

/-- The actors, with the errors signalled, the failures of children that were made an actor's own, the
failures handed to supervisors, and the directives followed. Nothing in the program reads the records. -/
structure Isolation where
  system : ActorSystem
  signalled : ℕ → ℕ
  escalated : ℕ → ℕ
  failures : ℕ → ℕ
  directives : List (Answer × Directive)

def ActorSystem.activity (s : ActorSystem) (pid : ℕ) : Option Activity := (s.actors pid).map ActorContext.activity

def Activity.isFailing : Activity → Bool
  | .failing _ => true
  | _ => false

namespace Isolation

def failing (s : Isolation) (pid : ℕ) : Bool := (s.system.activity pid).any Activity.isFailing

def start : Isolation := ⟨.new,fun _ => 0,fun _ => 0,fun _ => 0,[]⟩

end Isolation

inductive IsolationAction
  | step (action : ActorAction)
  | signal (pid : ℕ)
  | answer (pid : ℕ) (answer : Answer)
  deriving DecidableEq

def addTo (pid n : ℕ) (count : ℕ → ℕ) : ℕ → ℕ := fun q => if q = pid then count q + n else count q

/-- Processes are not terminated from outside, and errors and answers have actions of their own. -/
def isolationStep (throughput : ℕ → ℤ) (s : Isolation) : IsolationAction → Option Isolation
  | .step (.fail _) | .step (.handleFailure _ _) | .step (.die _) => none
  | .step (.proceed pid) => (actorStep throughput s.system (.proceed pid)).map fun system =>
      { s with system := system, failures := addTo pid (s.failing pid).toNat s.failures }
  | .step action => (actorStep throughput s.system action).map fun system => { s with system := system }
  | .signal pid => (s.system.actors pid).bind fun a => a.signal.map fun a =>
      { s with system := s.system.set pid a, signalled := addTo pid 1 s.signalled }
  | .answer pid answer => (actorStep throughput s.system (.handleFailure pid answer.followed)).map fun system =>
      { s with
        system := system
        escalated := if answer.followed = .escalate then addTo pid 1 s.escalated else s.escalated
        directives := s.directives ++ [(answer,answer.followed)] }

/-- The runner comes back to its loop when its context goes on without errors. There it takes system
messages, even if the mailbox is suspended. -/
inductive Returns (pid : ℕ) : ActorContext → Prop
  | idle {a : ActorContext} (h : a.activity = .idle) : Returns pid a
  | proceed {a a' : ActorContext} {out : Option (ℕ × Message)} (h : a.proceed pid = some (a',out))
    (hnext : Returns pid a') : Returns pid a
  | answer {a a' : ActorContext} {out : Option (ℕ × Message)} {directive : Directive}
    (h : a.handleFailure directive = some (a',out)) (hnext : Returns pid a') : Returns pid a

/-- Every runner comes back to its loop, each error has been handed to the supervisor as a failure or is
about to be, and the directives followed are those of the decider or the default. -/
structure Isolated (s : Isolation) : Prop where
  able : ∀ pid a, s.system.actors pid = some a → Returns pid a
  handed : ∀ pid, s.signalled pid + s.escalated pid = s.failures pid + (s.failing pid).toNat
  directives : ∀ p ∈ s.directives, p.1 = .answers p.2 ∨ p.2 = .restart

/-- No decider and no producer of a restart signals an error. -/
def Guarded (s : Isolation) : IsolationAction → Prop
  | .signal pid => ∀ a, s.system.actors pid = some a →
      (∀ child, a.activity ≠ .supervising child) ∧ a.activity ≠ .restarting []
  | _ => True

section Returning
variable {pid : ℕ} {a : ActorContext}

theorem returns_done (h : a.activity = .delivered .done) : Returns pid a :=
  .proceed (show a.proceed pid = some (a.setActivity .idle,none) by rw [ActorContext.proceed,h]; rfl) (.idle rfl)

theorem returns_unregister (h : a.activity = .unregister) : Returns pid a := by
  have hp : a.proceed pid = some ({ a with registered := false, activity := .stopRunner },none) := by
    rw [ActorContext.proceed,h]
  exact .proceed hp (.proceed rfl (.proceed rfl (.idle rfl)))

theorem returns_finish (h : a.activity = .delivered .finish) : Returns pid a :=
  .proceed (show a.proceed pid = some (a.setActivity .unregister,none) by rw [ActorContext.proceed,h]; rfl)
    (returns_unregister rfl)

theorem returns_stopping (h : a.activity = .stopping pids) : Returns pid a := by
  induction pids generalizing a with
  | nil => exact .proceed (show a.proceed pid = some (a.setActivity .idle,none) by rw [ActorContext.proceed,h]) (.idle rfl)
  | cons c r ih =>
    have hp : a.proceed pid = some (a.setActivity (.stopping r),some (c,.systemStop)) := by
      rw [ActorContext.proceed,h]
    exact .proceed hp (ih rfl)

theorem returns_restarting (h : a.activity = .restarting pids) : Returns pid a := by
  induction pids generalizing a with
  | nil =>
    have hp : a.proceed pid = some ({ a.resume with children := [], activity := .delivering .done },none) := by
      rw [ActorContext.proceed,h]
    exact .proceed hp (.proceed rfl (returns_done rfl))
  | cons c r ih =>
    have hp : a.proceed pid = some (a.setActivity (.restarting r),some (c,.systemStop)) := by
      rw [ActorContext.proceed,h]
    exact .proceed hp (ih rfl)

theorem returns_delivered (h : a.activity = .delivered next) : Returns pid a := by
  have hg : a.proceed pid = some (a.goOn next,none) := by rw [ActorContext.proceed,h]
  cases next with
  | done => exact returns_done h
  | finish => exact returns_finish h
  | restart => exact .proceed hg (returns_restarting rfl)
  | stop =>
    refine .proceed hg ?_
    by_cases hn : a.children = []
    · refine .proceed (show _ = some (a.setActivity (.delivered .finish),none) from ?_) (returns_finish rfl)
      simp [ActorContext.goOn,hn,ActorContext.proceed,ActorContext.setActivity]
    · exact returns_stopping (if_neg hn)
  | terminated =>
    refine .proceed hg ?_
    by_cases hl : a.stopping ∧ a.children = []
    · refine .proceed (show _ = some (a.setActivity (.delivered .finish),none) from ?_) (returns_finish rfl)
      simp [ActorContext.goOn,hl,ActorContext.proceed,ActorContext.setActivity]
    · exact .idle (if_neg hl)

theorem returns_iff : Returns pid a ↔ a.activity ≠ .dead := by
  constructor
  · intro h hd
    cases h with
    | idle h => exact nomatch h.symm.trans hd
    | proceed h => simp [ActorContext.proceed,hd] at h
    | answer h => simp [ActorContext.handleFailure,hd] at h
  · intro hd
    cases h : a.activity with
    | dead => exact absurd h hd
    | idle => exact .idle h
    | delivering next =>
      exact .proceed (show a.proceed pid = some (a.setActivity (.delivered next),none) by rw [ActorContext.proceed,h])
        (returns_delivered rfl)
    | failing next =>
      have hp : a.proceed pid = some (a.setActivity (.delivered next),some (a.failure pid)) := by
        rw [ActorContext.proceed,h]
      exact .proceed hp (returns_delivered rfl)
    | delivered => exact returns_delivered h
    | supervising c =>
      have ha : a.handleFailure .restart = some (a.setActivity .idle,some (c,.systemRestart)) := by
        rw [ActorContext.handleFailure,h]
      exact .answer ha (.idle rfl)
    | stopping => exact returns_stopping h
    | restarting => exact returns_restarting h
    | unregister => exact returns_unregister h
    | stopRunner =>
      have hp : a.proceed pid =
          some ({ a with mailbox := { a.mailbox with running := false }, activity := .report },none) := by
        rw [ActorContext.proceed,h]
      exact .proceed hp (.proceed rfl (.idle rfl))
    | report =>
      have hp : a.proceed pid = some ({ a with reports := a.reports+1, activity := .idle },
          a.parent.map fun p => (p,.actorTerminated pid)) := by
        rw [ActorContext.proceed,h]
      exact .proceed hp (.idle rfl)

end Returning

section Activities
variable {s : ActorSystem} {pid : ℕ} {a a' : ActorContext}

theorem activity_set : (s.set pid a).activity = update s.activity pid (some a.activity) := by
  funext q
  by_cases hq : q = pid
  · rw [hq,update_self,ActorSystem.activity,set_self]
    rfl
  · rw [update_of_ne hq,ActorSystem.activity]
    exact congrArg _ (update_of_ne hq _ _)

theorem activity_deliver (h : ∀ a, (post a).activity = a.activity) : (s.deliver pid post).activity = s.activity := by
  unfold ActorSystem.deliver
  split
  · next a ha =>
    split
    · rw [activity_set,h]
      refine update_eq_self_iff.mpr ?_
      rw [ActorSystem.activity,ha]
      rfl
    · rfl
  · rfl

theorem activity_update : (s.update pid (a,out)).activity = update s.activity pid (some a.activity) := by
  cases out with
  | none => exact activity_set
  | some =>
    refine (activity_deliver ?_).trans activity_set
    exact fun _ => rfl

theorem take_activity (h : a.take throughput count = some a') :
    a.activity = .idle ∧ a'.activity ≠ .dead ∧ a'.activity.isFailing = false := by
  obtain ⟨hi,h⟩ := ite_none_right_eq_some.mp h
  refine ⟨hi,?_⟩
  obtain heq | ⟨m,r,hq,heq⟩ | ⟨e,r,-,-,-,-,heq⟩ := takeNext_cases throughput a.mailbox count
  · rw [heq] at h
    cases h
  · rw [heq] at h
    cases h
    cases m <;> simp only [ActorContext.invokeSystem,ActorContext.handleStop] <;> try split
    all_goals simp [ActorContext.setActivity,ActorContext.resume,ActorContext.handleChildTerminated,hi,
      Activity.isFailing]
  · rw [heq] at h
    cases h
    simp only [ActorContext.invokeUser,ActorContext.handleStop]
    repeat' split
    all_goals simp [ActorContext.setActivity,hi,Activity.isFailing]

theorem goOn_activity (next : Next) : (a.goOn next).activity ≠ .dead ∧ (a.goOn next).activity.isFailing = false := by
  cases next <;> simp only [ActorContext.goOn,ActorContext.setActivity] <;> try split
  all_goals exact ⟨nofun,rfl⟩

theorem proceed_activity (h : a.proceed pid = some (a',out)) :
    a'.activity ≠ .dead ∧ a'.activity.isFailing = false := by
  unfold ActorContext.proceed at h
  split at h
  all_goals cases h
  all_goals first
    | exact goOn_activity _
    | exact ⟨nofun,rfl⟩

theorem handleFailure_activity (h : a.handleFailure directive = some (a',out)) :
    a.activity.isFailing = false ∧ a'.activity ≠ .dead ∧ a'.activity.isFailing = decide (directive = .escalate) := by
  unfold ActorContext.handleFailure at h
  split at h
  · next c hc =>
    rw [hc]
    cases directive <;> cases h <;> exact ⟨rfl,nofun,rfl⟩
  · cases h

end Activities

section Isolating
variable {throughput : ℕ → ℤ} {s s' : Isolation} {pid : ℕ} {activity : Activity}

@[simp] theorem addTo_self (n : ℕ) (count : ℕ → ℕ) : addTo pid n count pid = count pid + n := if_pos rfl

@[simp] theorem addTo_of_ne (h : q ≠ pid) (n : ℕ) (count : ℕ → ℕ) : addTo pid n count q = count q := if_neg h

theorem activity_eq_of_actor {system : ActorSystem} (ha : system.actors pid = some a) :
    system.activity pid = some a.activity := by
  rw [ActorSystem.activity,ha]
  rfl

theorem able_iff : (∀ pid a, s.system.actors pid = some a → Returns pid a) ↔
    ∀ pid, s.system.activity pid ≠ some .dead := by
  simp only [returns_iff,ActorSystem.activity,Ne,map_eq_some_iff,not_exists,not_and]

theorem Isolated.move (h : Isolated s)
    (ha : s'.system.activity = update s.system.activity pid (some activity)) (hde : activity ≠ .dead)
    (hown : s'.signalled pid + s'.escalated pid = s'.failures pid + activity.isFailing.toNat)
    (ho : ∀ q, q ≠ pid → s'.signalled q = s.signalled q ∧ s'.escalated q = s.escalated q ∧ s'.failures q = s.failures q)
    (hd : ∀ p ∈ s'.directives, p.1 = .answers p.2 ∨ p.2 = .restart) : Isolated s' := by
  have hal := able_iff.mp h.able
  refine ⟨able_iff.mpr fun q => ?_,fun q => ?_,hd⟩
  · rw [ha]
    by_cases hq : q = pid
    · rw [hq,update_self]
      exact fun heq => hde (Option.some.inj heq)
    · rw [update_of_ne hq]
      exact hal q
  · by_cases hq : q = pid
    · rw [hq,hown,Isolation.failing,ha,update_self]
      rfl
    · obtain ⟨hs,he,hf⟩ := ho q hq
      have hfa : s'.failing q = s.failing q := by
        rw [Isolation.failing,ha,update_of_ne hq]
        rfl
      rw [hs,he,hf,hfa,h.handed q]

theorem Isolated.calm (h : Isolated s) (ha : system.activity = update s.system.activity pid (some activity))
    (hd : activity ≠ .dead) (hf : activity.isFailing = s.failing pid) : Isolated { s with system := system } :=
  h.move ha hd (by rw [hf]; exact h.handed pid) (fun _ _ => ⟨rfl,rfl,rfl⟩) h.directives

theorem Isolated.same (h : Isolated s) (ha : system.activity = s.system.activity) :
    Isolated { s with system := system } :=
  ⟨able_iff.mpr (by simpa only [ha] using able_iff.mp h.able),
    by simpa only [Isolation.failing,ha] using h.handed,h.directives⟩

theorem failing_eq {a : ActorContext} (ha : s.system.actors pid = some a) : s.failing pid = a.activity.isFailing := by
  rw [Isolation.failing,activity_eq_of_actor ha]
  rfl

theorem lasting_true : Lasting fun _ _ => True :=
  ⟨fun _ _ _ _ _ => trivial,fun _ _ _ _ _ => trivial,fun _ _ _ _ _ => trivial,fun _ _ => trivial⟩

theorem admits_true (system : ActorSystem) (action : ActorAction) : Admits (fun _ _ => True) system action :=
  ⟨fun _ _ _ _ _ _ _ _ => trivial,fun _ _ _ _ _ _ _ _ => trivial,fun _ _ _ _ => trivial⟩

theorem Isolated.spawnProps (h : Isolated s) (hf : s.system.actors s.system.nextId = none) :
    Isolated { s with system := s.system.spawnProps parent } := by
  refine h.calm activity_set nofun ?_
  rw [Isolation.failing,ActorSystem.activity,hf]
  rfl

theorem Isolated.step (h : Isolated s) (hfr : s.system.actors s.system.nextId = none)
    (hst : isolationStep throughput s (.step action) = some s') : Isolated s' := by
  cases action with
  | fail | handleFailure | die => cases hst
  | spawnRoot =>
    cases hst
    exact h.spawnProps hfr
  | tell =>
    cases hst
    exact h.same (activity_deliver fun _ => rfl)
  | sendSystem =>
    obtain ⟨system,hs,rfl⟩ := map_eq_some_iff.mp hst
    obtain ⟨-,heq⟩ := ite_none_left_eq_some.mp hs
    cases heq
    exact h.same (activity_deliver fun _ => rfl)
  | take =>
    obtain ⟨system,hs,rfl⟩ := map_eq_some_iff.mp hst
    obtain ⟨a,a',ha,ha',rfl⟩ := exists_actor hs
    obtain ⟨hi,hd,hf⟩ := take_activity ha'
    exact h.calm activity_set hd (by rw [failing_eq ha,hi,hf]; rfl)
  | spawn pid =>
    obtain ⟨system,hs,rfl⟩ := map_eq_some_iff.mp hst
    obtain ⟨a,a',ha,ha',rfl⟩ := exists_actor hs
    have hsa : a'.activity = a.activity := by
      unfold ActorContext.spawn at ha'
      split at ha' <;> cases ha'
      rfl
    have hne : s.system.nextId ≠ pid := fun heq => nomatch (heq ▸ hfr).symm.trans ha
    have hset : Isolated { s with system := s.system.set pid a' } :=
      h.calm activity_set (hsa ▸ returns_iff.mp (h.able pid a ha)) (by rw [failing_eq ha,hsa])
    exact hset.spawnProps ((update_of_ne hne _ _).trans hfr)
  | proceed pid =>
    obtain ⟨system,hs,rfl⟩ := map_eq_some_iff.mp hst
    obtain ⟨a,⟨a',out⟩,ha,ha',rfl⟩ := exists_actor hs
    obtain ⟨hd,hf⟩ := proceed_activity ha'
    refine h.move activity_update hd ?_ (fun q hq => ⟨rfl,rfl,addTo_of_ne hq _ _⟩) h.directives
    rw [hf]
    exact (h.handed pid).trans (addTo_self _ _).symm

theorem Isolated.answer {answer : Answer} (h : Isolated s)
    (hst : isolationStep throughput s (.answer pid answer) = some s') : Isolated s' := by
  obtain ⟨system,hs,rfl⟩ := map_eq_some_iff.mp hst
  obtain ⟨a,⟨a',out⟩,ha,ha',rfl⟩ := exists_actor hs
  obtain ⟨hb,hd,hf⟩ := handleFailure_activity ha'
  have hh := h.handed pid
  rw [failing_eq ha,hb] at hh
  refine h.move activity_update hd ?_ (fun q hq => ⟨rfl,?_,rfl⟩) fun p hp => ?_
  · rw [hf]
    by_cases he : answer.followed = .escalate
    · simp only [he,if_true,addTo_self,decide_true,Bool.toNat_true]
      exact congrArg (· + 1) hh
    · simpa only [he,if_false,decide_false] using hh
  · dsimp only
    split
    · exact addTo_of_ne hq _ _
    · rfl
  · obtain hp | hp := List.mem_append.mp hp
    · exact h.directives p hp
    · rw [List.mem_singleton.mp hp]
      cases answer with
      | answers => exact .inl rfl
      | default | other => exact .inr rfl

theorem Isolated.signal_iff (h : Isolated s) (hs : isolationStep throughput s (.signal pid) = some s') :
    Isolated s' ↔ Guarded s (.signal pid) := by
  obtain ⟨a,a',ha,ha',rfl⟩ := exists_actor hs
  have hl : a'.activity = .dead → ¬ Isolated { s with
      system := s.system.set pid a', signalled := addTo pid 1 s.signalled } :=
    fun hd hiso => returns_iff.mp (hiso.able pid a' set_self) hd
  unfold ActorContext.signal at ha'
  split at ha'
  · next next hact =>
    rw [ActorContext.fail,hact] at ha'
    cases ha'
    have hh := h.handed pid
    rw [failing_eq ha,hact] at hh
    refine iff_of_true ?_ fun b hb => ?_
    · refine h.move activity_set nofun ?_ (fun q hq => ⟨addTo_of_ne hq _ _,rfl,rfl⟩) h.directives
      simp only [addTo_self,Nat.add_right_comm _ 1,hh]
      rfl
    · obtain rfl := Option.some.inj (ha.symm.trans hb)
      rw [hact]
      exact ⟨nofun,nofun⟩
  · next c hact =>
    cases ha'
    exact iff_of_false (hl rfl) fun hg => (hg a ha).1 c hact
  · next hact =>
    cases ha'
    exact iff_of_false (hl rfl) fun hg => (hg a ha).2 hact
  · cases ha'

/-- In every run, with any number of actors: errors of the code of actors stay isolated all along iff none
is signalled by a decider or by the producer of a restart. -/
theorem errors_isolated_iff {actions : List IsolationAction}
    (h : perform (isolationStep throughput) .start actions = some s) :
    Along (isolationStep throughput) Isolated .start actions ↔
      Meets (isolationStep throughput) Guarded .start actions := by
  refine along_iff_meets (I := fun s => Populated (fun _ _ => True) s.system) ?_ populated_new
    ⟨fun _ _ h => (nomatch h),fun _ => rfl,nofun⟩ h
  intro s action s' hpop hiso hs
  have hf := hpop.fresh _ (Nat.le_refl _)
  have hact : ∀ action {system}, actorStep throughput s.system action = some system →
      Populated (fun _ _ => True) system :=
    fun _ _ hsy => hpop.step lasting_true (admits_true _ _) hsy
  cases action with
  | signal =>
    refine ⟨hiso.signal_iff hs,fun _ => ?_⟩
    obtain ⟨a,a',ha,ha',rfl⟩ := exists_actor hs
    have hr : a'.reports = a.reports := by
      unfold ActorContext.signal ActorContext.fail at ha'
      repeat' split at ha'
      all_goals cases ha'
      all_goals rfl
    exact hpop.set lasting_true ha hr.ge fun _ => trivial
  | answer _ answer =>
    refine ⟨iff_of_true (hiso.answer hs) trivial,fun _ => ?_⟩
    obtain ⟨system,hsy,rfl⟩ := map_eq_some_iff.mp hs
    exact hact _ hsy
  | step action =>
    refine ⟨iff_of_true (hiso.step hf hs) trivial,fun _ => ?_⟩
    cases action with
    | fail | handleFailure | die => cases hs
    | spawnRoot =>
      cases hs
      exact hact .spawnRoot rfl
    | tell pid e =>
      cases hs
      exact hact (.tell pid e) rfl
    | sendSystem | take | spawn | proceed =>
      obtain ⟨system,hsy,rfl⟩ := map_eq_some_iff.mp hs
      exact hact _ hsy

def restartRun : List IsolationAction :=
  [.step .spawnRoot,.step (.take 0 0),.signal 0,.step (.proceed 0),.step (.proceed 0),.step (.take 0 0),
   .step (.proceed 0),.step (.proceed 0)]

def superviseRun : List IsolationAction :=
  [.step .spawnRoot,.step (.take 0 0),.step (.spawn 0),.step (.proceed 0),.step (.proceed 0),.step (.take 1 0),.signal 1,
   .step (.proceed 1),.step (.take 0 0)]

theorem errors_isolated_restart : ∃ s, perform (isolationStep fun _ => 30) .start restartRun = some s ∧
      (Along (isolationStep fun _ => 30) Isolated .start restartRun ↔
        Meets (isolationStep fun _ => 30) Guarded .start restartRun) :=
  ⟨_,rfl,errors_isolated_iff rfl⟩

theorem errors_not_isolated :
    (∃ s, perform (isolationStep fun _ => 30) .start (restartRun ++ [.signal 0]) = some s ∧ ¬ Isolated s) ∧
    ∃ s, perform (isolationStep fun _ => 30) .start (superviseRun ++ [.signal 0]) = some s ∧ ¬ Isolated s :=
  ⟨⟨_,rfl,fun h => returns_iff.mp (h.able 0 _ rfl) rfl⟩,⟨_,rfl,fun h => returns_iff.mp (h.able 0 _ rfl) rfl⟩⟩

end Isolating

end SmalltalkJit.Actors
