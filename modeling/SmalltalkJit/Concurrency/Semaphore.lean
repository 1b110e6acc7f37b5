import SmalltalkJit.Concurrency.Parks
import SmalltalkJit.Concurrency.Shutdown

/-! # Semaphores

`Semaphore>>wait` and `Semaphore>>signal` run under the monitor of the semaphore,
on top of the scheduler. A signal hands its permit to the first id in the queue
without a look at the process behind it. A permit is therefore lost exactly when
that process does not sleep in its wait any more.
-/
namespace SmalltalkJit.Concurrency
open Scheduler Interleaving Function List Option

/-- How far the process that has the monitor is: in `wait`, about to park, in `signal`, about to resume
a process, or about to leave. -/
inductive Stage
  | wait
  | park
  | signal
  | hand (id : ℕ)
  | exit
  deriving DecidableEq

/-- The variables of a semaphore, its monitor, and the scheduler. The signals that have had their
effect and the waits that have been granted are counted; nothing in the program reads these counts. -/
structure SyncState where
  sched : Scheduler
  count : ℕ
  waiting : List ℕ
  monitor : Option (ℕ × Stage)
  signals : ℕ
  granted : ℕ

inductive SyncAction
  | sched (a : Action)
  | enterWait (w : ℕ)
  | enterSignal (w : ℕ)
  | wait (w : ℕ)
  /-- `parkOnMonitor`: the monitor is released when the parked state has been published -/
  | park (w : ℕ)
  | signal (w : ℕ)
  | hand (w : ℕ)
  | exit (w : ℕ)
  deriving DecidableEq

def Action.process : Action → Option ℕ
  | .spawnC w | .spawnBlock w | .resume w _ | .yield w | .suspend w | .sleep w _ | .waitFd w _
  | .terminate w _ | .finish w => some w
  | _ => none

instance : DecidablePred Fiber.Asleep := fun _ => inferInstanceAs (Decidable (_ ∨ _ ∧ _ ∧ _))

def Scheduler.asleep (s : Scheduler) (id : ℕ) : Bool := (s.fibers id).any fun fiber => fiber.Asleep

namespace SyncState
variable (s : SyncState)

def inside (w : ℕ) : Option (ℕ × Fiber × Stage) :=
  (s.sched.current w).bind fun (id,fiber) => s.monitor.bind fun (owner,stage) =>
    if owner = id then some (id,fiber,stage) else none

/-- A process that has the monitor does nothing else. -/
def Outside (a : Action) : Prop := ∀ w ∈ a.process, s.inside w = none

instance (a : Action) : Decidable (s.Outside a) := inferInstanceAs (Decidable (∀ w ∈ a.process, s.inside w = none))

def enter (w : ℕ) (stage : Stage) : Option SyncState :=
  if s.monitor = none then (s.sched.current w).map fun (id,_) => { s with monitor := some (id,stage) }
  else none

def wait (id : ℕ) : SyncState :=
  if 0 < s.count then
    { s with count := s.count-1, granted := s.granted+1, monitor := some (id,.exit) }
  else { s with waiting := s.waiting ++ [id], monitor := some (id,.park) }

def parkOnMonitor (w id : ℕ) (fiber : Fiber) : SyncState :=
  { s with sched := s.sched.schedulerSuspend w id fiber, monitor := none }

def signal (id : ℕ) : SyncState :=
  match s.waiting with
  | [] => { s with count := s.count+1, signals := s.signals+1, monitor := some (id,.exit) }
  | target :: rest => { s with waiting := rest, monitor := some (id,.hand target) }

/-- `resumeId:`. The wait of a process is granted if the process sleeps. -/
def resumeId (id target : ℕ) : SyncState :=
  { s with
    sched := s.sched.schedulerResumeLocked target
    signals := s.signals+1
    granted := s.granted + if s.sched.asleep target then 1 else 0
    monitor := some (id,.exit) }

/-- The processes that have been enqueued and have not been resumed. -/
def queue : List ℕ :=
  match s.monitor with
  | some (_,.hand id) => id :: s.waiting
  | _ => s.waiting

end SyncState

def syncStep (s : SyncState) : SyncAction → Option SyncState
  | .sched a => if s.Outside a then (step s.sched a).map fun sched => { s with sched := sched } else none
  | .enterWait w => s.enter w .wait
  | .enterSignal w => s.enter w .signal
  | .wait w =>
    match s.inside w with
    | some (id,_,.wait) => some (s.wait id)
    | _ => none
  | .park w =>
    match s.inside w with
    | some (id,fiber,.park) => some (s.parkOnMonitor w id fiber)
    | _ => none
  | .signal w =>
    match s.inside w with
    | some (id,_,.signal) => some (s.signal id)
    | _ => none
  | .hand w =>
    match s.inside w with
    | some (id,_,.hand target) => some (s.resumeId id target)
    | _ => none
  | .exit w =>
    match s.inside w with
    | some (_,_,.exit) => some { s with monitor := none }
    | _ => none

inductive SyncSteps (s : SyncState) : SyncAction → SyncState → Prop
  | sched {a sched} (houtside : s.Outside a) (hstep : step s.sched a = some sched) :
    SyncSteps s (.sched a) { s with sched := sched }
  | enterWait {w id} (hfree : s.monitor = none) (hpc : s.sched.pc w = .holds .running id) :
    SyncSteps s (.enterWait w) { s with monitor := some (id,.wait) }
  | enterSignal {w id} (hfree : s.monitor = none) (hpc : s.sched.pc w = .holds .running id) :
    SyncSteps s (.enterSignal w) { s with monitor := some (id,.signal) }
  | wait {w id} (hpc : s.sched.pc w = .holds .running id) (hmonitor : s.monitor = some (id,.wait)) :
    SyncSteps s (.wait w) (s.wait id)
  | park {w id fiber} (hpc : s.sched.pc w = .holds .running id) (hfiber : s.sched.fibers id = some fiber)
    (hmonitor : s.monitor = some (id,.park)) : SyncSteps s (.park w) (s.parkOnMonitor w id fiber)
  | signal {w id} (hpc : s.sched.pc w = .holds .running id) (hmonitor : s.monitor = some (id,.signal)) :
    SyncSteps s (.signal w) (s.signal id)
  | hand {w id fiber target} (hpc : s.sched.pc w = .holds .running id)
    (hfiber : s.sched.fibers id = some fiber) (hmonitor : s.monitor = some (id,.hand target)) :
    SyncSteps s (.hand w) (s.resumeId id target)
  | exit {w id} (hpc : s.sched.pc w = .holds .running id) (hmonitor : s.monitor = some (id,.exit)) :
    SyncSteps s (.exit w) { s with monitor := none }

variable {fiber : Fiber}

section Inversion
variable {s s' : SyncState} {w id : ℕ} {a : SyncAction}

theorem inside_eq_some (h : s.inside w = some (id,fiber,stage)) :
    s.sched.pc w = .holds .running id ∧ s.sched.fibers id = some fiber ∧ s.monitor = some (id,stage) := by
  obtain ⟨⟨id',f'⟩,hc,h⟩ := bind_eq_some_iff.mp h
  obtain ⟨⟨o,stage'⟩,hm,h⟩ := bind_eq_some_iff.mp h
  obtain ⟨ho,heq⟩ := ite_none_right_eq_some.mp h
  cases heq
  obtain ⟨hpc,hf⟩ := current_eq_some hc
  exact ⟨hpc,hf,by rw [hm,ho]⟩

theorem enter_eq_some (h : s.enter w stage = some s') :
    ∃ id, s.monitor = none ∧ s.sched.pc w = .holds .running id ∧ s' = { s with monitor := some (id,stage) } := by
  obtain ⟨hf,h⟩ := ite_none_right_eq_some.mp h
  obtain ⟨⟨id,fiber⟩,hc,rfl⟩ := map_eq_some_iff.mp h
  exact ⟨id,hf,(current_eq_some hc).1,rfl⟩

theorem syncSteps_of_step (h : syncStep s a = some s') : SyncSteps s a s' := by
  cases a with
  | sched =>
    obtain ⟨ho,h⟩ := ite_none_right_eq_some.mp h
    obtain ⟨sched,hs,rfl⟩ := map_eq_some_iff.mp h
    exact .sched ho hs
  | enterWait | enterSignal =>
    obtain ⟨id,hfr,hpc,rfl⟩ := enter_eq_some h
    constructor <;> assumption
  | wait | park | signal | hand | exit =>
    unfold syncStep at h
    dsimp only at h
    split at h
    · next hi =>
      cases h
      obtain ⟨hpc,hf,hm⟩ := inside_eq_some hi
      constructor <;> assumption
    · cases h

end Inversion

/-- The process sleeps, and nothing is pending that would wake it. -/
def Scheduler.Rests (s : Scheduler) (id : ℕ) : Prop :=
  (∃ fiber, s.fibers id = some fiber ∧ fiber.Asleep) ∧ ∀ e, s.Pending e → e.tag ≠ id

section Resting
variable {s s' : Scheduler} {w id : ℕ} {a : Action}

theorem running_of_step (hpc : s.pc w = .holds .running id) (hst : step s a = some s')
    (ha : a.process ≠ some w) : s'.pc w = .holds .running id := by
  have hne : ∀ {w' pc}, s.pc w' = pc → pc ≠ .holds .running id → w ≠ w' := by
    rintro w' pc hpc' hne rfl
    exact hne (hpc'.symm.trans hpc)
  have ho : ∀ {w' pc pc'}, s.pc w' = pc' → pc' ≠ .holds .running id →
      update s.pc w' pc w = .holds .running id := fun hpc' hpc'' =>
    (update_of_ne (hne hpc' hpc'') _ _).trans hpc
  have hp : ∀ {w' pc}, a.process = some w' → update s.pc w' pc w = .holds .running id := by
    intro w' pc ha'
    have hw : w ≠ w' := by
      rintro rfl
      exact ha ha'
    exact (update_of_ne hw _ _).trans hpc
  have hs : Signals s s' → s'.pc w = .holds .running id := fun h => h.pc_eq hpc rfl
  cases steps_of_step hst with
  | @loop w' hpc' =>
    have hw : w ≠ w' := hne hpc' (by simp)
    unfold Scheduler.loop
    split
    · exact (update_of_ne hw _ _).trans hpc
    · split_ifs
      · exact (update_of_ne hw _ _).trans hpc
      · exact (update_of_ne hw _ _).trans (congrArg Pc.signalled hpc)
      · exact (update_of_ne hw _ _).trans hpc
      · exact (update_of_ne hw _ _).trans hpc
  | run hpc' | switch hpc' | poll hpc' | wake hpc' => exact ho hpc' (by simp)
  | spawnC => exact congrArg Pc.signalled hpc
  | spawnBlock | tick => exact hpc
  | resume => exact hs signals_resume
  | yield | suspend | sleep | waitFd | terminateSelf | finish => exact hp rfl
  | terminate => exact (congrFun pc_terminate w).trans hpc
  | @commit w' _ _ hpc' =>
    have hset : (s.setPc w' .top).pc w = .holds .running id := ho hpc' (by simp)
    exact commit_pc.2.pc_eq hset rfl
  | @apply _ es hpc' =>
    have he := (signals_apply (s := s) es).pc_eq hpc rfl
    refine (update_of_ne (hne hpc' (by simp)) _ _).trans ?_
    exact congrArg Pc.signalled he
  | @idle w' hpc' =>
    have hw : w ≠ w' := by
      obtain hpc' | ⟨_,hpc'⟩ := hpc'
      · exact hne hpc' (by simp)
      · exact hne hpc' (by simp)
    unfold Scheduler.idle
    split_ifs
    · exact (update_of_ne hw _ _).trans hpc
    · exact (update_of_ne hw _ _).trans hpc

/-- No fiber falls asleep. -/
def Rouses (s s' : Scheduler) : Prop :=
  ∀ id fiber', s'.fibers id = some fiber' → fiber'.Asleep → ∃ fiber, s.fibers id = some fiber ∧ fiber.Asleep

theorem Rouses.refl : Rouses s s := fun _ f' hf ha => ⟨f',hf,ha⟩

theorem Rouses.trans (h : Rouses s s') (h' : Rouses s' s'') : Rouses s s'' := by
  intro id f'' hf'' ha''
  obtain ⟨f',hf',ha'⟩ := h' id f'' hf'' ha''
  exact h id f' hf' ha'

theorem Rouses.congr (h : Rouses s s') (hf : s''.fibers = s'.fibers) : Rouses s s'' := by
  unfold Rouses
  rw [hf]
  exact h

theorem rouses_update (hfibers : s'.fibers = update s.fibers id f)
    (hf : ∀ fiber', f = some fiber' → fiber'.Asleep → ∃ fiber, s.fibers id = some fiber ∧ fiber.Asleep) :
    Rouses s s' := by
  intro id' fiber' hfi' ha'
  rw [hfibers] at hfi'
  by_cases hid : id' = id
  · rw [hid] at hfi' ⊢
    rw [update_self] at hfi'
    exact hf fiber' hfi' ha'
  · rw [update_of_ne hid] at hfi'
    exact ⟨fiber',hfi',ha'⟩

theorem rouses_of_awake (hfi : s'.fibers = update s.fibers id f)
    (haw : ∀ fiber' ∈ f, ¬ fiber'.Asleep) : Rouses s s' :=
  rouses_update hfi fun fiber' hf ha => absurd ha (haw fiber' hf)

theorem awake_resume (h : (s.schedulerResumeLocked id).fibers id = some fiber') : ¬ fiber'.Asleep := by
  revert h
  unfold schedulerResumeLocked
  have hsel : ∀ {f : Option Fiber}, update s.fibers id f id = f := update_self _ _ _
  split
  · next hn =>
    intro h
    cases hn.symm.trans h
  · next fiber hf =>
    split
    · intro h
      cases hsel.symm.trans h
      simp [Fiber.Asleep]
    · next hp =>
      intro h
      cases hsel.symm.trans h
      simp [Fiber.Asleep,hp]
    · next hsu hp =>
      intro h
      cases hf.symm.trans h
      rintro (hs | ⟨hs,-⟩)
      · exact hsu hs
      · exact hp hs

theorem rouses_resume : Rouses s (s.schedulerResumeLocked id) := by
  intro id' f' hf' ha'
  by_cases hid : id' = id
  · rw [hid] at hf'
    exact absurd ha' (awake_resume hf')
  · exact ⟨f',(fibers_resume_other hid).symm.trans hf',ha'⟩

theorem rouses_terminate : Rouses s (s.schedulerTerminate id) := by
  intro id' f' hf' ha'
  refine ⟨f',?_,ha'⟩
  by_cases hid : id' = id
  · rw [hid] at hf' ⊢
    exact (fibers_terminate_self hf').symm.trans hf'
  · exact (fibers_terminate_other hid).symm.trans hf'

theorem rouses_commit (hs : Coherent s) (hpc : s.pc w = .holds .left id) (hf : s.fibers id = some fiber) :
    Rouses s (s.commitFiber w id fiber) := by
  unfold commitFiber
  split_ifs with hd hy hp
  · exact rouses_of_awake (s := s) rfl (by simp)
  · exact rouses_of_awake (s := s) rfl (by simp [Fiber.Asleep])
  · exact rouses_of_awake (s := s) rfl (by simp [Fiber.Asleep])
  · refine rouses_update (s := s) rfl ?_
    rintro _ ⟨⟩ -
    exact ⟨fiber,hf,.inr ⟨(hs.state_left hf hpc).resolve_right hd,hy,by simpa using hp⟩⟩

theorem asleep_before (hs : Coherent s) (hst : step s a = some s') (hid : id < s.nextId)
    (ho : ∀ w, a.process = some w → s.pc w ≠ .holds .running id) (hf' : s'.fibers id = some fiber')
    (has : fiber'.Asleep) : ∃ fiber, s.fibers id = some fiber ∧ fiber.Asleep := by
  have hsa : s'.fibers id = s.fibers id → ∃ fiber, s.fibers id = some fiber ∧ fiber.Asleep := fun heq =>
    ⟨fiber',heq.symm.trans hf',has⟩
  have hr : Rouses s s' → ∃ fiber, s.fibers id = some fiber ∧ fiber.Asleep := fun h => h id fiber' hf' has
  have hc : ∀ {w id0 f}, a.process = some w → s.pc w = .holds .running id0 →
      update s.fibers id0 f id = s.fibers id := by
    intro w id0 f ha hpc
    refine update_of_ne ?_ _ _
    rintro rfl
    exact ho w ha hpc
  have hsp : ∀ {f}, update s.fibers s.nextId f id = s.fibers id := update_of_ne hid.ne _ _
  cases steps_of_step hst with
  | loop => exact hsa (congrFun fibers_loop id)
  | run => exact hr (rouses_of_awake (s := s) rfl (by simp [Fiber.Asleep]))
  | spawnC | spawnBlock => exact hsa hsp
  | resume => exact hr rouses_resume
  | yield hpc | suspend hpc | sleep hpc | waitFd hpc | terminateSelf hpc | finish hpc => exact hsa (hc rfl hpc)
  | terminate => exact hr rouses_terminate
  | commit hpc hf => exact hr (rouses_commit hs hpc hf)
  | apply =>
    have hw := applyEvents_rule (P := Rouses s) .refl (fun _ _ _ h => h) fun _ _ h => h.trans rouses_resume
    exact hr ((hw _).congr rfl)
  | idle => exact hsa (congrFun fibers_idle id)
  | switch | poll | wake | tick => exact hsa rfl

theorem nextId_le_of_step (hs : step s a = some s') : s.nextId ≤ s'.nextId := by
  cases steps_of_step hs with
  | loop => exact sameCounters_loop.1.ge
  | spawnC | spawnBlock => exact Nat.le_succ _
  | resume => exact sameCounters_resume.1.ge
  | terminate => exact sameCounters_terminate.1.ge
  | commit => exact sameCounters_commit.1.ge
  | apply => exact sameCounters_applyEvents.1.ge
  | idle => exact sameCounters_idle.1.ge
  | run | yield | suspend | sleep | waitFd | terminateSelf | finish | switch | poll | wake | tick => exact le_rfl

theorem Scheduler.Rests.step (h : s.Rests id) (hs : Coherent s) (hpo : SolePoller s) (hti : TimersOrdered s)
    (hst : step s a = some s') (hr : ∀ w, a ≠ .resume w id) (hte : ∀ w, a ≠ .terminate w id) : s'.Rests id := by
  obtain ⟨⟨fiber,hf,has⟩,hp⟩ := h
  constructor
  · obtain has' | ⟨-,w,ha⟩ := asleep_of_step hs hpo hst hf has hr
      (fun _ _ e he => hp e (.inr (.inr he))) (fun _ _ t ht _ => hp t.event (.inl ⟨t,ht,rfl⟩))
    · exact has'
    · exact absurd ha (hte w)
  · intro e he
    cases parkStep_of_step hs hpo hti hst with
    | keeps _ _ hk => exact hp e (hk e he)
    | parks hpc _ _ _ _ hl hpar =>
      obtain hold | rfl := hpar e he
      · exact hp e (hl e hold).1
      · exact (has.ne hs hf hpc (.inr rfl)).symm

end Resting

/-- No process in the queue is terminated, or resumed by anything but a signal, and none parks while
something from an earlier park is still pending for it. -/
def Considerate (s : SyncState) : SyncAction → Prop
  | .sched (.terminate _ id) | .sched (.resume _ id) => id ∉ s.queue
  | .park w => ∀ id, s.sched.pc w = .holds .running id → ∀ e, s.sched.Pending e → e.tag ≠ id
  | _ => True

/-- Every process in the queue rests, except the one that is about to park. -/
structure Queueing (s : SyncState) : Prop where
  coherent : Coherent s.sched
  solePoller : SolePoller s.sched
  timersOrdered : TimersOrdered s.sched
  owner : ∀ id stage, s.monitor = some (id,stage) → ∃ w, s.sched.pc w = .holds .running id
  empty : s.queue ≠ [] → s.count = 0
  rests : ∀ id ∈ s.queue, s.monitor = some (id,.park) ∨ s.sched.Rests id
  nodup : s.queue.Nodup

section Queue
variable {s s' : SyncState} {w id : ℕ} {a : SyncAction}

theorem current_of_process {s s' : Scheduler} {a : Action} (hs : step s a = some s')
    (ha : a.process = some w) : ∃ p, s.current w = some p := by
  cases a with
  | loop | run | switch | commit | poll | wake | apply | idle | tick => cases ha
  | _ =>
    cases ha
    obtain ⟨p,hp,-⟩ := map_eq_some_iff.mp hs
    exact ⟨p,hp⟩

theorem owner_not_process {a : Action} (ho : s.Outside a) (hs : step s.sched a = some sched)
    (hm : s.monitor = some (id,stage)) (hpc : s.sched.pc w = .holds .running id) : a.process ≠ some w := by
  intro ha
  obtain ⟨⟨id',fiber⟩,hc⟩ := current_of_process hs ha
  cases hpc.symm.trans (current_eq_some hc).1
  have hi := ho w ha
  simp [SyncState.inside,hc,hm] at hi

theorem queue_eq_waiting (h : ∀ id target, s.monitor ≠ some (id,.hand target)) : s.queue = s.waiting := by
  unfold SyncState.queue
  split
  · next hm => exact absurd hm (h _ _)
  · rfl

theorem Queueing.sched {a : Action} {sched : Scheduler} (h : Queueing s) (ho : s.Outside a)
    (hs : step s.sched a = some sched) (hok : Considerate s (.sched a)) : Queueing { s with sched := sched } where
  coherent := h.coherent.step hs
  solePoller := h.solePoller.step hs
  timersOrdered := h.timersOrdered.step hs
  owner id stage hm := by
    obtain ⟨w,hpc⟩ := h.owner id stage hm
    exact ⟨w,running_of_step hpc hs (owner_not_process ho hs hm hpc)⟩
  empty := h.empty
  rests id hid := by
    refine (h.rests id hid).imp_right fun hr => ?_
    refine hr.step h.coherent h.solePoller h.timersOrdered hs ?_ ?_
    · rintro w rfl
      exact hok hid
    · rintro w rfl
      exact hok hid
  nodup := h.nodup

theorem Queueing.proceed (h : Queueing s) (hpc : s.sched.pc w = .holds .running id)
    (hs : s'.sched = s.sched) (ho : ∀ id' stage, s'.monitor = some (id',stage) → id' = id)
    (hq : s'.queue = s.queue) (hc : s.queue ≠ [] → s'.count = 0)
    (hp : ∀ id', s.monitor ≠ some (id',.park)) : Queueing s' where
  coherent := hs ▸ h.coherent
  solePoller := hs ▸ h.solePoller
  timersOrdered := hs ▸ h.timersOrdered
  owner id' stage hm := by
    rw [hs,ho id' stage hm]
    exact ⟨w,hpc⟩
  empty := by
    rw [hq]
    exact hc
  rests id' hid' := by
    rw [hq] at hid'
    rw [hs]
    exact .inr ((h.rests id' hid').resolve_left (hp id'))
  nodup := by
    rw [hq]
    exact h.nodup

theorem Queueing.enter {stage : Stage} (h : Queueing s) (hf : s.monitor = none)
    (hpc : s.sched.pc w = .holds .running id) (hs : ∀ target, stage ≠ .hand target) :
    Queueing { s with monitor := some (id,stage) } := by
  have hq : ({ s with monitor := some (id,stage) } : SyncState).queue = s.queue := by
    rw [queue_eq_waiting,queue_eq_waiting]
    · simp [hf]
    · rintro _ target ⟨⟩
      exact hs target rfl
  refine h.proceed hpc rfl ?_ hq h.empty (by simp [hf])
  rintro _ _ ⟨⟩
  rfl

theorem Scheduler.Rests.ne {s : Scheduler} (h : s.Rests id') (hs : Coherent s)
    (hpc : s.pc w = .holds .running id) : id' ≠ id := by
  obtain ⟨⟨fiber,hf,ha⟩,-⟩ := h
  exact ha.ne hs hf hpc (.inr rfl)

section
variable (h : Queueing s) (hpc : s.sched.pc w = .holds .running id)
include h hpc

theorem Queueing.wait (hm : s.monitor = some (id,.wait)) : Queueing (s.wait id) := by
  have hq : s.queue = s.waiting := queue_eq_waiting (by simp [hm])
  unfold SyncState.wait
  split
  · next hpos =>
    refine h.proceed hpc rfl (by simp) ?_ (fun hne => ?_) (by simp [hm])
    · rw [hq,queue_eq_waiting (by simp)]
    · exact absurd (h.empty hne) hpos.ne'
  · next hz =>
    have hq' : ({ s with waiting := s.waiting ++ [id], monitor := some (id,.park) } :
        SyncState).queue = s.waiting ++ [id] := queue_eq_waiting (by simp)
    refine ⟨h.coherent,h.solePoller,h.timersOrdered,?_,fun _ => ?_,fun id' hid' => ?_,?_⟩
    · rintro _ _ ⟨⟩
      exact ⟨w,hpc⟩
    · exact Nat.eq_zero_of_not_pos hz
    · rw [hq'] at hid'
      obtain hid' | hid' := mem_append.mp hid'
      · exact .inr ((h.rests id' (hq ▸ hid')).resolve_left (by simp [hm]))
      · rw [mem_singleton.mp hid']
        exact .inl rfl
    · rw [hq']
      refine nodup_append.mpr ⟨hq ▸ h.nodup,nodup_singleton _,?_⟩
      rintro id' hid' _ hid rfl
      rw [mem_singleton.mp hid] at hid'
      have hr := (h.rests id (hq ▸ hid')).resolve_left (by simp [hm])
      exact hr.ne h.coherent hpc rfl

theorem Queueing.parkOnMonitor (hf : s.sched.fibers id = some fiber) (hm : s.monitor = some (id,.park))
    (hok : Considerate s (.park w)) : Queueing (s.parkOnMonitor w id fiber) := by
  have hs : step s.sched (.suspend w) = some (s.sched.schedulerSuspend w id fiber) := by simp [step,current,hpc,hf]
  have hq : (s.parkOnMonitor w id fiber).queue = s.queue := by
    rw [queue_eq_waiting,queue_eq_waiting]
    · rfl
    · simp [hm]
    · simp [SyncState.parkOnMonitor]
  refine ⟨h.coherent.step hs,h.solePoller.step hs,h.timersOrdered.step hs,?_,?_,fun id' hid' => ?_,?_⟩
  · rintro _ _ ⟨⟩
  · rw [hq]
    exact h.empty
  · rw [hq] at hid'
    refine .inr ?_
    obtain hsel | hr := h.rests id' hid'
    · rw [hm] at hsel
      cases hsel
      -- the process has published its state, and nothing is pending for it
      refine ⟨⟨_,update_self _ _ _,.inr ⟨rfl,by simp,rfl⟩⟩,fun e he => ?_⟩
      exact hok id hpc e (he.congr rfl rfl (hand_update rfl rfl hpc rfl))
    · exact hr.step h.coherent h.solePoller h.timersOrdered hs (by simp) (by simp)
  · rw [hq]
    exact h.nodup

theorem Queueing.signal (hm : s.monitor = some (id,.signal)) : Queueing (s.signal id) := by
  have hq : s.queue = s.waiting := queue_eq_waiting (by simp [hm])
  unfold SyncState.signal
  split
  · next hnil =>
    refine h.proceed hpc rfl (by simp) ?_ (fun hne => ?_) (by simp [hm])
    · rw [hq,queue_eq_waiting (by simp)]
    · exact absurd (hq.trans hnil) hne
  · next tgt r hc =>
    refine h.proceed hpc rfl (by simp) ?_ h.empty (by simp [hm])
    rw [hq,hc]
    rfl

theorem Queueing.resumeId {fiber : Fiber} {target : ℕ} (hf : s.sched.fibers id = some fiber)
    (hm : s.monitor = some (id,.hand target)) : Queueing (s.resumeId id target) := by
  have hs : step s.sched (.resume w target) = some (s.sched.schedulerResumeLocked target) := by
    simp [step,current,hpc,hf]
  have hq : s.queue = target :: s.waiting := by
    unfold SyncState.queue
    rw [hm]
  have hq' : (s.resumeId id target).queue = s.waiting := queue_eq_waiting (by simp [SyncState.resumeId])
  have hn := h.nodup
  rw [hq] at hn
  obtain ⟨hnot,hn⟩ := nodup_cons.mp hn
  refine ⟨h.coherent.step hs,h.solePoller.step hs,h.timersOrdered.step hs,?_,fun _ => ?_,fun id' hid' => ?_,?_⟩
  · rintro _ _ ⟨⟩
    exact ⟨w,signals_resume.pc_eq hpc rfl⟩
  · exact h.empty (by simp [hq])
  · rw [hq'] at hid'
    have hr := (h.rests id' (by simp [hq,hid'])).resolve_left (by simp [hm])
    refine .inr (hr.step h.coherent h.solePoller h.timersOrdered hs ?_ (by simp))
    rintro _ ⟨⟩
    exact hnot hid'
  · rw [hq']
    exact hn

theorem Queueing.exit (hm : s.monitor = some (id,.exit)) : Queueing { s with monitor := none } := by
  refine h.proceed hpc rfl (by simp) ?_ h.empty (by simp [hm])
  rw [queue_eq_waiting (by simp),queue_eq_waiting (by simp [hm])]

end

theorem Queueing.step (h : Queueing s) (hok : Considerate s a) (hst : syncStep s a = some s') : Queueing s' := by
  cases syncSteps_of_step hst with
  | sched ho hs => exact h.sched ho hs hok
  | enterWait hfr hpc | enterSignal hfr hpc => exact h.enter hfr hpc (by simp)
  | wait hpc hm => exact h.wait hpc hm
  | park hpc hf hm => exact h.parkOnMonitor hpc hf hm hok
  | signal hpc hm => exact h.signal hpc hm
  | hand hpc hf hm => exact h.resumeId hpc hf hm
  | exit hpc hm => exact h.exit hpc hm

end Queue

section Permits
variable {s s' : SyncState} {a : SyncAction}

theorem permits_le_of_step (h : s.granted + s.count ≤ n + s.signals) (hs : syncStep s a = some s') :
    s'.granted + s'.count ≤ n + s'.signals := by
  cases syncSteps_of_step hs with
  | sched | enterWait | enterSignal | park | exit => exact h
  | wait =>
    unfold SyncState.wait
    split
    · dsimp only
      omega
    · exact h
  | signal =>
    unfold SyncState.signal
    split
    · dsimp only
      omega
    · exact h
  | hand =>
    unfold SyncState.resumeId
    dsimp only
    split <;> omega

theorem permits_eq_of_step (hs : Queueing s) (h : s.granted + s.count = n + s.signals)
    (hst : syncStep s a = some s') : s'.granted + s'.count = n + s'.signals := by
  cases syncSteps_of_step hst with
  | sched | enterWait | enterSignal | park | exit => exact h
  | wait =>
    unfold SyncState.wait
    split
    · dsimp only
      omega
    · exact h
  | signal =>
    unfold SyncState.signal
    split
    · dsimp only
      omega
    · exact h
  | @hand _ _ _ target _ _ hm =>
    have ha : s.sched.asleep target := by
      have hmem : target ∈ s.queue := by simp [SyncState.queue,hm]
      obtain ⟨⟨fiber,hf,ha⟩,-⟩ := (hs.rests target hmem).resolve_left (by simp [hm])
      simp [asleep,hf,ha]
    unfold SyncState.resumeId
    dsimp only
    rw [if_pos ha]
    omega

end Permits

def syncStart (workerCount fibers count : ℕ) : SyncState := ⟨start workerCount fibers,count,[],none,0,0⟩

theorem queueing_start (workerCount fibers count : ℕ) : Queueing (syncStart workerCount fibers count) where
  coherent := coherent_start workerCount fibers
  solePoller := solePoller_start workerCount fibers
  timersOrdered := timersOrdered_start workerCount fibers
  owner := by simp [syncStart]
  empty h := absurd rfl h
  rests _ h := by cases h
  nodup := nodup_nil

/-- In every run no more waits are granted than there are permits. In a run in which no process in the
queue is terminated or resumed by anything but a signal, and no process parks with something pending,
all permits are used as long as a live process is blocked in `wait`. -/
theorem permits_conserved (workerCount fibers n : ℕ) (as : List SyncAction) (s : SyncState)
    (h : perform syncStep (syncStart workerCount fibers n) as = some s) : s.granted ≤ n + s.signals ∧
      (Meets syncStep Considerate (syncStart workerCount fibers n) as →
        (∃ id ∈ s.queue, s.sched.fibers id ≠ none) → s.granted = n + s.signals) := by
  constructor
  · have hle := invariant (P := fun s : SyncState => s.granted + s.count ≤ n + s.signals)
      (fun _ _ _ hs hst => permits_le_of_step hs hst) (by simp [syncStart]) h
    omega
  · rintro hok ⟨id,hid,-⟩
    obtain ⟨hq,heq⟩ := invariant_of_meets (P := fun s : SyncState => Queueing s ∧ s.granted + s.count = n + s.signals)
      (fun _ _ _ hs hok hst => ⟨hs.1.step hok hst,permits_eq_of_step hs.1 hs.2 hst⟩)
      ⟨queueing_start workerCount fibers n,by simp [syncStart]⟩ hok h
    have hc := hq.empty (ne_nil_of_mem hid)
    omega

def oneSignal (first : List SyncAction) : List SyncAction :=
  [.sched (.loop 0),.sched (.run 0),.enterWait 0,.wait 0,.park 0,.sched (.switch 0),.sched (.commit 0),
    .sched (.loop 0),.sched (.run 0),.enterWait 0,.wait 0,.park 0,.sched (.switch 0),.sched (.commit 0),
    .sched (.loop 0),.sched (.run 0)] ++ first ++ [.enterSignal 0,.signal 0,.hand 0,.exit 0]

theorem permits_conserved_signal : ∃ s, perform syncStep (syncStart 1 3 0) (oneSignal []) = some s ∧ s.queue = [1] ∧
      s.signals = 1 ∧ s.granted = 0 + s.signals := by
  refine ⟨_,rfl,rfl,rfl,(permits_conserved 1 3 0 (oneSignal []) _ rfl).2 ?_ ⟨1,by decide,by decide⟩⟩
  have hn : ∀ {s : Scheduler} {e}, s.timers.count = 0 → (∀ fd, s.registrations fd = none) →
      s.hand = [] → ¬ s.Pending e := by
    rintro s e hti hr hh (⟨t,ht,-⟩ | ⟨fd,hfd⟩ | hmem)
    · exact (BinaryHeap.count_pos_of_mem ht).ne' hti
    · cases (hr fd).symm.trans hfd
    · rw [hh] at hmem
      cases hmem
  exact ⟨trivial,trivial,trivial,trivial,fun _ _ e he => absurd he (hn rfl (fun _ => rfl) rfl),trivial,
    trivial,trivial,trivial,trivial,trivial,fun _ _ e he => absurd he (hn rfl (fun _ => rfl) rfl),trivial,
    trivial,trivial,trivial,trivial,trivial,trivial,trivial,trivial⟩

/-- The third process terminates the first one before it signals: the permit is lost, and the second
process stays blocked. -/
theorem permit_lost : ∃ s, perform syncStep (syncStart 1 3 0) (oneSignal [.sched (.terminate 0 0)]) = some s ∧
      s.queue = [1] ∧ s.sched.fibers 1 ≠ none ∧ s.signals = 1 ∧ s.granted = 0 :=
  ⟨_,rfl,rfl,by decide,rfl,rfl⟩

end SmalltalkJit.Concurrency
