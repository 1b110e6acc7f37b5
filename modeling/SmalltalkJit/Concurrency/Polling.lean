import SmalltalkJit.Concurrency.Queues

/-! # Timers and the poller

One worker at a time waits for events, with a timeout computed from the first
timer. A timer that is pushed later does not wake it, and the number of
milliseconds is converted to an `int`. Apart from that no sleeping fiber is
overslept: the timers form a heap, and nobody but the poller removes one.
-/
namespace SmalltalkJit.Concurrency
open Scheduler Interleaving Function BinaryHeap

def Pc.isPoller : Pc → Bool
  | .polling | .blocked _ | .collected _ => true
  | _ => false

/-- At most one worker polls, and the flag tells so. -/
structure SolePoller (s : Scheduler) : Prop where
  active : ∀ w, (s.pc w).isPoller → s.pollerActive
  unique : ∀ w u, (s.pc w).isPoller → (s.pc u).isPoller → w = u

structure PollState where
  pc : ℕ → Pc
  pollerActive : Bool
  wakePending : Bool
  timers : BinaryHeap Timer
  registrations : ℕ → Option Registration
  armedWaiters : ℕ
  shutdown : Bool
  now : ℤ
  workerCount : ℕ

def Scheduler.pollState (s : Scheduler) : PollState :=
  ⟨s.pc,s.pollerActive,s.wakePending,s.timers,s.registrations,s.armedWaiters,s.shutdown,s.now,
    s.workerCount⟩

/-- A step that has nothing to do with polling: it may set the wake of the event loop. -/
structure Aside (s s' : Scheduler) : Prop where
  pc : ∀ u, (s.pc u).isPoller ∨ (s'.pc u).isPoller → s'.pc u = s.pc u
  pollerActive : s'.pollerActive = s.pollerActive
  wakePending : s.wakePending → s'.wakePending
  timers : s'.timers = s.timers
  registrations : s'.registrations = s.registrations
  armedWaiters : s'.armedWaiters = s.armedWaiters
  shutdown : s'.shutdown = s.shutdown
  now : s'.now = s.now
  workerCount : s'.workerCount = s.workerCount

section Asides
variable {s s' s'' : Scheduler} {w u id : ℕ} {fiber : Fiber} {pc : Pc}

theorem Aside.refl : Aside s s := ⟨fun _ _ => rfl,rfl,fun h => h,rfl,rfl,rfl,rfl,rfl,rfl⟩

theorem isPoller_signalled : pc.signalled.isPoller = pc.isPoller := by cases pc <;> rfl

theorem signalled_of_isPoller (h : pc.isPoller) : pc.signalled = pc := by
  cases pc with
  | waiting => cases h
  | _ => rfl

theorem Aside.trans (h : Aside s s') (h' : Aside s' s'') : Aside s s'' where
  pc u hu := by
    obtain hu | hu := hu
    · have heq := h.pc u (.inl hu)
      rw [h'.pc u (.inl (by rwa [heq])),heq]
    · have heq := h'.pc u (.inr hu)
      rw [heq,h.pc u (.inr (by rwa [← heq]))]
  pollerActive := h'.pollerActive.trans h.pollerActive
  wakePending hw := h'.wakePending (h.wakePending hw)
  timers := h'.timers.trans h.timers
  registrations := h'.registrations.trans h.registrations
  armedWaiters := h'.armedWaiters.trans h.armedWaiters
  shutdown := h'.shutdown.trans h.shutdown
  now := h'.now.trans h.now
  workerCount := h'.workerCount.trans h.workerCount

theorem aside_broadcast : Aside s s.broadcast where
  pc u hu := by
    obtain hu | hu := hu
    · exact signalled_of_isPoller hu
    · exact signalled_of_isPoller (isPoller_signalled.symm.trans hu)
  pollerActive := rfl
  wakePending h := h
  timers := rfl
  registrations := rfl
  armedWaiters := rfl
  shutdown := rfl
  now := rfl
  workerCount := rfl

theorem aside_signalWork : Aside s s.signalWork := by
  refine aside_broadcast.trans ⟨fun _ _ => rfl,rfl,fun h => ?_,rfl,rfl,rfl,rfl,rfl,rfl⟩
  simp [signalWork,wakePoller,h]

theorem aside_setPc (hpc : s.pc w = pc') (hnot : pc'.isPoller = false) (hnot' : pc.isPoller = false) :
    Aside s (s.setPc w pc) where
  pc u hu := by
    by_cases hw : u = w
    · subst hw
      simp [setPc,hpc,hnot,hnot'] at hu
    · exact update_of_ne hw _ _
  pollerActive := rfl
  wakePending h := h
  timers := rfl
  registrations := rfl
  armedWaiters := rfl
  shutdown := rfl
  now := rfl
  workerCount := rfl

theorem Aside.congr (h : Aside s s') (heq : s''.pollState = s'.pollState) : Aside s s'' := by
  obtain ⟨hpc,ha,hwa,ht,hr,harm,hs,hnow,hw⟩ := PollState.mk.inj heq
  refine h.trans ⟨fun u _ => congrFun hpc u,ha,fun h => ?_,ht,hr,harm,hs,hnow,hw⟩
  rwa [hwa]

theorem aside_makeReady : Aside s (s.makeReady id fiber) := by
  have hp : Aside s ((s.setFiber id (some { fiber with state := .ready })).readyPush fiber.homeWorker id) :=
    Aside.refl.congr rfl
  exact hp.trans aside_signalWork

theorem aside_resume : Aside s (s.schedulerResumeLocked id) := by
  unfold schedulerResumeLocked
  split
  · exact .refl
  · split
    · exact aside_makeReady
    · exact Aside.refl.congr rfl
    · exact .refl

theorem aside_spawnC : Aside s s.schedulerSpawnC := by
  have hp : Aside s ((s.registerFiber { fiberCreate with state := .ready }).readyPush s.nextHome s.nextId) :=
    Aside.refl.congr rfl
  exact hp.trans aside_signalWork

theorem aside_commit (hpc : s.pc w = pc) (hnot : pc.isPoller = false) : Aside s (s.commitFiber w id fiber) := by
  have htop : Aside s (s.setPc w .top) := aside_setPc hpc hnot rfl
  have hr : Aside s (s.release w) := htop.congr rfl
  unfold commitFiber
  split_ifs
  · exact hr.congr rfl
  · exact hr.trans aside_makeReady
  · exact hr.trans aside_makeReady
  · exact hr.congr rfl

theorem aside_idle (hpc : s.pc w = .idling ∨ ∃ signalled, s.pc w = .waiting signalled) : Aside s (s.idle w) := by
  have hnot : (s.pc w).isPoller = false := by
    obtain hpc | ⟨_,hpc⟩ := hpc
    · rw [hpc]; rfl
    · rw [hpc]; rfl
  unfold Scheduler.idle
  split_ifs
  · exact aside_setPc rfl hnot rfl
  · exact aside_setPc rfl hnot rfl

end Asides

def SameCounters (s s' : Scheduler) : Prop := s'.nextId = s.nextId ∧ s'.parks = s.parks

section Counting
variable {s s' s'' : Scheduler} {w id : ℕ} {fiber : Fiber}

theorem SameCounters.refl : SameCounters s s := ⟨rfl,rfl⟩

theorem SameCounters.trans (h : SameCounters s s') (h' : SameCounters s' s'') : SameCounters s s'' :=
  ⟨h'.1.trans h.1,h'.2.trans h.2⟩

theorem sameCounters_resume : SameCounters s (s.schedulerResumeLocked id) := by
  unfold schedulerResumeLocked
  split
  · exact .refl
  · split <;> exact ⟨rfl,rfl⟩

theorem sameCounters_applyEvents : SameCounters s (s.applyEvents w events) :=
  applyEvents_rule (P := SameCounters s) .refl (fun _ _ _ h => h) (fun _ _ h => h.trans sameCounters_resume) events

theorem sameCounters_loop : SameCounters s (s.loop w) := by
  unfold Scheduler.loop
  split
  · exact ⟨rfl,rfl⟩
  · split_ifs <;> exact ⟨rfl,rfl⟩

theorem sameCounters_idle : SameCounters s (s.idle w) := by
  unfold Scheduler.idle
  split_ifs <;> exact ⟨rfl,rfl⟩

theorem sameCounters_commit : SameCounters s (s.commitFiber w id fiber) := by
  unfold commitFiber
  split_ifs <;> exact ⟨rfl,rfl⟩

theorem sameCounters_terminate : SameCounters s (s.schedulerTerminate id) := by
  obtain heq | ⟨_,_,_,heq⟩ := terminate_eq s id
  · rw [heq]
    exact .refl
  · rw [heq]
    exact ⟨rfl,rfl⟩

end Counting

def Action.isAside : Action → Bool
  | .sleep _ _ | .waitFd _ _ | .poll _ | .wake _ _ _ | .apply _ | .tick _ => false
  | _ => true

inductive PollStep (s : Scheduler) : Action → Scheduler → Prop
  | aside {a s'} (ha : a.isAside) (h : Aside s s') : PollStep s a s'
  | shutDown {w} (hpc : s.pc w = .top) (hquiet : s.quiet) :
    PollStep s (.loop w) ({ s with shutdown := true }.broadcast.setPc w .exited)
  | startPolling {w} (hpc : s.pc w = .top) (hneeds : s.needsPoller) :
    PollStep s (.loop w) ({ s with pollerActive := true }.setPc w .polling)
  | sleep {w id fiber micros} (hpc : s.pc w = .holds .running id)
    (hfiber : s.fibers id = some fiber) :
    PollStep s (.sleep w micros) (s.schedulerSleep w id fiber micros)
  | waitFd {w id fiber fd} (hpc : s.pc w = .holds .running id) (hfiber : s.fibers id = some fiber) :
    PollStep s (.waitFd w fd) (s.schedulerWaitFd w id fiber fd)
  | disarm {w id target fiber fd} (hpc : s.pc w = .holds .running id)
    (hfiber : s.fibers target = some fiber) (hstate : fiber.state = .suspended)
    (hfd : fiber.waitFd = some fd) :
    PollStep s (.terminate w target)
      ({ s.osEventLoopDisarm fd with armedWaiters := s.armedWaiters-1 }.unregisterFiber target)
  | poll {w} (hpc : s.pc w = .polling) : PollStep s (.poll w) (s.setPc w (.blocked s.expiry))
  | wake {w expiry fds drain} (hpc : s.pc w = .blocked expiry) (hcan : s.CanWake expiry fds drain) :
    PollStep s (.wake w fds drain) (s.osEventLoopWait w fds drain)
  | apply {w events} (hpc : s.pc w = .collected events) :
    PollStep s (.apply w) (s.applyEvents w events)
  | tick {micros} : PollStep s (.tick micros) { s with now := s.now + micros }

section PollSteps
variable {s s' : Scheduler} {w id : ℕ} {fiber : Fiber}

theorem pollStep_loop (hpc : s.pc w = .top) : PollStep s (.loop w) (s.loop w) := by
  unfold Scheduler.loop
  split
  · exact .aside rfl ((aside_setPc hpc rfl rfl).congr rfl)
  · split_ifs with hs hq hn
    · exact .aside rfl (aside_setPc hpc rfl rfl)
    · exact .shutDown hpc hq
    · exact .startPolling hpc hn
    · exact .aside rfl (aside_setPc hpc rfl rfl)

theorem pollStep_terminate (hpc : s.pc w = .holds .running id) :
    PollStep s (.terminate w target) (s.schedulerTerminate target) := by
  unfold schedulerTerminate
  split
  · exact .aside rfl .refl
  · next fiber hf =>
    split
    · exact .aside rfl (Aside.refl.congr rfl)
    · next hs =>
      split
      · next fd hfd => exact .disarm hpc hf hs hfd
      · exact .aside rfl (Aside.refl.congr rfl)
    · exact .aside rfl (Aside.refl.congr rfl)
    · exact .aside rfl .refl
    · exact .aside rfl .refl

theorem pollStep_of_step (h : step s a = some s') : PollStep s a s' := by
  cases steps_of_step h with
  | loop hpc => exact pollStep_loop hpc
  | run hpc | yield hpc | suspend hpc | terminateSelf hpc | finish hpc =>
    exact .aside rfl ((aside_setPc hpc rfl rfl).congr rfl)
  | spawnC => exact .aside rfl aside_spawnC
  | spawnBlock => exact .aside rfl (Aside.refl.congr rfl)
  | resume => exact .aside rfl aside_resume
  | sleep hpc hf => exact .sleep hpc hf
  | waitFd hpc hf => exact .waitFd hpc hf
  | terminate hpc => exact pollStep_terminate hpc
  | switch hpc => exact .aside rfl (aside_setPc hpc rfl rfl)
  | commit hpc => exact .aside rfl (aside_commit hpc rfl)
  | poll hpc => exact .poll hpc
  | wake hpc hcan => exact .wake hpc hcan
  | apply hpc => exact .apply hpc
  | idle hpc => exact .aside rfl (aside_idle hpc)
  | tick => exact .tick

theorem timers_foldl_applyEvent (events : List Event) : (events.foldl applyEvent s).timers = s.timers := by
  induction events generalizing s with
  | nil => rfl
  | cons _ _ ih => exact ih.trans (aside_resume (s := { s with armedWaiters := s.armedWaiters-1 })).timers

theorem isPoller_of_signals (h : Signals s s') (u : ℕ) : (s'.pc u).isPoller = (s.pc u).isPoller := by
  obtain hu | hu := h u
  · rw [hu]
  · rw [hu,isPoller_signalled]

theorem isPoller_applyEvents (u : ℕ) :
    ((s.applyEvents w events).pc u).isPoller = (decide (u ≠ w) && (s.pc u).isPoller) := by
  by_cases hu : u = w
  · subst hu
    simp [applyEvents,setPc,Pc.isPoller]
  · have hs := isPoller_of_signals (signals_apply (s := s) events) u
    rw [decide_eq_true hu,Bool.true_and,← hs]
    unfold applyEvents setPc
    dsimp only
    rw [update_of_ne hu]
    exact isPoller_signalled

theorem SolePoller.not_other (h : SolePoller s) (hpc : (s.pc w).isPoller) (hu : u ≠ w) :
    (s.pc u).isPoller = false := by
  by_contra hp
  exact hu (h.unique u w (Bool.not_eq_false _ ▸ hp) hpc)

theorem SolePoller.not_isPoller_applyEvents (h : SolePoller s)
    (hpc : s.pc w = .collected events) (u : ℕ) : ((s.applyEvents w events).pc u).isPoller = false := by
  rw [isPoller_applyEvents]
  by_cases hu : u = w
  · simp [hu]
  · rw [h.not_other (by rw [hpc]; rfl) hu,Bool.and_false]

theorem SolePoller.frame (h : SolePoller s) (hpc : ∀ u, (s'.pc u).isPoller → (s.pc u).isPoller)
    (ha : s'.pollerActive = s.pollerActive) : SolePoller s' where
  active u hu := by
    rw [ha]
    exact h.active u (hpc u hu)
  unique u v hu hv := h.unique u v (hpc u hu) (hpc v hv)

theorem isPoller_update {pc : Pc} (h : pc.isPoller → (s.pc w).isPoller) (u : ℕ)
    (hu : (Function.update s.pc w pc u).isPoller) : (s.pc u).isPoller := by
  by_cases hw : u = w
  · subst hw
    rw [update_self] at hu
    exact h hu
  · rwa [update_of_ne hw] at hu

theorem SolePoller.step (h : SolePoller s) (hs : step s a = some s') : SolePoller s' := by
  cases pollStep_of_step hs with
  | aside _ ha =>
    refine h.frame (fun u hu => ?_) ha.pollerActive
    rwa [← ha.pc u (.inr hu)]
  | shutDown =>
    refine h.frame (fun u hu => ?_) rfl
    have hb := isPoller_update (s := ({ s with shutdown := true } : Scheduler).broadcast) (fun h => by cases h) u hu
    exact isPoller_signalled.symm.trans hb
  | @startPolling w hpc hne =>
    have hi : s.pollerActive = false := by
      simp only [needsPoller,decide_eq_true_eq] at hne
      simpa using hne.2
    have hn : ∀ u, ¬ (s.pc u).isPoller := by
      intro u hu
      rw [h.active u hu] at hi
      cases hi
    have ho : ∀ u, (Function.update s.pc w .polling u).isPoller → u = w := by
      intro u hu
      by_contra hw
      rw [update_of_ne hw] at hu
      exact hn u hu
    exact ⟨fun _ _ => rfl,fun u v hu hv => (ho u hu).trans (ho v hv).symm⟩
  | sleep | waitFd => exact h.frame (isPoller_update fun h => by cases h) rfl
  | disarm | tick => exact h.frame (fun _ hu => hu) rfl
  | poll hpc => exact h.frame (isPoller_update fun _ => by rw [hpc]; rfl) rfl
  | wake hpc => exact h.frame (isPoller_update (s := s) fun _ => by rw [hpc]; rfl) rfl
  | @apply w es hpc =>
    have hn : ∀ u, ¬ ((s.applyEvents w es).pc u).isPoller := fun u =>
      Bool.eq_false_iff.mp (h.not_isPoller_applyEvents hpc u)
    exact ⟨fun u hu => absurd hu (hn u),fun u v hu => absurd hu (hn u)⟩

def TimersOrdered (s : Scheduler) : Prop := Ordered Timer.deadline s.timers.entries s.timers.count

theorem TimersOrdered.wakeExpired (h : TimersOrdered s) (fuel : ℕ) : TimersOrdered (wakeExpired fuel s) := by
  refine wakeExpired_rule h (fun s h => ?_) fuel
  unfold TimersOrdered
  rw [aside_resume.timers]
  exact ordered_pop h

theorem TimersOrdered.step (h : TimersOrdered s) (hs : step s a = some s') : TimersOrdered s' := by
  cases pollStep_of_step hs with
  | aside _ ha =>
    unfold TimersOrdered
    rw [ha.timers]
    exact h
  | sleep => exact ordered_push h _
  | apply =>
    refine TimersOrdered.wakeExpired ?_ _
    unfold TimersOrdered
    rw [timers_foldl_applyEvent]
    exact h
  | shutDown | startPolling | waitFd | disarm | poll | wake | tick => exact h

end PollSteps

/-- The timeout has expired, or it does so less than a millisecond after the deadline. -/
def InTime (now : ℤ) (expiry : Option ℤ) (deadline : ℤ) : Prop := ∃ e, expiry = some e ∧ (e ≤ now ∨ e < deadline+1000)

/-- No worker that waits for events oversleeps a timer, unless a wake is pending. -/
def NotOverslept (s : Scheduler) : Prop :=
  ∀ w expiry, s.pc w = .blocked expiry →
    s.wakePending ∨ ∀ t ∈ s.timers.contents, InTime s.now expiry t.deadline

/-- A sleep begins only if no worker waits for events, or a wake is pending, or the wait is over in
time; and the number of milliseconds to the first deadline is not negative as an `int`. -/
def Prompt (s : Scheduler) : Action → Prop
  | .sleep _ micros => ∀ w expiry, s.pc w = .blocked expiry →
      s.wakePending ∨ InTime s.now expiry (s.now + max micros 0)
  | .poll _ => s.wakePending ∨ s.timers.count = 0 ∨
      (s.timers.entries 0).deadline ≤ s.now ∨
      ((s.timers.entries 0).deadline - s.now+999) / 1000 % 2^32 < 2^31
  | _ => True

section Sleepers
variable {s s' : Scheduler} {w id : ℕ} {fiber : Fiber}

theorem NotOverslept.frame (h : NotOverslept s)
    (hpc : ∀ w expiry, s'.pc w = .blocked expiry → s.pc w = .blocked expiry) (hwa : s.wakePending → s'.wakePending)
    (hti : s'.timers = s.timers) (hnow : s.now ≤ s'.now) : NotOverslept s' := by
  intro w expiry hw
  obtain hp | hall := h w expiry (hpc w expiry hw)
  · exact .inl (hwa hp)
  · rw [hti]
    refine .inr fun t ht => ?_
    obtain ⟨e,he,hin⟩ := hall t ht
    exact ⟨e,he,hin.imp_left fun h => h.trans hnow⟩

theorem blocked_of_update {pc : Pc} {expiry : Option ℤ} (hpc : ∀ expiry, pc ≠ .blocked expiry)
    (hu : Function.update s.pc w pc u = .blocked expiry) : s.pc u = .blocked expiry := by
  by_cases hw : u = w
  · subst hw
    rw [update_self] at hu
    exact absurd hu (hpc expiry)
  · rwa [update_of_ne hw] at hu

theorem SolePoller.notOverslept (h : SolePoller s) (hpc : (s.pc w).isPoller)
    (hne : ∀ expiry, s.pc w ≠ .blocked expiry) : NotOverslept s := by
  intro u expiry hu
  have huw := h.unique u w (by rw [hu]; rfl) hpc
  exact absurd hu (huw ▸ hne expiry)

theorem notOverslept_sleep {micros : ℤ} (h : NotOverslept s) (hpc : s.pc w = .holds .running id) :
    NotOverslept (s.schedulerSleep w id fiber micros) ↔ Prompt s (.sleep w micros) := by
  have hc : (s.schedulerSleep w id fiber micros).timers.contents =
      ⟨s.now + max micros 0,id,s.parks⟩ ::ₘ s.timers.contents :=
    contents_push s.timers _
  constructor
  · intro hs u expiry hu
    have huw : u ≠ w := by
      rintro rfl
      cases hpc.symm.trans hu
    obtain hp | hall := hs u expiry ((update_of_ne huw _ _).trans hu)
    · exact .inl hp
    · rw [hc] at hall
      exact .inr (hall _ (Multiset.mem_cons_self _ _))
  · intro hpr u expiry hu
    have hu' : s.pc u = .blocked expiry := blocked_of_update (by simp) hu
    obtain hp | hnew := hpr u expiry hu'
    · exact .inl hp
    · obtain hp | hall := h u expiry hu'
      · exact .inl hp
      · rw [hc]
        refine .inr fun t ht => ?_
        obtain rfl | ht := Multiset.mem_cons.mp ht
        · exact hnew
        · exact hall t ht

theorem toInt32_nonneg_iff : 0 ≤ toInt32 x ↔ x % 2^32 < 2^31 := by
  unfold toInt32 Int.bmod
  dsimp only
  split <;> omega

theorem toInt32_le (hx : 0 ≤ x) : toInt32 x ≤ x := by
  unfold toInt32 Int.bmod
  dsimp only
  split <;> omega

theorem expiry_of_past (hpos : 0 < s.timers.count) (hp : (s.timers.entries 0).deadline ≤ s.now) :
    s.expiry = some s.now := by
  have ht : s.timeout = 0 := by
    unfold timeout
    rw [if_pos hpos]
    exact if_pos (by omega)
  simp [expiry,ht]

section Future
variable (hpos : 0 < s.timers.count) (hf : s.now < (s.timers.entries 0).deadline)
include hpos hf

theorem timeout_of_future : s.timeout = toInt32 (((s.timers.entries 0).deadline - s.now+999) / 1000) := by
  unfold timeout
  rw [if_pos hpos]
  exact if_neg (by omega)

theorem expiry_of_future :
    (∃ e, s.expiry = some e) ↔ ((s.timers.entries 0).deadline - s.now+999) / 1000 % 2^32 < 2^31 := by
  rw [← toInt32_nonneg_iff,expiry,timeout_of_future hpos hf]
  split
  · next hneg => exact iff_of_false (by simp) (not_le.mpr hneg)
  · next hneg => exact iff_of_true ⟨_,rfl⟩ (not_lt.mp hneg)

theorem lt_of_expiry (he : s.expiry = some e) : e < (s.timers.entries 0).deadline+1000 := by
  have hle := toInt32_le (x := ((s.timers.entries 0).deadline - s.now+999) / 1000) (by omega)
  rw [expiry,timeout_of_future hpos hf] at he
  split at he
  · cases he
  · cases he
    omega

end Future

theorem notOverslept_poll (h : TimersOrdered s) (hpo : SolePoller s) (hpc : s.pc w = .polling) :
    NotOverslept (s.setPc w (.blocked s.expiry)) ↔ Prompt s (.poll w) := by
  have ho : ∀ u expiry, (s.setPc w (.blocked s.expiry)).pc u = .blocked expiry → expiry = s.expiry := by
    intro u expiry hu
    by_cases hw : u = w
    · subst hw
      rw [show (s.setPc u (.blocked s.expiry)).pc u = _ from update_self _ _ _] at hu
      cases hu
      rfl
    · rw [show (s.setPc w (.blocked s.expiry)).pc u = _ from update_of_ne hw _ _] at hu
      have hnot := hpo.not_other (by rw [hpc]; rfl) hw
      rw [hu] at hnot
      cases hnot
  constructor
  · intro hall
    obtain hp | hall := hall w s.expiry (update_self _ _ _)
    · exact .inl hp
    · obtain h0 | hpos := Nat.eq_zero_or_pos s.timers.count
      · exact .inr (.inl h0)
      · refine .inr (.inr (or_iff_not_imp_left.mpr fun hf => ?_))
        obtain ⟨e,he,-⟩ := hall _ (root_mem hpos)
        exact (expiry_of_future hpos (not_le.mp hf)).mp ⟨e,he⟩
  · intro hpr u expiry hu
    rw [ho u expiry hu]
    obtain hp | h0 | hr := hpr
    · exact .inl hp
    · exact .inr fun t ht => absurd h0 (count_pos_of_mem (h := s.timers) ht).ne'
    · refine .inr fun t ht => ?_
      have hro : (s.timers.entries 0).deadline ≤ t.deadline := root_le h ht
      have hpos : 0 < s.timers.count := count_pos_of_mem ht
      by_cases hpa : (s.timers.entries 0).deadline ≤ s.now
      · exact ⟨s.now,expiry_of_past hpos hpa,.inl le_rfl⟩
      · obtain ⟨e,he⟩ := (expiry_of_future hpos (not_le.mp hpa)).mpr (hr.resolve_left hpa)
        exact ⟨e,he,.inr ((lt_of_expiry hpos (not_le.mp hpa) he).trans_le (by omega))⟩

theorem notOverslept_step {a : Action} (hp : SolePoller s) (ht : TimersOrdered s)
    (h : NotOverslept s) (hs : step s a = some s') : NotOverslept s' ↔ Prompt s a := by
  have hp' := hp.step hs
  cases pollStep_of_step hs with
  | aside ha has =>
    have hpr : Prompt s a := by
      cases a with
      | sleep | poll => cases ha
      | _ => trivial
    refine iff_of_true (h.frame (fun u x hu => ?_) has.wakePending has.timers has.now.ge) hpr
    rw [← hu]
    exact (has.pc u (.inr (by rw [hu]; rfl))).symm
  | shutDown =>
    refine iff_of_true (h.frame (fun u x hu => ?_) (fun h => h) rfl le_rfl) trivial
    have hb := blocked_of_update (s := ({ s with shutdown := true } : Scheduler).broadcast) (by simp) hu
    have hpo : (s.pc u).isPoller := isPoller_signalled.symm.trans (by rw [show (s.pc u).signalled = _ from hb]; rfl)
    exact (signalled_of_isPoller hpo).symm.trans hb
  | startPolling =>
    exact iff_of_true (h.frame (fun _ _ hu => blocked_of_update (by simp) hu) (fun h => h) rfl le_rfl)
      trivial
  | sleep hpc => exact notOverslept_sleep h hpc
  | waitFd =>
    exact iff_of_true (h.frame (fun _ _ hu => blocked_of_update (s := s) (by simp) hu) (fun h => h) rfl
      le_rfl) trivial
  | disarm => exact iff_of_true (h.frame (fun _ _ hu => hu) (fun h => h) rfl le_rfl) trivial
  | poll hpc => exact notOverslept_poll ht hp hpc
  | @wake w x fds drain hpc =>
    have hnow : (s.osEventLoopWait w fds drain).pc w = .collected (s.eventsOf fds) := update_self _ _ _
    exact iff_of_true (hp'.notOverslept (by rw [hnow]; rfl) (by rw [hnow]; simp)) trivial
  | @apply w es hpc =>
    refine iff_of_true (fun u x hu => ?_) trivial
    have hnot := hp.not_isPoller_applyEvents hpc u
    rw [hu] at hnot
    cases hnot
  | tick => exact iff_of_true (h.frame (fun _ _ hu => hu) (fun h => h) rfl (by simp)) trivial

end Sleepers

section Start
variable (workerCount fibers : ℕ)

theorem aside_start : Aside (schedulerInit workerCount) (start workerCount fibers) := by
  induction fibers with
  | zero => exact .refl
  | succ _ ih =>
    rw [start,Function.iterate_succ_apply']
    exact ih.trans aside_spawnC

theorem not_isPoller_start (w : ℕ) : ((start workerCount fibers).pc w).isPoller = false := by
  by_contra hp
  have hs := (aside_start workerCount fibers).pc w (.inr (Bool.not_eq_false _ ▸ hp))
  rw [hs] at hp
  apply hp
  simp only [schedulerInit]
  split <;> rfl

theorem solePoller_start : SolePoller (start workerCount fibers) where
  active w hw := by
    rw [not_isPoller_start] at hw
    cases hw
  unique w u hw := by
    rw [not_isPoller_start] at hw
    cases hw

theorem timersOrdered_start : TimersOrdered (start workerCount fibers) := by
  unfold TimersOrdered
  rw [(aside_start workerCount fibers).timers]
  intro i hi
  cases hi

theorem notOverslept_start : NotOverslept (start workerCount fibers) := by
  intro w x hw
  have hnot := not_isPoller_start workerCount fibers w
  rw [hw] at hnot
  cases hnot

end Start

/-- In every run of the pool no sleeper is ever overslept if and only if every sleep and every wait
for events begins promptly. -/
theorem sleepers_not_overslept (workerCount fibers : ℕ) (as : List Action) (s : Scheduler)
    (h : perform step (start workerCount fibers) as = some s) :
    Along step NotOverslept (start workerCount fibers) as ↔ Meets step Prompt (start workerCount fibers) as := by
  refine along_iff_meets (I := fun s => SolePoller s ∧ TimersOrdered s) (fun s a s' hs hP hst => ?_)
    ⟨solePoller_start workerCount fibers,timersOrdered_start workerCount fibers⟩
    (notOverslept_start workerCount fibers) h
  exact ⟨notOverslept_step hs.1 hs.2 hP hst,fun _ => ⟨hs.1.step hst,hs.2.step hst⟩⟩

/-- A fiber sleeps for five milliseconds, and its worker waits for it. -/
theorem sleepers_not_overslept_alone : ∃ s, perform step (start 1 1)
        [.loop 0,.run 0,.sleep 0 5000,.switch 0,.commit 0,.loop 0,.poll 0] = some s ∧
      s.pc 0 = .blocked (some 5000) ∧
      (Along step NotOverslept (start 1 1)
          [.loop 0,.run 0,.sleep 0 5000,.switch 0,.commit 0,.loop 0,.poll 0] ↔
        Meets step Prompt (start 1 1)
          [.loop 0,.run 0,.sleep 0 5000,.switch 0,.commit 0,.loop 0,.poll 0]) :=
  ⟨_,rfl,rfl,sleepers_not_overslept 1 1 _ _ rfl⟩

/-- A fiber goes to sleep for a millisecond while the poller waits for five seconds; and a poller
waits for ever for a fiber that sleeps for twenty-five days. -/
theorem sleepers_overslept : (∃ s, perform step (start 2 2)
        [.loop 0,.run 0,.sleep 0 5000000,.switch 0,.commit 0,.loop 0,.poll 0,
          .loop 1,.run 1,.sleep 1 1000] = some s ∧ ¬ NotOverslept s) ∧
      ∃ s, perform step (start 1 1)
        [.loop 0,.run 0,.sleep 0 2147483648000,.switch 0,.commit 0,.loop 0,.poll 0] = some s ∧
        s.pc 0 = .blocked none ∧ ¬ NotOverslept s := by
  refine ⟨⟨_,rfl,fun h => ?_⟩,_,rfl,rfl,fun h => ?_⟩
  · obtain hp | hall := h 0 (some 5000000) rfl
    · cases hp
    · obtain ⟨e,he,hin⟩ := hall ⟨1000,1,1⟩ (by decide)
      cases he
      exact absurd hin (by decide)
  · obtain hp | hall := h 0 none rfl
    · cases hp
    · obtain ⟨e,he,-⟩ := hall ⟨2147483648000,0,0⟩ (by decide)
      cases he

/-- While a worker polls, the flag tells so and no other worker polls. -/
theorem poller_unique {s : Scheduler} {w : ℕ} (workerCount fibers : ℕ) (as : List Action)
    (h : perform step (start workerCount fibers) as = some s) (hw : (s.pc w).isPoller) :
    s.pollerActive ∧ ∀ u, (s.pc u).isPoller → u = w := by
  have hs := invariant (fun _ _ _ hs hst => hs.step hst) (solePoller_start workerCount fibers) h
  exact ⟨hs.active w hw,fun u hu => hs.unique u w hu hw⟩

theorem poller_unique_sleep : ∃ s, perform step (start 2 1)
      [.loop 0,.run 0,.sleep 0 1,.switch 0,.commit 0,.loop 1,.loop 0] = some s ∧
    (s.pc 1).isPoller ∧ ∀ u, (s.pc u).isPoller → u = 1 :=
  ⟨_,rfl,rfl,(poller_unique 2 1 [.loop 0,.run 0,.sleep 0 1,.switch 0,.commit 0,.loop 1,.loop 0] rfl rfl).2⟩

end SmalltalkJit.Concurrency
