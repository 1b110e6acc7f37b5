import SmalltalkJit.Concurrency.Waiters

/-! # The end of the pool

A worker that finds nothing to do anywhere shuts the pool down. It wakes the
workers that wait at the condition, but not the poller, so that all depends on
why the poller waits: for a descriptor or a timer, or else with a wake pending.
Somebody always notices that the pool is quiet: the last worker that gives up a
fiber, or the poller.
-/
namespace SmalltalkJit.Concurrency
open Scheduler Interleaving Function Finset

variable (s : Scheduler)

/-- The worker is blocked, and nothing is pending that wakes it. -/
def Stuck (w : ℕ) : Prop := s.pc w = .waiting false ∨ s.pc w = .blocked none ∧ s.wakePending = false

/-- A shutdown reaches every worker; and when every fiber is done and no timer is left, the workers
that have not returned are not all stuck. -/
structure Released (s : Scheduler) : Prop where
  shutdown : s.shutdown → ∀ w, ¬ Stuck s w
  finished : (∀ id fiber, s.fibers id = some fiber → fiber.state = .done) → s.timers.count = 0 →
    (∃ w, Stuck s w) → ∃ w < s.workerCount, s.pc w ≠ .exited ∧ ¬ Stuck s w

/-- The worker waits for events without a timeout, or is about to. -/
def Pc.listens : Pc → Bool
  | .polling | .blocked none => true
  | _ => false

/-- No fiber that waits for a descriptor is resumed by anything but its event, and the last of them is
not terminated while a worker waits for events, unless a wake is pending or a timer is left. -/
def Attended : Action → Prop
  | .terminate _ id => ∀ fiber, s.fibers id = some fiber → fiber.state = .suspended →
      fiber.waitFd ≠ none → ∀ w, (s.pc w).listens →
        s.wakePending ∨ 1 < s.armedWaiters ∨ 0 < s.timers.count
  | a => Patient s a

/-- There is a reason for waiting for events. -/
def Listening : Prop := ∀ w, (s.pc w).listens → s.wakePending ∨ 0 < s.armedWaiters ∨ 0 < s.timers.count

/-- After a shutdown nobody waits for events without a wake pending. -/
def Closed : Prop := s.shutdown → ∀ w, (s.pc w).listens → s.wakePending

def Dismissed : Prop := s.shutdown → ∀ w, s.pc w ≠ .waiting false

/-- Somebody will notice that the pool is quiet. -/
def Watched : Prop := s.quiet → s.shutdown = false → 0 < s.workerCount → ∃ w, s.pc w = .top ∨ (s.pc w).isPoller

section Listeners
variable {s s' : Scheduler} {w id : ℕ} {pc : Pc} {a : Action}

theorem isPoller_of_listens (h : pc.listens) : pc.isPoller := by
  cases pc with
  | polling | blocked => rfl
  | _ => cases h

theorem listens_signalled : pc.signalled.listens = pc.listens := by cases pc <;> rfl

theorem listens_of_update (h : pc.listens → (s.pc w).listens)
    (hu : (Function.update s.pc w pc u).listens) : (s.pc u).listens := by
  by_cases hw : u = w
  · subst hw
    rw [update_self] at hu
    exact h hu
  · rwa [update_of_ne hw] at hu

theorem Aside.listens (h : Aside s s') (hw : (s'.pc w).listens) : (s.pc w).listens := by
  rwa [← h.pc w (.inr (isPoller_of_listens hw))]

theorem listens_shutDown (hw : ((({ s with shutdown := true } : Scheduler).broadcast.setPc id .exited).pc w).listens) :
    (s.pc w).listens := by
  have hb := listens_of_update (s := ({ s with shutdown := true } : Scheduler).broadcast) (fun h => by cases h) hw
  exact listens_signalled.symm.trans hb

theorem not_listens_wake (h : SolePoller (s.osEventLoopWait w fds drain))
    (u : ℕ) : ¬ ((s.osEventLoopWait w fds drain).pc u).listens := by
  intro hu
  have hpc : (s.osEventLoopWait w fds drain).pc w = .collected (s.eventsOf fds) := update_self _ _ _
  have huw := h.unique u w (isPoller_of_listens hu) (by rw [hpc]; rfl)
  rw [huw,hpc] at hu
  cases hu

theorem not_listens_apply (h : SolePoller s) (hpc : s.pc w = .collected events)
    (u : ℕ) : ¬ ((s.applyEvents w events).pc u).listens := by
  intro hu
  have hnot := h.not_isPoller_applyEvents hpc u
  rw [isPoller_of_listens hu] at hnot
  cases hnot

theorem Listening.step (h : Listening s) (hp : SolePoller s) (hok : Attended s a)
    (hs : step s a = some s') : Listening s' := by
  have hp' := hp.step hs
  cases pollStep_of_step hs with
  | aside _ ha =>
    intro u hu
    rw [ha.armedWaiters,ha.timers]
    exact (h u (ha.listens hu)).imp_left ha.wakePending
  | shutDown => exact fun u hu => h u (listens_shutDown hu)
  | startPolling _ hn =>
    intro u _
    simp only [needsPoller,decide_eq_true_eq] at hn
    exact .inr hn.1
  | sleep => exact fun _ _ => .inr (.inr (Nat.succ_pos _))
  | waitFd => exact fun _ _ => .inr (.inl (Nat.succ_pos _))
  | disarm _ hf hst hfd =>
    intro u hu
    refine (hok _ hf hst (by simp [hfd]) u hu).imp_right (Or.imp_left fun harm => ?_)
    exact Nat.sub_pos_of_lt harm
  | poll hpc => exact fun u hu => h u (listens_of_update (fun _ => by rw [hpc]; rfl) hu)
  | wake => exact fun u hu => absurd hu (not_listens_wake hp' u)
  | apply hpc => exact fun u hu => absurd hu (not_listens_apply hp hpc u)
  | tick => exact h

theorem shutdown_of_loop (h : ((s.loop w).pc w).isPoller) : s.shutdown = false := by
  by_contra hs
  rw [Bool.not_eq_false] at hs
  unfold loop at h
  cases hr : s.ready w with
  | nil => simp [hr,hs,setPc,Pc.isPoller] at h
  | cons => simp [hr,setPc,Pc.isPoller] at h

theorem Closed.step (h : Closed s) (hl : Listening s) (hp : SolePoller s)
    (hst : step s a = some s') : Closed s' := by
  have hp' := hp.step hst
  cases pollStep_of_step hst with
  | aside _ ha =>
    intro hs u hu
    rw [ha.shutdown] at hs
    exact ha.wakePending (h hs u (ha.listens hu))
  | shutDown _ hq =>
    intro _ u hu
    simp only [quiet,decide_eq_true_eq] at hq
    obtain hw | harm | ht := hl u (listens_shutDown hu)
    · exact hw
    · exact absurd hq.2.2.1 harm.ne'
    · exact absurd hq.2.2.2 ht.ne'
  | @startPolling w hpc =>
    intro hs
    have hlo : s.loop w = ({ s with pollerActive := true } : Scheduler).setPc w .polling := by
      simpa [step,hpc] using hst
    have ho : s.shutdown = false := by
      apply shutdown_of_loop (w := w)
      rw [hlo,show (setPc _ w .polling).pc w = _ from update_self _ _ _]
      rfl
    cases ho.symm.trans hs
  | sleep | waitFd => exact fun hs u hu => h hs u (listens_of_update (s := s) (fun h => by cases h) hu)
  | disarm | tick => exact h
  | poll hpc => exact fun hs u hu => h hs u (listens_of_update (fun _ => by rw [hpc]; rfl) hu)
  | wake => exact fun _ u hu => absurd hu (not_listens_wake hp' u)
  | apply hpc => exact fun _ u hu => absurd hu (not_listens_apply hp hpc u)

end Listeners

section Waiting
variable {s s' : Scheduler} {w id : ℕ} {pc : Pc} {a : Action}

theorem signalled_ne : pc.signalled ≠ .waiting false := by cases pc <;> simp [Pc.signalled]

theorem Signals.waiting (h : Signals s s') (hu : s'.pc u = .waiting false) : s.pc u = .waiting false := by
  obtain heq | heq := h u
  · exact heq.symm.trans hu
  · exact absurd (heq.symm.trans hu) signalled_ne

theorem waiting_of_update (h : pc ≠ .waiting false)
    (hu : Function.update s.pc w pc u = .waiting false) : s.pc u = .waiting false := by
  by_cases hw : u = w
  · subst hw
    rw [update_self] at hu
    exact absurd hu h
  · rwa [update_of_ne hw] at hu

theorem pc_terminate : (s.schedulerTerminate id).pc = s.pc := by
  obtain heq | ⟨_,_,_,heq⟩ := terminate_eq s id <;> rw [heq]

theorem shutdown_terminate : (s.schedulerTerminate id).shutdown = s.shutdown := by
  obtain heq | ⟨_,_,_,heq⟩ := terminate_eq s id <;> rw [heq]

theorem commit_pc : (s.commitFiber w id fiber).pc w = .top ∧ Signals (s.setPc w .top) (s.commitFiber w id fiber) := by
  have hsel : (s.setPc w .top).pc w = .top := update_self _ _ _
  have hs : Signals (s.setPc w .top) (s.commitFiber w id fiber) := by
    unfold commitFiber
    split_ifs
    · exact .refl
    · exact fun _ => .inr rfl
    · exact fun _ => .inr rfl
    · exact .refl
  exact ⟨hs.pc_eq hsel rfl,hs⟩

theorem waiting_of_step (hs : step s a = some s') (hu : s'.pc u = .waiting false) :
    s'.shutdown = s.shutdown ∧ (s.pc u = .waiting false ∨ s.shutdown = false) := by
  cases steps_of_step hs with
  | loop =>
    revert hu
    unfold loop
    split
    · exact fun hu => ⟨rfl,.inl (waiting_of_update (s := s) (by simp) hu)⟩
    · split_ifs
      · exact fun hu => ⟨rfl,.inl (waiting_of_update (by simp) hu)⟩
      · exact fun hu => absurd (waiting_of_update (by simp) hu) signalled_ne
      · exact fun hu => ⟨rfl,.inl (waiting_of_update (s := s) (by simp) hu)⟩
      · exact fun hu => ⟨rfl,.inl (waiting_of_update (by simp) hu)⟩
  | run | yield | suspend | terminateSelf | finish | switch | poll =>
    exact ⟨rfl,.inl (waiting_of_update (by simp) hu)⟩
  | spawnC => exact absurd hu signalled_ne
  | spawnBlock | tick => exact ⟨rfl,.inl hu⟩
  | resume => exact ⟨aside_resume.shutdown,.inl (signals_resume.waiting hu)⟩
  | sleep | waitFd | wake => exact ⟨rfl,.inl (waiting_of_update (s := s) (by simp) hu)⟩
  | terminate =>
    rw [pc_terminate] at hu
    exact ⟨shutdown_terminate,.inl hu⟩
  | commit hpc =>
    exact ⟨(aside_commit hpc rfl).shutdown, .inl (waiting_of_update (by simp) (commit_pc.2.waiting hu))⟩
  | apply => exact absurd (waiting_of_update (by simp) hu) signalled_ne
  | idle =>
    revert hu
    unfold idle
    split_ifs with hi
    · exact fun _ => ⟨rfl,.inr (Bool.not_eq_true _ ▸ hi.2.1)⟩
    · exact fun hu => ⟨rfl,.inl (waiting_of_update (by simp) hu)⟩

theorem Dismissed.step (h : Dismissed s) (hst : step s a = some s') : Dismissed s' := by
  intro hs u hu
  obtain ⟨hsa,hw | ho⟩ := waiting_of_step hst hu
  · exact h (hsa ▸ hs) u hw
  · cases ho.symm.trans (hsa.symm.trans hs)

theorem not_quiet_of_holds (hs : Coherent s) (hpc : s.pc w = .holds phase id) : ¬ s.quiet := by
  intro hq
  simp only [quiet,decide_eq_true_eq] at hq
  have hmem : w ∈ s.holders := by
    refine mem_filter.mpr ⟨mem_range.mpr (lt_of_pc_ne_exited hs ?_),?_⟩
    · simp [hpc]
    · rw [hpc]
      rfl
  have hpos := card_pos.mpr ⟨w,hmem⟩
  rw [← hs.running,hq.1] at hpos
  exact Nat.lt_irrefl 0 hpos

theorem watched_loop (hs : Coherent s) (hpc : s.pc w = .top) : Watched (s.loop w) := by
  have hs' := hs.loop hpc
  revert hs'
  unfold loop
  split
  · intro hs' hq
    exact absurd hq (not_quiet_of_holds (w := w) hs' (update_self _ _ _))
  · split_ifs with hsh hq hn
    · intro _ _ ho
      cases ho.symm.trans hsh
    · intro _ _ ho
      cases ho
    · intro _ _ _ _
      refine ⟨w,.inr ?_⟩
      rw [show (setPc _ w .polling).pc w = _ from update_self _ _ _]
      rfl
    · intro _ hq'
      exact absurd hq' hq

theorem Watched.idle (h : Watched s) (hpc : s.pc w = .idling ∨ ∃ signalled, s.pc w = .waiting signalled) :
    Watched (s.idle w) := by
  have hset : ∃ pc, s.idle w = s.setPc w pc := by
    unfold Scheduler.idle
    split_ifs
    · exact ⟨_,rfl⟩
    · exact ⟨_,rfl⟩
  obtain ⟨pc,heq⟩ := hset
  rw [heq]
  intro hq ho hw
  obtain ⟨u,hu⟩ := h hq ho hw
  have huw : u ≠ w := by
    rintro rfl
    obtain hpc | ⟨_,hpc⟩ := hpc
    · simp [hpc,Pc.isPoller] at hu
    · simp [hpc,Pc.isPoller] at hu
  refine ⟨u,?_⟩
  rw [show (s.setPc w pc).pc u = s.pc u from update_of_ne huw _ _]
  exact hu

theorem Watched.step (h : Watched s) (hs : Coherent s) (hst : step s a = some s') : Watched s' := by
  have hs' := hs.step hst
  have hb : ∀ {w phase id}, s'.pc w = .holds phase id → Watched s' := fun hpc hq =>
    absurd hq (not_quiet_of_holds hs' hpc)
  have hse : ∀ {w pc}, s'.pc w = pc → pc = .top ∨ pc.isPoller → Watched s' := by
    rintro w pc rfl hpc _ _ _
    exact ⟨w,hpc⟩
  cases steps_of_step hst with
  | loop hpc => exact watched_loop hs hpc
  | run | yield | suspend | sleep | waitFd | terminateSelf | finish | switch => exact hb (update_self _ _ _)
  | spawnC hpc => exact hb (congrArg Pc.signalled hpc)
  | spawnBlock hpc => exact hb hpc
  | resume hpc => exact hb (signals_resume.pc_eq hpc rfl)
  | terminate hpc => exact hb ((congrFun pc_terminate _).trans hpc)
  | commit => exact hse commit_pc.1 (.inl rfl)
  | poll | wake => exact hse (update_self _ _ _) (.inr rfl)
  | apply => exact hse (update_self _ _ _) (.inl rfl)
  | idle hpc => exact h.idle hpc
  | tick => exact h

end Waiting

/-- What holds in every run in which the waiters are attended. -/
structure Orderly (s : Scheduler) : Prop where
  coherent : Coherent s
  solePoller : SolePoller s
  timersOrdered : TimersOrdered s
  unarmed : Unarmed s
  armed : s.armedWaiters ≤ s.ledger.parked.card
  listening : Listening s
  closed : Closed s
  dismissed : Dismissed s
  watched : Watched s

section Orderly
variable {s s' : Scheduler} {a : Action}

theorem Attended.patient (h : Attended s a) : Patient s a := by
  cases a with
  | terminate => trivial
  | _ => exact h

theorem Orderly.step (h : Orderly s) (hok : Attended s a) (hs : step s a = some s') : Orderly s' where
  coherent := h.coherent.step hs
  solePoller := h.solePoller.step hs
  timersOrdered := h.timersOrdered.step hs
  unarmed := h.unarmed.step h.coherent hs
  armed := by
    obtain ⟨entry,he⟩ := enters_of_step h.coherent h.solePoller h.timersOrdered h.unarmed hs
    have hle := Ledger.armed_le_post h.armed he.possible (he.patient hok.patient)
    rwa [← he.post] at hle
  listening := h.listening.step h.solePoller hok hs
  closed := h.closed.step h.listening h.solePoller hs
  dismissed := h.dismissed.step hs
  watched := h.watched.step h.coherent hs

theorem Orderly.quiet_of_done (h : Orderly s) (hd : ∀ id fiber, s.fibers id = some fiber → fiber.state = .done)
    (ht : s.timers.count = 0) (hho : ∀ w phase id, s.pc w ≠ .holds phase id) : s.armedWaiters = 0 ∧ s.quiet := by
  have ha : s.armedWaiters = 0 := by
    have hp : s.ledger.parked = ∅ := by
      apply filter_eq_empty_iff.mpr
      intro id _ hw
      apply hw
      change (s.fibers id).bind Fiber.wait = none
      cases hf : s.fibers id with
      | none => rfl
      | some fiber =>
        rw [Option.bind_some,Fiber.wait,Fiber.waitsFor,hd id fiber hf]
        rfl
    have hle := h.armed
    rw [hp,card_empty] at hle
    exact Nat.le_zero.mp hle
  have hr : s.runningCount = 0 := by
    rw [h.coherent.running,card_eq_zero]
    apply filter_eq_empty_iff.mpr
    intro w _ hh
    cases hpc : s.pc w with
    | holds phase id => exact hho w phase id hpc
    | _ => rw [hpc] at hh; cases hh
  have hq : s.allQueuesEmpty := by
    simp only [allQueuesEmpty,decide_eq_true_eq]
    intro w _
    by_contra hne
    obtain ⟨id,hid⟩ := List.exists_mem_of_ne_nil _ hne
    obtain ⟨fiber,hf,hre,-⟩ := h.coherent.of_mem_ready hid
    cases (hd id fiber hf).symm.trans hre
  refine ⟨ha,?_⟩
  simp only [quiet,decide_eq_true_eq]
  exact ⟨hr,hq,ha,ht⟩

theorem Orderly.released (h : Orderly s) : Released s := by
  have hs : s.shutdown → ∀ w, ¬ Stuck s w := by
    rintro hs w (hpc | ⟨hpc,hwa⟩)
    · exact h.dismissed hs w hpc
    · cases hwa.symm.trans (h.closed hs w (by rw [hpc]; rfl))
  refine ⟨hs,fun hd ht hst => ?_⟩
  by_contra hall
  have ho : ∀ w, s.pc w ≠ .exited → Stuck s w := by
    intro w hw
    by_contra hf
    exact hall ⟨w,lt_of_pc_ne_exited h.coherent hw,hw,hf⟩
  have hh : ∀ w phase id, s.pc w ≠ .holds phase id := by
    intro w phase id hpc
    have hw := ho w (by simp [hpc])
    simp [Stuck,hpc] at hw
  obtain ⟨harm,hq⟩ := h.quiet_of_done hd ht hh
  obtain ⟨w0,hw0⟩ := hst
  have hop : s.shutdown = false := by
    by_contra hc
    exact hs (Bool.not_eq_false _ ▸ hc) w0 hw0
  have hwo : 0 < s.workerCount := by
    refine Nat.zero_lt_of_lt (lt_of_pc_ne_exited h.coherent (w := w0) ?_)
    obtain hpc | ⟨hpc,-⟩ := hw0 <;> simp [hpc]
  -- the worker that notices is stuck: it is the poller, and has no reason to wait
  obtain ⟨w,hw⟩ := h.watched hq hop hwo
  have ha : s.pc w ≠ .exited := by
    intro hpc
    simp [hpc,Pc.isPoller] at hw
  obtain hpc | ⟨hpc,hwa⟩ := ho w ha
  · simp [hpc,Pc.isPoller] at hw
  · obtain hp | hpos | hpos := h.listening w (by rw [hpc]; rfl)
    · cases hwa.symm.trans hp
    · exact absurd harm hpos.ne'
    · exact absurd ht hpos.ne'

end Orderly

section Start
variable (workerCount fibers : ℕ)

theorem not_listens_start (w : ℕ) : ¬ ((start workerCount fibers).pc w).listens := by
  intro hw
  have hnot := not_isPoller_start workerCount fibers w
  rw [isPoller_of_listens hw] at hnot
  cases hnot

theorem pc_start (w : ℕ) (hw : w < workerCount) : (start workerCount fibers).pc w = .top := by
  induction fibers with
  | zero => exact if_pos hw
  | succ _ ih =>
    rw [start,Function.iterate_succ_apply']
    exact congrArg Pc.signalled ih

theorem orderly_start : Orderly (start workerCount fibers) where
  coherent := coherent_start workerCount fibers
  solePoller := solePoller_start workerCount fibers
  timersOrdered := timersOrdered_start workerCount fibers
  unarmed := (consistent_start workerCount fibers).unarmed
  armed := (accounted_start workerCount fibers).count.le
  listening w hw := absurd hw (not_listens_start workerCount fibers w)
  closed _ w hw := absurd hw (not_listens_start workerCount fibers w)
  dismissed hs := by
    rw [(aside_start workerCount fibers).shutdown] at hs
    cases hs
  watched _ _ hwo := by
    rw [(aside_start workerCount fibers).workerCount] at hwo
    exact ⟨0,.inl (pc_start workerCount fibers 0 hwo)⟩

end Start

/-- In every run of the pool in which the waiters are attended, a shutdown reaches every worker, and
the end of the last fiber is noticed. -/
theorem shutdown_reaches_workers (workerCount fibers : ℕ) (as : List Action) (s : Scheduler)
    (h : perform step (start workerCount fibers) as = some s)
    (hok : Meets step Attended (start workerCount fibers) as) : Released s :=
  (invariant_of_meets (fun _ _ _ hs hok hst => hs.step hok hst) (orderly_start workerCount fibers)
    hok h).released

/-- Two workers: one polls for the fiber of the other. When the fiber has been woken and is done, its
worker shuts the pool down, and the other one is signalled. -/
theorem shutdown_reaches_workers_signalled : ∃ s, perform step (start 2 1)
        [.loop 0,.run 0,.waitFd 0 3,.loop 1,.poll 1,.switch 0,.commit 0,.loop 0,.idle 0,
          .wake 1 [3] false,.apply 1,.loop 1,.idle 1,.idle 0,.loop 0,.run 0,.finish 0,.switch 0,
          .commit 0,.loop 0] = some s ∧
      s.shutdown = true ∧ s.pc 1 = .waiting true ∧ Released s := by
  refine ⟨_,rfl,rfl,rfl,shutdown_reaches_workers 2 1
    [.loop 0,.run 0,.waitFd 0 3,.loop 1,.poll 1,.switch 0,.commit 0,.loop 0,.idle 0,
      .wake 1 [3] false,.apply 1,.loop 1,.idle 1,.idle 0,.loop 0,.run 0,.finish 0,.switch 0,
      .commit 0,.loop 0] _ rfl
    ⟨trivial,trivial,trivial,trivial,trivial,trivial,trivial,trivial,trivial,trivial,fun t ht => ?_,trivial,
      trivial,trivial,trivial,trivial,trivial,trivial,trivial,trivial,trivial⟩⟩
  exact absurd (BinaryHeap.count_pos_of_mem ht) (by decide)

/-- A fiber is terminated while the poller waits for its descriptor: the pool is shut down, and the
poller waits for ever. And a fiber is resumed while it waits for a descriptor: all fibers are done,
and the only worker waits for ever. -/
theorem shutdown_misses_poller : (∃ s, perform step (start 2 2)
        [.loop 0,.run 0,.waitFd 0 3,.switch 0,.commit 0,.loop 0,.poll 0,.loop 1,.run 1,.terminate 1 0,
          .finish 1,.switch 1,.commit 1,.loop 1] = some s ∧
        s.shutdown = true ∧ Stuck s 0 ∧ ¬ Released s) ∧
      ∃ s, perform step (start 1 2)
        [.loop 0,.run 0,.waitFd 0 3,.switch 0,.commit 0,.loop 0,.run 0,.resume 0 0,.finish 0,.switch 0,
          .commit 0,.loop 0,.run 0,.finish 0,.switch 0,.commit 0,.loop 0,.poll 0] = some s ∧
        s.fibers 0 = none ∧ s.fibers 1 = none ∧ s.nextId = 2 ∧ Stuck s 0 ∧ ¬ Released s := by
  refine ⟨⟨_,rfl,rfl,.inr ⟨rfl,rfl⟩,fun h => ?_⟩,_,rfl,rfl,rfl,rfl,.inr ⟨rfl,rfl⟩,fun h => ?_⟩
  · exact h.shutdown rfl 0 (.inr ⟨rfl,rfl⟩)
  · refine absurd (h.finished ?_ rfl ⟨0,.inr ⟨rfl,rfl⟩⟩) ?_
    · intro id f hf
      rcases id with _ | _ | id
      · cases hf
      · cases hf
      · cases hf
    · rintro ⟨w,hw,-,hfr⟩
      cases Nat.lt_one_iff.mp hw
      exact hfr (.inr ⟨rfl,rfl⟩)

end SmalltalkJit.Concurrency
