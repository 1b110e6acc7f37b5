import SmalltalkJit.Concurrency.Waiters

/-! # What ends a park

A timer entry and a registration name a fiber, and not the call that parked it.
A fiber that is resumed early leaves its entry behind, and the entry resumes it
from whatever it is parked in then. That is the only way: as long as a fiber
parks only when nothing is left over from an earlier call, whatever is pending
for a parked fiber belongs to the call that parked it.
-/
namespace SmalltalkJit.Concurrency
open Scheduler Interleaving Function BinaryHeap Multiset

def Timer.event (t : Timer) : Event := ⟨t.fiberId,t.park⟩

def Fiber.Parked (fiber : Fiber) : Prop :=
  fiber.state = .suspended ∨ fiber.state = .parking ∧ fiber.parkIntent ≠ .yield

/-- The fiber is parked and has not been resumed. -/
def Fiber.Asleep (fiber : Fiber) : Prop :=
  fiber.state = .suspended ∨
    fiber.state = .parking ∧ fiber.parkIntent ≠ .yield ∧ fiber.parkPending = false

variable (s : Scheduler)

/-- What resumes a fiber without an explicit resume: a timer, a registration that has not fired, or an
event that has not been applied. -/
def Scheduler.Pending (e : Event) : Prop :=
  (∃ t ∈ s.timers.contents, t.event = e) ∨ (∃ fd, s.registrations fd = some ⟨e,true⟩) ∨ e ∈ s.hand

/-- Whatever is pending for a fiber that is parked belongs to the call that parked it. -/
def Matched : Prop := ∀ e, s.Pending e → ∀ fiber, s.fibers e.tag = some fiber → fiber.Parked → fiber.park = e.park

/-- A fiber parks only when nothing is left over for it from an earlier call. A registration for the
descriptor that it is going to wait for is replaced. -/
def Cleared : Action → Prop
  | .suspend w | .sleep w _ => ∀ id, s.pc w = .holds .running id → ∀ e, s.Pending e → e.tag ≠ id
  | .waitFd w fd => ∀ id, s.pc w = .holds .running id →
      ∀ e, (s.osEventLoopDisarm fd).Pending e → e.tag ≠ id
  | _ => True

/-- The timers that the loop of `wakeExpiredTimers` takes, each one with the state in which its fiber
is resumed. -/
def wakeTrace : ℕ → Scheduler → List (Scheduler × Timer)
  | 0,_ => []
  | fuel+1,s =>
    if 0 < s.timers.count ∧ (s.timers.entries 0).deadline ≤ s.now then
      (s.timerPop,s.timers.entries 0) ::
        wakeTrace fuel (s.timerPop.schedulerResumeLocked (s.timers.entries 0).fiberId)
    else []

/-- Every timer that has an effect ends the very call that pushed it. -/
def OwnTimers : Prop :=
  ∀ w events, s.pc w = .collected events →
    ∀ p ∈ wakeTrace s.timers.count (events.foldl applyEvent s), ∀ fiber,
      p.1.fibers p.2.fiberId = some fiber → fiber.Parked → fiber.park = p.2.park

/-- A park that ends is ended by an explicit resume, or by an event or a timer of its own. -/
def Returns (a : Action) (s' : Scheduler) : Prop :=
  ∀ id fiber fiber', s.fibers id = some fiber → fiber.Asleep → s'.fibers id = some fiber' →
    ¬ fiber'.Asleep →
      (∃ w, a = .resume w id) ∨ ∃ w, a = .apply w ∧ (⟨id,fiber.park⟩ ∈ s.hand ∨
        ∃ t ∈ s.timers.contents, t.deadline ≤ s.now ∧ t.event = ⟨id,fiber.park⟩)

def Frees (s s' : Scheduler) : Prop :=
  ∀ id fiber', s'.fibers id = some fiber' → fiber'.Parked →
    ∃ fiber, s.fibers id = some fiber ∧ fiber.Parked ∧ fiber.park = fiber'.park

section Freeing
variable {s s' s'' : Scheduler} {w id : ℕ} {fiber : Fiber}

theorem Frees.refl : Frees s s := fun _ f' hfiber hp => ⟨f',hfiber,hp,rfl⟩

theorem Frees.trans (h : Frees s s') (h' : Frees s' s'') : Frees s s'' := by
  intro id f'' hf'' hp''
  obtain ⟨f',hf',hp',hpar'⟩ := h' id f'' hf'' hp''
  obtain ⟨fiber,hfiber,hp,hpar⟩ := h id f' hf' hp'
  exact ⟨fiber,hfiber,hp,hpar.trans hpar'⟩

theorem Frees.congr (h : Frees s s') (hf : s''.fibers = s'.fibers) : Frees s s'' := by
  unfold Frees
  rw [hf]
  exact h

theorem frees_update (hfibers : s'.fibers = update s.fibers id f) (hf : ∀ fiber', f = some fiber' → fiber'.Parked →
      ∃ fiber, s.fibers id = some fiber ∧ fiber.Parked ∧ fiber.park = fiber'.park) : Frees s s' := by
  intro id' fiber' hfi' hp'
  rw [hfibers] at hfi'
  by_cases hid : id' = id
  · rw [hid] at hfi' ⊢
    rw [update_self] at hfi'
    exact hf fiber' hfi' hp'
  · rw [update_of_ne hid] at hfi'
    exact ⟨fiber',hfi',hp',rfl⟩

theorem frees_of_not_parked
    (hf : s'.fibers = update s.fibers id (some fiber')) (hnot : ¬ fiber'.Parked) : Frees s s' := by
  refine frees_update hf ?_
  rintro _ ⟨⟩ hp
  exact absurd hp hnot

theorem frees_resume : Frees s (s.schedulerResumeLocked id) := by
  unfold schedulerResumeLocked
  split
  · exact .refl
  · next fiber hfiber =>
    split
    · exact frees_of_not_parked rfl (by simp [Fiber.Parked])
    · next hst =>
      refine frees_update rfl ?_
      rintro _ ⟨⟩ hp
      exact ⟨fiber,hfiber,hp,rfl⟩
    · exact .refl

theorem frees_foldl_applyEvent (events : List Event) : Frees s (events.foldl applyEvent s) :=
  List.foldlRecOn events _ .refl fun s h _ _ =>
    h.trans (frees_resume (s := { s with armedWaiters := s.armedWaiters-1 }))

theorem frees_wakeExpired (fuel : ℕ) : Frees s (wakeExpired fuel s) :=
  wakeExpired_rule .refl (fun s h => h.trans (frees_resume (s := s.timerPop))) fuel

theorem frees_terminate : Frees s (s.schedulerTerminate id) := by
  obtain heq | ⟨_,_,_,heq⟩ := terminate_eq s id
  · rw [heq]
    exact .refl
  · rw [heq]
    refine frees_update rfl ?_
    rintro _ ⟨⟩

theorem frees_commit (hs : Coherent s) (hpc : s.pc w = .holds .left id)
    (hfiber : s.fibers id = some fiber) : Frees s (s.commitFiber w id fiber) := by
  unfold commitFiber
  split_ifs with hd hy hpe
  · refine frees_update (s := s) rfl ?_
    rintro _ ⟨⟩
  · exact frees_of_not_parked (s := s) rfl (by simp [Fiber.Parked])
  · exact frees_of_not_parked (s := s) rfl (by simp [Fiber.Parked])
  · refine frees_update (s := s) rfl ?_
    rintro _ ⟨⟩ -
    exact ⟨fiber,hfiber,.inr ⟨(hs.state_left hfiber hpc).resolve_right hd,hy⟩,rfl⟩

end Freeing

section Sources
variable {s s' : Scheduler} {w id : ℕ} {e : Event} {a : Action}

theorem pending_mono (h : s'.Pending e) (hti : s'.timers.contents ⊆ s.timers.contents)
    (hr : ∀ fd, s'.registrations fd = some ⟨e,true⟩ → s.registrations fd = some ⟨e,true⟩)
    (hh : e ∈ s'.hand → s.Pending e) : s.Pending e := by
  obtain ⟨t,ht,htag⟩ | ⟨fd,hfd⟩ | hmem := h
  · exact .inl ⟨t,hti ht,htag⟩
  · exact .inr (.inl ⟨fd,hr fd hfd⟩)
  · exact hh hmem

theorem pending_congr (ht : s'.timers = s.timers) (hr : s'.registrations = s.registrations)
    (hh : s'.hand = s.hand) : s'.Pending e ↔ s.Pending e := by
  unfold Pending
  rw [ht,hr,hh]

theorem Scheduler.Pending.congr (h : s'.Pending e) (ht : s'.timers = s.timers)
    (hr : s'.registrations = s.registrations) (hh : s'.hand = s.hand) : s.Pending e :=
  (pending_congr ht hr hh).mp h

theorem Aside.pending (h : Aside s s') : s'.Pending e ↔ s.Pending e :=
  pending_congr h.timers h.registrations h.hand_eq

theorem contents_wakeExpired (fuel : ℕ) : (wakeExpired fuel s).timers.contents ⊆ s.timers.contents := by
  induction fuel generalizing s with
  | zero => exact fun _ h => h
  | succ _ ih =>
    unfold wakeExpired
    split
    · next hdue =>
      intro t ht
      have hpop := ih ht
      rw [aside_resume.timers] at hpop
      have hc : s.timers.entries 0 ::ₘ s.timerPop.timers.contents = s.timers.contents := contents_pop s.timers hdue.1
      rw [← hc]
      exact mem_cons_of_mem hpop
    · exact fun _ h => h

theorem pending_wake {expiry : Option ℤ} (hs : Coherent s) (hp : SolePoller s) (hpc : s.pc w = .blocked expiry)
    (hcan : s.CanWake expiry fds drain) (h : (s.osEventLoopWait w fds drain).Pending e) : s.Pending e := by
  have he := enters_wake hs hp hpc hcan
  have hl := he.possible.2.1
  have hpos := he.post
  refine pending_mono h (fun _ ht => ht) (fun fd hfd => ?_) (fun hmem => ?_)
  · change (if fd ∈ fds then (s.registrations fd).map fun r => { r with live := false }
      else s.registrations fd) = some ⟨e,true⟩ at hfd
    split at hfd
    · obtain ⟨r,-,hr⟩ := Option.map_eq_some_iff.mp hfd
      cases hr
    · exact hfd
  · rw [show (s.osEventLoopWait w fds drain).hand = _ from congrArg Ledger.hand hpos] at hmem
    obtain ⟨fd,-,hfd⟩ := (Ledger.mem_reported hl).mp hmem
    exact .inr (.inl ⟨fd,hfd⟩)

theorem pending_apply (hs : Coherent s) (hpo : SolePoller s) (hti : TimersOrdered s)
    (hpc : s.pc w = .collected events) (h : (s.applyEvents w events).Pending e) : s.Pending e := by
  have hp := (enters_apply hs hpo hti hpc).post
  refine pending_mono h (fun t ht => ?_) (fun fd hfd => ?_) (fun hmem => ?_)
  · have hf := contents_wakeExpired _ ht
    rwa [timers_foldl_applyEvent] at hf
  · rwa [show (s.applyEvents w events).registrations = _ from congrArg Ledger.registrations hp] at hfd
  · rw [show (s.applyEvents w events).hand = _ from congrArg Ledger.hand hp] at hmem
    cases hmem

end Sources

/-- The step function, as far as parks go: either no fiber is parked anew and nothing more is pending,
or one fiber is parked, and what is left over is pending before and after. -/
inductive ParkStep (s : Scheduler) (a : Action) (s' : Scheduler) : Prop
  | keeps (hok : Cleared s a)
    (hfrees : ∀ id fiber', id < s.nextId → s'.fibers id = some fiber' → fiber'.Parked →
      ∃ fiber, s.fibers id = some fiber ∧ fiber.Parked ∧ fiber.park = fiber'.park)
    (hpending : ∀ e, s'.Pending e → s.Pending e)
    (hnext : s.nextId ≤ s'.nextId) (hparks : s.parks ≤ s'.parks)
  | parks {w id : ℕ} {fiber' : Fiber} {left : Event → Prop} (hpc : s.pc w = .holds .running id)
    (hok : Cleared s a ↔ ∀ e, left e → e.tag ≠ id)
    (hself : s'.fibers id = some fiber') (hpark : fiber'.Parked ∧ fiber'.park = s.parks)
    (hothers : ∀ id', id' ≠ id → s'.fibers id' = s.fibers id')
    (hleft : ∀ e, left e → s.Pending e ∧ s'.Pending e)
    (hpending : ∀ e, s'.Pending e → left e ∨ e = ⟨id,s.parks⟩)
    (hid : id < s.nextId) (hnext : s'.nextId = s.nextId) (hparks : s'.parks = s.parks+1)

section ParkSteps
variable {s s' : Scheduler} {w id : ℕ} {fiber : Fiber} {a : Action}

theorem ParkStep.of_frees (hok : Cleared s a) (hf : Frees s s')
    (hp : ∀ e, s'.Pending e → s.Pending e) (hc : SameCounters s s') : ParkStep s a s' :=
  .keeps hok (fun id f' _ => hf id f') hp hc.1.ge hc.2.ge

theorem ParkStep.of_aside (hok : Cleared s a) (ha : Aside s s') (hf : Frees s s')
    (hc : SameCounters s s') : ParkStep s a s' :=
  .of_frees hok hf (fun _ => ha.pending.mp) hc

theorem parkStep_loop (hpc : s.pc w = .top) : ParkStep s (.loop w) (s.loop w) := by
  have hf : Frees s (s.loop w) := Frees.refl.congr fibers_loop
  have hc : SameCounters s (s.loop w) := sameCounters_loop
  have hst := pollStep_loop hpc
  generalize s.loop w = s' at hf hc hst
  refine .of_frees trivial hf (fun e h => ?_) hc
  cases hst with
  | aside _ ha => exact ha.pending.mp h
  | shutDown hpc => exact h.congr rfl rfl (hand_shutDown hpc)
  | startPolling hpc => exact h.congr rfl rfl (hand_update rfl rfl hpc rfl)

/-- A registration that is left is one for another descriptor. -/
theorem registrations_disarm (h : (s.osEventLoopDisarm fd).registrations fd' = some r) :
    fd' ≠ fd ∧ s.registrations fd' = some r := by
  change update s.registrations fd none fd' = _ at h
  by_cases hfd : fd' = fd
  · rw [hfd,update_self] at h
    cases h
  · exact ⟨hfd,(update_of_ne hfd _ _).symm.trans h⟩

theorem parkStep_terminate (hpc : s.pc w = .holds .running id) :
    ParkStep s (.terminate w target) (s.schedulerTerminate target) := by
  have hf : Frees s (s.schedulerTerminate target) := frees_terminate
  have hc : SameCounters s (s.schedulerTerminate target) := sameCounters_terminate
  have hst : PollStep s (.terminate w target) (s.schedulerTerminate target) := pollStep_terminate hpc
  generalize s.schedulerTerminate target = s' at hf hc hst
  refine .of_frees trivial hf (fun e => ?_) hc
  cases hst with
  | aside _ ha => exact ha.pending.mp
  | @disarm _ _ _ _ fd =>
    intro h
    exact pending_mono h (fun _ ht => ht) (fun _ hfd => (registrations_disarm hfd).2) fun hmem => .inr (.inr hmem)

theorem cleared_iff {p : Event → Prop} (hpc : s.pc w = .holds .running id) :
    (∀ id', s.pc w = .holds .running id' → ∀ e, p e → e.tag ≠ id') ↔ ∀ e, p e → e.tag ≠ id := by
  refine ⟨fun h => h id hpc,fun h id' hpc' => ?_⟩
  cases hpc.symm.trans hpc'
  exact h

section
variable (hs : Coherent s) (hpc : s.pc w = .holds .running id) (hfiber : s.fibers id = some fiber)
include hs hpc hfiber

theorem parkStep_suspend : ParkStep s (.suspend w) (s.schedulerSuspend w id fiber) := by
  have hp : ∀ e, (s.schedulerSuspend w id fiber).Pending e ↔ s.Pending e := fun e =>
    pending_congr rfl rfl (hand_update rfl rfl hpc rfl)
  exact .parks hpc (cleared_iff hpc) (update_self _ _ _) ⟨.inr ⟨rfl,by simp⟩,rfl⟩
    (fun id' hid' => update_of_ne hid' _ _) (fun e he => ⟨he,(hp e).mpr he⟩)
    (fun e he => .inl ((hp e).mp he)) (hs.lt_nextId hfiber) rfl rfl

theorem parkStep_sleep {micros : ℤ} : ParkStep s (.sleep w micros) (s.schedulerSleep w id fiber micros) := by
  have hh : (s.schedulerSleep w id fiber micros).hand = s.hand := hand_update (s := s) rfl rfl hpc rfl
  have hc : (s.schedulerSleep w id fiber micros).timers.contents =
      ⟨s.now + max micros 0,id,s.parks⟩ ::ₘ s.timers.contents :=
    contents_push s.timers _
  refine .parks hpc (cleared_iff hpc) (update_self _ _ _) ⟨.inr ⟨rfl,by simp⟩,rfl⟩
    (fun id' hid' => update_of_ne hid' _ _) (fun e he => ⟨he,?_⟩) (fun e he => ?_)
    (hs.lt_nextId hfiber) rfl rfl
  · obtain ⟨t,ht,htag⟩ | hfd | hmem := he
    · refine .inl ⟨t,?_,htag⟩
      rw [hc]
      exact mem_cons_of_mem ht
    · exact .inr (.inl hfd)
    · exact .inr (.inr (hh ▸ hmem))
  · obtain ⟨t,ht,htag⟩ | hfd | hmem := he
    · rw [hc] at ht
      obtain rfl | ht := mem_cons.mp ht
      · exact .inr htag.symm
      · exact .inl (.inl ⟨t,ht,htag⟩)
    · exact .inl (.inr (.inl hfd))
    · exact .inl (.inr (.inr (hh ▸ hmem)))

theorem parkStep_waitFd {fd : ℕ} : ParkStep s (.waitFd w fd) (s.schedulerWaitFd w id fiber fd) := by
  have hh : (s.schedulerWaitFd w id fiber fd).hand = s.hand := hand_update (s := s) rfl rfl hpc rfl
  have ho : ∀ {fd'} {r : Option Registration}, fd' ≠ fd → update s.registrations fd r fd' = s.registrations fd' :=
    fun hfd => update_of_ne hfd _ _
  refine .parks hpc (cleared_iff hpc) (update_self _ _ _) ⟨.inr ⟨rfl,by simp⟩,rfl⟩
    (fun id' hid' => update_of_ne hid' _ _) (fun e he => ?_) (fun e he => ?_)
    (hs.lt_nextId hfiber) rfl rfl
  · obtain ht | ⟨fd',hfd'⟩ | hmem := he
    · exact ⟨.inl ht,.inl ht⟩
    · obtain ⟨hfd,hreg⟩ := registrations_disarm hfd'
      exact ⟨.inr (.inl ⟨fd',hreg⟩),.inr (.inl ⟨fd',(ho hfd).trans hreg⟩)⟩
    · exact ⟨.inr (.inr hmem),.inr (.inr (hh ▸ hmem))⟩
  · obtain ht | ⟨fd',hfd'⟩ | hmem := he
    · exact .inl (.inl ht)
    · change update s.registrations fd _ fd' = _ at hfd'
      by_cases hfd : fd' = fd
      · rw [hfd,update_self] at hfd'
        cases hfd'
        exact .inr rfl
      · refine .inl (.inr (.inl ⟨fd',?_⟩))
        exact (ho hfd).trans ((ho hfd).symm.trans hfd')
    · exact .inl (.inr (.inr (hh ▸ hmem)))

end

theorem parkStep_of_step (hs : Coherent s) (hpo : SolePoller s) (ht : TimersOrdered s)
    (hst : step s a = some s') : ParkStep s a s' := by
  cases steps_of_step hst with
  | loop hpc => exact parkStep_loop hpc
  | run hpc =>
    exact .of_frees trivial (frees_of_not_parked (s := s) rfl (by simp [Fiber.Parked]))
      (fun e h => h.congr rfl rfl (hand_update (s := s) rfl rfl hpc rfl)) ⟨rfl,rfl⟩
  | spawnC =>
    refine .keeps trivial (fun id f' hid hf' hp => ?_) (fun _ => aside_spawnC.pending.mp) (Nat.le_succ _) le_rfl
    exact ⟨f',(update_of_ne hid.ne _ _).symm.trans hf',hp,rfl⟩
  | spawnBlock =>
    refine .keeps trivial (fun id f' hid hf' hp => ?_) (fun _ h => h.congr rfl rfl rfl) (Nat.le_succ _) le_rfl
    exact ⟨f',(update_of_ne hid.ne _ _).symm.trans hf',hp,rfl⟩
  | resume => exact .of_aside trivial aside_resume frees_resume sameCounters_resume
  | yield hpc =>
    refine .keeps trivial (fun id f' _ => ?_)
      (fun e h => h.congr rfl rfl (hand_update rfl rfl hpc rfl)) le_rfl (Nat.le_succ _)
    exact frees_of_not_parked (s := s) rfl (by simp [Fiber.Parked]) id f'
  | suspend hpc hfiber => exact parkStep_suspend hs hpc hfiber
  | sleep hpc hfiber => exact parkStep_sleep hs hpc hfiber
  | waitFd hpc hfiber => exact parkStep_waitFd hs hpc hfiber
  | terminateSelf hpc | finish hpc =>
    exact .of_frees trivial (frees_of_not_parked (s := s) rfl (by simp [Fiber.Parked]))
      (fun e h => h.congr rfl rfl (hand_update rfl rfl hpc rfl)) ⟨rfl,rfl⟩
  | terminate hpc => exact parkStep_terminate hpc
  | switch hpc => exact .of_aside trivial (aside_setPc hpc rfl rfl) (Frees.refl.congr rfl) ⟨rfl,rfl⟩
  | commit hpc hfiber =>
    exact .of_aside trivial (aside_commit hpc rfl) (frees_commit hs hpc hfiber) sameCounters_commit
  | poll hpc =>
    exact .of_frees trivial (Frees.refl.congr rfl)
      (fun e h => h.congr rfl rfl (hand_update rfl rfl hpc rfl)) ⟨rfl,rfl⟩
  | wake hpc hcan =>
    exact .of_frees trivial (Frees.refl.congr rfl) (fun e h => pending_wake hs hpo hpc hcan h) ⟨rfl,rfl⟩
  | apply hpc =>
    refine .of_frees trivial ?_ (fun e h => pending_apply hs hpo ht hpc h) sameCounters_applyEvents
    exact ((frees_foldl_applyEvent _).trans (frees_wakeExpired _)).congr rfl
  | idle hpc => exact .of_aside trivial (aside_idle hpc) (Frees.refl.congr fibers_idle) sameCounters_idle
  | tick => exact .of_frees trivial (Frees.refl.congr rfl) (fun _ h => h.congr rfl rfl rfl) ⟨rfl,rfl⟩

end ParkSteps

/-- Whatever is pending has been made so by a call that has happened, for a fiber that has existed. -/
def Numbered : Prop := ∀ e, s.Pending e → e.tag < s.nextId ∧ e.park < s.parks

section Matching
variable {s s' : Scheduler} {w id : ℕ} {fiber : Fiber} {a : Action}

theorem ParkStep.numbered (hst : ParkStep s a s') (h : Numbered s) : Numbered s' := by
  intro e he
  cases hst with
  | keeps _ _ hp hn hpar =>
    obtain ⟨htag,hpark⟩ := h e (hp e he)
    exact ⟨htag.trans_le hn,hpark.trans_le hpar⟩
  | parks _ _ _ _ _ hl hp hid hn hpar =>
    rw [hn,hpar]
    obtain hold | rfl := hp e he
    · obtain ⟨htag,hpark⟩ := h e (hl e hold).1
      exact ⟨htag,Nat.lt_succ_of_lt hpark⟩
    · exact ⟨hid,Nat.lt_succ_self _⟩

theorem ParkStep.matched_iff (hst : ParkStep s a s') (hn : Numbered s) (h : Matched s) :
    Matched s' ↔ Cleared s a := by
  cases hst with
  | keeps hok hf hpe =>
    refine iff_of_true (fun e he f' hfi' hp' => ?_) hok
    have hold := hpe e he
    obtain ⟨fiber,hfiber,hp,hpar⟩ := hf e.tag f' (hn e hold).1 hfi' hp'
    exact hpar.symm.trans (h e hold fiber hfiber hp)
  | @parks _ id f' left _ hok hsel hpar ho hl hpe =>
    rw [hok]
    constructor
    · rintro hm e he rfl
      have hsa := hm e (hl e he).2 f' hsel hpar.1
      rw [hpar.2] at hsa
      exact (hn e (hl e he).1).2.ne hsa.symm
    · intro hc e he fiber hfiber hp
      obtain hold | rfl := hpe e he
      · rw [ho e.tag (hc e hold)] at hfiber
        exact h e (hl e hold).1 fiber hfiber hp
      · cases hsel.symm.trans hfiber
        exact hpar.2

theorem mem_wakeTrace (h : p ∈ wakeTrace fuel s) : p.2 ∈ s.timers.contents ∧ Frees s p.1 := by
  induction fuel generalizing s with
  | zero => cases h
  | succ _ ih =>
    unfold wakeTrace at h
    split at h
    · next hdue =>
      obtain rfl | h := List.mem_cons.mp h
      · exact ⟨root_mem hdue.1,Frees.refl.congr rfl⟩
      · obtain ⟨hmem,hf⟩ := ih h
        have hc : s.timers.entries 0 ::ₘ s.timerPop.timers.contents = s.timers.contents :=
          contents_pop s.timers hdue.1
        have hpop : Frees s (s.timerPop.schedulerResumeLocked (s.timers.entries 0).fiberId) :=
          frees_resume (s := s.timerPop)
        rw [aside_resume.timers] at hmem
        rw [← hc]
        exact ⟨mem_cons_of_mem hmem,hpop.trans hf⟩
    · cases h

theorem Matched.ownTimers (h : Matched s) : OwnTimers s := by
  intro w es _ p hp f' hf' hpar'
  obtain ⟨hmem,hf⟩ := mem_wakeTrace hp
  rw [timers_foldl_applyEvent] at hmem
  obtain ⟨fiber,hfiber,hpar,hpark⟩ := (frees_foldl_applyEvent es).trans hf p.2.fiberId f' hf' hpar'
  rw [← hpark]
  exact h p.2.event (.inl ⟨p.2,hmem,rfl⟩) fiber hfiber hpar

theorem fibers_foldl_applyEvent {events : List Event} (h : id ∉ events.map Event.tag) :
    (events.foldl applyEvent s).fibers id = s.fibers id := by
  induction events generalizing s with
  | nil => rfl
  | cons _ _ ih =>
    rw [List.map_cons,List.mem_cons,not_or] at h
    exact (ih h.2).trans (fibers_resume_other h.1)

theorem fibers_wakeExpired (h : ∀ t ∈ s.timers.contents, t.deadline ≤ s.now → t.fiberId ≠ id) :
    (wakeExpired fuel s).fibers id = s.fibers id := by
  induction fuel generalizing s with
  | zero => rfl
  | succ _ ih =>
    unfold wakeExpired
    split
    · next hdue =>
      have hc : s.timers.entries 0 ::ₘ s.timerPop.timers.contents = s.timers.contents := contents_pop s.timers hdue.1
      rw [ih,fibers_resume_other (h _ (root_mem hdue.1) hdue.2).symm]
      · rfl
      · rw [aside_resume.timers,aside_resume.now]
        intro t ht
        exact h t (hc ▸ mem_cons_of_mem ht)
    · rfl

theorem Fiber.Asleep.parked (h : fiber.Asleep) : fiber.Parked := h.imp_right fun h => ⟨h.1,h.2.1⟩

theorem fibers_applyEvents {events : List Event} (hev : ∀ e ∈ events, e.tag ≠ id)
    (hti : ∀ t ∈ s.timers.contents, t.deadline ≤ s.now → t.fiberId ≠ id) :
    (s.applyEvents w events).fibers id = s.fibers id := by
  have htags : id ∉ events.map Event.tag := by
    intro hid
    obtain ⟨e,he,htag⟩ := List.mem_map.mp hid
    exact hev e he htag
  refine (fibers_wakeExpired fun t ht hdue => ?_).trans (fibers_foldl_applyEvent htags)
  rw [timers_foldl_applyEvent] at ht
  rw [(foldl_applyEvent_fields events).2.2.2] at hdue
  exact hti t ht hdue

theorem asleep_commit (hs : Coherent s) (hpc : s.pc w = .holds .left id) (hfiber : s.fibers id = some fiber)
    (ha : fiber.Asleep) : ∃ fiber', (s.commitFiber w id fiber).fibers id = some fiber' ∧ fiber'.Asleep := by
  have hpl := (hs.place hfiber hpc).2
  obtain hst | ⟨hst,hi,hp⟩ := ha
  · simp [hst,FiberState.Place] at hpl
  · refine ⟨{ fiber with state := .suspended, parkIntent := .none },?_,.inl rfl⟩
    simp [commitFiber,hst,hi,hp,setFiber]

theorem fibers_terminate_self (h : (s.schedulerTerminate id).fibers id = some fiber') :
    (s.schedulerTerminate id).fibers id = s.fibers id := by
  obtain heq | ⟨_,_,_,heq⟩ := terminate_eq s id
  · rw [heq]
  · rw [heq] at h
    cases (update_self id _ _).symm.trans h

theorem Fiber.Asleep.ne (h : fiber.Asleep) (hs : Coherent s) (hfiber : s.fibers id = some fiber)
    (hpc : s.pc w = .holds phase id') (hph : phase = .popped ∨ phase = .running) : id ≠ id' := by
  rintro rfl
  have hp := (hs.place hfiber hpc).2
  obtain hst | ⟨hst,-⟩ := h
  · simp [hst,FiberState.Place] at hp
  · obtain rfl | rfl := hph
    all_goals simp [hst,FiberState.Place] at hp

/-- A fiber sleeps on until it is resumed explicitly, by an event or by a timer with its id, or until it
is terminated. -/
theorem asleep_of_step (hs : Coherent s) (hp : SolePoller s) (hst : step s a = some s')
    (hfiber : s.fibers id = some fiber) (ha : fiber.Asleep) (hr : ∀ w, a ≠ .resume w id)
    (he : ∀ w, a = .apply w → ∀ e ∈ s.hand, e.tag ≠ id)
    (ht : ∀ w, a = .apply w → ∀ t ∈ s.timers.contents, t.deadline ≤ s.now → t.fiberId ≠ id) :
    (∃ fiber', s'.fibers id = some fiber' ∧ fiber'.Asleep) ∨ s'.fibers id = none ∧ ∃ w, a = .terminate w id := by
  have hsa : s'.fibers id = s.fibers id → (∃ fiber', s'.fibers id = some fiber' ∧ fiber'.Asleep) ∨
      s'.fibers id = none ∧ ∃ w, a = .terminate w id := fun heq =>
    .inl ⟨fiber,heq.trans hfiber,ha⟩
  have hc : ∀ {w id0 phase f}, s.pc w = .holds phase id0 → phase = .popped ∨ phase = .running →
      update s.fibers id0 f id = s.fibers id := fun hpc hph =>
    update_of_ne (ha.ne hs hfiber hpc hph) _ _
  have hsp : ∀ {f}, update s.fibers s.nextId f id = s.fibers id := update_of_ne (hs.lt_nextId hfiber).ne _ _
  cases steps_of_step hst with
  | loop => exact hsa (congrFun fibers_loop id)
  | run hpc => exact hsa (hc hpc (.inl rfl))
  | spawnC | spawnBlock => exact hsa hsp
  | @resume w _ tgt =>
    refine hsa (fibers_resume_other ?_)
    rintro rfl
    exact hr w rfl
  | yield hpc | suspend hpc | sleep hpc | waitFd hpc | terminateSelf hpc | finish hpc => exact hsa (hc hpc (.inr rfl))
  | @terminate w _ tgt =>
    by_cases hid : id = tgt
    · subst hid
      cases hg : (s.schedulerTerminate id).fibers id with
      | none => exact .inr ⟨rfl,w,rfl⟩
      | some =>
        refine .inl ⟨fiber,?_,ha⟩
        rw [← hg,fibers_terminate_self hg,hfiber]
    · exact hsa (fibers_terminate_other hid)
  | @commit _ id0 f0 hpc hf0 =>
    by_cases hid : id = id0
    · subst hid
      cases hfiber.symm.trans hf0
      exact .inl (asleep_commit hs hpc hfiber ha)
    · exact hsa (fibers_commit_other hid)
  | @apply w events hpc =>
    have hh : s.hand = events := hand_eq hs hp hpc rfl
    exact hsa (fibers_applyEvents (hh ▸ he w rfl) (ht w rfl))
  | idle => exact hsa (congrFun fibers_idle id)
  | switch | poll | wake | tick => exact hsa rfl

theorem returns_of_step (h : Matched s) (hs : Coherent s) (hp : SolePoller s)
    (hst : step s a = some s') : Returns s a s' := by
  intro id fiber f' hfiber has hf' haw
  have hown : ∀ e, s.Pending e → e.tag = id → e = ⟨id,fiber.park⟩ := by
    rintro ⟨tag,n⟩ he rfl
    rw [h _ he fiber hfiber has.parked]
  by_contra hnot
  obtain ⟨f'',hf'',has''⟩ | ⟨hn,-⟩ := asleep_of_step hs hp hst hfiber has (fun w ha => hnot (.inl ⟨w,ha⟩))
    (fun w ha e he htag => hnot (.inr ⟨w,ha,.inl (hown e (.inr (.inr he)) htag ▸ he)⟩))
    (fun w ha t ht hdue htag => hnot (.inr ⟨w,ha,.inr ⟨t,ht,hdue,hown t.event (.inl ⟨t,ht,rfl⟩) htag⟩⟩))
  · cases hf'.symm.trans hf''
    exact haw has''
  · cases hf'.symm.trans hn

end Matching

section Start
variable (workerCount fibers : ℕ)

theorem not_pending_start (e : Event) : ¬ (start workerCount fibers).Pending e := by
  intro h
  obtain ⟨t,ht,-⟩ | ⟨fd,hfd⟩ | hmem := (aside_start workerCount fibers).pending.mp h
  · exact absurd (count_pos_of_mem ht) (Nat.lt_irrefl 0)
  · cases hfd
  · rw [show (schedulerInit workerCount).hand = [] from hand_start workerCount 0] at hmem
    cases hmem

end Start

/-- In every run of the pool, whatever is pending for a parked fiber always belongs to the call that
parked it if and only if nothing is ever left over when a fiber parks. In such a run every timer that
has an effect ends the very sleep that pushed it, and a park ends only by an explicit resume, or by an
event or a timer of its own. -/
theorem timers_end_own_sleep (workerCount fibers : ℕ) (as : List Action) (s : Scheduler)
    (h : perform step (start workerCount fibers) as = some s) :
    (Along step Matched (start workerCount fibers) as ↔ Meets step Cleared (start workerCount fibers) as) ∧
      (Meets step Cleared (start workerCount fibers) as →
        OwnTimers s ∧ ∀ a s', step s a = some s' → Returns s a s') := by
  have hst : ∀ s a s', (Coherent s ∧ SolePoller s ∧ TimersOrdered s ∧ Numbered s) → Matched s →
      step s a = some s' → (Matched s' ↔ Cleared s a) ∧
        (Cleared s a → Coherent s' ∧ SolePoller s' ∧ TimersOrdered s' ∧ Numbered s') := by
    intro s a s' hs hm hst
    have hp := parkStep_of_step hs.1 hs.2.1 hs.2.2.1 hst
    exact ⟨hp.matched_iff hs.2.2.2 hm,fun _ => ⟨hs.1.step hst,hs.2.1.step hst,hs.2.2.1.step hst,hp.numbered hs.2.2.2⟩⟩
  have hn : Numbered (start workerCount fibers) := fun e he => absurd he (not_pending_start workerCount fibers e)
  have hm : Matched (start workerCount fibers) := fun e he => absurd he (not_pending_start workerCount fibers e)
  have hsta : Coherent (start workerCount fibers) ∧ SolePoller (start workerCount fibers) ∧
      TimersOrdered (start workerCount fibers) ∧ Numbered (start workerCount fibers) :=
    ⟨coherent_start workerCount fibers,solePoller_start workerCount fibers,timersOrdered_start workerCount fibers,hn⟩
  refine ⟨along_iff_meets hst hsta hm h,fun hok => ?_⟩
  obtain ⟨⟨hs,hpo,-⟩,hm⟩ := invariant_of_meets
    (P := fun s => (Coherent s ∧ SolePoller s ∧ TimersOrdered s ∧ Numbered s) ∧ Matched s)
    (fun s a s' hs hok hs' => ⟨(hst s a s' hs.1 hs.2 hs').2 hok,(hst s a s' hs.1 hs.2 hs').1.mpr hok⟩)
    ⟨hsta,hm⟩ hok h
  exact ⟨hm.ownTimers,fun a s' hs' => returns_of_step hm hs hpo hs'⟩

/-- A fiber sleeps for a millisecond and is resumed by its timer. -/
theorem timers_end_own_sleep_due : ∃ s, perform step (start 1 1)
        [.loop 0,.run 0,.sleep 0 1000,.switch 0,.commit 0,.loop 0,.poll 0,.tick 1000,.wake 0 [] false] =
          some s ∧
      OwnTimers s ∧ ∃ s', step s (.apply 0) = some s' ∧ s'.ready 0 = [0] ∧ Returns s (.apply 0) s' := by
  have hm : Meets step Cleared (start 1 1)
      [.loop 0,.run 0,.sleep 0 1000,.switch 0,.commit 0,.loop 0,.poll 0,.tick 1000,.wake 0 [] false] := by
    refine ⟨trivial,trivial,fun id _ e he => ?_,trivial,trivial,trivial,trivial,trivial,trivial,trivial⟩
    obtain ⟨t,ht,-⟩ | ⟨fd,hfd⟩ | hmem := he
    · exact absurd (count_pos_of_mem ht) (by decide)
    · cases hfd
    · cases hmem
  obtain ⟨hown,hr⟩ := (timers_end_own_sleep 1 1 _ _ rfl).2 hm
  exact ⟨_,rfl,hown,_,rfl,rfl,hr (.apply 0) _ rfl⟩

/-- A fiber is resumed while it sleeps and parks again, and the timer of the sleep resumes it. -/
theorem timer_ends_other_park : ∃ s s', perform step (start 1 2)
        [.loop 0,.run 0,.sleep 0 1000,.switch 0,.commit 0,.loop 0,.run 0,.resume 0 0,.suspend 0,.switch 0,
          .commit 0,.loop 0,.run 0,.suspend 0,.switch 0,.commit 0,.loop 0,.poll 0,.tick 1000,
          .wake 0 [] false] = some s ∧
      step s (.apply 0) = some s' ∧
      (∃ fiber, s.fibers 0 = some fiber ∧ fiber.state = .suspended ∧ fiber.park = 2) ∧
      s'.ready 0 = [0] ∧ ¬ OwnTimers s ∧ ¬ Returns s (.apply 0) s' := by
  refine ⟨_,_,rfl,rfl,⟨_,rfl,rfl,rfl⟩,rfl,fun h => ?_,fun h => ?_⟩
  · have hp := h 0 [] rfl _ (List.mem_of_mem_head? rfl) _ rfl (.inl rfl)
    cases hp
  · obtain ⟨w,hw⟩ | ⟨w,-,hmem | ⟨t,ht,hdue,htag⟩⟩ := h 0 _ _ rfl (.inl rfl) rfl (by simp [Fiber.Asleep])
    · cases hw
    · cases hmem
    · obtain rfl := mem_singleton.mp ht
      cases htag

end SmalltalkJit.Concurrency
