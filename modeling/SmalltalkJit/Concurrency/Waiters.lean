import SmalltalkJit.Concurrency.Ledger
import SmalltalkJit.Concurrency.Polling

/-! # The armed-waiter counter

The scheduler keeps the ledger of the fibers that wait for a descriptor: every
step makes an entry, or none. The counter is therefore right in every state of a
run exactly when all entries of the run are exclusive.
-/
namespace SmalltalkJit.Concurrency
open Scheduler Interleaving Function List Option BinaryHeap

def Fiber.waitsFor (fiber : Fiber) : Option ℕ :=
  match fiber.state with
  | .suspended => fiber.waitFd
  | .parking => if fiber.parkPending then none else fiber.waitFd
  | _ => none

def Fiber.wait (fiber : Fiber) : Option (ℕ × ℕ) := fiber.waitsFor.map fun fd => (fd,fiber.park)

def Pc.hand : Pc → List Event
  | .collected events => events
  | _ => []

namespace Scheduler
variable (s : Scheduler)

def waitOf (id : ℕ) : Option (ℕ × ℕ) := (s.fibers id).bind Fiber.wait

def hand : List Event := (List.range s.workerCount).flatMap fun w => (s.pc w).hand

def ledger : Ledger := ⟨s.nextId,s.waitOf,s.armedWaiters,s.registrations,s.hand⟩

end Scheduler

/-- A fiber that runs, or that yields, has no descriptor. -/
def Fiber.Unarmed (fiber : Fiber) : Prop := fiber.state = .running ∨ fiber.parkIntent = .yield → fiber.waitFd = none

def Unarmed (s : Scheduler) : Prop := ∀ id fiber, s.fibers id = some fiber → fiber.Unarmed

section Fibers
variable {s s' : Scheduler} {w id : ℕ} {fiber : Fiber}

theorem Unarmed.congr (h : Unarmed s) (hf : s'.fibers = s.fibers) : Unarmed s' := by
  unfold Unarmed
  rw [hf]
  exact h

theorem Unarmed.update (h : Unarmed s) (hfibers : s'.fibers = update s.fibers id f)
    (hf : ∀ fiber, f = some fiber → fiber.Unarmed) : Unarmed s' := by
  intro id' fiber hfi
  rw [hfibers] at hfi
  by_cases hid : id' = id
  · rw [hid,update_self] at hfi
    exact hf fiber hfi
  · rw [update_of_ne hid] at hfi
    exact h id' fiber hfi

theorem waitOf_update (hf : s'.fibers = update s.fibers id f) :
    s'.waitOf = update s.waitOf id (f.bind Fiber.wait) := by
  funext id'
  unfold waitOf
  rw [hf]
  by_cases hid : id' = id
  · rw [hid,update_self,update_self]
  · rw [update_of_ne hid,update_of_ne hid]

theorem waitOf_keep (hf : s'.fibers = update s.fibers id f)
    (hw : f.bind Fiber.wait = (s.fibers id).bind Fiber.wait) : s'.waitOf = s.waitOf := by
  rw [waitOf_update hf,hw]
  exact update_eq_self id _

theorem waitOf_congr (hf : s'.fibers = s.fibers) : s'.waitOf = s.waitOf := by
  funext id
  unfold waitOf
  rw [hf]

theorem waitOf_resume : (s.schedulerResumeLocked id).waitOf = update s.waitOf id none := by
  have hn : ∀ {f : Option Fiber}, f.bind Fiber.wait = none → s.fibers id = f →
      s.waitOf = update s.waitOf id none := by
    intro f hf hfi
    rw [eq_comm,update_eq_iff]
    refine ⟨?_,fun _ _ => rfl⟩
    rw [waitOf,hfi,hf]
  unfold schedulerResumeLocked
  split
  · next hfi => exact hn rfl hfi
  · next fiber hfi =>
    split
    · have hfibers : (s.makeReady id fiber).fibers = update s.fibers id (some { fiber with state := .ready }) := rfl
      exact waitOf_update hfibers
    · next hs =>
      refine (waitOf_update rfl).trans ?_
      simp only [hs]
      rfl
    · next hsu hp =>
      refine hn ?_ hfi
      rw [bind_some,Fiber.wait,Fiber.waitsFor]
      cases hs : fiber.state with
      | suspended => exact absurd hs hsu
      | parking => exact absurd hs hp
      | _ => rfl

theorem Unarmed.resume (h : Unarmed s) : Unarmed (s.schedulerResumeLocked id) := by
  unfold schedulerResumeLocked
  split
  · exact h
  · next fiber hf =>
    split
    · refine h.update rfl ?_
      rintro _ ⟨⟩ (hs | hi)
      · cases hs
      · exact h id fiber hf (.inr hi)
    · refine h.update rfl ?_
      rintro _ ⟨⟩ hc
      exact h id fiber hf hc
    · exact h

theorem waitOf_commit (hs : Coherent s) (h : Unarmed s) (hpc : s.pc w = .holds .left id)
    (hf : s.fibers id = some fiber) : (s.commitFiber w id fiber).waitOf = s.waitOf := by
  have hst := hs.state_left hf hpc
  have hr : ∀ f' : Fiber, fiber.wait = none → ((s.release w).makeReady id f').waitOf = s.waitOf := by
    intro f' hn
    have hfi : ((s.release w).makeReady id f').fibers = update s.fibers id (some { f' with state := .ready }) := rfl
    refine waitOf_keep hfi ?_
    rw [hf,bind_some,bind_some,hn]
    rfl
  unfold commitFiber
  split_ifs with hd hy hp
  · refine waitOf_keep (s := s) rfl ?_
    rw [hf,bind_some,Fiber.wait,Fiber.waitsFor,hd]
    rfl
  · apply hr
    have hfd := h id fiber hf (.inr hy)
    rw [Fiber.wait,Fiber.waitsFor,hst.resolve_right hd]
    rw [hfd,ite_self]
    rfl
  · apply hr
    rw [Fiber.wait,Fiber.waitsFor,hst.resolve_right hd]
    rw [if_pos hp]
    rfl
  · refine waitOf_keep (s := s) rfl ?_
    rw [hf,bind_some,bind_some,Fiber.wait,Fiber.wait,Fiber.waitsFor,Fiber.waitsFor,hst.resolve_right hd]
    rw [if_neg hp]

section
variable (h : Unarmed s)
include h

theorem unarmed_commit : Unarmed (s.commitFiber w id fiber) := by
  have hn : ∀ f' : Fiber, f'.state ≠ .running → f'.parkIntent ≠ .yield → f'.Unarmed := by
    intro f' hs hi hc
    exact absurd hc (not_or.mpr ⟨hs,hi⟩)
  unfold commitFiber
  split_ifs
  · refine Unarmed.update (s := s) h rfl ?_
    rintro _ ⟨⟩
  all_goals
    refine Unarmed.update (s := s) h rfl ?_
    rintro _ ⟨⟩
    exact hn _ (by simp) (by simp)

theorem Unarmed.running (hs : Coherent s) (hpc : s.pc w = .holds .running id) (hf : s.fibers id = some fiber) :
    fiber.state = .running ∧ fiber.waitFd = none ∧ s.waitOf id = none := by
  have hp := (hs.place hf hpc).2
  have hst : fiber.state = .running := by
    cases hst : fiber.state with
    | running => rfl
    | ready | parking | suspended | done => simp [hst,FiberState.Place] at hp
  refine ⟨hst,h id fiber hf (.inl hst),?_⟩
  rw [waitOf,hf,bind_some,Fiber.wait,Fiber.waitsFor,hst]
  rfl

theorem Unarmed.park (hf : s'.fibers = Function.update s.fibers id (some fiber')) (hfd : fiber'.waitFd = none) :
    Unarmed s' := by
  refine h.update hf ?_
  rintro _ ⟨⟩ _
  exact hfd

theorem unarmed_terminate : Unarmed (s.schedulerTerminate id) := by
  obtain heq | ⟨_,_,_,heq⟩ := terminate_eq s id
  · rwa [heq]
  · rw [heq]
    refine h.update rfl ?_
    rintro _ ⟨⟩

theorem Unarmed.step (hs : Coherent s) (hst : step s a = some s') : Unarmed s' := by
  cases steps_of_step hst with
  | loop => exact h.congr fibers_loop
  | run | spawnC | spawnBlock => exact h.park rfl rfl
  | resume => exact h.resume
  | yield hpc hf | suspend hpc hf | terminateSelf hpc hf | finish hpc hf => exact h.park rfl (h.running hs hpc hf).2.1
  | sleep hpc hf => exact Unarmed.park (s := s) h rfl (h.running hs hpc hf).2.1
  | waitFd =>
    refine Unarmed.update (s := s) h rfl ?_
    rintro _ ⟨⟩ (hsta | hi)
    · cases hsta
    · cases hi
  | terminate => exact unarmed_terminate h
  | commit => exact unarmed_commit h
  | apply => exact (applyEvents_rule h (fun _ _ _ h => h.congr rfl) (fun _ _ h => h.resume) _).congr rfl
  | idle => exact h.congr fibers_idle
  | switch | poll | wake | tick => exact h.congr rfl

end

end Fibers

section Hands
variable {s s' : Scheduler} {w id : ℕ} {pc : Pc}

theorem hand_signalled : pc.signalled.hand = pc.hand := by cases pc <;> rfl

theorem hand_of_not_isPoller (h : pc.isPoller = false) : pc.hand = [] := by
  cases pc with
  | polling | blocked | collected => cases h
  | _ => rfl

theorem hand_congr (hw : s'.workerCount = s.workerCount)
    (hpc : ∀ u, (s'.pc u).hand = (s.pc u).hand) : s'.hand = s.hand := by
  unfold Scheduler.hand
  rw [hw]
  exact congrArg (List.flatMap · _) (funext hpc)

theorem hand_update (hw : s'.workerCount = s.workerCount)
    (hpcs : s'.pc = update s.pc w pc) (hpc : s.pc w = pc') (hh : pc.hand = pc'.hand) : s'.hand = s.hand := by
  refine hand_congr hw fun u => ?_
  rw [hpcs]
  by_cases hu : u = w
  · rw [hu,update_self,hpc,hh]
  · rw [update_of_ne hu]

theorem Aside.hand_eq (h : Aside s s') : s'.hand = s.hand := by
  refine hand_congr h.workerCount fun u => ?_
  by_cases hu : (s.pc u).isPoller ∨ (s'.pc u).isPoller
  · rw [h.pc u hu]
  · rw [not_or,Bool.not_eq_true,Bool.not_eq_true] at hu
    rw [hand_of_not_isPoller hu.1,hand_of_not_isPoller hu.2]

theorem flatMap_of_unique {l : List ℕ} (hn : l.Nodup) (hw : w ∈ l)
    (ho : ∀ u, u ≠ w → f u = []) : l.flatMap f = f w := by
  obtain ⟨l,r,rfl⟩ := append_of_mem hw
  rw [nodup_middle,nodup_cons,mem_append,not_or] at hn
  have hnil : ∀ {l : List ℕ}, w ∉ l → l.flatMap f = [] := fun hl =>
    flatMap_eq_nil_iff.mpr fun u hu => ho u (ne_of_mem_of_not_mem hu hl)
  rw [flatMap_append,flatMap_cons,hnil hn.1.1,hnil hn.1.2,nil_append,append_nil]

theorem hand_shutDown (hpc : s.pc w = .top) :
    (({ s with shutdown := true } : Scheduler).broadcast.setPc w .exited).hand = s.hand := by
  have hb : ({ s with shutdown := true } : Scheduler).broadcast.hand = s.hand :=
    hand_congr rfl fun _ => hand_signalled
  rw [← hb]
  exact hand_update rfl rfl (congrArg Pc.signalled hpc) rfl

theorem hand_eq (hs : Coherent s) (hp : SolePoller s) (hpc : s.pc w = pc) (hpo : pc.isPoller) : s.hand = pc.hand := by
  subst hpc
  have hw : w < s.workerCount := by
    apply lt_of_pc_ne_exited hs
    intro he
    rw [he] at hpo
    cases hpo
  refine flatMap_of_unique nodup_range (mem_range.mpr hw) fun u hu => ?_
  exact hand_of_not_isPoller (hp.not_other hpo hu)

end Hands

def Scheduler.expired (s : Scheduler) (id : ℕ) : Bool :=
  (List.range s.timers.count).any fun i => (s.timers.entries i).deadline ≤ s.now ∧ (s.timers.entries i).fiberId = id

section Applying
variable {s : Scheduler} {w id : ℕ}

theorem foldl_applyEvent_fields (events : List Event) :
    (∀ id, (events.foldl applyEvent s).waitOf id = if id ∈ events.map Event.tag then none else s.waitOf id) ∧
      (events.foldl applyEvent s).armedWaiters = s.armedWaiters - events.length ∧
      (events.foldl applyEvent s).registrations = s.registrations ∧ (events.foldl applyEvent s).now = s.now := by
  induction events generalizing s with
  | nil => exact ⟨fun _ => rfl,rfl,rfl,rfl⟩
  | cons e r ih =>
    have ha : Aside { s with armedWaiters := s.armedWaiters-1 } (s.applyEvent e) := aside_resume
    obtain ⟨hw,harm,hr,hnow⟩ := ih (s := s.applyEvent e)
    refine ⟨fun id => ?_,?_,hr.trans ha.registrations,hnow.trans ha.now⟩
    · rw [foldl_cons,hw,map_cons,show (s.applyEvent e).waitOf = update s.waitOf e.tag none from waitOf_resume]
      by_cases hid : id = e.tag
      · subst hid
        simp
      · simp [hid]
    · rw [foldl_cons,harm,ha.armedWaiters,length_cons]
      change s.armedWaiters-1 - r.length = _
      omega

theorem expired_iff : s.expired id ↔ ∃ t ∈ s.timers.contents, t.deadline ≤ s.now ∧ t.fiberId = id := by
  simp [Scheduler.expired,contents]

theorem waitOf_wakeExpired (h : TimersOrdered s) (hf : s.timers.count ≤ fuel) :
    (wakeExpired fuel s).waitOf id = if s.expired id then none else s.waitOf id := by
  have hs : ∀ {s : Scheduler}, TimersOrdered s →
      ¬ (0 < s.timers.count ∧ (s.timers.entries 0).deadline ≤ s.now) → ¬ s.expired id := by
    intro s h hnot he
    obtain ⟨t,ht,hdue,-⟩ := expired_iff.mp he
    exact hnot ⟨count_pos_of_mem ht,(root_le h ht).trans hdue⟩
  induction fuel generalizing s with
  | zero =>
    rw [if_neg (hs h (by omega))]
    rfl
  | succ fuel ih =>
    unfold Scheduler.wakeExpired
    split
    · next hdue =>
      have ha : Aside s.timerPop (s.timerPop.schedulerResumeLocked (s.timers.entries 0).fiberId) := aside_resume
      have hw : (s.timerPop.schedulerResumeLocked (s.timers.entries 0).fiberId).waitOf =
          update s.waitOf (s.timers.entries 0).fiberId none := waitOf_resume
      generalize s.timerPop.schedulerResumeLocked (s.timers.entries 0).fiberId = s1 at ha hw
      have ho : TimersOrdered s1 := by
        unfold TimersOrdered
        rw [ha.timers]
        exact ordered_pop h
      have hco : s1.timers.count ≤ fuel := by
        rw [ha.timers]
        change s.timers.count-1 ≤ fuel
        omega
      have hc : s.timers.entries 0 ::ₘ s.timerPop.timers.contents = s.timers.contents := contents_pop s.timers hdue.1
      -- the timer that is popped is due, and the others are still there
      have he : s.expired id ↔ id = (s.timers.entries 0).fiberId ∨ s1.expired id := by
        rw [expired_iff,expired_iff,ha.timers,ha.now,← hc]
        constructor
        · rintro ⟨t,ht,htd,rfl⟩
          obtain rfl | ht := Multiset.mem_cons.mp ht
          · exact .inl rfl
          · exact .inr ⟨t,ht,htd,rfl⟩
        · rintro (rfl | ⟨t,ht,htd,rfl⟩)
          · exact ⟨_,Multiset.mem_cons_self _ _,hdue.2,rfl⟩
          · exact ⟨t,Multiset.mem_cons_of_mem ht,htd,rfl⟩
      rw [ih ho hco,hw]
      by_cases hid : id = (s.timers.entries 0).fiberId
      · rw [if_pos (he.mpr (.inl hid)),hid,update_self,ite_self]
      · rw [update_of_ne hid]
        exact if_congr (he.trans (or_iff_right hid)).symm rfl rfl
    · next hnot => rw [if_neg (hs h hnot)]

theorem wakeExpired_fields (fuel : ℕ) : (wakeExpired fuel s).armedWaiters = s.armedWaiters ∧
      (wakeExpired fuel s).registrations = s.registrations := by
  refine wakeExpired_rule (P := fun t => t.armedWaiters = s.armedWaiters ∧ t.registrations = s.registrations)
    ⟨rfl,rfl⟩ (fun t h => ?_) fuel
  have ha : Aside t.timerPop (t.timerPop.schedulerResumeLocked (t.timers.entries 0).fiberId) := aside_resume
  exact ⟨ha.armedWaiters.trans h.1,ha.registrations.trans h.2⟩

end Applying

/-- No fiber that waits for a descriptor is resumed by anything but its event. -/
def Patient (s : Scheduler) : Action → Prop
  | .resume _ id => s.waitOf id = none
  | .apply _ => ∀ t ∈ s.timers.contents, t.deadline ≤ s.now → s.waitOf t.fiberId ≠ none →
      t.fiberId ∈ s.hand.map Event.tag
  | _ => True

/-- Moreover, no such fiber is terminated while the poller has its event in hand, and none begins to
wait for a descriptor that is armed. -/
def Undisturbed (s : Scheduler) : Action → Prop
  | .terminate _ id => ∀ fiber, s.fibers id = some fiber → fiber.state = .suspended →
      fiber.waitFd ≠ none → ∀ e ∈ s.hand, e.tag ≠ id
  | .waitFd _ fd => s.isLive fd = false
  | a => Patient s a

structure Enters (s : Scheduler) (a : Action) (s' : Scheduler) (entry : Entry) : Prop where
  post : s'.ledger = s.ledger.post entry
  possible : s.ledger.Possible entry
  patient : Patient s a → s.ledger.Patient entry
  exclusive : Undisturbed s a ↔ s.ledger.Exclusive entry

section Entries
variable {s s' : Scheduler} {w id : ℕ} {fiber : Fiber}

theorem enters_idle (hok : Undisturbed s a) (hn : s'.nextId = s.nextId)
    (hw : s'.waitOf = s.waitOf) (ha : s'.armedWaiters = s.armedWaiters)
    (hr : s'.registrations = s.registrations) (hh : s'.hand = s.hand) : Enters s a s' .idle where
  post := by
    unfold ledger
    rw [hn,hw,ha,hr,hh]
    rfl
  possible := trivial
  patient _ := trivial
  exclusive := iff_of_true hok trivial

theorem enters_aside (hok : Undisturbed s a) (ha : Aside s s') (hn : s'.nextId = s.nextId)
    (hw : s'.waitOf = s.waitOf) : Enters s a s' .idle :=
  enters_idle hok hn hw ha.armedWaiters ha.registrations ha.hand_eq

theorem wait_of_waitFd (h : fiber.waitFd = none) : fiber.wait = none := by
  rw [Fiber.wait,Fiber.waitsFor]
  cases fiber.state with
  | suspended => simp only [h,map_none]
  | parking => simp only [h,ite_self,map_none]
  | ready | running | done => rfl

theorem enters_loop (hpc : s.pc w = .top) : Enters s (.loop w) (s.loop w) .idle := by
  have hw : (s.loop w).waitOf = s.waitOf := waitOf_congr fibers_loop
  have hn : (s.loop w).nextId = s.nextId := sameCounters_loop.1
  have hs := pollStep_loop hpc
  generalize s.loop w = s' at hw hn hs
  cases hs with
  | aside _ ha => exact enters_aside trivial ha hn hw
  | shutDown hpc => exact enters_idle trivial hn hw rfl rfl (hand_shutDown hpc)
  | startPolling hpc => exact enters_idle trivial hn hw rfl rfl (hand_update rfl rfl hpc rfl)

theorem enters_terminate : ∃ entry, Enters s (.terminate w id) (s.schedulerTerminate id) entry := by
  have hg : ∀ {fiber}, s.fibers id = some fiber → fiber.wait = none → ∀ s' : Scheduler,
      s'.fibers = update s.fibers id none → s'.waitOf = s.waitOf := by
    intro fiber hfi hw s' hfibers
    refine waitOf_keep hfibers ?_
    rw [hfi,bind_some,hw]
    rfl
  unfold schedulerTerminate
  split
  · next hfi =>
    refine ⟨.idle,enters_aside (fun fiber hf => ?_) .refl rfl rfl⟩
    cases hfi.symm.trans hf
  · next fiber hfi =>
    have hok : fiber.state ≠ .suspended ∨ fiber.waitFd = none → Undisturbed s (.terminate w id) := by
      rintro hnot f' hf hs hfd
      cases hfi.symm.trans hf
      obtain hnot | hnot := hnot
      · exact absurd hs hnot
      · exact absurd hnot hfd
    cases hs : fiber.state with
    | suspended =>
      dsimp only
      split
      · next fd hfd =>
        have hwa : s.ledger.waits id = some (fd,fiber.park) := by
          change (s.fibers id).bind Fiber.wait = _
          rw [hfi,bind_some,Fiber.wait,Fiber.waitsFor,hs]
          simp only [hfd,map_some]
        refine ⟨.kill id fd,?_,⟨fiber.park,hwa⟩,fun _ => trivial,?_⟩
        · have hw : (({ s.osEventLoopDisarm fd with armedWaiters := s.armedWaiters-1 } :
              Scheduler).unregisterFiber id).waitOf = update s.waitOf id none :=
            waitOf_update (s := s) (f := none) rfl
          unfold ledger
          rw [hw]
          rfl
        · exact ⟨fun h => h fiber hfi hs (by simp [hfd]),fun h _ _ _ _ => h⟩
      · next hfd =>
        exact ⟨.idle,enters_aside (hok (.inr hfd)) (Aside.refl.congr rfl) rfl (hg hfi (wait_of_waitFd hfd) _ rfl)⟩
    | ready | done =>
      have hw : fiber.wait = none := by
        rw [Fiber.wait,Fiber.waitsFor,hs]
        rfl
      exact ⟨.idle,enters_aside (hok (.inl (by simp [hs]))) (Aside.refl.congr rfl) rfl (hg hfi hw _ rfl)⟩
    | running | parking => exact ⟨.idle,enters_aside (hok (.inl (by simp [hs]))) .refl rfl rfl⟩

theorem isLive_iff : s.isLive fd ↔ ∃ e, s.registrations fd = some ⟨e,true⟩ := by
  unfold isLive
  cases s.registrations fd with
  | none => simp
  | some r =>
    obtain ⟨e,l⟩ := r
    cases l <;> simp

theorem settles_iff (s : Scheduler) (w : ℕ) : Patient s (.apply w) ↔ s.ledger.Patient (.settle s.expired) := by
  constructor
  · intro h id he hw
    obtain ⟨t,ht,hdue,rfl⟩ := expired_iff.mp he
    exact h t ht hdue hw
  · intro h t ht hdue hw
    exact h t.fiberId (expired_iff.mpr ⟨t,ht,hdue,rfl⟩) hw

theorem enters_spawn (hok : Undisturbed s a) (ha : Aside s s') (hn : s'.nextId = s.nextId+1)
    (hw : s'.waitOf = s.waitOf) : Enters s a s' .spawn where
  post := by
    unfold ledger
    rw [hn,hw,ha.armedWaiters,ha.registrations,ha.hand_eq]
    rfl
  possible := trivial
  patient _ := trivial
  exclusive := iff_of_true hok trivial

theorem enters_resume : Enters s (.resume w target) (s.schedulerResumeLocked target) (.wake target) where
  post := by
    have ha : Aside s (s.schedulerResumeLocked target) := aside_resume
    unfold ledger
    rw [sameCounters_resume.1,waitOf_resume,ha.armedWaiters,ha.registrations,ha.hand_eq]
    rfl
  possible := trivial
  patient h := h
  exclusive := Iff.rfl

variable (hs : Coherent s)
include hs

theorem waitOf_current (hu : Unarmed s) (hpc : s.pc w = .holds .running id)
    (hfi : s.fibers id = some fiber) (hf : s'.fibers = update s.fibers id (some fiber'))
    (hw : fiber'.wait = none) : s'.waitOf = s.waitOf := by
  refine waitOf_keep hf ?_
  rw [bind_some,hw]
  exact (hu.running hs hpc hfi).2.2.symm

theorem waitOf_spawn (hf : s'.fibers = update s.fibers s.nextId (some fiber'))
    (hfd : fiber'.waitFd = none) : s'.waitOf = s.waitOf := by
  refine waitOf_keep hf ?_
  rw [bind_some,wait_of_waitFd hfd,show s.fibers s.nextId = none from (hs.fresh _ le_rfl).1]
  rfl

theorem enters_waitFd (hu : Unarmed s) (hpc : s.pc w = .holds .running id)
    (hf : s.fibers id = some fiber) :
    Enters s (.waitFd w fd) (s.schedulerWaitFd w id fiber fd) (.wait id fd s.parks) where
  post := by
    have hw : (s.schedulerWaitFd w id fiber fd).waitOf = update s.waitOf id (some (fd,s.parks)) := by
      refine (waitOf_update (s := s) rfl).trans ?_
      rfl
    have hh : (s.schedulerWaitFd w id fiber fd).hand = s.hand := hand_update (s := s) rfl rfl hpc rfl
    unfold ledger
    rw [hw,hh]
    rfl
  possible := ⟨(hu.running hs hpc hf).2.2,hs.lt_nextId hf⟩
  patient _ := trivial
  exclusive := by
    change s.isLive fd = false ↔ ∀ e, s.registrations fd ≠ some ⟨e,true⟩
    rw [← Bool.not_eq_true,isLive_iff,not_exists]

theorem enters_wake {expiry : Option ℤ}
    (hp : SolePoller s) (hpc : s.pc w = .blocked expiry) (hcan : s.CanWake expiry fds drain) :
    Enters s (.wake w fds drain) (s.osEventLoopWait w fds drain) (.report fds) where
  post := by
    have hst : step s (.wake w fds drain) = some (s.osEventLoopWait w fds drain) := by
      simp only [step,hpc,if_pos hcan]
    have hpc' : (s.osEventLoopWait w fds drain).pc w = .collected (s.eventsOf fds) := update_self _ _ _
    have hh : (s.osEventLoopWait w fds drain).hand = s.eventsOf fds := hand_eq (hs.step hst) (hp.step hst) hpc' rfl
    unfold ledger
    rw [hh]
    rfl
  possible := ⟨hcan.1,fun fd hfd => isLive_iff.mp (hcan.2.2.1 fd hfd),hand_eq hs hp hpc rfl⟩
  patient _ := trivial
  exclusive := iff_of_true trivial trivial

theorem enters_apply (hp : SolePoller s) (ht : TimersOrdered s) (hpc : s.pc w = .collected events) :
    Enters s (.apply w) (s.applyEvents w events) (.settle s.expired) where
  post := by
    have hh : s.hand = events := hand_eq hs hp hpc rfl
    obtain ⟨hwa,ha,hr,hnow⟩ := foldl_applyEvent_fields (s := s) events
    have hf : (events.foldl applyEvent s).timers = s.timers := timers_foldl_applyEvent events
    obtain ⟨ha',hr'⟩ :=
      wakeExpired_fields (s := events.foldl applyEvent s) (events.foldl applyEvent s).timers.count
    have hw : (s.applyEvents w events).waitOf =
        fun id => if id ∈ s.hand.map Event.tag ∨ s.expired id then none else s.waitOf id := by
      funext id
      have ho : TimersOrdered (events.foldl applyEvent s) := by
        unfold TimersOrdered
        rw [hf]
        exact ht
      have he : (events.foldl applyEvent s).expired id = s.expired id := by
        unfold Scheduler.expired
        rw [hf,hnow]
      refine (waitOf_wakeExpired ho le_rfl).trans ?_
      rw [he,hwa,hh]
      by_cases hid : id ∈ events.map Event.tag
      · rw [if_pos hid,ite_self,if_pos (.inl hid)]
      · rw [if_neg hid]
        exact if_congr (or_iff_right hid).symm rfl rfl
    have hh' : (s.applyEvents w events).hand = [] := by
      apply flatMap_eq_nil_iff.mpr
      intro u _
      exact hand_of_not_isPoller (hp.not_isPoller_applyEvents hpc u)
    unfold ledger
    rw [hw,hh',show (s.applyEvents w events).nextId = s.nextId from sameCounters_applyEvents.1,
      show (s.applyEvents w events).armedWaiters = s.armedWaiters - s.hand.length from hh ▸ ha'.trans ha,
      show (s.applyEvents w events).registrations = s.registrations from hr'.trans hr]
    rfl
  possible := trivial
  patient := (settles_iff s w).mp
  exclusive := settles_iff s w

theorem enters_park (hu : Unarmed s) (hpc : s.pc w = .holds .running id)
    (hf : s.fibers id = some fiber) (hfi : s'.fibers = update s.fibers id (some fiber'))
    (hpcs : s'.pc = update s.pc w (.holds .leaving id)) (hfd : fiber'.waitFd = fiber.waitFd) (hok : Undisturbed s a)
    (hn : s'.nextId = s.nextId) (ha : s'.armedWaiters = s.armedWaiters) (hr : s'.registrations = s.registrations)
    (hw : s'.workerCount = s.workerCount) : ∃ entry, Enters s a s' entry := by
  have hwa : fiber'.wait = none := wait_of_waitFd (hfd.trans (hu.running hs hpc hf).2.1)
  exact ⟨.idle,enters_idle hok hn (waitOf_current hs hu hpc hf hfi hwa) ha hr (hand_update hw hpcs hpc rfl)⟩

theorem enters_run (hpc : s.pc w = .holds .popped id) (hf : s.fibers id = some fiber) :
    Enters s (.run w) (s.runFiber w id fiber) .idle := by
  have hw : fiber.wait = none := by
    have hp := (hs.place hf hpc).2
    cases hst : fiber.state with
    | ready => rw [Fiber.wait,Fiber.waitsFor,hst]; rfl
    | running | parking | suspended | done => simp [hst,FiberState.Place] at hp
  refine enters_idle trivial rfl (waitOf_keep (s := s) rfl ?_) rfl rfl (hand_update (s := s) rfl rfl hpc rfl)
  rw [hf,bind_some,bind_some,hw]
  rfl

theorem enters_of_step (hp : SolePoller s) (ht : TimersOrdered s)
    (hu : Unarmed s) (hst : step s a = some s') : ∃ entry, Enters s a s' entry := by
  cases steps_of_step hst with
  | loop hpc => exact ⟨.idle,enters_loop hpc⟩
  | run hpc hf => exact ⟨.idle,enters_run hs hpc hf⟩
  | spawnC => exact ⟨.spawn,enters_spawn trivial aside_spawnC rfl (waitOf_spawn hs rfl rfl)⟩
  | spawnBlock => exact ⟨.spawn,enters_spawn trivial (Aside.refl.congr rfl) rfl (waitOf_spawn hs rfl rfl)⟩
  | @resume w id tgt => exact ⟨.wake tgt,enters_resume⟩
  | yield hpc hf | suspend hpc hf | sleep hpc hf | finish hpc hf =>
    exact enters_park hs hu hpc hf rfl rfl rfl trivial rfl rfl rfl rfl
  | waitFd hpc hf => exact ⟨_,enters_waitFd hs hu hpc hf⟩
  | terminateSelf hpc hf =>
    refine enters_park hs hu hpc hf rfl rfl rfl ?_ rfl rfl rfl rfl
    intro f' hf' hsta
    cases hf.symm.trans hf'
    cases (hu.running hs hpc hf).1.symm.trans hsta
  | terminate => exact enters_terminate
  | switch hpc => exact ⟨.idle,enters_aside trivial (aside_setPc hpc rfl rfl) rfl rfl⟩
  | commit hpc hf =>
    exact ⟨.idle,enters_aside trivial (aside_commit hpc rfl) sameCounters_commit.1 (waitOf_commit hs hu hpc hf)⟩
  | poll hpc => exact ⟨.idle,enters_idle trivial rfl rfl rfl rfl (hand_update rfl rfl hpc rfl)⟩
  | wake hpc hcan => exact ⟨_,enters_wake hs hp hpc hcan⟩
  | apply hpc => exact ⟨_,enters_apply hs hp ht hpc⟩
  | idle hpc => exact ⟨.idle,enters_aside trivial (aside_idle hpc) sameCounters_idle.1 (waitOf_congr fibers_idle)⟩
  | tick => exact ⟨.idle,enters_idle trivial rfl rfl rfl rfl rfl⟩

end Entries

/-- What else holds in a run in which the counter has always been right. -/
structure Consistent (s : Scheduler) : Prop where
  coherent : Coherent s
  solePoller : SolePoller s
  timersOrdered : TimersOrdered s
  unarmed : Unarmed s
  sound : s.ledger.Sound

theorem accounted_step (hs : Consistent s) (h : s.ledger.Accounted)
    (hst : step s a = some s') : (s'.ledger.Accounted ↔ Undisturbed s a) ∧ (Undisturbed s a → Consistent s') := by
  obtain ⟨entry,he⟩ := enters_of_step hs.coherent hs.solePoller hs.timersOrdered hs.unarmed hst
  obtain ⟨hiff,hso⟩ := Ledger.post_iff hs.sound h he.possible
  rw [← he.post,← he.exclusive] at hiff hso
  exact ⟨hiff,fun hok => ⟨hs.coherent.step hst,hs.solePoller.step hst,hs.timersOrdered.step hst,
    hs.unarmed.step hs.coherent hst,hso hok⟩⟩

section Start
variable (workerCount fibers : ℕ)

theorem start_fibers (id : ℕ) (fiber : Fiber) (h : (start workerCount fibers).fibers id = some fiber) :
    fiber.state = .ready ∧ fiber.waitFd = none := by
  induction fibers with
  | zero => cases h
  | succ fibers ih =>
    rw [start,iterate_succ_apply'] at h
    change update (start workerCount fibers).fibers (start workerCount fibers).nextId _ id = _
      at h
    by_cases hid : id = (start workerCount fibers).nextId
    · rw [hid,update_self] at h
      cases h
      exact ⟨rfl,rfl⟩
    · rw [update_of_ne hid] at h
      exact ih h

theorem waitOf_start (id : ℕ) : (start workerCount fibers).waitOf id = none := by
  unfold waitOf
  cases hf : (start workerCount fibers).fibers id with
  | none => rfl
  | some fiber => exact wait_of_waitFd (start_fibers workerCount fibers id fiber hf).2

theorem hand_start : (start workerCount fibers).hand = [] := by
  apply flatMap_eq_nil_iff.mpr
  intro w _
  exact hand_of_not_isPoller (not_isPoller_start workerCount fibers w)

theorem consistent_start : Consistent (start workerCount fibers) where
  coherent := coherent_start workerCount fibers
  solePoller := solePoller_start workerCount fibers
  timersOrdered := timersOrdered_start workerCount fibers
  unarmed id fiber hf _ := (start_fibers workerCount fibers id fiber hf).2
  sound := by
    refine ⟨fun id _ => waitOf_start workerCount fibers id,fun fd e hl => ?_,?_⟩
    · change (start workerCount fibers).registrations fd = _ at hl
      rw [(aside_start workerCount fibers).registrations] at hl
      cases hl
    · change ((start workerCount fibers).hand.map Event.tag).Nodup
      rw [hand_start]
      exact nodup_nil

theorem accounted_start : (start workerCount fibers).ledger.Accounted where
  count := by
    have hp : (start workerCount fibers).ledger.parked = ∅ := by
      apply Finset.filter_eq_empty_iff.mpr
      intro id _ hw
      exact hw (waitOf_start workerCount fibers id)
    rw [hp,Finset.card_empty]
    exact (aside_start workerCount fibers).armedWaiters
  armed id fd park hw := by
    rw [show (start workerCount fibers).ledger.waits id = none from waitOf_start workerCount fibers id]
      at hw
    cases hw
  own e he := by
    rw [show (start workerCount fibers).ledger.hand = [] from hand_start workerCount fibers] at he
    cases he

end Start

/-- In every run of the pool the counter is always right, and every fiber that waits for a descriptor
is registered for it or its event is in hand, if and only if the waiters are never disturbed. -/
theorem waiters_accounted (workerCount fibers : ℕ) (as : List Action) (s : Scheduler)
    (h : perform step (start workerCount fibers) as = some s) :
    Along step (fun s => s.ledger.Accounted) (start workerCount fibers) as ↔
      Meets step Undisturbed (start workerCount fibers) as :=
  along_iff_meets (fun _ _ _ hs hP hst => accounted_step hs hP hst)
    (consistent_start workerCount fibers) (accounted_start workerCount fibers) h

/-- A fiber waits for a descriptor, and its event is collected and applied. -/
theorem waiters_accounted_event : ∃ s, perform step (start 1 1)
        [.loop 0,.run 0,.waitFd 0 3,.switch 0,.commit 0,.loop 0,.poll 0,.wake 0 [3] false,.apply 0] =
          some s ∧
      s.armedWaiters = 0 ∧ s.ready 0 = [0] ∧
      (Along step (fun s => s.ledger.Accounted) (start 1 1)
          [.loop 0,.run 0,.waitFd 0 3,.switch 0,.commit 0,.loop 0,.poll 0,.wake 0 [3] false,.apply 0] ↔
        Meets step Undisturbed (start 1 1)
          [.loop 0,.run 0,.waitFd 0 3,.switch 0,.commit 0,.loop 0,.poll 0,.wake 0 [3] false,.apply 0]) :=
  ⟨_,rfl,rfl,rfl,waiters_accounted 1 1 _ _ rfl⟩

/-- A fiber is resumed while it waits for a descriptor; a second fiber waits for the same descriptor;
and a fiber is terminated when its event has been collected. -/
theorem waiters_not_accounted : (∃ s, perform step (start 1 2)
        [.loop 0,.run 0,.waitFd 0 3,.switch 0,.commit 0,.loop 0,.run 0,.resume 0 0] = some s ∧
        s.armedWaiters = 1 ∧ s.ledger.parked = ∅ ∧ ¬ s.ledger.Accounted) ∧
      (∃ s, perform step (start 1 2)
        [.loop 0,.run 0,.waitFd 0 3,.switch 0,.commit 0,.loop 0,.run 0,.waitFd 0 3] = some s ∧
        s.waitOf 0 = some (3,0) ∧ s.registrations 3 = some ⟨⟨1,1⟩,true⟩ ∧ ¬ s.ledger.Accounted) ∧
      ∃ s, perform step (start 2 4)
        [.loop 0,.run 0,.waitFd 0 3,.switch 0,.commit 0,.loop 0,.run 0,.waitFd 0 4,.switch 0,.commit 0,
          .loop 0,.poll 0,.wake 0 [3] false,.loop 1,.run 1,.terminate 1 0,.apply 0] = some s ∧
        s.armedWaiters = 0 ∧ s.waitOf 2 = some (4,1) ∧ ¬ s.ledger.Accounted := by
  refine ⟨⟨_,rfl,rfl,by decide,fun h => ?_⟩,⟨_,rfl,rfl,rfl,fun h => ?_⟩,_,rfl,rfl,rfl,fun h => ?_⟩
  · exact absurd h.count (by decide)
  · exact absurd (h.armed 0 3 0 rfl) (by decide)
  · exact absurd h.count (by decide)

end SmalltalkJit.Concurrency
