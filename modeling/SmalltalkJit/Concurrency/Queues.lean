import Mathlib.Algebra.BigOperators.Group.Finset.Piecewise
import SmalltalkJit.Concurrency.Scheduler

/-! # Ready queues and wakeups

Where a fiber is: in the queue of its home worker, in the hands of that worker,
or nowhere. A step moves at most one fiber from one place to another, so that the
place of a fiber can be followed through its states. What fails is the time
between `readyPop` and the store of the running state in `runFiber`, which is
not under the lock: the fiber is ready and in no queue.
-/
namespace SmalltalkJit.Concurrency
open Scheduler Interleaving Function List

def Pc.phaseOf (id : ℕ) : Pc → Option Phase
  | .holds phase id' => if id' = id then some phase else none
  | _ => none

@[ext]
structure View where
  fiber : Option Fiber
  queued : ℕ → ℕ
  phase : ℕ → Option Phase

def Scheduler.view (s : Scheduler) (id : ℕ) : View :=
  ⟨s.fibers id,fun w => (s.ready w).count id,fun w => (s.pc w).phaseOf id⟩

/-- The fiber is in the queue of its home worker or in its hands, as its state says. -/
def FiberState.Place (queued : ℕ) (phase : Option Phase) : FiberState → Prop
  | .ready => queued = 1 ∧ phase = none ∨ queued = 0 ∧ phase = some .popped
  | .running => queued = 0 ∧ phase = some .running
  | .parking | .done => queued = 0 ∧ (phase = some .leaving ∨ phase = some .left)
  | .suspended => queued = 0 ∧ phase = none

structure View.Free (v : View) : Prop where
  queued : ∀ w, v.queued w = 0
  phase : ∀ w, v.phase w = none

/-- A fiber that has been destroyed may still be in the hands of a worker. -/
structure View.Placed (v : View) : Prop where
  gone : v.fiber = none → ∀ w, v.queued w = 0
  home : ∀ fiber, v.fiber = some fiber →
    fiber.state.Place (v.queued fiber.homeWorker) (v.phase fiber.homeWorker)
  away : ∀ fiber, v.fiber = some fiber → ∀ w ≠ fiber.homeWorker, v.queued w = 0 ∧ v.phase w = none

def Pc.isHolding : Pc → Bool
  | .holds _ _ => true
  | _ => false

def Scheduler.holders (s : Scheduler) : Finset ℕ := (Finset.range s.workerCount).filter fun w => (s.pc w).isHolding

structure QueueState where
  workerCount : ℕ
  fibers : ℕ → Option Fiber
  nextId : ℕ
  ready : ℕ → List ℕ
  runningCount : ℕ
  pc : ℕ → Pc

def Scheduler.queueState (s : Scheduler) : QueueState := ⟨s.workerCount,s.fibers,s.nextId,s.ready,s.runningCount,s.pc⟩

structure Coherent (s : Scheduler) : Prop where
  placed : ∀ id, (s.view id).Placed
  fresh : ∀ id, s.nextId ≤ id → (s.view id).fiber = none ∧ (s.view id).Free
  running : s.runningCount = s.holders.card
  outside : ∀ w, s.workerCount ≤ w → s.pc w = .exited

variable {phase : Phase} {fiber' : Fiber} {v' : View}

section Views
variable {v : View} {fiber : Fiber} {w : ℕ}

theorem View.placed_none (hfi : v.fiber = none) (hq : ∀ w, v.queued w = 0) : v.Placed where
  gone _ := hq
  home fiber hf := by
    rw [hfi] at hf
    cases hf
  away fiber hf := by
    rw [hfi] at hf
    cases hf

theorem View.placed_some (hfi : v.fiber = some fiber)
    (hh : fiber.state.Place (v.queued fiber.homeWorker) (v.phase fiber.homeWorker))
    (ha : ∀ w ≠ fiber.homeWorker, v.queued w = 0 ∧ v.phase w = none) : v.Placed where
  gone hn := by
    rw [hfi] at hn
    cases hn
  home _ hf := by
    cases hfi.symm.trans hf
    exact hh
  away _ hf := by
    cases hfi.symm.trans hf
    exact ha

theorem View.Free.placed_suspended (h : v.Free) (hf : v.fiber = some fiber)
    (hs : fiber.state = .suspended) : v.Placed := by
  refine View.placed_some hf ?_ fun w _ => ⟨h.queued w,h.phase w⟩
  rw [hs]
  exact ⟨h.queued _,h.phase _⟩

theorem View.Free.placed_ready (h : v.Free) (hf : v'.fiber = some fiber) (hs : fiber.state = .ready)
    (hq : ∀ w, v'.queued w = v.queued w + if w = fiber.homeWorker then 1 else 0) (hp : v'.phase = v.phase) :
    v'.Placed := by
  refine View.placed_some hf ?_ fun w hw => ?_
  · rw [hs,hq,hp,h.queued,h.phase,if_pos rfl]
    exact .inl ⟨rfl,rfl⟩
  · rw [hq,hp,h.queued,h.phase,if_neg hw]
    exact ⟨rfl,rfl⟩

theorem FiberState.Place.queued_eq_zero {state : FiberState} (h : state.Place queued (some phase)) : queued = 0 := by
  cases state with
  | ready =>
    obtain ⟨-,h⟩ | ⟨h,-⟩ := h
    · cases h
    · exact h
  | running | parking | done | suspended => exact h.1

variable (h : v.Placed) (hf : v.fiber = some fiber)
include h hf

theorem View.Placed.free_of_suspended (hs : fiber.state = .suspended) : v.Free := by
  have hh := h.home fiber hf
  rw [hs] at hh
  constructor
  · intro w
    by_cases hw : w = fiber.homeWorker
    · rw [hw]
      exact hh.1
    · exact (h.away fiber hf w hw).1
  · intro w
    by_cases hw : w = fiber.homeWorker
    · rw [hw]
      exact hh.2
    · exact (h.away fiber hf w hw).2

theorem View.Placed.home_eq (hp : v.phase w = some phase) : w = fiber.homeWorker := by
  by_contra hw
  have ha := (h.away fiber hf w hw).2
  rw [hp] at ha
  cases ha

theorem View.Placed.place (hph : v.phase w = some phase) : v.queued w = 0 ∧ fiber.state.Place 0 (some phase) := by
  have hp := h.home fiber hf
  rw [← h.home_eq hf hph,hph] at hp
  have hq := hp.queued_eq_zero
  rw [hq] at hp
  exact ⟨hq,hp⟩

theorem View.Placed.keep (hf' : v'.fiber = some fiber')
    (hh : fiber'.homeWorker = fiber.homeWorker) (hs : fiber'.state = fiber.state)
    (hq : v'.queued = v.queued) (hp : v'.phase = v.phase) : v'.Placed := by
  refine View.placed_some hf' ?_ ?_
  · rw [hh,hs,hq,hp]
    exact h.home fiber hf
  · rw [hh,hq,hp]
    exact h.away fiber hf

theorem View.Placed.advance (hp : v.phase w = some phase)
    (hf' : v'.fiber = some fiber') (hh : fiber'.homeWorker = fiber.homeWorker) (hq' : v'.queued = v.queued)
    (hp' : v'.phase = update v.phase w (some phase')) (hpl : fiber'.state.Place 0 (some phase')) : v'.Placed := by
  have hw := h.home_eq hf hp
  have hq := (h.place hf hp).1
  refine View.placed_some hf' ?_ fun u hu => ?_
  · rw [hh,← hw,hq',hp',hq,update_self]
    exact hpl
  · rw [hh] at hu
    have hne : u ≠ w := by rwa [hw]
    rw [hq',hp',update_of_ne hne]
    exact h.away fiber hf u hu

end Views

section Operations
variable {s : Scheduler} {w u id id' : ℕ} {fiber : Fiber} {pc : Pc}

theorem phaseOf_signalled : pc.signalled.phaseOf id = pc.phaseOf id := by cases pc <;> rfl

theorem isHolding_signalled : pc.signalled.isHolding = pc.isHolding := by cases pc <;> rfl

theorem view_broadcast : s.broadcast.view id = s.view id := View.ext rfl rfl (funext fun _ => phaseOf_signalled)

theorem holders_broadcast : s.broadcast.holders = s.holders := by
  unfold holders broadcast
  congr 1
  funext w
  rw [isHolding_signalled]

theorem view_setPc : (s.setPc w pc).view id =
    { s.view id with phase := update (s.view id).phase w (pc.phaseOf id) } := by
  ext u
  · rfl
  · rfl
  · unfold view setPc
    dsimp only
    by_cases hu : u = w
    · rw [hu,update_self,update_self]
    · rw [update_of_ne hu,update_of_ne hu]

theorem view_phase (hpc : s.pc w = .holds phase id) : (s.view id).phase w = some phase := by
  simp [view,hpc,Pc.phaseOf]

theorem view_setPc_eq (h : pc.phaseOf id = (s.pc w).phaseOf id) : (s.setPc w pc).view id = s.view id := by
  rw [view_setPc,h]
  exact View.ext rfl rfl (update_eq_self w _)

theorem view_setFiber_other (h : id' ≠ id) : (s.setFiber id f).view id' = s.view id' :=
  View.ext (update_of_ne h _ _) rfl rfl

theorem count_readyPush : (((s.readyPush w id).ready u).count id') =
    (s.ready u).count id' + if u = w ∧ id' = id then 1 else 0 := by
  unfold readyPush
  dsimp only
  by_cases hu : u = w
  · subst hu
    by_cases hid : id' = id
    · simp [hid]
    · simp [hid,Ne.symm hid]
  · simp [hu]

theorem view_signalWork : s.signalWork.view id = s.view id := view_broadcast (s := s)

theorem view_makeReady_other (h : id' ≠ id) : (s.makeReady id fiber).view id' = s.view id' := by
  refine view_signalWork.trans (View.ext (update_of_ne h _ _) (funext fun w => ?_) rfl)
  refine count_readyPush.trans ?_
  rw [if_neg fun hid => h hid.2]
  rfl

theorem View.Free.makeReady (h : (s.view id).Free) : ((s.makeReady id fiber).view id).Placed := by
  unfold Scheduler.makeReady
  rw [view_signalWork]
  refine h.placed_ready (update_self _ _ _) rfl (fun w => ?_) rfl
  refine count_readyPush.trans ?_
  simp only [and_true]
  rfl

theorem lt_of_pc_ne_exited (h : Coherent s) (hpc : s.pc w ≠ .exited) : w < s.workerCount := by
  by_contra hw
  exact hpc (h.outside w (not_lt.mp hw))

theorem holders_setPc_of_eq (h : pc.isHolding = (s.pc w).isHolding) : (s.setPc w pc).holders = s.holders := by
  unfold holders setPc
  refine Finset.filter_congr fun u _ => ?_
  dsimp only
  by_cases hu : u = w
  · rw [hu,update_self,h]
  · rw [update_of_ne hu]

theorem card_holders_take (hw : w < s.workerCount) (hpc : (s.pc w).isHolding = false)
    (hpc' : pc.isHolding) : (s.setPc w pc).holders.card = s.holders.card+1 := by
  have hi : (s.setPc w pc).holders = insert w s.holders := by
    ext u
    unfold holders setPc
    by_cases hu : u = w
    · subst hu
      simp [hw,hpc']
    · simp [hu]
  rw [hi,Finset.card_insert_of_notMem]
  simp [holders,hpc]

theorem card_holders_drop (hw : w < s.workerCount) (hpc : (s.pc w).isHolding)
    (hpc' : pc.isHolding = false) : (s.setPc w pc).holders.card = s.holders.card-1 := by
  have he : (s.setPc w pc).holders = s.holders.erase w := by
    ext u
    unfold holders setPc
    by_cases hu : u = w
    · subst hu
      simp [hpc']
    · simp [hu]
  rw [he,Finset.card_erase_of_mem]
  simp [holders,hw,hpc]

end Operations

section Preservation
variable {s s' : Scheduler} {w id : ℕ} {fiber fiber' : Fiber} {intent : ParkIntent} {pc : Pc}

section
variable (h : Coherent s)
include h

theorem Coherent.change (id : ℕ) (ho : ∀ id', id' ≠ id → s'.view id' = s.view id') (hs : (s'.view id).Placed)
    (hid : id < s'.nextId) (hn : s.nextId ≤ s'.nextId) (hr : s'.runningCount = s'.holders.card)
    (hout : ∀ w, s'.workerCount ≤ w → s'.pc w = .exited) : Coherent s' where
  placed id' := by
    by_cases hid' : id' = id
    · rw [hid']
      exact hs
    · rw [ho id' hid']
      exact h.placed id'
  fresh id' hf := by
    rw [ho id' (by omega)]
    exact h.fresh id' (by omega)
  running := hr
  outside := hout

theorem Coherent.of_view (hv : ∀ id, s'.view id = s.view id) (hn : s.nextId ≤ s'.nextId)
    (hr : s'.runningCount = s'.holders.card) (ho : ∀ w, s'.workerCount ≤ w → s'.pc w = .exited) : Coherent s' where
  placed id := by
    rw [hv]
    exact h.placed id
  fresh id hid := by
    rw [hv]
    exact h.fresh id (hn.trans hid)
  running := hr
  outside := ho

theorem Coherent.lt_nextId (hf : s.fibers id = some fiber) : id < s.nextId := by
  by_contra hid
  have hn := (h.fresh id (not_lt.mp hid)).1
  rw [show (s.view id).fiber = some fiber from hf] at hn
  cases hn

theorem broadcast_outside : ∀ w, s.workerCount ≤ w → s.broadcast.pc w = .exited :=
  fun w hw => congrArg Pc.signalled (h.outside w hw)

theorem Coherent.broadcast : Coherent s.broadcast :=
  h.of_view (fun _ => view_broadcast) le_rfl (h.running.trans (congrArg Finset.card holders_broadcast.symm))
    (broadcast_outside h)

theorem Coherent.makeReady (hid : id < s.nextId) (hf : (s.view id).Free) : Coherent (s.makeReady id fiber) := by
  refine h.change id (fun id' hid' => view_makeReady_other hid') hf.makeReady hid le_rfl ?_ (broadcast_outside h)
  exact h.running.trans (congrArg Finset.card holders_broadcast.symm)

theorem Coherent.setFiber (hid : id < s.nextId)
    (hp : ((s.setFiber id f).view id).Placed) : Coherent (s.setFiber id f) :=
  h.change id (fun _ => view_setFiber_other) hp hid le_rfl h.running h.outside

theorem Coherent.schedulerResumeLocked (id : ℕ) : Coherent (s.schedulerResumeLocked id) := by
  unfold Scheduler.schedulerResumeLocked
  split
  · exact h
  · next fiber hf =>
    have hid := h.lt_nextId hf
    split
    · next hs => exact h.makeReady hid ((h.placed id).free_of_suspended hf hs)
    · exact h.setFiber hid ((h.placed id).keep hf (update_self _ _ _) rfl rfl rfl rfl)
    · exact h

theorem Coherent.congr (heq : s'.queueState = s.queueState) : Coherent s' := by
  obtain ⟨hw,hf,hn,hr,hc,hpc⟩ := QueueState.mk.inj heq
  have hv : s'.view = s.view := by
    funext id
    unfold view
    rw [hf,hr,hpc]
  have hh : s'.holders = s.holders := by
    unfold holders
    rw [hw,hpc]
  refine h.of_view (congrFun hv) hn.ge ?_ ?_
  · rw [hh,hc]
    exact h.running
  · rw [hw,hpc]
    exact h.outside

end

theorem wakeExpired_rule {P : Scheduler → Prop} (h : P s)
    (hpop : ∀ s : Scheduler, P s → P (s.timerPop.schedulerResumeLocked (s.timers.entries 0).fiberId))
    (fuel : ℕ) : P (wakeExpired fuel s) := by
  induction fuel generalizing s with
  | zero => exact h
  | succ _ ih =>
    unfold Scheduler.wakeExpired
    split
    · exact ih (hpop s h)
    · exact h

/-- The events and the timers change no more than the resumptions, the timers and the count of waiters. -/
theorem applyEvents_rule {P : Scheduler → Prop} (h : P s)
    (hc : ∀ (s : Scheduler) timers armed, P s → P { s with timers := timers, armedWaiters := armed })
    (hr : ∀ (s : Scheduler) id, P s → P (s.schedulerResumeLocked id)) (events : List Event) :
    P (events.foldl applyEvent s).wakeExpiredTimers :=
  wakeExpired_rule (foldlRecOn events _ h fun s h _ _ => hr _ _ (hc s _ _ h)) (fun s h => hr _ _ (hc s _ _ h)) _

theorem view_release : (s.release w).view id = { s.view id with phase := update (s.view id).phase w none } :=
  view_setPc (s := s)

section
variable (h : Coherent s)
include h

theorem setPc_outside (hpc : s.pc w ≠ .exited) :
    ∀ u, (s.setPc w pc).workerCount ≤ u → (s.setPc w pc).pc u = .exited := by
  intro u hu
  have hw := lt_of_pc_ne_exited h hpc
  change s.workerCount ≤ u at hu
  exact (update_of_ne (by omega) _ _).trans (h.outside u hu)

theorem Coherent.setPc (ha : s.pc w ≠ .exited)
    (hpc : (s.pc w).isHolding = false) (hpc' : pc.isHolding = false) : Coherent (s.setPc w pc) := by
  have hn : ∀ {pc : Pc} id, pc.isHolding = false → pc.phaseOf id = none := by
    intro pc id hpc
    cases pc with
    | holds => cases hpc
    | _ => rfl
  have hv : ∀ id, (s.setPc w pc).view id = s.view id := fun id => view_setPc_eq (by rw [hn id hpc,hn id hpc'])
  refine h.of_view hv le_rfl ?_ (setPc_outside h ha)
  rw [holders_setPc_of_eq (hpc'.trans hpc.symm)]
  exact h.running

section Holders
variable (hf : s.fibers id = some fiber)
include hf

theorem Coherent.advance (hpc : s.pc w = .holds phase id)
    (hh : fiber'.homeWorker = fiber.homeWorker) (hp : fiber'.state.Place 0 (some phase')) :
    Coherent ((s.setFiber id (some fiber')).setPc w (.holds phase' id)) := by
  have hph := view_phase hpc
  refine h.change id (fun id' hid' => ?_) ?_ (h.lt_nextId hf) le_rfl ?_ ?_
  · rw [view_setPc_eq,view_setFiber_other hid']
    change _ = (s.pc w).phaseOf id'
    simp [hpc,Pc.phaseOf,Ne.symm hid']
  · rw [view_setPc]
    refine (h.placed id).advance hf hph (update_self _ _ _) hh rfl ?_ hp
    simp [Pc.phaseOf,Scheduler.setFiber,view]
  · rw [holders_setPc_of_eq]
    · exact h.running
    · change _ = (s.pc w).isHolding
      rw [hpc]
      rfl
  · exact setPc_outside (s := s) h (by simp [hpc])

theorem Coherent.place (hpc : s.pc w = .holds phase id) :
    w = fiber.homeWorker ∧ fiber.state.Place 0 (some phase) := by
  have hp := view_phase hpc
  exact ⟨(h.placed id).home_eq hf hp,((h.placed id).place hf hp).2⟩

theorem Coherent.state_left (hpc : s.pc w = .holds .left id) : fiber.state = .parking ∨ fiber.state = .done := by
  obtain ⟨-,hp⟩ := h.place hf hpc
  cases hs : fiber.state with
  | parking => exact .inl rfl
  | done => exact .inr rfl
  | ready | running | suspended => simp [hs,FiberState.Place] at hp

theorem Coherent.runFiber (hpc : s.pc w = .holds .popped id) : Coherent (s.runFiber w id fiber) :=
  h.advance hf hpc rfl ⟨rfl,rfl⟩

theorem Coherent.parkSelf (hpc : s.pc w = .holds .running id)
    (hh : fiber'.homeWorker = fiber.homeWorker) : Coherent (s.parkSelf w id fiber' intent) := by
  have ha : Coherent ((s.setFiber id (some { fiber' with
      parkIntent := intent
      parkPending := false
      state := .parking
      park := s.parks })).setPc w (.holds .leaving id)) :=
    h.advance hf hpc hh ⟨rfl,.inl rfl⟩
  exact ha.congr rfl

theorem Coherent.finish (hpc : s.pc w = .holds .running id) : Coherent (s.finish w id fiber) :=
  h.advance hf hpc rfl ⟨rfl,.inl rfl⟩

omit hf in
theorem Coherent.switch (hpc : s.pc w = .holds .leaving id) : Coherent (s.setPc w (.holds .left id)) := by
  have ha : s.pc w ≠ .exited := by simp [hpc]
  have hph := view_phase hpc
  have hid : id < s.nextId := by
    by_contra hid
    have hfr := (h.fresh id (not_lt.mp hid)).2.phase w
    rw [hph] at hfr
    cases hfr
  refine h.change id (fun id' hid' => ?_) ?_ hid le_rfl ?_ (setPc_outside h ha)
  · apply view_setPc_eq
    simp [hpc,Pc.phaseOf,Ne.symm hid']
  · cases hf : s.fibers id with
    | none => exact View.placed_none hf ((h.placed id).gone hf)
    | some fiber =>
      have hp : fiber.state.Place 0 (some .left) := by
        obtain ⟨-,hp⟩ := h.place hf hpc
        cases hs : fiber.state with
        | parking | done => exact ⟨rfl,.inr rfl⟩
        | ready | running | suspended => simp [hs,FiberState.Place] at hp
      rw [view_setPc]
      refine (h.placed id).advance hf hph hf rfl rfl ?_ hp
      simp [Pc.phaseOf]
  · rw [holders_setPc_of_eq]
    · exact h.running
    · rw [hpc]
      rfl

theorem Coherent.release_free (hpc : s.pc w = .holds phase id) : ((s.release w).view id).Free := by
  have hph := view_phase hpc
  have hp := h.placed id
  have hh := hp.home_eq hf hph
  rw [view_release]
  constructor
  · intro u
    by_cases hu : u = w
    · rw [hu]
      exact (hp.place hf hph).1
    · exact (hp.away fiber hf u (hh ▸ hu)).1
  · intro u
    by_cases hu : u = w
    · rw [hu]
      exact update_self _ _ _
    · exact (update_of_ne hu _ _).trans (hp.away fiber hf u (hh ▸ hu)).2

theorem Coherent.release (hpc : s.pc w = .holds phase id)
    (hot : ∀ id', id' ≠ id → s'.view id' = (s.release w).view id') (hs : (s'.view id).Placed)
    (hw : s'.workerCount = s.workerCount) (hn : s'.nextId = s.nextId)
    (hc : s'.runningCount = (s.release w).runningCount) (hh : s'.holders = (s.release w).holders)
    (ho : ∀ u, (s.release w).pc u = .exited → s'.pc u = .exited) : Coherent s' := by
  have ha : s.pc w ≠ .exited := by simp [hpc]
  refine h.change id (fun id' hid' => ?_) hs (hn ▸ h.lt_nextId hf) hn.ge ?_ ?_
  · rw [hot id' hid',view_release]
    refine View.ext rfl rfl (update_eq_iff.mpr ⟨?_,fun _ _ => rfl⟩)
    simp [view,hpc,Pc.phaseOf,Ne.symm hid']
  · have hca : (s.release w).holders.card = s.holders.card-1 :=
      card_holders_drop (s := s) (lt_of_pc_ne_exited h ha) (by rw [hpc]; rfl) rfl
    rw [hc,hh,hca,← h.running]
    rfl
  · intro u hu
    rw [hw] at hu
    exact ho u (setPc_outside h ha u hu)

theorem Coherent.commitFiber (hpc : s.pc w = .holds .left id) : Coherent (s.commitFiber w id fiber) := by
  have hfr := h.release_free hf hpc
  have hr : ∀ fiber', Coherent ((s.release w).makeReady id fiber') := by
    intro fiber'
    refine h.release hf hpc (fun id' hid' => view_makeReady_other hid') hfr.makeReady rfl rfl rfl
      holders_broadcast fun u hu => ?_
    exact congrArg Pc.signalled hu
  unfold Scheduler.commitFiber
  split_ifs
  · exact h.release hf hpc (fun id' hid' => view_setFiber_other hid')
      (View.placed_none (update_self _ _ _) hfr.queued) rfl rfl rfl rfl fun u hu => hu
  · exact hr _
  · exact hr _
  · exact h.release hf hpc (fun id' hid' => view_setFiber_other hid')
      (View.Free.placed_suspended ⟨hfr.queued,hfr.phase⟩ (update_self _ _ _) rfl)
      rfl rfl rfl rfl fun u hu => hu

end Holders

theorem Coherent.unregisterFiber (hid : id < s.nextId)
    (hq : ∀ w, (s.ready w).count id = 0) : Coherent (s.unregisterFiber id) :=
  h.setFiber hid (View.placed_none (update_self _ _ _) hq)

theorem Coherent.schedulerTerminate (id : ℕ) : Coherent (s.schedulerTerminate id) := by
  unfold Scheduler.schedulerTerminate
  split
  · exact h
  · next fiber hf =>
    have hid := h.lt_nextId hf
    have hp := h.placed id
    split
    · -- the fiber is in the queue of its home worker, or popped
      next hs =>
      have hh := hp.home fiber hf
      rw [hs] at hh
      have hc : ((s.ready fiber.homeWorker).erase id).count id = 0 := by
        rw [count_erase_self]
        obtain ⟨hc,-⟩ | ⟨hc,-⟩ := hh
        all_goals
          rw [show (s.ready fiber.homeWorker).count id = _ from hc]
      refine h.change id (fun id' hid' => ?_)
        (View.placed_none (update_self _ _ _) fun w => ?_) hid le_rfl h.running h.outside
      · refine View.ext (update_of_ne hid' _ _) (funext fun w => ?_) rfl
        change (update s.ready _ _ w).count id' = (s.ready w).count id'
        by_cases hw : w = fiber.homeWorker
        · rw [hw,update_self,count_erase_of_ne hid']
        · rw [update_of_ne hw]
      · change (update s.ready _ _ w).count id = 0
        by_cases hw : w = fiber.homeWorker
        · rw [hw,update_self,hc]
        · rw [update_of_ne hw]
          exact (hp.away fiber hf w hw).1
    · next hs =>
      have hfr := hp.free_of_suspended hf hs
      have hg := h.unregisterFiber hid hfr.queued
      split
      · exact hg.congr rfl
      · exact hg
    · next hs =>
      refine h.unregisterFiber hid fun w => ?_
      by_cases hw : w = fiber.homeWorker
      · have hh := hp.home fiber hf
        rw [hs,← hw] at hh
        exact hh.1
      · exact (hp.away fiber hf w hw).1
    · exact h
    · exact h

theorem Coherent.nextFiber : Coherent { s with nextId := s.nextId+1, nextHome := (s.nextHome+1) % s.workerCount } :=
  h.of_view (fun _ => rfl) (Nat.le_succ _) h.running h.outside

theorem Coherent.schedulerSpawnC : Coherent s.schedulerSpawnC := by
  have hr (fiber : Fiber) := @Coherent.makeReady _ _ fiber h.nextFiber (Nat.lt_succ_self _) (h.fresh s.nextId le_rfl).2
  exact hr { fiberCreate with homeWorker := s.nextHome }

theorem Coherent.schedulerSpawnBlock : Coherent s.schedulerSpawnBlock := by
  obtain ⟨-,hf⟩ := h.fresh s.nextId le_rfl
  exact h.nextFiber.setFiber (Nat.lt_succ_self _)
    (View.Free.placed_suspended ⟨hf.queued,hf.phase⟩ (update_self _ _ _) rfl)

theorem Coherent.of_mem_ready (hid : id ∈ s.ready w) :
    ∃ fiber, s.fibers id = some fiber ∧ fiber.state = .ready ∧ w = fiber.homeWorker ∧ (s.ready w).count id = 1 := by
  have hpos : (s.ready w).count id ≠ 0 := (count_pos_iff.mpr hid).ne'
  have hp := h.placed id
  cases hf : s.fibers id with
  | none => exact absurd (hp.gone hf w) hpos
  | some fiber =>
    have hw : w = fiber.homeWorker := by
      by_contra hw
      exact hpos (hp.away fiber hf w hw).1
    have hh := hp.home fiber hf
    rw [← hw] at hh
    cases hs : fiber.state with
    | ready =>
      rw [hs] at hh
      obtain ⟨hone,-⟩ | ⟨hz,-⟩ := hh
      · exact ⟨fiber,rfl,hs,hw,hone⟩
      · exact absurd hz hpos
    | running | parking | suspended | done =>
      rw [hs] at hh
      exact absurd hh.1 hpos

theorem Coherent.pop (hpc : s.pc w = .top) (hr : s.ready w = id :: rest) :
    Coherent { s.setPc w (.holds .popped id) with
      ready := update s.ready w rest
      runningCount := s.runningCount+1 } := by
  have ha : s.pc w ≠ .exited := by simp [hpc]
  have hp := h.placed id
  obtain ⟨fiber,hf,hs,hh,hone⟩ := h.of_mem_ready (hr ▸ mem_cons_self)
  have hres : rest.count id = 0 := by
    rw [hr,count_cons_self] at hone
    exact Nat.succ.inj hone
  refine h.change id (fun id' hid' => ?_) (View.placed_some hf ?_ fun u hu => ?_)
    (h.lt_nextId hf) le_rfl ?_ (setPc_outside h ha)
  · refine View.ext rfl (funext fun u => ?_) (funext fun u => ?_)
    · change (update s.ready w rest u).count id' = (s.ready u).count id'
      by_cases hu : u = w
      · rw [hu,update_self,hr,count_cons_of_ne (Ne.symm hid')]
      · rw [update_of_ne hu]
    · change (update s.pc w _ u).phaseOf id' = (s.pc u).phaseOf id'
      by_cases hu : u = w
      · simp [hu,hpc,Pc.phaseOf,Ne.symm hid']
      · rw [update_of_ne hu]
  · change fiber.state.Place ((update s.ready w rest fiber.homeWorker).count id)
      ((update s.pc w _ fiber.homeWorker).phaseOf id)
    rw [← hh,update_self,update_self,hs,hres]
    exact .inr ⟨rfl,if_pos rfl⟩
  · rw [← hh] at hu
    change (update s.ready w rest u).count id = 0 ∧ (update s.pc w _ u).phaseOf id = none
    rw [update_of_ne hu,update_of_ne hu]
    exact hp.away fiber hf u (hh ▸ hu)
  · have hc : (s.setPc w (.holds .popped id)).holders.card = s.holders.card+1 :=
      card_holders_take (lt_of_pc_ne_exited h ha) (by rw [hpc]; rfl) rfl
    exact (congrArg (· + 1) h.running).trans hc.symm

theorem Coherent.loop (hpc : s.pc w = .top) : Coherent (s.loop w) := by
  have ha : s.pc w ≠ .exited := by simp [hpc]
  have hnot : (s.pc w).isHolding = false := by rw [hpc]; rfl
  unfold Scheduler.loop
  split
  · next hr => exact h.pop hpc hr
  · split_ifs
    · exact h.setPc ha hnot rfl
    · have hb : Coherent ({ s with shutdown := true } : Scheduler).broadcast := Coherent.broadcast (h.congr rfl)
      exact hb.setPc (by simp [Scheduler.broadcast,hpc,Pc.signalled]) (isHolding_signalled.trans hnot) rfl
    · have hp : Coherent ({ s with pollerActive := true } : Scheduler) := h.congr rfl
      exact hp.setPc ha hnot rfl
    · exact h.setPc ha hnot rfl

theorem Coherent.osEventLoopWait {expiry : Option ℤ} (hpc : s.pc w = .blocked expiry) :
    Coherent (s.osEventLoopWait w fds drain) := by
  have hr : Coherent ({ s.report fds with wakePending := s.wakePending && !drain } : Scheduler) := h.congr rfl
  exact hr.setPc (by simp [report,hpc]) (by simp [report,hpc,Pc.isHolding]) rfl

end

/-- The workers stay where they are, except that some have been signalled. -/
def Signals (s s' : Scheduler) : Prop := ∀ u, s'.pc u = s.pc u ∨ s'.pc u = (s.pc u).signalled

theorem Signals.refl : Signals s s := fun _ => .inl rfl

theorem Signals.trans (h : Signals s s') (h' : Signals s' s'') : Signals s s'' := by
  intro u
  have ht : ∀ pc : Pc, pc.signalled.signalled = pc.signalled := by
    intro pc
    cases pc <;> rfl
  obtain hu | hu := h u
  · rw [← hu]
    exact h' u
  · obtain hu' | hu' := h' u
    · exact .inr (hu'.trans hu)
    · rw [hu',hu,ht]
      exact .inr rfl

theorem Signals.pc_eq (h : Signals s s') (hpc : s.pc w = pc) (hs : pc.signalled = pc) : s'.pc w = pc := by
  obtain hw | hw := h w
  · exact hw.trans hpc
  · rw [hw,hpc,hs]

theorem signals_resume : Signals s (s.schedulerResumeLocked id) := by
  unfold Scheduler.schedulerResumeLocked
  split
  · exact .refl
  · split
    · exact fun _ => .inr rfl
    · exact .refl
    · exact .refl

theorem signals_apply (events : List Event) : Signals s (events.foldl Scheduler.applyEvent s).wakeExpiredTimers :=
  applyEvents_rule .refl (fun _ _ _ h => h) (fun _ _ h => h.trans signals_resume) events

theorem Coherent.applyEvents (h : Coherent s)
    (hpc : s.pc w = .collected events) : Coherent (s.applyEvents w events) := by
  have hr := applyEvents_rule h (fun _ _ _ h => h.congr rfl) (fun _ id h => h.schedulerResumeLocked id) events
  have hpcs : (events.foldl Scheduler.applyEvent s).wakeExpiredTimers.pc w = .collected events :=
    (signals_apply events).pc_eq hpc rfl
  have hb : Coherent ({ (events.foldl Scheduler.applyEvent s).wakeExpiredTimers with
      pollerActive := false } : Scheduler).broadcast :=
    Coherent.broadcast (hr.congr rfl)
  apply hb.setPc
  · simp [Scheduler.broadcast,hpcs,Pc.signalled]
  · simp [Scheduler.broadcast,hpcs,Pc.signalled,Pc.isHolding]
  · rfl

theorem Coherent.idle (h : Coherent s)
    (hpc : s.pc w = .idling ∨ ∃ signalled, s.pc w = .waiting signalled) : Coherent (s.idle w) := by
  have ha : s.pc w ≠ .exited := by obtain hpc | ⟨_,hpc⟩ := hpc <;> simp [hpc]
  have hnot : (s.pc w).isHolding = false := by obtain hpc | ⟨_,hpc⟩ := hpc <;> rw [hpc] <;> rfl
  unfold Scheduler.idle
  split_ifs
  · exact h.setPc ha hnot rfl
  · exact h.setPc ha hnot rfl

theorem Coherent.step {a : Action} (h : Coherent s) (hs : step s a = some s') : Coherent s' := by
  cases steps_of_step hs with
  | loop hpc => exact h.loop hpc
  | run hpc hf => exact h.runFiber hf hpc
  | spawnC => exact h.schedulerSpawnC
  | spawnBlock => exact h.schedulerSpawnBlock
  | resume => exact h.schedulerResumeLocked _
  | yield hpc hf | suspend hpc hf => exact h.parkSelf hf hpc rfl
  | sleep hpc hf | waitFd hpc hf => exact Coherent.parkSelf (h.congr rfl) hf hpc rfl
  | terminateSelf hpc hf | finish hpc hf => exact h.finish hf hpc
  | terminate => exact h.schedulerTerminate _
  | switch hpc => exact h.switch hpc
  | commit hpc hf => exact h.commitFiber hf hpc
  | poll hpc => exact h.setPc (by simp [hpc]) (by rw [hpc]; rfl) rfl
  | wake hpc => exact h.osEventLoopWait hpc
  | apply hpc => exact h.applyEvents hpc
  | idle hpc => exact h.idle hpc
  | tick => exact h.congr rfl

theorem coherent_init (workerCount : ℕ) : Coherent (schedulerInit workerCount) where
  placed _ := View.placed_none rfl fun _ => rfl
  fresh id _ := by
    refine ⟨rfl,fun _ => rfl,fun w => ?_⟩
    simp only [view,schedulerInit]
    split <;> rfl
  running := by
    symm
    apply Finset.card_eq_zero.mpr
    apply Finset.filter_eq_empty_iff.mpr
    intro w _
    simp only [schedulerInit]
    split <;> simp [Pc.isHolding]
  outside w hw := if_neg (not_lt.mpr hw)

theorem coherent_start (workerCount fibers : ℕ) : Coherent (start workerCount fibers) := by
  induction fibers with
  | zero => exact coherent_init workerCount
  | succ _ ih =>
    rw [start,iterate_succ_apply']
    exact ih.schedulerSpawnC

theorem coherent_of_perform {workerCount fibers : ℕ}
    (h : perform step (start workerCount fibers) as = some s) : Coherent s :=
  invariant (fun _ _ _ hs hst => hs.step hst) (coherent_start workerCount fibers) h

end Preservation

/-- Every ready fiber is once in the queue of its home worker and in no other, no other fiber is in a
queue, and the count of running fibers is right. -/
structure Queued (s : Scheduler) : Prop where
  ready : ∀ id fiber, s.fibers id = some fiber → fiber.state = .ready →
    ∀ w, (s.ready w).count id = if w = fiber.homeWorker then 1 else 0
  only : ∀ w, ∀ id ∈ s.ready w, ∃ fiber, s.fibers id = some fiber ∧ fiber.state = .ready
  running : s.runningCount = s.holders.card

/-- No worker has popped a fiber without having stored its new state. -/
def Settled (s : Scheduler) : Prop := ∀ w id, s.pc w = .holds .popped id → s.fibers id = none

variable {id' : ℕ}

section Wakeups
variable {s s' : Scheduler} {w id : ℕ} {fiber : Fiber}

theorem pc_of_phaseOf {pc : Pc} (h : pc.phaseOf id = some phase) : pc = .holds phase id := by
  cases pc with
  | holds =>
    obtain ⟨rfl,hp⟩ := Option.ite_none_right_eq_some.mp h
    rw [Option.some.inj hp]
  | _ => cases h

theorem Coherent.queued_iff (h : Coherent s) : Queued s ↔ Settled s := by
  constructor
  · intro hq w id hpc
    cases hf : s.fibers id with
    | none => rfl
    | some fiber =>
      obtain ⟨hh,hpl⟩ := h.place hf hpc
      have hz : (s.ready w).count id = 0 := ((h.placed id).place hf (view_phase hpc)).1
      have hs : fiber.state = .ready := by
        cases hs : fiber.state with
        | ready => rfl
        | running | parking | suspended | done => simp [hs,FiberState.Place] at hpl
      have hone := hq.ready id fiber hf hs w
      rw [hz,if_pos hh] at hone
      cases hone
  · intro hset
    refine ⟨fun id fiber hf hs w => ?_,fun w id hid => ?_,h.running⟩
    · have hp := h.placed id
      split
      · next hw =>
        have hh := hp.home fiber hf
        rw [hs,← hw] at hh
        obtain ⟨hone,-⟩ | ⟨-,hph⟩ := hh
        · exact hone
        · cases hf.symm.trans (hset w id (pc_of_phaseOf hph))
      · next hw => exact (hp.away fiber hf w hw).1
    · obtain ⟨fiber,hf,hs,-⟩ := h.of_mem_ready hid
      exact ⟨fiber,hf,hs⟩

def Ready (s : Scheduler) (id : ℕ) : Prop := ∃ fiber, s.fibers id = some fiber ∧ fiber.state = .ready

/-- The fiber can be run, or will be made so by the commit of its worker. -/
def Woken (s : Scheduler) (id : ℕ) : Prop :=
  ∃ fiber, s.fibers id = some fiber ∧ (fiber.state = .ready ∨
    fiber.state = .parking ∧ fiber.parkIntent = .suspend ∧ fiber.parkPending = true)

def Restarts (id : ℕ) (s : Scheduler) : Action → Prop
  | .run w => s.pc w = .holds .popped id
  | .terminate _ target => target = id
  | _ => False

theorem fibers_resume_other (h : id' ≠ id) : (s.schedulerResumeLocked id).fibers id' = s.fibers id' := by
  unfold schedulerResumeLocked
  split
  · rfl
  · split
    · exact update_of_ne h _ _
    · exact update_of_ne h _ _
    · rfl

theorem woken_resume (hf : s.fibers id = some fiber)
    (hp : fiber.state = .suspended ∨ fiber.state = .parking ∧ fiber.parkIntent = .suspend) :
    Woken (s.schedulerResumeLocked id) id := by
  obtain hs | ⟨hs,hi⟩ := hp
  · refine ⟨{ fiber with state := .ready },?_,.inl rfl⟩
    simp [schedulerResumeLocked,hf,hs,makeReady,signalWork,wakePoller,broadcast,readyPush,setFiber]
  · refine ⟨{ fiber with parkPending := true },?_,.inr ⟨hs,hi,rfl⟩⟩
    simp [schedulerResumeLocked,hf,hs,setFiber]

/-- A fiber on a stack stays; any other leaves the registry, its queue and the event loop. -/
theorem terminate_eq (s : Scheduler) (id : ℕ) : s.schedulerTerminate id = s ∨ ∃ ready armed registrations,
    s.schedulerTerminate id = { s with
      fibers := update s.fibers id none
      ready := ready
      armedWaiters := armed
      registrations := registrations } := by
  unfold schedulerTerminate
  split
  · exact .inl rfl
  · split
    · exact .inr ⟨_,_,_,rfl⟩
    · split <;> exact .inr ⟨_,_,_,rfl⟩
    · exact .inr ⟨_,_,_,rfl⟩
    · exact .inl rfl
    · exact .inl rfl

theorem fibers_terminate_other (h : id' ≠ id) : (s.schedulerTerminate id).fibers id' = s.fibers id' := by
  obtain heq | ⟨_,_,_,heq⟩ := terminate_eq s id
  · rw [heq]
  · rw [heq]
    exact update_of_ne h _ _

theorem fibers_commit_other (h : id' ≠ id) : (s.commitFiber w id fiber).fibers id' = s.fibers id' := by
  unfold commitFiber
  split_ifs
  all_goals exact update_of_ne h _ _

theorem fibers_loop : (s.loop w).fibers = s.fibers := by
  unfold Scheduler.loop
  split
  · rfl
  · split_ifs <;> rfl

theorem fibers_idle : (s.idle w).fibers = s.fibers := by
  unfold Scheduler.idle
  split_ifs <;> rfl

variable (h : Woken s id)
include h

theorem Woken.resume (id' : ℕ) : Woken (s.schedulerResumeLocked id') id := by
  obtain ⟨fiber,hf,hw⟩ := h
  by_cases hid : id = id'
  · subst hid
    obtain hs | ⟨hs,hi,-⟩ := hw
    · refine ⟨fiber,?_,.inl hs⟩
      simp [schedulerResumeLocked,hf,hs]
    · refine ⟨{ fiber with parkPending := true },?_,.inr ⟨hs,hi,rfl⟩⟩
      simp [schedulerResumeLocked,hf,hs,setFiber]
  · refine ⟨fiber,?_,hw⟩
    rw [fibers_resume_other hid]
    exact hf

theorem Woken.congr (hf : s'.fibers id = s.fibers id) : Woken s' id := by
  obtain ⟨fiber,hfi,hw⟩ := h
  exact ⟨fiber,hf.trans hfi,hw⟩

theorem Woken.ne_of_running (hs : Coherent s) (hpc : s.pc w = .holds .running id') : id ≠ id' := by
  rintro rfl
  obtain ⟨fiber,hf,hw⟩ := h
  have hp := (hs.place hf hpc).2
  obtain hst | ⟨hst,-⟩ := hw
  all_goals simp [hst,FiberState.Place] at hp

theorem Woken.commit (hs : Coherent s) {id' : ℕ} (hpc : s.pc w = .holds .left id')
    (hf : s.fibers id' = some fiber) : Woken (s.commitFiber w id' fiber) id := by
  by_cases hid : id = id'
  · subst hid
    obtain ⟨fiber',hf',hw⟩ := h
    cases hf.symm.trans hf'
    have hpl := (hs.place hf hpc).2
    obtain hst | ⟨hst,hi,hp⟩ := hw
    · simp [hst,FiberState.Place] at hpl
    · refine ⟨{ fiber with parkIntent := .none, parkPending := false, state := .ready },?_,.inl rfl⟩
      simp [commitFiber,hst,hi,hp,makeReady,signalWork,wakePoller,broadcast,readyPush,setFiber]
  · exact h.congr (fibers_commit_other hid)

theorem Woken.step {a : Action} (hs : Coherent s) (hst : step s a = some s')
    (ho : ¬ Restarts id s a) : Woken s' id := by
  have hlt : id < s.nextId := by
    obtain ⟨fiber,hf,-⟩ := h
    exact hs.lt_nextId hf
  cases steps_of_step hst with
  | loop => exact h.congr (congrFun fibers_loop id)
  | run hpc =>
    refine h.congr (update_of_ne ?_ _ _)
    rintro rfl
    exact ho hpc
  | spawnC | spawnBlock => exact h.congr (update_of_ne hlt.ne _ _)
  | resume => exact h.resume _
  | yield hpc | suspend hpc | sleep hpc | waitFd hpc | terminateSelf hpc | finish hpc =>
    exact h.congr (update_of_ne (h.ne_of_running hs hpc) _ _)
  | terminate => exact h.congr (fibers_terminate_other (Ne.symm ho))
  | switch | poll | wake | tick => exact h.congr rfl
  | commit hpc hf => exact h.commit hs hpc hf
  | apply =>
    have hr := applyEvents_rule (P := (Woken · id)) h (fun _ _ _ h => h.congr rfl) fun _ id' h => h.resume id'
    exact (hr _).congr rfl
  | idle => exact h.congr (congrFun fibers_idle id)

/-- The fiber can be run now, or after the next steps of the worker that it is leaving. -/
def BecomesReady (s : Scheduler) (id : ℕ) : Prop :=
  Ready s id ∨ ∃ w rest s', (rest = [.commit w] ∨ rest = [.switch w,.commit w]) ∧
    perform step s rest = some s' ∧ Ready s' id

theorem Woken.becomesReady (hs : Coherent s) : BecomesReady s id := by
  obtain ⟨fiber,hf,hw⟩ := h
  obtain hst | ⟨hst,hi,hpe⟩ := hw
  · exact .inl ⟨fiber,hf,hst⟩
  · have hpl := (hs.placed id).home fiber hf
    rw [hst] at hpl
    have hc : ∀ t : Scheduler, t.pc fiber.homeWorker = .holds .left id → t.fibers = s.fibers →
        ∃ s', Concurrency.step t (.commit fiber.homeWorker) = some s' ∧ Ready s' id := by
      intro t hpc hfi
      refine ⟨t.commitFiber fiber.homeWorker id fiber,?_,
        { fiber with parkIntent := .none, parkPending := false, state := .ready },?_,rfl⟩
      · simp [Concurrency.step,hpc,hfi,hf]
      · simp [commitFiber,hst,hi,hpe,makeReady,signalWork,wakePoller,broadcast,readyPush,setFiber]
    obtain hp | hp := hpl.2
    · have hpc : s.pc fiber.homeWorker = .holds .leaving id := pc_of_phaseOf hp
      obtain ⟨s',hste,hr⟩ := hc (s.setPc fiber.homeWorker (.holds .left id)) (update_self _ _ _) rfl
      refine .inr ⟨fiber.homeWorker,_,s',.inr rfl,?_,hr⟩
      have hsw : Concurrency.step s (.switch fiber.homeWorker) =
          some (s.setPc fiber.homeWorker (.holds .left id)) := by
        simp [Concurrency.step,hpc]
      simp [perform,hsw,hste]
    · have hpc : s.pc fiber.homeWorker = .holds .left id := pc_of_phaseOf hp
      obtain ⟨s',hste,hr⟩ := hc s hpc rfl
      exact .inr ⟨fiber.homeWorker,_,s',.inl rfl,by simp [perform,hste],hr⟩

theorem woken_becomesReady (hs : Coherent s) {bs : List Action} (hrun : perform step s bs = some t)
    (ho : Meets step (fun s a => ¬ Restarts id s a) s bs) : BecomesReady t id := by
  have hb : Coherent t ∧ Woken t id := invariant_of_meets (P := fun s => Coherent s ∧ Woken s id)
      (fun _ _ _ hs hok hst => ⟨hs.1.step hst,hs.2.step hs.1 hst hok⟩) ⟨hs,h⟩ ho hrun
  exact hb.2.becomesReady hb.1

end Wakeups

/-- In every state that the pool reaches, the queues are right if and only if no worker is between
`readyPop` and the store of the running state; a fiber is never ready while it is on the stack of a
worker; and a resume that finds a fiber parked, or about to park, makes it ready before it runs. -/
theorem queues_and_wakeups (workerCount fibers : ℕ) (as : List Action) (s : Scheduler)
    (h : perform step (start workerCount fibers) as = some s) : (Queued s ↔ Settled s) ∧
      (∀ w id phase, Ready s id → s.pc w = .holds phase id → phase = .popped) ∧ ∀ id fiber, s.fibers id = some fiber →
      (fiber.state = .suspended ∨ fiber.state = .parking ∧ fiber.parkIntent = .suspend) → ∀ bs t,
      perform step (s.schedulerResumeLocked id) bs = some t →
      Meets step (fun s a => ¬ Restarts id s a) (s.schedulerResumeLocked id) bs → BecomesReady t id := by
  have hs := coherent_of_perform h
  refine ⟨hs.queued_iff,?_,?_⟩
  · rintro w id phase ⟨fiber,hf,hst⟩ hpc
    have hp := (hs.place hf hpc).2
    rw [hst] at hp
    simpa [FiberState.Place] using hp
  · intro id fiber hf hpar bs t hrun ho
    exact woken_becomesReady (woken_resume hf hpar) (hs.schedulerResumeLocked id) hrun ho

/-- A fiber is resumed while it is still on the stack that it is leaving. -/
theorem queues_and_wakeups_leaving : ∃ s, perform step (start 2 2) [.loop 0,.run 0,.suspend 0] = some s ∧
      (Queued s ↔ Settled s) ∧ BecomesReady (s.schedulerResumeLocked 0) 0 :=
  ⟨_,rfl,(queues_and_wakeups 2 2 [.loop 0,.run 0,.suspend 0] _ rfl).1,
    (queues_and_wakeups 2 2 [.loop 0,.run 0,.suspend 0] _ rfl).2.2 0 _ rfl (.inr ⟨rfl,rfl⟩) [] _ rfl
      trivial⟩

/-- A worker has popped its fiber: the fiber is ready and in no queue. A fiber on another worker
terminates it, and the first worker is left with a fiber that has been destroyed. -/
theorem readyPop_leaves_ready_fiber : ∃ s t, perform step (start 2 2) [.loop 0] = some s ∧ Ready s 0 ∧ ¬ Queued s ∧
      perform step s [.loop 1,.run 1,.terminate 1 0] = some t ∧ t.pc 0 = .holds .popped 0 ∧ t.fibers 0 = none := by
  refine ⟨_,_,rfl,⟨_,rfl,rfl⟩,fun h => ?_,rfl,rfl,rfl⟩
  exact absurd (h.ready 0 _ rfl rfl 0) (by decide)

end SmalltalkJit.Concurrency
