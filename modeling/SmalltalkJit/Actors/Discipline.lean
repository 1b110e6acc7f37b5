import SmalltalkJit.Actors.Mailbox

/-! # What a mailbox guarantees

The messages handed to the actor are the first ones posted, in the order of the
posts. A user message is taken only when no system message is pending and the
mailbox is not suspended. A runner that has gone to sleep has left the mailbox
idle, under the monitor and with nothing to process; whoever changes that resumes
it before the monitor is released.
-/
namespace SmalltalkJit.Actors
open Concurrency Scheduler Interleaving Option

variable {M : Type}

/-- The runner executes code of the actor, or none at all. -/
def RunnerPc.Open : RunnerPc M → Prop
  | .invoking .. | .ended => True
  | _ => False

structure MailboxState.Free (s : MailboxState M) (id : ℕ) : Prop where
  outside : ∀ part, s.monitor ≠ some (id,part)
  opened : ∀ pc, s.runner = some (id,pc) → pc.Open

structure MailboxState.At (s : MailboxState M) (id : ℕ) (pc : RunnerPc M) : Prop where
  runner : s.runner = some (id,pc)
  outside : ∀ part, s.monitor ≠ some (id,part)

def Section.Matches (runner : Option (ℕ × RunnerPc M)) (id : ℕ) : Section M → Prop
  | .setId => runner = some (id,.started)
  | .take count => runner = some (id,.take count)
  | .check | .park => runner = some (id,.check)
  | _ => True

def Section.Entry : Section M → Prop
  | .schedule | .resumeId | .park | .exit => False
  | _ => True

inductive MailboxSteps (throughput : ℤ) (s : MailboxState M) : MailboxState M → Prop
  | sched {a sched} (hfree : ∀ w id, a.process = some w → s.sched.pc w = .holds .running id → s.Free id)
    (hstep : step s.sched a = some sched) : MailboxSteps throughput s { s with sched := sched }
  | start (hrunner : s.runner = none) : MailboxSteps throughput s
      { s with sched := s.sched.schedulerSpawnBlock, runner := some (s.sched.nextId,.started) }
  | enter {w id part} (hpc : s.sched.pc w = .holds .running id) (hmonitor : s.monitor = none)
    (hentry : part.Entry) (hmatches : part.Matches s.runner id) :
    MailboxSteps throughput s { s with monitor := some (id,part) }
  | suspend {id item count} (hrunner : s.runner = some (id,.invoking item count)) :
    MailboxSteps throughput s { s with mailbox := { s.mailbox with suspended := true } }
  | stopRunner {id item count} (hrunner : s.runner = some (id,.invoking item count)) :
    MailboxSteps throughput s { s with mailbox := { s.mailbox with running := false } }
  | setId {id} (hmonitor : s.monitor = some (id,.setId)) : MailboxSteps throughput s
      { s.setPc id .loop with
        mailbox := { s.mailbox with runnerId := some id }
        monitor := some (id,.exit) }
  | postUser {id envelope} (hmonitor : s.monitor = some (id,.postUser envelope)) : MailboxSteps throughput s
      { s with
        mailbox := { s.mailbox with userQueue := s.mailbox.userQueue ++ [envelope] }
        monitor := some (id,.schedule)
        log := { s.log with postedUser := s.log.postedUser ++ [envelope] } }
  | postSystem {id message} (hmonitor : s.monitor = some (id,.postSystem message)) : MailboxSteps throughput s
      { s with
        mailbox := { s.mailbox with systemQueue := s.mailbox.systemQueue ++ [message] }
        monitor := some (id,.schedule)
        log := { s.log with postedSystem := s.log.postedSystem ++ [message] } }
  | resume {id} (hmonitor : s.monitor = some (id,.resume)) : MailboxSteps throughput s
      { s with
        mailbox := { s.mailbox with suspended := false }
        monitor := some (id,.schedule) }
  | wakes {id} (hmonitor : s.monitor = some (id,.schedule)) (hidle : s.mailbox.idle = true) :
    MailboxSteps throughput s
      { s with
        mailbox := { s.mailbox with idle := false }
        monitor := some (id,.resumeId) }
  | busy {id} (hmonitor : s.monitor = some (id,.schedule)) (hidle : s.mailbox.idle = false) :
    MailboxSteps throughput s { s with monitor := some (id,.exit) }
  | resumeId {w id target} (hpc : s.sched.pc w = .holds .running id)
    (hmonitor : s.monitor = some (id,.resumeId)) (htarget : s.mailbox.runnerId = some target) :
    MailboxSteps throughput s
      { s with
        sched := s.sched.schedulerResumeLocked target
        monitor := some (id,.exit) }
  | take {id count} (hmonitor : s.monitor = some (id,.take count)) : MailboxSteps throughput s
      { s.setPc id ((s.mailbox.takeNext throughput count).1.elim .drained fun item => .taken item count) with
        mailbox := (s.mailbox.takeNext throughput count).2
        monitor := some (id,.exit) }
  | goesOn {id} (hmonitor : s.monitor = some (id,.check)) : MailboxSteps throughput s
      { s.setPc id .yield with monitor := some (id,.exit) }
  | idles {id} (hmonitor : s.monitor = some (id,.check)) (hnone : s.mailbox.hasProcessable = false) :
    MailboxSteps throughput s
      { s with
        mailbox := { s.mailbox with idle := true }
        monitor := some (id,.park) }
  | park {w id fiber} (hmonitor : s.monitor = some (id,.park))
    (hstep : step s.sched (.suspend w) = some (s.sched.schedulerSuspend w id fiber)) : MailboxSteps throughput s
      { s.setPc id .parked with
        sched := s.sched.schedulerSuspend w id fiber
        monitor := none }
  | exit {id} (hmonitor : s.monitor = some (id,.exit)) : MailboxSteps throughput s { s with monitor := none }
  | batch {id} (hat : s.At id .loop) : MailboxSteps throughput s
      { s.setPc id (.take 0) with log := { s.log with batch := 0 } }
  | ends {id} (hat : s.At id .loop) : MailboxSteps throughput s (s.setPc id .ended)
  | hand {id item count} (hat : s.At id (.taken item count)) : MailboxSteps throughput s
      { s.setPc id (.invoking item count) with log := s.log.hand item }
  | returnsSystem {id message count} (hat : s.At id (.invoking (.system message) count)) :
    MailboxSteps throughput s (s.setPc id (.take count))
  | returnsUser {id envelope count} (hat : s.At id (.invoking (.user envelope) count)) :
    MailboxSteps throughput s (s.setPc id (.take (count+1)))
  | drained {id} (hat : s.At id .drained) : MailboxSteps throughput s
      (s.setPc id (if s.mailbox.running then .check else .loop))
  | yield {w id fiber} (hat : s.At id .yield) (hpc : s.sched.pc w = .holds .running id)
    (hstep : step s.sched (.yield w) = some (s.sched.schedulerYield w id fiber)) : MailboxSteps throughput s
      { s.setPc id .loop with sched := s.sched.schedulerYield w id fiber }
  | woken {id} (hat : s.At id .parked) : MailboxSteps throughput s (s.setPc id .loop)

section Inversion
variable {throughput : ℤ} {s s' : MailboxState M} {w id : ℕ} {fiber : Fiber}

theorem roleAt_eq_some
    (h : roleAt sched part w = some (id,fiber,x)) : sched.current w = some (id,fiber) ∧ part = some (id,x) := by
  obtain ⟨⟨id',f'⟩,hc,h⟩ := bind_eq_some_iff.mp h
  obtain ⟨⟨o,y⟩,hp,h⟩ := bind_eq_some_iff.mp h
  obtain ⟨ho,heq⟩ := ite_none_right_eq_some.mp h
  cases heq
  exact ⟨hc,by rw [hp,ho]⟩

theorem roleAt_eq (hc : sched.current w = some (id,fiber)) (hp : part = some (id,x)) :
    roleAt sched part w = some (id,fiber,x) := by
  simp [roleAt,hc,hp]

theorem handling_iff (h : s.handling w) : ∃ id item count, s.runner = some (id,.invoking item count) := by
  obtain ⟨-,hr⟩ := Bool.and_eq_true_iff.mp h
  split at hr
  · next h => exact ⟨_,_,_,(roleAt_eq_some h).2⟩
  · cases hr

variable {part : Section M}

section Current
variable (hc : s.sched.current w = some (id,fiber))
include hc

theorem outside_of_roleAt (h : (roleAt s.sched s.monitor w).isNone) : ∀ part, s.monitor ≠ some (id,part) := by
  intro part hm
  rw [roleAt_eq hc hm] at h
  cases h

theorem free_of_current (h : s.free w) : s.Free id := by
  obtain ⟨ho,hr⟩ := Bool.and_eq_true_iff.mp h
  refine ⟨outside_of_roleAt hc ho,fun pc hpc => ?_⟩
  rw [roleAt_eq hc hpc] at hr
  cases pc with
  | invoking | ended => trivial
  | started | loop | take | taken | drained | check | yield | parked => cases hr

theorem steps_of_enter (h : s.enter id part = some s')
    (he : part.Entry) (hm : part.Matches s.runner id) : MailboxSteps throughput s s' := by
  obtain ⟨hmo,heq⟩ := ite_none_right_eq_some.mp h
  cases heq
  exact .enter (current_eq_some hc).1 hmo he hm

omit hc in
theorem steps_of_enterFrom (h : s.enterFrom w part = some s') (he : part.Entry)
    (hm : ∀ id, part.Matches s.runner id) : MailboxSteps throughput s s' := by
  obtain ⟨-,h⟩ := ite_none_right_eq_some.mp h
  obtain ⟨⟨id,fiber⟩,hc,h⟩ := bind_eq_some_iff.mp h
  exact steps_of_enter hc h he (hm id)

theorem steps_of_perform (hm : s.monitor = some (id,part))
    (h : s.perform throughput w id fiber part = some s') : MailboxSteps throughput s s' := by
  cases part with
  | setId | postUser | postSystem | resume | take | exit =>
    cases h
    constructor
    exact hm
  | schedule =>
    unfold MailboxState.perform at h
    dsimp only at h
    split at h
    · next hi =>
      cases h
      exact .wakes hm hi
    · next hi =>
      cases h
      exact .busy hm (Bool.eq_false_iff.mpr hi)
  | resumeId =>
    obtain ⟨tgt,ht,heq⟩ := map_eq_some_iff.mp h
    cases heq
    exact .resumeId (current_eq_some hc).1 hm ht
  | check =>
    unfold MailboxState.perform at h
    dsimp only at h
    split at h
    · cases h
      exact .goesOn hm
    · next hn =>
      cases h
      exact .idles hm (Bool.eq_false_iff.mpr hn)
  | park =>
    cases h
    exact .park hm (by simp [step,hc])

theorem steps_of_proceed {pc : RunnerPc M} (hat : s.At id pc)
    (h : s.proceed w id fiber pc = some s') : MailboxSteps throughput s s' := by
  cases pc with
  | started | take | check => exact steps_of_enter hc h trivial hat.runner
  | loop =>
    unfold MailboxState.proceed at h
    dsimp only at h
    split at h
    · cases h
      exact .batch hat
    · cases h
      exact .ends hat
  | taken =>
    cases h
    exact .hand hat
  | invoking x =>
    cases x with
    | system =>
      cases h
      exact .returnsSystem hat
    | user =>
      cases h
      exact .returnsUser hat
  | drained =>
    cases h
    exact .drained hat
  | yield =>
    cases h
    exact .yield hat (current_eq_some hc).1 (by simp [step,hc])
  | parked =>
    cases h
    exact .woken hat
  | ended => cases h

end Current

theorem mailboxSteps_of_step (h : mailboxStep throughput s a = some s') : MailboxSteps throughput s s' := by
  cases a with
  | sched =>
    obtain ⟨hf,h⟩ := ite_none_right_eq_some.mp h
    obtain ⟨sched,hs,rfl⟩ := map_eq_some_iff.mp h
    refine .sched (fun w id ha hpc => ?_) hs
    obtain ⟨⟨id',fiber⟩,hc⟩ := current_of_process hs ha
    cases hpc.symm.trans (current_eq_some hc).1
    exact free_of_current hc (hf w ha)
  | start =>
    obtain ⟨⟨hr,-⟩,h⟩ := ite_none_right_eq_some.mp h
    obtain ⟨⟨id,fiber⟩,hc,rfl⟩ := map_eq_some_iff.mp h
    exact .start hr
  | postUser | postSystem | resume => exact steps_of_enterFrom h trivial fun _ => trivial
  | suspend | stopRunner =>
    obtain ⟨hh,heq⟩ := ite_none_right_eq_some.mp h
    cases heq
    obtain ⟨id,x,n,hr⟩ := handling_iff hh
    constructor
    exact hr
  | inside =>
    obtain ⟨⟨id,fiber,part⟩,hro,h⟩ := bind_eq_some_iff.mp h
    obtain ⟨hc,hm⟩ := roleAt_eq_some hro
    exact steps_of_perform hc hm h
  | runner =>
    obtain ⟨ho,h⟩ := ite_none_right_eq_some.mp h
    obtain ⟨⟨id,fiber,pc⟩,hro,h⟩ := bind_eq_some_iff.mp h
    obtain ⟨hc,hr⟩ := roleAt_eq_some hro
    exact steps_of_proceed hc ⟨hr,outside_of_roleAt hc ho⟩ h

end Inversion

def RunnerPc.takenUser : RunnerPc M → List (Envelope M)
  | .taken (.user envelope) _ => [envelope]
  | _ => []

def RunnerPc.takenSystem : RunnerPc M → List M
  | .taken (.system message) _ => [message]
  | _ => []

def RunnerPc.Counts (throughput : ℤ) (batch : ℕ) : RunnerPc M → Prop
  | .take count | .taken (.system _) count | .invoking (.system _) count => batch = count
  | .taken (.user _) count => batch = count ∧ count < throughput
  | .invoking (.user _) count => batch = count+1
  | _ => True

/-- What has been posted has been handed over, is on the way, or is in its queue. -/
structure Ordered (throughput : ℤ) (s : MailboxState M) : Prop where
  user : s.log.handedUser ++ (s.runner.elim [] fun p => p.2.takenUser) ++ s.mailbox.userQueue =
    s.log.postedUser
  system : s.log.handedSystem ++ (s.runner.elim [] fun p => p.2.takenSystem) ++ s.mailbox.systemQueue =
    s.log.postedSystem
  counted : ∀ id pc, s.runner = some (id,pc) → pc.Counts throughput s.log.batch
  bounded : s.log.batch ≤ throughput.toNat
  unsuspended : ∀ id envelope count, s.runner = some (id,.taken (.user envelope) count) →
    s.mailbox.suspended = false
  matched : ∀ id part, s.monitor = some (id,part) → part.Matches s.runner id

section Order
variable {throughput : ℤ} {s s' : MailboxState M} {id : ℕ} {pc pc' : RunnerPc M}

theorem matches_exit : ∀ id' part, some (id,Section.exit) = some (id',part) → part.Matches runner id' := by
  rintro _ _ ⟨⟩
  trivial

variable (h : Ordered throughput s)
include h

theorem Ordered.matched_of_at (hat : s.At id pc) :
    ∀ id' part, s.monitor = some (id',part) → part.Matches (some (id,pc')) id' := by
  intro id' part hm
  have hma := h.matched id' part hm
  have ho : ∀ {pc''}, s.runner = some (id',pc'') → part.Matches (some (id,pc')) id' := by
    intro pc'' hr
    cases hat.runner.symm.trans hr
    exact absurd hm (hat.outside part)
  cases part with
  | setId | take | check | park => exact ho hma
  | postUser | postSystem | resume | schedule | resumeId | exit => trivial

theorem Ordered.setPc (pc' : RunnerPc M) (monitor : Option (ℕ × Section M))
    (hr : s.runner = some (id,pc)) (hm : ∀ id' part, monitor = some (id',part) → part.Matches (some (id,pc')) id')
    (ht : pc.takenUser = [] ∧ pc.takenSystem = []) (ht' : pc'.takenUser = [] ∧ pc'.takenSystem = [])
    (hc : pc'.Counts throughput s.log.batch) : Ordered throughput { s.setPc id pc' with monitor := monitor } where
  user := by
    have hu := h.user
    rw [hr] at hu
    simpa [MailboxState.setPc,ht.1,ht'.1] using hu
  system := by
    have hs := h.system
    rw [hr] at hs
    simpa [MailboxState.setPc,ht.2,ht'.2] using hs
  counted id' pc'' hpc := by
    cases hpc
    exact hc
  bounded := h.bounded
  unsuspended id' envelope count hpc := by
    cases hpc
    cases ht'.1
  matched := hm

theorem Ordered.take {count : ℕ} (hm : s.monitor = some (id,.take count)) :
    Ordered throughput
      { s.setPc id ((s.mailbox.takeNext throughput count).1.elim .drained fun item => .taken item count) with
        mailbox := (s.mailbox.takeNext throughput count).2
        monitor := some (id,.exit) } := by
  have hr : s.runner = some (id,.take count) := h.matched id _ hm
  have hu : s.log.handedUser ++ [] ++ s.mailbox.userQueue = s.log.postedUser := by
    have hu := h.user
    rwa [hr] at hu
  have hs : s.log.handedSystem ++ [] ++ s.mailbox.systemQueue = s.log.postedSystem := by
    have hs := h.system
    rwa [hr] at hs
  have hc : s.log.batch = count := h.counted id _ hr
  obtain heq | ⟨m,r,hq,heq⟩ | ⟨e,r,-,hsu,hmay,hq,heq⟩ := takeNext_cases throughput s.mailbox count
  · rw [heq]
    exact ⟨hu,hs,by rintro _ _ ⟨⟩; trivial,h.bounded,by rintro _ _ _ ⟨⟩,matches_exit⟩
  · rw [heq]
    rw [hq] at hs
    refine ⟨hu,?_,by rintro _ _ ⟨⟩; exact hc,h.bounded,by rintro _ _ _ ⟨⟩,matches_exit⟩
    simpa [MailboxState.setPc,RunnerPc.takenSystem] using hs
  · rw [heq]
    rw [hq] at hu
    refine ⟨?_,hs,by rintro _ _ ⟨⟩; exact ⟨hc,hmay⟩,h.bounded,fun _ _ _ _ => hsu,matches_exit⟩
    simpa [MailboxState.setPc,RunnerPc.takenUser] using hu

theorem Ordered.hand {item : Item M} {count : ℕ} (hat : s.At id (.taken item count)) :
    Ordered throughput { s.setPc id (.invoking item count) with log := s.log.hand item } := by
  have hu := h.user
  have hs := h.system
  have hc := h.counted id _ hat.runner
  rw [hat.runner] at hu hs
  cases item with
  | system =>
    refine ⟨hu,?_,by rintro _ _ ⟨⟩; exact hc,h.bounded,by rintro _ _ _ ⟨⟩,h.matched_of_at hat⟩
    simpa [Log.hand,MailboxState.setPc,RunnerPc.takenSystem] using hs
  | user =>
    obtain ⟨hb,hmay⟩ := hc
    refine ⟨?_,hs,by rintro _ _ ⟨⟩; exact congrArg (· + 1) hb,?_,by rintro _ _ _ ⟨⟩, h.matched_of_at hat⟩
    · simpa [Log.hand,MailboxState.setPc,RunnerPc.takenUser] using hu
    · change s.log.batch+1 ≤ throughput.toNat
      omega

theorem Ordered.step (hst : MailboxSteps throughput s s') : Ordered throughput s' := by
  have hp : ∀ id (part : Section M), part.Matches s.runner id →
      ∀ id' part', some (id,part) = some (id',part') → part'.Matches s.runner id' := by
    rintro id part hma _ _ ⟨⟩
    exact hma
  cases hst with
  | sched | stopRunner => exact { h with }
  | start hr =>
    have hu := h.user
    have hs := h.system
    rw [hr] at hu hs
    refine ⟨hu,hs,by rintro _ _ ⟨⟩; trivial,h.bounded,by rintro _ _ _ ⟨⟩,fun id part hm => ?_⟩
    have hma := h.matched id part hm
    cases part with
    | setId | take | check | park => cases hr.symm.trans hma
    | postUser | postSystem | resume | schedule | resumeId | exit => trivial
  | enter _ _ _ hma => exact { h with matched := hp _ _ hma }
  | suspend hr =>
    refine { h with unsuspended := fun id e n hpc => ?_ }
    cases hr.symm.trans hpc
  | setId hm => exact { h.setPc .loop _ (h.matched _ _ hm) matches_exit ⟨rfl,rfl⟩ ⟨rfl,rfl⟩ trivial with }
  | @postUser id e =>
    refine { h with user := ?_, matched := hp id .schedule trivial }
    rw [← List.append_assoc,h.user]
  | @postSystem id m =>
    refine { h with system := ?_, matched := hp id .schedule trivial }
    rw [← List.append_assoc,h.system]
  | @resume id => exact { h with unsuspended := fun _ _ _ _ => rfl, matched := hp id .schedule trivial }
  | @wakes id => exact { h with matched := hp id .resumeId trivial }
  | busy | resumeId => exact { h with matched := matches_exit }
  | take hm => exact h.take hm
  | goesOn hm => exact h.setPc .yield _ (h.matched _ _ hm) matches_exit ⟨rfl,rfl⟩ ⟨rfl,rfl⟩ trivial
  | @idles id hm => exact { h with matched := hp id .park (h.matched id .check hm) }
  | park hm => exact { h.setPc .parked none (h.matched _ _ hm) nofun ⟨rfl,rfl⟩ ⟨rfl,rfl⟩ trivial with }
  | exit => exact { h with matched := nofun }
  | batch hat =>
    have hmov := h.setPc .loop _ hat.runner (h.matched_of_at hat) ⟨rfl,rfl⟩ ⟨rfl,rfl⟩ trivial
    exact ⟨hmov.user,hmov.system,by rintro _ _ ⟨⟩; rfl,Nat.zero_le _,by rintro _ _ _ ⟨⟩,h.matched_of_at hat⟩
  | ends hat | woken hat => exact h.setPc _ _ hat.runner (h.matched_of_at hat) ⟨rfl,rfl⟩ ⟨rfl,rfl⟩ trivial
  | hand hat => exact h.hand hat
  | returnsSystem hat | returnsUser hat =>
    have hc := h.counted _ _ hat.runner
    exact h.setPc _ _ hat.runner (h.matched_of_at hat) ⟨rfl,rfl⟩ ⟨rfl,rfl⟩ hc
  | drained hat =>
    split <;> exact h.setPc _ _ hat.runner (h.matched_of_at hat) ⟨rfl,rfl⟩ ⟨rfl,rfl⟩ trivial
  | yield hat => exact { h.setPc .loop _ hat.runner (h.matched_of_at hat) ⟨rfl,rfl⟩ ⟨rfl,rfl⟩ trivial with }

end Order

structure Owned (s : MailboxState M) : Prop where
  coherent : Coherent s.sched
  owner : ∀ id part, s.monitor = some (id,part) → ∃ w, s.sched.pc w = .holds .running id
  known : ∀ id pc, s.runner = some (id,pc) → id < s.sched.nextId

section Ownership
variable {throughput : ℤ} {s s' : MailboxState M}

theorem Owned.sched {sched : Scheduler} (h : Owned s) (hs : step s.sched a = some sched)
    (ho : ∀ w id, a.process = some w → s.sched.pc w = .holds .running id → ∀ part, s.monitor ≠ some (id,part)) :
    Owned { s with sched := sched } where
  coherent := h.coherent.step hs
  owner id part hm := by
    obtain ⟨w,hpc⟩ := h.owner id part hm
    exact ⟨w,running_of_step hpc hs fun ha => ho w id ha hpc part hm⟩
  known id pc hr := (h.known id pc hr).trans_le (nextId_le_of_step hs)

theorem Owned.step (h : Owned s) (ho : Ordered throughput s) (hs : MailboxSteps throughput s s') : Owned s' := by
  have hsa : ∀ {id part}, s.monitor = some (id,part) → ∀ {part' : Section M} id' part'',
      some (id,part') = some (id',part'') → ∃ w, s.sched.pc w = .holds .running id' := by
    rintro id part hm part' _ _ ⟨⟩
    exact h.owner id part hm
  have hmov : ∀ {id pc}, s.runner = some (id,pc) → ∀ {pc' : RunnerPc M} id' pc'',
      some (id,pc') = some (id',pc'') → id' < s.sched.nextId := by
    rintro id pc hr pc' _ _ ⟨⟩
    exact h.known id pc hr
  cases hs with
  | sched hf hs => exact h.sched hs fun w id ha hpc => (hf w id ha hpc).outside
  | start =>
    refine ⟨h.coherent.schedulerSpawnBlock,h.owner,?_⟩
    rintro _ _ ⟨⟩
    exact Nat.lt_succ_self _
  | @enter w id part hpc =>
    refine { h with owner := ?_ }
    rintro _ _ ⟨⟩
    exact ⟨w,hpc⟩
  | suspend | stopRunner => exact { h with }
  | setId hm | take hm | goesOn hm => exact { h with owner := hsa hm, known := hmov (ho.matched _ _ hm) }
  | postUser hm | postSystem hm | resume hm | wakes hm | busy hm | idles hm => exact { h with owner := hsa hm }
  | @resumeId w id tgt hpc =>
    refine ⟨h.coherent.schedulerResumeLocked tgt,?_,fun id pc hr => ?_⟩
    · rintro _ _ ⟨⟩
      exact ⟨w,signals_resume.pc_eq hpc rfl⟩
    · exact (h.known id pc hr).trans_le sameCounters_resume.1.ge
  | park hm hs => exact ⟨h.coherent.step hs,nofun,hmov (ho.matched _ _ hm)⟩
  | exit => exact { h with owner := nofun }
  | batch hat | ends hat | hand hat | returnsSystem hat | returnsUser hat | drained hat | woken hat =>
    exact { h with known := hmov hat.runner }
  | @yield w id fiber hat hpc hs =>
    have hsc := h.sched hs fun w' id' ha hpc' => by
      cases ha
      cases hpc.symm.trans hpc'
      exact hat.outside
    exact { hsc with known := hmov hat.runner }

end Ownership

/-- A runner that sleeps in its loop is known to be idle, or somebody is about to resume it. Whoever
gives an idle mailbox something to process has not left the monitor yet. -/
structure Wakeful (s : MailboxState M) : Prop where
  identified : ∀ id pc, s.runner = some (id,pc) → pc ≠ .started → s.mailbox.runnerId = some id
  settled : ∀ id, s.monitor = some (id,.park) → s.mailbox.idle = true ∧ s.mailbox.hasProcessable = false
  watched : ∀ id fiber, s.runner = some (id,.parked) → s.sched.fibers id = some fiber → fiber.Asleep →
    s.mailbox.idle = true ∨ ∃ owner, s.monitor = some (owner,.resumeId)
  calm : ∀ id, s.runner = some (id,.parked) → s.mailbox.idle = true → s.mailbox.hasProcessable = true →
    ∃ owner, s.monitor = some (owner,.schedule)

section Waking
variable {throughput : ℤ} {s s' : MailboxState M} {id : ℕ} {pc : RunnerPc M}

theorem Ordered.not_park (h : Ordered throughput s) (hat : s.At id pc) : s.monitor ≠ some (id',.park) := by
  intro hm
  cases hat.runner.symm.trans (h.matched id' _ hm)
  exact hat.outside _ hm

theorem Wakeful.of_active
    (hi : ∀ id pc, s.runner = some (id,pc) → pc ≠ .started → s.mailbox.runnerId = some id)
    (hm : ∀ id, s.monitor ≠ some (id,.park)) (hr : ∀ id, s.runner ≠ some (id,.parked)) : Wakeful s where
  identified := hi
  settled id h := absurd h (hm id)
  watched id _ h := absurd h (hr id)
  calm id h := absurd h (hr id)

theorem Wakeful.setPc (h : Wakeful s) (ho : Ordered throughput s) (hat : s.At id pc) (hs : pc ≠ .started)
    (hp : pc' ≠ .parked) : Wakeful { s.setPc id pc' with sched := sched, log := log } := by
  refine .of_active ?_ (fun id' => ho.not_park hat) ?_
  · rintro _ _ ⟨⟩ -
    exact h.identified id pc hat.runner hs
  · rintro _ ⟨⟩
    exact hp rfl

theorem Wakeful.sched {sched : Scheduler} (h : Wakeful s) (ho : Owned s)
    (hs : Concurrency.step s.sched a = some sched)
    (hfr : ∀ w id, a.process = some w → s.sched.pc w = .holds .running id → s.Free id) :
    Wakeful { s with sched := sched } := by
  refine { h with watched := fun id fiber hr hf has => ?_ }
  obtain ⟨f',hf',has'⟩ := asleep_before ho.coherent hs (ho.known id _ hr)
    (fun w ha hpc => (hfr w id ha hpc).opened _ hr) hf has
  exact h.watched id f' hr hf' has'

theorem Wakeful.schedule (h : Wakeful s) (hm : s.monitor = some (id,part)) (hp : part ≠ .resumeId)
    (hi : mailbox.idle = s.mailbox.idle) (hrun : mailbox.runnerId = s.mailbox.runnerId) :
    Wakeful { s with mailbox := mailbox, monitor := some (id,.schedule), log := log } where
  identified id' pc hr hpc := hrun.trans (h.identified id' pc hr hpc)
  settled := by rintro _ ⟨⟩
  watched id' fiber hr hf ha := by
    obtain hi' | ⟨o,ho⟩ := h.watched id' fiber hr hf ha
    · exact .inl (hi.trans hi')
    · cases hm.symm.trans ho
      exact absurd rfl hp
  calm _ _ _ _ := ⟨id,rfl⟩

theorem Wakeful.setMonitor (h : Wakeful s)
    (hb : ∀ owner, s.monitor ≠ some (owner,.resumeId) ∧ s.monitor ≠ some (owner,.schedule))
    (haf : ∀ owner, monitor ≠ some (owner,.park)) : Wakeful { s with monitor := monitor } where
  identified := h.identified
  settled id hm := absurd hm (haf id)
  watched id fiber hr hf ha := by
    obtain hi | ⟨owner,ho⟩ := h.watched id fiber hr hf ha
    · exact .inl hi
    · exact absurd ho (hb owner).1
  calm id hr hi hp := by
    obtain ⟨owner,ho⟩ := h.calm id hr hi hp
    exact absurd ho (hb owner).2

theorem Wakeful.leave (hr : mailbox.runnerId = some id)
    (hp : pc' ≠ .parked) : Wakeful { s.setPc id pc' with mailbox := mailbox, monitor := some (id,.exit) } := by
  refine .of_active ?_ (by rintro _ ⟨⟩) ?_
  · rintro _ _ ⟨⟩ -
    exact hr
  · rintro _ ⟨⟩
    exact hp rfl

theorem runnerId_takeNext (m : Mailbox M) (count : ℕ) : (m.takeNext throughput count).2.runnerId = m.runnerId := by
  obtain heq | ⟨_,_,-,heq⟩ | ⟨_,_,-,-,-,-,heq⟩ := takeNext_cases throughput m count
  all_goals rw [heq]

theorem Wakeful.step (h : Wakeful s) (ho : Ordered throughput s) (howned : Owned s)
    (hs : MailboxSteps throughput s s') : Wakeful s' := by
  cases hs with
  | sched hfr hs => exact h.sched howned hs hfr
  | start hr =>
    refine .of_active ?_ (fun id hm => ?_) (by rintro _ ⟨⟩)
    · rintro _ _ ⟨⟩ hne
      exact absurd rfl hne
    · cases hr.symm.trans (ho.matched id _ hm)
  | enter _ hm he =>
    refine h.setMonitor (fun o => ?_) ?_
    · rw [hm]
      exact ⟨nofun,nofun⟩
    · rintro _ ⟨⟩
      exact he
  | suspend hr | stopRunner hr =>
    refine .of_active h.identified (fun id hm => ?_) fun id hp => ?_
    · cases hr.symm.trans (ho.matched id _ hm)
    · cases hr.symm.trans hp
  | setId => exact .leave rfl nofun
  | postUser hm | postSystem hm | resume hm => exact h.schedule hm nofun rfl rfl
  | @wakes id =>
    refine ⟨h.identified,by rintro _ ⟨⟩,fun _ _ _ _ _ => .inr ⟨id,rfl⟩,?_⟩
    rintro _ - ⟨⟩
  | busy hm hi =>
    refine ⟨h.identified,by rintro _ ⟨⟩,fun id fiber hr hf ha => ?_,fun id _ hi' => ?_⟩
    · obtain hi' | ⟨o,hown⟩ := h.watched id fiber hr hf ha
      · cases hi.symm.trans hi'
      · cases hm.symm.trans hown
    · cases hi.symm.trans hi'
  | resumeId _ hm ht =>
    refine ⟨h.identified,by rintro _ ⟨⟩,fun id fiber hr hf ha => ?_,fun id hr hi hso => ?_⟩
    · cases ht.symm.trans (h.identified id _ hr nofun)
      exact absurd ha (awake_resume hf)
    · obtain ⟨o,hown⟩ := h.calm id hr hi hso
      cases hm.symm.trans hown
  | take hm =>
    have hrun := h.identified _ _ (ho.matched _ _ hm) nofun
    refine .leave ((runnerId_takeNext _ _).trans hrun) ?_
    obtain heq | ⟨_,_,-,heq⟩ | ⟨_,_,-,-,-,-,heq⟩ := takeNext_cases throughput s.mailbox _
    all_goals
      rw [heq]
      nofun
  | goesOn hm => exact .leave (h.identified _ _ (ho.matched _ _ hm) nofun) nofun
  | idles hm hn =>
    have hr := ho.matched _ _ hm
    refine ⟨h.identified,fun _ _ => ⟨rfl,hn⟩,fun _ _ hp => ?_,fun _ hp => ?_⟩
    · cases hr.symm.trans hp
    · cases hr.symm.trans hp
  | park hm =>
    obtain ⟨hi,hn⟩ := h.settled _ hm
    refine ⟨?_,nofun,fun _ _ _ _ _ => .inl hi,fun _ _ _ hso => ?_⟩
    · rintro _ _ ⟨⟩ -
      exact h.identified _ _ (ho.matched _ _ hm) nofun
    · cases hn.symm.trans hso
  | exit hm =>
    refine h.setMonitor (fun o => ?_) nofun
    rw [hm]
    exact ⟨nofun,nofun⟩
  | batch hat | ends hat | hand hat | returnsSystem hat | returnsUser hat | yield hat | woken hat =>
    exact h.setPc ho hat nofun nofun
  | drained hat => exact h.setPc ho hat nofun (by split <;> nofun)

end Waking

def ResumePending (s : MailboxState M) (id : ℕ) : Prop :=
  s.mailbox.runnerId = some id ∧ ∃ w owner part, s.sched.pc w = .holds .running owner ∧
    s.monitor = some (owner,part) ∧ (part = .resumeId ∨ part = .schedule ∧ s.mailbox.idle = true)

/-- There is something to process, but the runner sleeps in its loop and nobody is about to resume it. -/
def Stuck (s : MailboxState M) : Prop :=
  s.mailbox.running = true ∧ s.mailbox.hasProcessable = true ∧
    ∃ id fiber, s.runner = some (id,.parked) ∧ s.sched.fibers id = some fiber ∧ fiber.Asleep ∧
      ¬ ResumePending s id

structure Disciplined (throughput : ℤ) (s : MailboxState M) : Prop where
  user : s.log.handedUser <+: s.log.postedUser
  system : s.log.handedSystem <+: s.log.postedSystem
  turn : ∀ a s', mailboxStep throughput s a = some s' →
    s'.mailbox.userQueue.length < s.mailbox.userQueue.length →
    s.mailbox.systemQueue = [] ∧ s.mailbox.suspended = false
  handed : ∀ a s', mailboxStep throughput s a = some s' → s'.log.handedUser ≠ s.log.handedUser →
    s.mailbox.suspended = false
  batch : s.log.batch ≤ throughput.toNat
  awake : ¬ Stuck s

structure Served (throughput : ℤ) (s : MailboxState M) : Prop where
  ordered : Ordered throughput s
  owned : Owned s
  wakeful : Wakeful s

section Discipline
variable {throughput : ℤ} {s s' : MailboxState M}

theorem Served.step (h : Served throughput s) (hs : mailboxStep throughput s a = some s') : Served throughput s' where
  ordered := h.ordered.step (mailboxSteps_of_step hs)
  owned := h.owned.step h.ordered (mailboxSteps_of_step hs)
  wakeful := h.wakeful.step h.ordered h.owned (mailboxSteps_of_step hs)

theorem Served.not_stuck (h : Served throughput s) : ¬ Stuck s := by
  rintro ⟨-,hs,id,fiber,hr,hf,ha,hp⟩
  have hrun := h.wakeful.identified id _ hr nofun
  obtain hi | ⟨o,ho⟩ := h.wakeful.watched id fiber hr hf ha
  · obtain ⟨o,ho⟩ := h.wakeful.calm id hr hi hs
    obtain ⟨w,hpc⟩ := h.owned.owner o _ ho
    exact hp ⟨hrun,w,o,_,hpc,ho,.inr ⟨rfl,hi⟩⟩
  · obtain ⟨w,hpc⟩ := h.owned.owner o _ ho
    exact hp ⟨hrun,w,o,_,hpc,ho,.inl rfl⟩

/-- Only `takeNext:` removes a user message. -/
theorem turn_of_steps (hst : MailboxSteps throughput s s')
    (hl : s'.mailbox.userQueue.length < s.mailbox.userQueue.length) :
    s.mailbox.systemQueue = [] ∧ s.mailbox.suspended = false := by
  cases hst with
  | postUser =>
    rw [List.length_append] at hl
    omega
  | @take id n =>
    obtain heq | ⟨_,_,-,heq⟩ | ⟨_,_,hsy,hs,-⟩ := takeNext_cases throughput s.mailbox n
    · rw [heq] at hl
      exact absurd hl (lt_irrefl _)
    · rw [heq] at hl
      exact absurd hl (lt_irrefl _)
    · exact ⟨hsy,hs⟩
  | _ => exact absurd hl (lt_irrefl _)

theorem Ordered.handed (h : Ordered throughput s) (hs : MailboxSteps throughput s s')
    (hne : s'.log.handedUser ≠ s.log.handedUser) : s.mailbox.suspended = false := by
  cases hs with
  | @hand id x n hat =>
    cases x with
    | system => exact absurd rfl hne
    | user e => exact h.unsuspended id e n hat.runner
  | _ => exact absurd rfl hne

theorem Served.disciplined (h : Served throughput s) : Disciplined throughput s where
  user := ⟨_,(List.append_assoc _ _ _).symm.trans h.ordered.user⟩
  system := ⟨_,(List.append_assoc _ _ _).symm.trans h.ordered.system⟩
  turn _ _ hs := turn_of_steps (mailboxSteps_of_step hs)
  handed _ _ hs := h.ordered.handed (mailboxSteps_of_step hs)
  batch := h.ordered.bounded
  awake := h.not_stuck

theorem served_start (workerCount fibers : ℕ) : Served throughput (mailboxStart M workerCount fibers) where
  ordered := ⟨rfl,rfl,nofun,Nat.zero_le _,nofun,nofun⟩
  owned := ⟨coherent_start workerCount fibers,nofun,nofun⟩
  wakeful := ⟨nofun,nofun,nofun,nofun⟩

end Discipline

/-- Every state of every run, with any number of processes that post. -/
theorem mailbox_disciplined (M : Type) (throughput : ℤ) (workerCount fibers : ℕ) (as : List (MailboxAction M)) :
    Along (mailboxStep throughput) (Disciplined throughput) (mailboxStart M workerCount fibers) as :=
  along_of_invariant (fun _ _ _ h hs => h.step hs) (fun _ h => h.disciplined)
    (served_start workerCount fibers) as

/-- The system message that was posted before the fork reaches the actor. -/
example : (Interleaving.perform (mailboxStep 30) (mailboxStart ℕ 1 1)
    [.sched (.loop 0),.sched (.run 0),.postSystem 0 7,.inside 0,.inside 0,.inside 0,.start 0,
      .sched (.resume 0 1),.sched (.yield 0),.sched (.switch 0),.sched (.commit 0),.sched (.loop 0),
      .sched (.run 0),.runner 0,.inside 0,.inside 0,.runner 0,.runner 0,.inside 0,.inside 0,.runner 0]).map
    (fun s => s.log.handedSystem) = some [7] := by
  rfl

end SmalltalkJit.Actors
