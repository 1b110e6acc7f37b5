import SmalltalkJit.Actors.ActorContext

/-! # Actors stop bottom-up

An actor reports its termination once, and handles no user message afterwards. It
waits for the children in its list. A restart empties the list, and the actor may
spawn children in its last delivery; the report then does not wait for these. When
no restart forgets a child that has not terminated, and no actor spawns in its last
delivery, an actor reports only after all the children that it ever spawned.
-/
namespace SmalltalkJit.Actors
open Interleaving Function Option

def Activity.Over : Activity → Prop
  | .idle | .dead => True
  | _ => False

def Activity.Leaving : Activity → Prop
  | .delivering .finish | .failing .finish | .delivered .finish | .unregister | .stopRunner | .report => True
  | _ => False

/-- A step of an actor that is not a spawn, the reset of a restart or the report. Only a child whose
notice has arrived leaves the list. -/
structure Turn (a a' : ActorContext) : Prop where
  reports : a'.reports = a.reports
  spawned : a'.spawned = a.spawned
  children : ∀ child ∈ a.children, child ∈ a'.children ∨ .actorTerminated child ∈ a.mailbox.systemQueue
  notices : ∀ who, .actorTerminated who ∈ a'.mailbox.systemQueue →
    .actorTerminated who ∈ a.mailbox.systemQueue
  leaving : (a.activity.Leaving → a.children = []) → a'.activity.Leaving → a'.children = []
  quiet : a.mailbox.running = false → a.activity.Over → a'.mailbox.running = false ∧ a'.activity.Over
  stopped : (a.activity = .report → a.mailbox.running = false) → a'.activity = .report →
    a'.mailbox.running = false
  handled : a.mailbox.running = false → a'.handled = a.handled

variable {out : Option (ℕ × Message)} {message : Message} {b : ActorContext}

section Turns
variable {a a' : ActorContext} {throughput : ℤ} {pid : ℕ}

theorem Turn.setActivity (ho : ¬ a.activity.Over) (hl : activity.Leaving → a.activity.Leaving ∨ a.children = [])
    (hr : activity ≠ .report) : Turn a (a.setActivity activity) where
  reports := rfl
  spawned := rfl
  children _ h := .inl h
  notices _ h := h
  leaving h h' := (hl h').elim h id
  quiet _ h := absurd h ho
  stopped _ h := absurd h hr
  handled _ := rfl

theorem Turn.of_running (hr : a.mailbox.running = true) (hre : a'.reports = a.reports) (hs : a'.spawned = a.spawned)
    (hc : ∀ child ∈ a.children, child ∈ a'.children ∨ .actorTerminated child ∈ a.mailbox.systemQueue)
    (hq : a'.mailbox.systemQueue ⊆ a.mailbox.systemQueue) (hl : ¬ a'.activity.Leaving) : Turn a a' where
  reports := hre
  spawned := hs
  children := hc
  notices _ h := hq h
  leaving _ h := absurd h hl
  quiet h := absurd (hr.symm.trans h) nofun
  stopped _ h := by
    rw [h] at hl
    exact absurd trivial hl
  handled h := absurd (hr.symm.trans h) nofun

theorem handleStop_fields (a : ActorContext) : a.handleStop.reports = a.reports ∧
    a.handleStop.spawned = a.spawned ∧ a.handleStop.children = a.children ∧
    a.handleStop.mailbox = a.mailbox ∧ (a.activity = .idle → ¬ a.handleStop.activity.Leaving) := by
  unfold ActorContext.handleStop
  split
  · refine ⟨rfl,rfl,rfl,rfl,fun h => ?_⟩
    rw [h]
    exact id
  · exact ⟨rfl,rfl,rfl,rfl,fun _ => id⟩

theorem turn_handleStop (hrun : a.mailbox.running = true) (hi : b.activity = .idle)
    (hr : b.reports = a.reports) (hs : b.spawned = a.spawned) (hc : b.children = a.children)
    (hq : b.mailbox.systemQueue ⊆ a.mailbox.systemQueue) : Turn a b.handleStop := by
  obtain ⟨hr',hs',hc',hm',hl⟩ := handleStop_fields b
  refine .of_running hrun (hr'.trans hr) (hs'.trans hs) (fun c hch => .inl ?_) (hm' ▸ hq) (hl hi)
  rw [hc',hc]
  exact hch

theorem turn_invokeSystem (hr : a.mailbox.running = true) (hi : a.activity = .idle)
    (hq : a.mailbox.systemQueue = message :: rest) :
    Turn a ({ a with mailbox := { a.mailbox with systemQueue := rest } }.invokeSystem message) := by
  have hres : rest ⊆ a.mailbox.systemQueue := hq ▸ List.subset_cons_self message rest
  have hs : ∀ {activity : Activity}, ¬ activity.Leaving →
      Turn a { a with mailbox := { a.mailbox with systemQueue := rest }, activity := activity } := fun hl =>
    .of_running hr rfl rfl (fun _ h => .inl h) hres hl
  have hi' : ¬ a.activity.Leaving := by
    rw [hi]
    exact id
  cases message with
  | actorStarted | systemRestart | actorFailure => exact hs id
  | systemStop => exact turn_handleStop hr hi rfl rfl rfl hres
  | systemResume => exact .of_running hr rfl rfl (fun _ h => .inl h) hres hi'
  | actorTerminated who =>
    refine .of_running hr rfl rfl (fun c hc => ?_) hres id
    by_cases hwho : c = who
    · right
      rw [hq,hwho]
      exact List.mem_cons_self
    · exact .inl ((List.mem_erase_of_ne hwho).mpr hc)
  | user | poisonPill => exact hs hi'

theorem turn_take (h : a.take throughput count = some a') : Turn a a' := by
  obtain ⟨hi,h⟩ := ite_none_right_eq_some.mp h
  have hr : a.mailbox.running = true := by
    by_contra hnot
    simp [Mailbox.takeNext,hnot] at h
  obtain heq | ⟨message,r,hq,heq⟩ | ⟨e,r,-,-,-,-,heq⟩ := takeNext_cases throughput a.mailbox count
  · rw [heq] at h
    cases h
  · rw [heq] at h
    cases h
    exact turn_invokeSystem hr hi hq
  · rw [heq] at h
    cases h
    unfold ActorContext.invokeUser
    split
    · exact turn_handleStop hr hi rfl rfl rfl fun _ h => h
    · exact .of_running hr rfl rfl (fun _ h => .inl h) (fun _ h => h) id

theorem Turn.fail (ho : ¬ a.activity.Over) (hl : (Activity.failing next).Leaving → a.activity.Leaving) :
    Turn a (a.suspend.setActivity (.failing next)) where
  reports := rfl
  spawned := rfl
  children _ h := .inl h
  notices _ h := h
  leaving h h' := h (hl h')
  quiet _ h := absurd h ho
  stopped _ h := nomatch h
  handled _ := rfl

theorem turn_fail (h : a.fail = some a') : Turn a a' := by
  unfold ActorContext.fail at h
  split at h
  · next next ha =>
    cases h
    refine .fail (by rw [ha]; exact id) ?_
    rw [ha]
    cases next <;> exact id
  · cases h

theorem turn_handleFailure (h : a.handleFailure directive = some (a',out)) :
    Turn a a' ∧ ∀ target who, out ≠ some (target,.actorTerminated who) := by
  unfold ActorContext.handleFailure at h
  split at h
  · next c ha =>
    have ho : ¬ a.activity.Over := by
      rw [ha]
      exact id
    cases directive with
    | resume | restart | stop =>
      cases h
      exact ⟨.setActivity ho (fun h => nomatch h) nofun,nofun⟩
    | escalate =>
      cases h
      exact ⟨.fail ho (fun h => nomatch h),nofun⟩
  · cases h

theorem turn_goOn (ha : a.activity = .delivered next) : Turn a (a.goOn next) := by
  have ho : ¬ a.activity.Over := by
    rw [ha]
    exact id
  cases next with
  | done | restart => exact .setActivity ho (fun h => nomatch h) nofun
  | stop =>
    refine .setActivity ho (fun h => .inr ?_) ?_
    · by_contra hc
      rw [if_neg hc] at h
      exact h
    · split <;> nofun
  | finish => exact .setActivity ho (fun _ => .inl (by rw [ha]; trivial)) nofun
  | terminated =>
    refine .setActivity ho (fun h => .inr ?_) ?_
    · by_contra hc
      rw [if_neg fun h => hc h.2] at h
      exact h
    · split <;> nofun

/-- A step of the code of a context is a turn, the reset of a restart, or the report. -/
theorem proceed_cases (h : a.proceed pid = some (a',out)) :
    (Turn a a' ∧ ∀ target who, out ≠ some (target,.actorTerminated who)) ∨
    (a.activity = .restarting [] ∧ a' = { a.resume with children := [], activity := .delivering .done } ∧
      out = none) ∨
    a.activity = .report ∧ a' = { a with reports := a.reports+1, activity := .idle } ∧
      out = a.parent.map fun p => (p,.actorTerminated pid) := by
  unfold ActorContext.proceed at h
  cases ha : a.activity <;> rw [ha] at h
  case idle | supervising | dead => cases h
  case delivering next =>
    cases h
    refine .inl ⟨.setActivity (by rw [ha]; exact id) (fun h => .inl ?_) nofun,nofun⟩
    rw [ha]
    cases next <;> exact h
  case failing next =>
    cases h
    refine .inl ⟨.setActivity (by rw [ha]; exact id) (fun h => .inl ?_) nofun,?_⟩
    · rw [ha]
      cases next <;> exact h
    · unfold ActorContext.failure
      split <;> nofun
  case delivered =>
    cases h
    exact .inl ⟨turn_goOn ha,nofun⟩
  case stopping pids =>
    have ho : ¬ a.activity.Over := by
      rw [ha]
      exact id
    cases pids with
    | nil | cons =>
      cases h
      exact .inl ⟨.setActivity ho (fun h => nomatch h) nofun,nofun⟩
  case restarting pids =>
    cases pids with
    | nil =>
      cases h
      exact .inr (.inl ⟨rfl,rfl,rfl⟩)
    | cons =>
      cases h
      exact .inl ⟨.setActivity (by rw [ha]; exact id) (fun h => nomatch h) nofun,nofun⟩
  case unregister | stopRunner =>
    cases h
    refine .inl ⟨⟨rfl,rfl,fun _ h => .inl h,fun _ h => h,fun h _ => h ?_,fun _ h => ?_,fun _ h => ?_,fun _ => rfl⟩,
      nofun⟩
    · rw [ha]
      trivial
    · rw [ha] at h
      exact h.elim
    · cases h <;> rfl
  case report =>
    cases h
    exact .inr (.inr ⟨rfl,rfl,rfl⟩)

theorem turn_postSystem (hm : message.isNotice = false) : Turn a (a.postSystem message) where
  reports := rfl
  spawned := rfl
  children _ h := .inl h
  notices who h := by
    obtain h | h := List.mem_append.mp h
    · exact h
    · rw [← List.mem_singleton.mp h] at hm
      cases hm
  leaving h := h
  quiet h h' := ⟨h,h'⟩
  stopped h := h
  handled _ := rfl

theorem turn_postUser : Turn a (a.postUser envelope) :=
  ⟨rfl,rfl,fun _ h => .inl h,fun _ h => h,fun h => h,fun h h' => ⟨h,h'⟩,fun h => h,fun _ => rfl⟩

theorem turn_die : Turn a (a.setActivity .dead) :=
  ⟨rfl,rfl,fun _ h => .inl h,fun _ h => h,fun _ h => h.elim,fun h _ => ⟨h,trivial⟩,nofun,fun _ => rfl⟩

end Turns

def ActorSystem.Terminated (s : ActorSystem) (pid : ℕ) : Prop := ∃ a, s.actors pid = some a ∧ 1 ≤ a.reports

structure ActorContext.Sound (terminated : ℕ → Prop) (a : ActorContext) : Prop where
  once : a.reports = 0 ∨ a.reports = 1 ∧ a.mailbox.running = false ∧ a.activity.Over
  stopped : a.activity = .report → a.mailbox.running = false
  notices : ∀ who, .actorTerminated who ∈ a.mailbox.systemQueue → terminated who

/-- What holds of an actor as long as no child is forgotten. -/
structure ActorContext.Kept (terminated : ℕ → Prop) (a : ActorContext) : Prop extends a.Sound terminated where
  listed : ∀ child ∈ a.spawned, child ∈ a.children ∨ terminated child
  leaving : a.activity.Leaving → a.children = []
  reported : 1 ≤ a.reports → ∀ child ∈ a.spawned, terminated child

/-- A property of an actor that may depend on who has terminated, and is not lost when more actors do. -/
structure Lasting (P : (ℕ → Prop) → ActorContext → Prop) : Prop where
  mono : ∀ T T' a, (∀ pid, T pid → T' pid) → P T a → P T' a
  turn : ∀ T a a', P T a → Turn a a' → P T a'
  notice : ∀ T a who, P T a → T who → P T (a.postSystem (.actorTerminated who))
  spawned : ∀ T parent, P T (.spawnProps parent)

theorem lasting_sound : Lasting fun T a => a.Sound T where
  mono T T' a hT h := { h with notices := fun who hwho => hT who (h.notices who hwho) }
  turn T a a' h ht := by
    refine ⟨?_,ht.stopped h.stopped,fun who hwho => h.notices who (ht.notices who hwho)⟩
    rw [ht.reports]
    exact h.once.imp_right fun ⟨hone,hr,ho⟩ => ⟨hone,ht.quiet hr ho⟩
  notice T a who h hwho := by
    refine { h with notices := fun who' hwho' => ?_ }
    obtain hwho' | hwho' := List.mem_append.mp hwho'
    · exact h.notices who' hwho'
    · cases List.mem_singleton.mp hwho'
      exact hwho
  spawned T parent := ⟨.inl rfl,nofun,by simp [ActorContext.spawnProps]⟩

theorem lasting_kept : Lasting fun T a => a.Kept T where
  mono T T' a hT h :=
    { lasting_sound.mono T T' a hT h.toSound, h with
      listed := fun c hc => (h.listed c hc).imp_right (hT c)
      reported := fun hr c hc => hT c (h.reported hr c hc) }
  turn T a a' h ht := by
    refine { lasting_sound.turn T a a' h.toSound ht with
      listed := fun c hc => ?_
      leaving := ht.leaving h.leaving
      reported := fun hr c hc => ?_ }
    · rw [ht.spawned] at hc
      obtain hl | hte := h.listed c hc
      · exact (ht.children c hl).imp_right (h.notices c)
      · exact .inr hte
    · rw [ht.spawned] at hc
      rw [ht.reports] at hr
      exact h.reported hr c hc
  notice T a who h hwho :=
    { lasting_sound.notice T a who h.toSound hwho with
      listed := h.listed
      leaving := h.leaving
      reported := h.reported }
  spawned T parent := { lasting_sound.spawned T parent with
    listed := nofun
    leaving := nofun
    reported := nofun }

/-- Every actor has the property, and pids that have not been given out are free. -/
structure Populated (P : (ℕ → Prop) → ActorContext → Prop) (s : ActorSystem) : Prop where
  fresh : ∀ pid, s.nextId ≤ pid → s.actors pid = none
  all : ∀ pid a, s.actors pid = some a → P s.Terminated a

/-- The steps that decide what happens to the children: a spawn, the reset of a restart, the report. -/
structure Admits (P : (ℕ → Prop) → ActorContext → Prop) (s : ActorSystem) (action : ActorAction) : Prop where
  spawn : ∀ pid a next T, action = .spawn pid → s.actors pid = some a → a.activity = .delivering next → P T a →
    P T { a with children := a.children ++ [s.nextId], spawned := a.spawned ++ [s.nextId] }
  reset : ∀ pid a T, action = .proceed pid → s.actors pid = some a → a.activity = .restarting [] →
    (∀ q, s.Terminated q → T q) → P T a → P T { a.resume with children := [], activity := .delivering .done }
  report : ∀ a T, a.activity = .report → P T a → P T { a with reports := a.reports+1, activity := .idle }

section Population
variable {P : (ℕ → Prop) → ActorContext → Prop} {s s' : ActorSystem} {pid : ℕ} {parent : Option ℕ}
  {a a' : ActorContext}

theorem set_self : (s.set pid a).actors pid = some a := update_self _ _ _

variable (h : Populated P s)
include h

theorem Populated.lt_nextId (ha : s.actors pid = some a) : pid < s.nextId := by
  by_contra hnot
  cases (h.fresh pid (Nat.le_of_not_lt hnot)).symm.trans ha

variable (hP : Lasting P)
include hP

theorem Populated.set (ha : s.actors pid = some a) (hr : a.reports ≤ a'.reports)
    (hnew : (∀ q, s.Terminated q → (s.set pid a').Terminated q) → P (s.set pid a').Terminated a') :
    Populated P (s.set pid a') := by
  have hm : ∀ q, s.Terminated q → (s.set pid a').Terminated q := by
    rintro q ⟨b,hb,hb'⟩
    by_cases hq : q = pid
    · rw [hq] at hb ⊢
      cases ha.symm.trans hb
      exact ⟨a',set_self,hb'.trans hr⟩
    · exact ⟨b,(update_of_ne hq _ _).trans hb,hb'⟩
  refine ⟨fun q hq => ?_,fun q b hb => ?_⟩
  · exact (update_of_ne ((h.lt_nextId ha).trans_le hq).ne' _ _).trans (h.fresh q hq)
  · by_cases hqp : q = pid
    · rw [hqp] at hb
      cases set_self.symm.trans hb
      exact hnew hm
    · exact hP.mono _ _ b hm (h.all q b ((update_of_ne hqp _ _).symm.trans hb))

theorem Populated.turn (ha : s.actors pid = some a) (ht : Turn a a') : Populated P (s.set pid a') :=
  h.set hP ha ht.reports.ge fun hm => hP.turn _ a a' (hP.mono _ _ a hm (h.all pid a ha)) ht

theorem Populated.deliver (hr : ∀ a, (post a).reports = a.reports)
    (hp : ∀ T a, (∀ q, s.Terminated q → T q) → P T a → P T (post a)) : Populated P (s.deliver pid post) := by
  unfold ActorSystem.deliver
  split
  · next a ha =>
    split
    · exact h.set hP ha (hr a).ge fun hm => hp _ a hm (hP.mono _ _ a hm (h.all pid a ha))
    · exact h
  · exact h

theorem Populated.deliverSystem (hm : message.isNotice = false) : Populated P (s.deliverSystem pid message) :=
  h.deliver hP (fun _ => rfl) fun T a _ ha => hP.turn T a _ ha (turn_postSystem hm)

theorem Populated.deliverNotice (hwho : s.Terminated who) :
    Populated P (s.deliverSystem pid (.actorTerminated who)) :=
  h.deliver hP (fun _ => rfl) fun T a hT ha => hP.notice T a who ha (hT who hwho)

theorem Populated.spawnProps : Populated P (s.spawnProps parent) := by
  have hm : ∀ q, s.Terminated q → (s.spawnProps parent).Terminated q := by
    rintro q ⟨b,hb,hb'⟩
    exact ⟨b,(update_of_ne (h.lt_nextId hb).ne _ _).trans hb,hb'⟩
  refine ⟨fun q hq => ?_,fun q b hb => ?_⟩
  · have hq' : s.nextId+1 ≤ q := hq
    exact (update_of_ne (by omega) _ _).trans (h.fresh q (by omega))
  · by_cases hq : q = s.nextId
    · rw [hq] at hb
      cases set_self.symm.trans hb
      exact hP.spawned _ parent
    · exact hP.mono _ _ b hm (h.all q b ((update_of_ne hq _ _).symm.trans hb))

theorem Populated.update (ha : s.actors pid = some a) (ht : Turn a a')
    (hout : ∀ target who, out ≠ some (target,.actorTerminated who)) : Populated P (s.update pid (a',out)) := by
  have hset := h.turn hP ha ht
  cases out with
  | none => exact hset
  | some p =>
    obtain ⟨target,message⟩ := p
    refine hset.deliverSystem hP ?_
    cases message with
    | actorTerminated who => exact absurd rfl (hout target who)
    | _ => rfl

theorem Populated.step (had : Admits P s action) (hs : actorStep throughput s action = some s') : Populated P s' := by
  cases action with
  | spawnRoot =>
    cases hs
    exact h.spawnProps hP
  | tell =>
    cases hs
    exact h.deliver hP (fun _ => rfl) fun T a _ ha => hP.turn T a _ ha turn_postUser
  | sendSystem =>
    obtain ⟨hme,heq⟩ := ite_none_left_eq_some.mp hs
    cases heq
    exact h.deliverSystem hP (Bool.eq_false_iff.mpr hme)
  | take =>
    obtain ⟨a,a',ha,ha',rfl⟩ := exists_actor hs
    exact h.turn hP ha (turn_take ha')
  | spawn pid =>
    obtain ⟨a,a',ha,ha',rfl⟩ := exists_actor hs
    unfold ActorContext.spawn at ha'
    split at ha'
    · next next hact =>
      cases ha'
      refine Populated.spawnProps (h.set hP ha le_rfl fun hm => ?_) hP
      exact had.spawn pid a next _ rfl ha hact (hP.mono _ _ a hm (h.all pid a ha))
    · cases ha'
  | fail =>
    obtain ⟨a,a',ha,ha',rfl⟩ := exists_actor hs
    exact h.turn hP ha (turn_fail ha')
  | handleFailure =>
    obtain ⟨a,⟨a',out⟩,ha,ha',rfl⟩ := exists_actor hs
    obtain ⟨ht,hout⟩ := turn_handleFailure ha'
    exact h.update hP ha ht hout
  | proceed pid =>
    obtain ⟨a,⟨a',out⟩,ha,ha',rfl⟩ := exists_actor hs
    obtain ⟨ht,hout⟩ | ⟨hact,rfl,rfl⟩ | ⟨hact,rfl,rfl⟩ := proceed_cases ha'
    · exact h.update hP ha ht hout
    · refine h.set hP ha le_rfl fun hm => ?_
      exact had.reset pid a _ rfl ha hact hm (hP.mono _ _ a hm (h.all pid a ha))
    · have hset := h.set hP ha (Nat.le_succ _) fun hm => had.report a _ hact (hP.mono _ _ a hm (h.all pid a ha))
      rcases hout : a.parent.map fun p => (p,Message.actorTerminated pid) with _ | ⟨target,message⟩
      · exact hset
      · obtain ⟨p,-,heq⟩ := map_eq_some_iff.mp hout
        cases heq
        exact hset.deliverNotice hP ⟨_,set_self,Nat.le_add_left _ _⟩
  | die =>
    obtain ⟨a,ha,rfl⟩ := map_eq_some_iff.mp hs
    exact h.turn hP ha turn_die

end Population

variable {action : ActorAction}

theorem populated_new : Populated P .new := ⟨fun _ _ => rfl,fun _ _ h => absurd h (by simp [ActorSystem.new])⟩

theorem ActorContext.Sound.reports_eq_zero {a : ActorContext} (h : a.Sound T)
    (ho : ¬ a.activity.Over) : a.reports = 0 :=
  h.once.resolve_right fun h => ho h.2.2

theorem admits_sound (s : ActorSystem) (action : ActorAction) : Admits (fun T a => a.Sound T) s action where
  spawn pid a next T _ _ _ h := ⟨h.once,h.stopped,h.notices⟩
  reset pid a T _ _ ha _ h := ⟨.inl (h.reports_eq_zero (by rw [ha]; exact id)),nofun,h.notices⟩
  report a T ha h := by
    have hz := h.reports_eq_zero (by rw [ha]; exact id)
    exact ⟨.inr ⟨congrArg (· + 1) hz,h.stopped ha,trivial⟩,nofun,h.notices⟩

/-- No actor spawns a child in the delivery of `ActorStopped`, and when a restart empties the list of the
children all of them have terminated. -/
def Considerate (s : ActorSystem) : ActorAction → Prop
  | .spawn pid => ∀ a ∈ s.actors pid, a.activity ≠ .delivering .finish
  | .proceed pid => ∀ a ∈ s.actors pid, a.activity = .restarting [] → ∀ child ∈ a.children, s.Terminated child
  | _ => True

theorem admits_kept (hok : Considerate s action) : Admits (fun T a => a.Kept T) s action where
  spawn pid a next T haction ha hact h := by
    subst haction
    refine { (admits_sound s (.spawn pid)).spawn pid a next T rfl ha hact h.toSound with
      listed := fun child hc => ?_
      leaving := fun hle => ?_
      reported := fun hr => ?_ }
    · obtain hc | hc := List.mem_append.mp hc
      · exact (h.listed child hc).imp_left (List.mem_append_left _)
      · exact .inl (List.mem_append_right _ hc)
    · have hf := hok a ha
      rw [hact] at hle hf
      cases next with
      | finish => exact absurd rfl hf
      | done | stop | restart | terminated => exact hle.elim
    · have hz := h.reports_eq_zero (by rw [hact]; exact id)
      change 1 ≤ a.reports at hr
      omega
  reset pid a T haction ha hact hT h := by
    subst haction
    refine { (admits_sound s (.proceed pid)).reset pid a T rfl ha hact hT h.toSound with
      listed := fun child hc => .inr ?_
      leaving := nofun
      reported := h.reported }
    obtain hl | ht := h.listed child hc
    · exact hT child (hok a ha hact child hl)
    · exact ht
  report a T hact h := by
    have hch : a.children = [] := h.leaving (by rw [hact]; trivial)
    have hall : ∀ child ∈ a.spawned, T child := fun child hc => by
      obtain hl | ht := h.listed child hc
      · rw [hch] at hl
        cases hl
      · exact ht
    exact { (admits_sound s action).report a T hact h.toSound with
      listed := h.listed
      leaving := nofun
      reported := fun _ => hall }

variable {target : ℕ}

section Handling
variable {s s' : ActorSystem} {pid : ℕ} {a a' : ActorContext}

variable (ha : s.actors pid = some a)
include ha

theorem handled_spawnProps (hf : s.actors s.nextId = none) : (s.spawnProps parent).actors pid = some a := by
  refine (update_of_ne ?_ _ _).trans ha
  rintro rfl
  cases hf.symm.trans ha

theorem handled_deliver (hp : ∀ a, (post a).handled = a.handled) :
    ∃ a', (s.deliver target post).actors pid = some a' ∧ a'.handled = a.handled := by
  unfold ActorSystem.deliver
  split
  · next b hb =>
    split
    · by_cases hpid : pid = target
      · subst hpid
        cases ha.symm.trans hb
        exact ⟨_,set_self,hp a⟩
      · exact ⟨a,(update_of_ne hpid _ _).trans ha,rfl⟩
    · exact ⟨a,ha,rfl⟩
  · exact ⟨a,ha,rfl⟩

variable (hr : a.mailbox.running = false)
include hr

theorem handled_set (hb : s.actors target = some b) (hh : b.mailbox.running = false → b'.handled = b.handled) :
    ∃ a', (s.set target b').actors pid = some a' ∧ a'.handled = a.handled := by
  by_cases hpid : pid = target
  · subst hpid
    cases ha.symm.trans hb
    exact ⟨b',set_self,hh hr⟩
  · exact ⟨a,(update_of_ne hpid _ _).trans ha,rfl⟩

theorem handled_update (hb : s.actors target = some b) (hh : b.mailbox.running = false → b'.handled = b.handled) :
    ∃ a', (s.update target (b',out)).actors pid = some a' ∧ a'.handled = a.handled := by
  obtain ⟨a',ha',hh'⟩ := handled_set ha hr hb hh
  cases out with
  | none => exact ⟨a',ha',hh'⟩
  | some p =>
    have hs : ∃ a'', ((s.set target b').deliverSystem p.1 p.2).actors pid = some a'' ∧
        a''.handled = a'.handled := handled_deliver ha' fun _ => rfl
    obtain ⟨a'',ha'',hh''⟩ := hs
    exact ⟨a'',ha'',hh''.trans hh'⟩

theorem handled_of_step (hf : s.actors s.nextId = none)
    (hs : actorStep throughput s action = some s') : ∃ a', s'.actors pid = some a' ∧ a'.handled = a.handled := by
  cases action with
  | spawnRoot =>
    cases hs
    exact ⟨a,handled_spawnProps ha hf,rfl⟩
  | tell =>
    cases hs
    exact handled_deliver ha fun _ => rfl
  | sendSystem =>
    obtain ⟨-,heq⟩ := ite_none_left_eq_some.mp hs
    cases heq
    exact handled_deliver ha fun _ => rfl
  | take =>
    obtain ⟨b,b',hb,hb',rfl⟩ := exists_actor hs
    exact handled_set ha hr hb (turn_take hb').handled
  | spawn target =>
    obtain ⟨b,b',hb,hb',rfl⟩ := exists_actor hs
    have hh : b'.handled = b.handled := by
      unfold ActorContext.spawn at hb'
      split at hb'
      · cases hb'
        rfl
      · cases hb'
    obtain ⟨a',ha',hh'⟩ := handled_set ha hr hb (fun _ => hh)
    refine ⟨a',handled_spawnProps ha' ?_,hh'⟩
    refine (update_of_ne (fun heq => ?_) _ _).trans hf
    change s.nextId = target at heq
    rw [heq] at hf
    cases hf.symm.trans hb
  | fail =>
    obtain ⟨b,b',hb,hb',rfl⟩ := exists_actor hs
    exact handled_set ha hr hb (turn_fail hb').handled
  | handleFailure =>
    obtain ⟨b,⟨b',out⟩,hb,hb',rfl⟩ := exists_actor hs
    exact handled_update ha hr hb (turn_handleFailure hb').1.handled
  | proceed =>
    obtain ⟨b,⟨b',out⟩,hb,hb',rfl⟩ := exists_actor hs
    refine handled_update ha hr hb (fun h => ?_)
    obtain ⟨ht,-⟩ | ⟨-,rfl,-⟩ | ⟨-,rfl,-⟩ := proceed_cases hb'
    · exact ht.handled h
    · rfl
    · rfl
  | die =>
    obtain ⟨b,hb,rfl⟩ := map_eq_some_iff.mp hs
    exact handled_set ha hr hb (fun _ => rfl)

end Handling

instance (s : ActorSystem) (pid : ℕ) : Decidable (s.Terminated pid) :=
  decidable_of_iff ((s.actors pid).any fun a => 1 ≤ a.reports) (by
    simp only [ActorSystem.Terminated,any_eq_true,decide_eq_true_eq])

instance (s : ActorSystem) (action : ActorAction) : Decidable (Considerate s action) :=
  match action with
  | .spawn pid => inferInstanceAs (Decidable (∀ a ∈ s.actors pid, a.activity ≠ .delivering .finish))
  | .proceed pid => inferInstanceAs (Decidable
      (∀ a ∈ s.actors pid, a.activity = .restarting [] → ∀ child ∈ a.children, s.Terminated child))
  | .spawnRoot | .tell .. | .sendSystem .. | .take .. | .fail _ | .handleFailure .. | .die _ => .isTrue trivial

/-- In every run an actor reports at most once and handles no user message after that; when no child is
forgotten, every child that it ever spawned has terminated before. -/
theorem actors_stop_bottom_up (throughput : ℕ → ℤ) (as : List ActorAction) (s : ActorSystem)
    (h : perform (actorStep throughput) .new as = some s) : (∀ pid a, s.actors pid = some a → a.reports ≤ 1) ∧
    (∀ pid a, s.actors pid = some a → 1 ≤ a.reports → ∀ action s', actorStep throughput s action = some s' →
      ∃ a', s'.actors pid = some a' ∧ a'.handled = a.handled) ∧
    (Meets (actorStep throughput) Considerate .new as →
      ∀ pid a, s.actors pid = some a → 1 ≤ a.reports → ∀ child ∈ a.spawned, s.Terminated child) := by
  have hso : Populated (fun T a => a.Sound T) s := Interleaving.invariant
    (fun s action _ hs hst => hs.step lasting_sound (admits_sound s action) hst) populated_new h
  refine ⟨fun pid a ha => ?_,fun pid a ha hre action s' hst => ?_,fun hm pid a ha => ?_⟩
  · obtain hz | ⟨hone,-⟩ := (hso.all pid a ha).once
    · omega
    · exact hone.le
  · obtain hz | ⟨-,hr,-⟩ := (hso.all pid a ha).once
    · omega
    · exact handled_of_step ha hr (hso.fresh _ le_rfl) hst
  · have hk : Populated (fun T a => a.Kept T) s := invariant_of_meets
      (fun _ _ _ hs hok hst => hs.step lasting_kept (admits_kept hok) hst) populated_new hm h
    exact (hk.all pid a ha).reported

def family : List ActorAction :=
  [.spawnRoot,.take 0 0,.spawn 0,.proceed 0,.proceed 0,.take 1 0,.spawn 1,.proceed 1,.proceed 1]

def orderly : List ActorAction :=
  family ++ [.sendSystem 1 .systemStop,.take 1 0] ++ List.replicate 4 (.proceed 1) ++
    [.take 2 0,.proceed 2,.proceed 2,.take 2 0] ++ List.replicate 7 (.proceed 2) ++
    [.take 1 0] ++ List.replicate 7 (.proceed 1)

theorem actors_stop_bottom_up_orderly : ∃ s, perform (actorStep fun _ => 30) .new orderly = some s ∧
      Meets (actorStep fun _ => 30) Considerate .new orderly ∧
      (∃ a, s.actors 1 = some a ∧ a.reports = 1 ∧ a.spawned = [2]) ∧ s.Terminated 2 := by
  have hm : Meets (actorStep fun _ => 30) Considerate .new orderly := by decide +kernel
  have hrun : (perform (actorStep fun _ => 30) .new orderly).any (fun s =>
      (s.actors 1).any fun a => a.reports = 1 ∧ a.spawned = [2]) = true := by decide +kernel
  obtain ⟨s,hs,hrun⟩ := (any_eq_true _ _).mp hrun
  obtain ⟨a,ha,hrun⟩ := (any_eq_true _ _).mp hrun
  obtain ⟨hr,hsp⟩ := of_decide_eq_true hrun
  refine ⟨s,hs,hm,⟨a,ha,hr,hsp⟩,?_⟩
  exact (actors_stop_bottom_up (fun _ => 30) orderly s hs).2.2 hm 1 a ha hr.ge 2 (by simp [hsp])

def restarted : List ActorAction :=
  family ++ [.sendSystem 1 .systemRestart,.take 1 0] ++ List.replicate 6 (.proceed 1) ++
    [.sendSystem 1 .systemStop,.take 1 0] ++ List.replicate 7 (.proceed 1)

/-- The actor has reported its termination to its parent, and its child still runs. -/
theorem restart_forgets_child : ∃ s, perform (actorStep fun _ => 30) .new restarted = some s ∧
      (∃ a, s.actors 1 = some a ∧ a.parent = some 0 ∧ a.reports = 1 ∧ a.spawned = [2]) ∧
      (∃ g, s.actors 0 = some g ∧ .actorTerminated 1 ∈ g.mailbox.systemQueue) ∧ ¬ s.Terminated 2 := by
  have hrun : (perform (actorStep fun _ => 30) .new restarted).any (fun s =>
      ((s.actors 1).any fun a => a.parent = some 0 ∧ a.reports = 1 ∧ a.spawned = [2]) ∧
      ((s.actors 0).any fun g => .actorTerminated 1 ∈ g.mailbox.systemQueue) ∧ ¬ s.Terminated 2) = true := by
    decide +kernel
  obtain ⟨s,hs,hrun⟩ := (any_eq_true _ _).mp hrun
  obtain ⟨hact,hp,hc⟩ := of_decide_eq_true hrun
  obtain ⟨a,ha,hr⟩ := (any_eq_true _ _).mp hact
  obtain ⟨g,hg,hn⟩ := (any_eq_true _ _).mp hp
  exact ⟨s,hs,⟨a,ha,of_decide_eq_true hr⟩,⟨g,hg,of_decide_eq_true hn⟩,hc⟩

end SmalltalkJit.Actors
