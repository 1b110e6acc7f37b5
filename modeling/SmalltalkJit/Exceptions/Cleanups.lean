import SmalltalkJit.Exceptions.Chains

/-! # Cleanups run once

Each pending cleanup is run once and in its turn as long as a protected block
that has been left does not complete after all, and no loop over the cleanups of
a terminated process is cut with the stack it runs on. The code prevents neither:
a cleanup runs on top of the frames that are being left, with their exception
handlers in place, and such a loop has no slot that remembers what is left.
-/
namespace SmalltalkJit.Exceptions
open State Interleaving Function Option List

theorem walks_cons_sublist (frame : Frame) (rest : List Frame) : (walks rest).Sublist (walks (frame :: rest)) :=
  (sublist_cons_self frame rest).filterMap _

variable {s : State} {proc : Process} {rest : List Frame} {p u : ℕ}

variable {s' : State} {a : Action}

variable {owner : ℕ}

theorem eq_none_of_not_awaited (h : awaited stack = false) {head : Option ℕ}
    (hmem : (owner,head) ∈ walks stack) : head = none := by
  rw [awaited,List.any_eq_false] at h
  simpa using h _ hmem

theorem replay_logged (h : replay (s.log p) = some pending) (entry : Entry) :
    replay (update s.log p (s.log p ++ [entry]) p) = entry.apply pending := by
  rw [update_self,replay_append,h]
  rfl

namespace Kept
variable {s s' : State} {p : ℕ} {proc proc' : Process}

section
variable (h : Kept s) (hp : s.processes p = some proc)
include h hp

theorem replay_of_walked (hmem : (owner,none) ∈ walks proc.stack) : replay (s.log owner) = some [] := by
  obtain ⟨pending,hl,hr⟩ := h.walked hp hmem
  cases hl
  exact hr

theorem gone_of_keep
    (hk : ∀ {u}, (owner,some u) ∈ walks proc.stack → (owner,some u) ∈ walks proc'.stack)
    (ho : s.processes owner = none) : replay (s.log owner) = some [] ∨
    ∃ q r head, update s.processes p (some proc') q = some r ∧ (owner,head) ∈ walks r.stack := by
  obtain hnil | ⟨q,r,head,hq,hmem⟩ := h.gone ho
  · exact .inl hnil
  · rcases eq_or_ne q p with rfl | hne
    · cases hp.symm.trans hq
      cases head with
      | none => exact .inl (h.replay_of_walked hq hmem)
      | some => exact .inr ⟨q,proc',_,update_self ..,hk hmem⟩
    · exact .inr ⟨q,r,head,(update_of_ne hne ..).trans hq,hmem⟩

theorem remove (hh : proc.unwindHandler = none) (ha : awaited proc.stack = false) : Kept (s.put p none) := by
  constructor
  case live => exact fun hq => h.live (processes_other hq nofun).2
  case walked => exact fun hq => h.walked (processes_other hq nofun).2
  case gone =>
    intro owner ho
    rcases eq_or_ne owner p with rfl | hne
    · obtain ⟨pending,hl,hr,-⟩ := h.live hp
      rw [hh] at hl
      cases hl
      exact .inl hr
    · obtain hnil | ⟨q,r,head,hq,hmem⟩ := h.gone ((update_of_ne hne ..).symm.trans ho)
      · exact .inl hnil
      · rcases eq_or_ne q p with rfl | hqne
        · cases hp.symm.trans hq
          cases eq_none_of_not_awaited ha hmem
          exact .inl (h.replay_of_walked hq hmem)
        · exact .inr ⟨q,r,head,(update_of_ne hqne ..).trans hq,hmem⟩

theorem terminate {target : ℕ} {victim : Process}
    (hne : target ≠ p) (ht : s.processes target = some victim) (ha : awaited victim.stack = false) :
    Kept ((s.put target none).push p proc (.walk target victim.unwindHandler)) := by
  constructor
  case live =>
    intro q r hq
    obtain ⟨rfl,rfl⟩ | ⟨-,hq⟩ := processes_update hq
    · obtain ⟨pending,hl,hr,hact⟩ := h.live hp
      exact ⟨pending,hl,hr,fun u hu => frameAt_cons (hact u hu)⟩
    · exact h.live (processes_other hq nofun).2
  case walked =>
    intro q r owner head hq hmem
    obtain ⟨rfl,rfl⟩ | ⟨-,hq⟩ := processes_update hq
    · rcases mem_cons.mp hmem with heq | hmem
      · cases heq
        obtain ⟨pending,hl,hr,-⟩ := h.live ht
        exact ⟨pending,hl,hr⟩
      · exact h.walked hp hmem
    · exact h.walked (processes_other hq nofun).2 hmem
  case gone =>
    intro owner ho
    by_cases heq : owner = target
    · cases heq
      exact .inr ⟨p,_,_,update_self ..,mem_cons_self⟩
    · have hn := (processes_other ho nofun).2
      obtain hnil | ⟨q,r,head,hq,hmem⟩ := h.gone ((update_of_ne heq ..).symm.trans hn)
      · exact .inl hnil
      · rcases eq_or_ne q p with rfl | hqp
        · cases hp.symm.trans hq
          exact .inr ⟨q,_,head,update_self ..,mem_cons_of_mem _ hmem⟩
        · rcases eq_or_ne q target with rfl | hqt
          · cases ht.symm.trans hq
            cases eq_none_of_not_awaited ha hmem
            exact .inl (h.replay_of_walked hq hmem)
          · refine .inr ⟨q,r,head,(update_of_ne hqp ..).trans ?_,hmem⟩
            exact (update_of_ne hqt ..).trans hq

end

section
variable (hs : Sane s) (h : Kept s) (hp : s.processes p = some proc)
include hs h hp

theorem update (hpr : s'.processes = update s.processes p (some proc'))
    (hlog : ∀ q, q ≠ p → s'.log q = s.log q) (hh : ∀ u, u < s.nextHandler → s'.handlers u = s.handlers u)
    (hli : ∃ pending, Links s'.handlers proc'.unwindHandler pending ∧ replay (s'.log p) = some pending ∧
      ∀ u ∈ pending, frameAt proc'.stack (s'.handlers u).frame = some (.protect u))
    (hsub : (walks proc'.stack).Sublist (walks proc.stack))
    (hk : ∀ {owner u}, (owner,some u) ∈ walks proc.stack → (owner,some u) ∈ walks proc'.stack) :
    Kept s' := by
  have hl : ∀ {head pending}, Links s.handlers head pending →
      (∀ u, head = some u → u < s.nextHandler) → Links s'.handlers head pending :=
    fun hl hhe => hl.congr fun u hu => hh u (hs.lt_of_mem hl hhe hu)
  constructor
  case live =>
    intro q r hq
    rw [hpr] at hq
    obtain ⟨rfl,rfl⟩ | ⟨hne,hq⟩ := processes_update hq
    · exact hli
    · obtain ⟨pending,hold,hr,ha⟩ := h.live hq
      refine ⟨pending,hl hold fun u => hs.head_lt hq,(congrArg replay (hlog q hne)).trans hr,?_⟩
      intro u hu
      rw [hh u (hs.lt_of_mem hold (fun u => hs.head_lt hq) hu)]
      exact ha u hu
  case walked =>
    intro q r owner head hq hmem
    -- the loop was there before
    obtain ⟨r,hq,hmem⟩ : ∃ r, s.processes q = some r ∧ (owner,head) ∈ walks r.stack := by
      rw [hpr] at hq
      obtain ⟨rfl,rfl⟩ | ⟨-,hq⟩ := processes_update hq
      · exact ⟨proc,hp,hsub.subset hmem⟩
      · exact ⟨r,hq,hmem⟩
    obtain ⟨pending,hold,hr⟩ := h.walked hq hmem
    rw [hlog owner (hs.ne_of_mem_owners hp hq (mem_owners hmem))]
    refine ⟨pending,hl hold ?_,hr⟩
    rintro u rfl
    exact hs.walk_lt hq hmem
  case gone =>
    intro owner ho
    rw [hpr] at ho
    obtain ⟨hne,ho⟩ := processes_other ho nofun
    rw [hlog owner hne,hpr]
    exact h.gone_of_keep hp hk ho

theorem put (hh : proc'.unwindHandler = proc.unwindHandler)
    (ha : ∀ {pending}, Links s.handlers proc.unwindHandler pending → ∀ u ∈ pending,
      frameAt proc.stack (s.handlers u).frame = some (.protect u) →
        frameAt proc'.stack (s.handlers u).frame = some (.protect u))
    (hsub : (walks proc'.stack).Sublist (walks proc.stack))
    (hk : ∀ {owner u}, (owner,some u) ∈ walks proc.stack → (owner,some u) ∈ walks proc'.stack) :
    Kept (s.put p (some proc')) := by
  refine h.update hs hp rfl (fun _ _ => rfl) (fun _ _ => rfl) ?_ hsub hk
  obtain ⟨pending,hl,hr,hold⟩ := h.live hp
  rw [hh]
  exact ⟨pending,hl,hr,fun u hu => ha hl u hu (hold u hu)⟩

theorem push (hf : frame.walk? = none) : Kept (s.push p proc frame) := by
  have hw : walks (frame :: proc.stack) = walks proc.stack := filterMap_cons_none hf
  refine h.put hs hp rfl (fun _ _ _ ha => frameAt_cons ha) ?_ fun hmem => ?_
  · dsimp only
    rw [hw]
  · dsimp only
    rwa [hw]

theorem pop {rest : List Frame} (hst : proc.stack = frame :: rest) (hf : ∀ u, .protect u ≠ frame)
    (hw : ∀ owner u, frame.walk? ≠ some (owner,some u)) : Kept (s.put p (some { proc with stack := rest })) := by
  refine h.put hs hp rfl (fun _ u _ hact => ?_) ?_ fun hmem => ?_ <;> rw [hst] at *
  · exact frameAt_of_cons hact (hf u)
  · exact walks_cons_sublist frame rest
  · obtain ⟨f,hf,heq⟩ := mem_filterMap.mp hmem
    rcases mem_cons.mp hf with rfl | hf
    · exact absurd heq (hw _ _)
    · exact mem_filterMap.mpr ⟨f,hf,heq⟩

theorem walk {owner u : ℕ} {rest : List Frame}
    (hst : proc.stack = .walk owner (some u) :: rest) :
    Kept (s.runUnwindHandlerChain p proc owner (some u) rest) := by
  have hw : walks proc.stack = (owner,some u) :: walks rest := by
    rw [hst]
    rfl
  have hmem : (owner,some u) ∈ walks proc.stack := by
    rw [hw]
    exact mem_cons_self
  have hn : owner ∉ owners rest := by
    have hn := hs.nodup hp
    rw [owners,hw] at hn
    exact (nodup_cons.mp hn).1
  have hown := hs.ne_of_mem_owners hp hp (mem_owners hmem)
  constructor
  case live =>
    intro q r hq
    obtain ⟨rfl,rfl⟩ | ⟨hne,hq⟩ := processes_update hq
    · obtain ⟨pending,hl,hre,ha⟩ := h.live hp
      refine ⟨pending,hl,?_,fun v hv => ?_⟩
      · exact (congrArg replay (update_of_ne hown.symm ..)).trans hre
      · have hf := ha v hv
        rw [hst] at hf
        exact frameAt_cons (frameAt_cons (frameAt_of_cons hf nofun))
    · obtain ⟨pending,hl,hre,ha⟩ := h.live hq
      refine ⟨pending,hl,?_,ha⟩
      exact (congrArg replay (update_of_ne (hs.ne_of_mem_owners hq hp (mem_owners hmem)).symm ..)).trans hre
  case walked =>
    intro q r o head hq hr
    have hold : ∀ {r'}, o ≠ owner → s.processes q = some r' → (o,head) ∈ walks r'.stack →
        ∃ pending, Links s.handlers head pending ∧
          replay (Function.update s.log owner (s.log owner ++ [.execute u]) o) = some pending := by
      intro r' hne hq hmem
      rw [update_of_ne hne]
      exact h.walked hq hmem
    obtain ⟨rfl,rfl⟩ | ⟨hne,hq⟩ := processes_update hq
    · rcases mem_cons.mp hr with heq | hres
      · cases heq
        obtain ⟨pending,hl,hre⟩ := h.walked hp hmem
        cases hl with
        | @cons _ pending hl => exact ⟨pending,hl,(replay_logged hre _).trans (if_pos rfl)⟩
      · refine hold ?_ hp ?_
        · rintro rfl
          exact hn (mem_owners hres)
        · rw [hw]
          exact mem_cons_of_mem _ hres
    · refine hold ?_ hq hr
      rintro rfl
      exact hne (hs.unique hq hp (mem_owners hr) (mem_owners hmem))
  case gone =>
    intro o ho
    by_cases heq : o = owner
    · cases heq
      exact .inr ⟨p,_,_,update_self ..,mem_cons_self⟩
    · change replay (Function.update s.log owner _ o) = _ ∨ _
      rw [update_of_ne heq]
      refine h.gone_of_keep hp (fun hmem => ?_) (processes_other ho nofun).2
      rw [hw] at hmem
      rcases mem_cons.mp hmem with hmem | hmem
      · exact absurd (Prod.mk.inj hmem).1 heq
      · exact mem_cons_of_mem _ hmem

end

theorem spawn (hs : Sane s) (h : Kept s) : Kept s.spawn := by
  have hf := hs.fresh (le_refl s.nextProcess)
  constructor
  case live =>
    intro q r hq
    obtain ⟨rfl,rfl⟩ | ⟨-,hq⟩ := processes_update hq
    · exact ⟨[],.nil,congrArg replay hf.2,nofun⟩
    · exact h.live hq
  case walked =>
    intro q r owner head hq hmem
    obtain ⟨rfl,rfl⟩ | ⟨-,hq⟩ := processes_update hq
    · exact absurd hmem nofun
    · exact h.walked hq hmem
  case gone =>
    intro owner ho
    obtain hnil | ⟨q,r,head,hq,hmem⟩ := h.gone (processes_other ho nofun).2
    · exact .inl hnil
    · exact .inr ⟨q,r,head,(update_of_ne (hs.lt hq).ne ..).trans hq,hmem⟩

end Kept

end SmalltalkJit.Exceptions
