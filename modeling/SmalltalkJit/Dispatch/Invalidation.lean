import Mathlib.Data.Fintype.Basic
import SmalltalkJit.Dispatch.InlineCache

/-! # What later sends can reach after an invalidation

Every entry that a send can still hit agrees with the class chain, in every
interleaving in which no mutation changes the answer to a lookup that is in
flight and no thread registers under a pending count. A lookup that was answered
before the mutation and is published after it leaves an outdated entry behind.
-/
namespace SmalltalkJit.Dispatch
open Interleaving Safepoint List Option Pc Function

variable {T C S M K : Type}

def Entry.Right (L : C → S → Option M) (e : Entry C S M) : Prop := e.target = L e.cls e.selector

instance [DecidableEq M] (L : C → S → Option M) (e : Entry C S M) : Decidable (e.Right L) :=
  inferInstanceAs (Decidable (_ = _))

/-- The cells, the speculation sites and the lookup caches of the threads `live` are right. -/
structure Sends.Fresh (d : Sends T C S M K) (selectorOf : K → S) (live : T → Prop) : Prop where
  cells : ∀ k, ∀ way ∈ (d.cells k).ways, way.2 = d.lookupSelector way.1 (selectorOf k)
  specSites : ∀ e ∈ d.specSites, e.Right d.lookupSelector
  caches : ∀ t, live t → ∀ slot e, d.lookupCache t slot = some e → e.Right d.lookupSelector

/-- The lookup says what the class chain answers, for the selector of the cell it is for. -/
def Lookup.Right (selectorOf : K → S) (L : C → S → Option M) (p : Lookup C S M K) : Prop :=
  p.toEntry.Right L ∧ ∀ k, p.cell = some k → p.selector = selectorOf k

structure Sends.InFlight (d : Sends T C S M K) (selectorOf : K → S) : Prop where
  pending : ∀ t, ∀ p ∈ d.pending t, p.Right selectorOf d.lookupSelector
  baked : ∀ t, ∀ e ∈ d.baked t, e.Right d.lookupSelector

theorem mem_ways_bind [DecidableEq C] {state : IcState C M}
    (h : way ∈ (state.bind cls target).ways) : way ∈ state.ways ∨ way = (cls,target) := by
  cases state with
  | unlinked => exact .inr (by simpa [IcState.bind,IcState.ways] using h)
  | mono seen =>
    by_cases hc : seen = cls
    · exact .inl (by simpa [IcState.bind,hc] using h)
    · simpa [IcState.bind,IcState.ways,hc] using h
  | pic ways =>
    simp only [IcState.bind] at h
    split at h
    · exact .inl h
    · split at h
      · simpa [IcState.ways] using h
      · simp [IcState.ways] at h
  | mega => simp [IcState.bind,IcState.ways] at h

@[simp] theorem ways_reset (state : IcState C M) : state.reset.ways = [] := by cases state <;> rfl

theorem invalidates_cases (h : invalidates pc) : ∃ c, pc = .paused c ∨ pc = .alone c := by
  cases pc <;> simp_all [invalidates]

theorem collects_cases (h : collects pc) : ∃ c, pc = .paused c ∨ pc = .alone c := by cases pc <;> simp_all [collects]

variable {a : Action}

theorem safe_of_follows (h : Follows pc pc' a) (ha : a ≠ .heapAddMutator) (hw : a ≠ .pollWake)
    (hl : a ≠ .heapGcLeaveBlocked) : pc ≠ .outside ∧ (pc'.isSafe = false → pc.isSafe = false) := by
  cases a with
  | heapAddMutator | pollWake | heapGcLeaveBlocked => contradiction
  | heapGcEnterBlocked =>
    obtain ⟨hmay,rfl⟩ := h
    cases pc <;> simp_all [mayBlock]
  | _ =>
    simp only [Follows] at h
    grind [isSafe,isBlocked]

theorem finish_of_follows (h : Follows pc pc' a) (hw : invalidates pc) : a = .finish := by
  obtain ⟨c,hc⟩ := invalidates_cases hw
  cases a with
  | finish => rfl
  | heapGcEnterBlocked =>
    obtain ⟨hmay,_⟩ := h
    cases pc <;> simp_all [mayBlock]
  | _ =>
    simp only [Follows] at h
    grind

/-- The threads whose lookup caches may still be probed before they are flushed. -/
def World.Live (w : World T C S M K) (t : T) : Prop :=
  w.heap.pc t ≠ .outside ∧
    (w.sends.lookupCacheEpoch t = w.sends.gcEpoch ∨ (w.heap.pc t).isSafe = false)

structure Settled (selectorOf : K → S) (w : World T C S M K) : Prop where
  coherent : Coherent w.heap
  counts : CountsRight w.heap
  inFlight : w.sends.InFlight selectorOf
  epoch : ∀ t, w.sends.lookupCacheEpoch t ≤ w.sends.gcEpoch
  stage : w.sends.stage = .mutated → ∃ t, invalidates (w.heap.pc t)
  fresh : w.sends.stage ≠ .mutated → w.sends.Fresh selectorOf w.Live

variable {t : T}

section Facts
variable {selectorOf : K → S} {w : World T C S M K}

variable (h : Settled selectorOf w)
include h

theorem Settled.safe_of_working (ht : w.heap.pc t = .paused c ∨ w.heap.pc t = .alone c)
    (hu : u ≠ t) (hout : w.heap.pc u ≠ .outside) : (w.heap.pc u).isSafe :=
  h.counts.safe_of_working h.coherent ht u ((h.coherent.registered u).mpr hout) hu

theorem Settled.not_mutated (ht : w.heap.pc t = .running) : w.sends.stage ≠ .mutated := by
  intro hm
  obtain ⟨u,hu⟩ := h.stage hm
  have hne : t ≠ u := by
    rintro rfl
    simp [ht,invalidates] at hu
  obtain ⟨c,hc⟩ := invalidates_cases hu
  have hs := h.safe_of_working hc hne (by simp [ht])
  simp [ht] at hs

theorem Settled.not_mutated_of_collects (hc : collects (w.heap.pc t)) : w.sends.stage ≠ .mutated := by
  intro hm
  obtain ⟨u,hu⟩ := h.stage hm
  obtain ⟨c,hct⟩ := collects_cases hc
  obtain ⟨c',hcu⟩ := invalidates_cases hu
  have hh : ∀ {v : T} {c : Client}, w.heap.pc v = .paused c ∨ w.heap.pc v = .alone c → (w.heap.pc v).holdsGcLock := by
    rintro v c (hv | hv) <;> simp [hv]
  have hut := h.coherent.holder_unique (hh hct) (hh hcu)
  rcases hct with hct | hct <;> simp_all [collects,invalidates]

theorem Settled.mutate
    (hok : ∀ t, (∀ p ∈ w.sends.pending t, p.toEntry.Right f) ∧ ∀ e ∈ w.sends.baked t, e.Right f)
    (ht : invalidates (w.heap.pc t)) : Settled selectorOf
      { w with sends := { w.sends with lookupSelector := f, stage := .mutated } } where
  coherent := h.coherent
  counts := h.counts
  inFlight := ⟨fun u p hp => ⟨(hok u).1 p hp,(h.inFlight.pending u p hp).2⟩,
    fun u e he => (hok u).2 e he⟩
  epoch := h.epoch
  stage := fun _ => ⟨t,ht⟩
  fresh := fun hm => absurd rfl hm

end Facts

section Data
variable [DecidableEq T] {selectorOf : K → S} {d d' : Sends T C S M K} {t : T} {live live' : T → Prop}

theorem Sends.InFlight.setPending (h : d.InFlight selectorOf)
    (hL : d'.lookupSelector = d.lookupSelector) (hp : d'.pending = update d.pending t ps)
    (hb : d'.baked = d.baked) (hps : ∀ p ∈ ps, p.Right selectorOf d.lookupSelector) : d'.InFlight selectorOf := by
  constructor
  · rw [hL,hp]
    intro u p hmem
    by_cases hu : u = t
    · subst hu
      exact hps p (by simpa using hmem)
    · exact h.pending u p (by simpa [hu] using hmem)
  · rw [hL,hb]
    exact h.baked

theorem Sends.InFlight.setBaked (h : d.InFlight selectorOf)
    (hL : d'.lookupSelector = d.lookupSelector) (hp : d'.pending = d.pending)
    (hb : d'.baked = update d.baked t es) (hes : ∀ e ∈ es, e.Right d.lookupSelector) : d'.InFlight selectorOf := by
  constructor
  · rw [hL,hp]
    exact h.pending
  · rw [hL,hb]
    intro u e hmem
    by_cases hu : u = t
    · subst hu
      exact hes e (by simpa using hmem)
    · exact h.baked u e (by simpa [hu] using hmem)

theorem Sends.InFlight.addBaked (h : d.InFlight selectorOf)
    (he : e.Right d.lookupSelector) : (d.addBaked t e).InFlight selectorOf := by
  refine h.setBaked rfl rfl rfl ?_
  intro e' he'
  rcases mem_cons.mp he' with rfl | he'
  · exact he
  · exact h.baked t e' he'

theorem Sends.Fresh.clear (h : d.Fresh selectorOf live) (hl : ∀ u, u ≠ t → live' u → live u) (hL : d'.lookupSelector = d.lookupSelector)
    (hc : ∀ k, ∀ way ∈ (d'.cells k).ways, way ∈ (d.cells k).ways) (hs : d'.specSites = d.specSites)
    (hca : d'.lookupCache = update d.lookupCache t fun _ => none) : d'.Fresh selectorOf live' := by
  constructor
  · intro k way hway
    rw [hL]
    exact h.cells k way (hc k way hway)
  · rw [hL,hs]
    exact h.specSites
  · intro u hu slot e he
    rw [hca] at he
    rw [hL]
    by_cases hut : u = t
    · subst hut
      simp at he
    · exact h.caches u (hl u hut hu) slot e (by simpa [hut] using he)

theorem Sends.Fresh.resume (h : d.Fresh selectorOf live) (hl : ∀ u, u ≠ t → live' u → live u)
    (ht : d.lookupCacheEpoch t = d.gcEpoch → live' t → live t) :
    (d.lookupCacheOnGcResume t).Fresh selectorOf live' := by
  unfold Sends.lookupCacheOnGcResume
  split
  · rename_i heq
    refine ⟨h.cells,h.specSites,?_⟩
    intro u hu
    by_cases hut : u = t
    · subst hut
      exact h.caches u (ht heq hu)
    · exact h.caches u (hl u hut hu)
  · exact h.clear hl rfl (fun _ _ hway => hway) rfl rfl

theorem resume_frame (d : Sends T C S M K) (t : T) : (d.lookupCacheOnGcResume t).lookupSelector = d.lookupSelector ∧
      (d.lookupCacheOnGcResume t).pending = d.pending ∧ (d.lookupCacheOnGcResume t).baked = d.baked ∧
      (d.lookupCacheOnGcResume t).stage = d.stage ∧ (d.lookupCacheOnGcResume t).gcEpoch = d.gcEpoch ∧
      (d.lookupCacheOnGcResume t).lookupCacheEpoch = update d.lookupCacheEpoch t d.gcEpoch := by
  unfold Sends.lookupCacheOnGcResume
  split
  · rename_i heq
    refine ⟨rfl,rfl,rfl,rfl,rfl,?_⟩
    rw [← heq,update_eq_self]
  · exact ⟨rfl,rfl,rfl,rfl,rfl,rfl⟩

theorem Settled.sweep (h : Settled selectorOf w) (ht : invalidates (w.heap.pc t)) :
    Settled selectorOf { w with sends := w.sends.sweep t } := by
  obtain ⟨c,hc⟩ := invalidates_cases ht
  refine ⟨h.coherent,h.counts,⟨h.inFlight.pending,h.inFlight.baked⟩,?_,?_,?_⟩
  · intro u
    by_cases hu : u = t
    · subst hu
      simp [Sends.sweep]
    · simpa [Sends.sweep,hu] using Nat.le_succ_of_le (h.epoch u)
  · intro hm
    cases hm
  · intro _
    refine ⟨?_,?_,?_⟩
    · intro k way hway
      simp [Sends.sweep] at hway
    · intro e he
      simp [Sends.sweep] at he
    · rintro u ⟨hout,hl⟩ slot e he
      by_cases hu : u = t
      · subst hu
        simp [Sends.sweep,Sends.flushLookupCache] at he
      · have hs := h.safe_of_working hc hu hout
        have hle := h.epoch u
        rcases hl with hep | hnot
        · simp [Sends.sweep,hu] at hep
          omega
        · cases hs.symm.trans hnot

end Data

section Handshake
variable [DecidableEq T] {selectorOf : K → S}

/-- No thread registers under a pending count, and no mutation changes the answer to a lookup that
is in flight. -/
def Timely (w : World T C S M K) (x : T × Act C S M K) : Prop :=
  match x.2 with
  | .control a => CountStands w.heap (x.1,a)
  | .mutate f => ∀ t, (∀ p ∈ w.sends.pending t, p.toEntry.Right f) ∧
      ∀ e ∈ w.sends.baked t, e.Right f
  | _ => True

instance [Fintype T] [DecidableEq M] (w : World T C S M K) : ∀ x, Decidable (Timely w x)
  | (t,.control a) => inferInstanceAs (Decidable (CountStands w.heap (t,a)))
  | (_,.mutate f) => inferInstanceAs (Decidable (∀ t,
      (∀ p ∈ w.sends.pending t, p.toEntry.Right f) ∧ ∀ e ∈ w.sends.baked t, e.Right f))
  | (_,.miss _ _) | (_,.bake _ _) | (_,.compiled) | (_,.publish _) | (_,.promote _)
  | (_,.inline _) | (_,.buildNativeCode) | (_,.retire _) | (_,.sweep) => .isTrue trivial

theorem settled_start (main : T) (L : C → S → Option M) :
    Settled selectorOf (World.start main L : World T C S M K) where
  coherent := coherent_start main
  counts := countsRight_start main
  inFlight := ⟨by simp [World.start],by simp [World.start]⟩
  epoch := by simp [World.start]
  stage := by simp [World.start]
  fresh := fun _ => ⟨by simp [World.start,IcState.ways],by simp [World.start],by simp [World.start]⟩

variable {w : World T C S M K} {heap : Heap T}

theorem Sends.Fresh.move (h : w.sends.Fresh selectorOf w.Live) (m : Move w.heap heap t) (hout : w.heap.pc t ≠ .outside)
    (hsa : (heap.pc t).isSafe = false → (w.heap.pc t).isSafe = false) :
    w.sends.Fresh selectorOf ({ w with heap := heap } : World T C S M K).Live := by
  refine ⟨h.cells,h.specSites,?_⟩
  rintro u ⟨hu,hl⟩
  apply h.caches u
  by_cases hut : u = t
  · subst hut
    exact ⟨hout,hl.imp_right hsa⟩
  · simpa [World.Live,m.pc_other hut] using And.intro hu hl

variable (h : Settled selectorOf w)
include h

theorem Settled.stage_move (m : Move w.heap heap t) (hinv : invalidates (w.heap.pc t) = false)
    (hm : w.sends.stage = .mutated) : ∃ u, invalidates (heap.pc u) := by
  obtain ⟨u,hu⟩ := h.stage hm
  refine ⟨u,?_⟩
  by_cases hut : u = t
  · subst hut
    simp [hinv] at hu
  · simpa [m.pc_other hut] using hu

theorem Settled.keep (hs : Safepoint.step w.heap t a = some heap)
    (hok : CountStands w.heap (t,a)) (ha : a ≠ .heapAddMutator) (hw : a ≠ .pollWake) (hl : a ≠ .heapGcLeaveBlocked)
    (hf : a = .finish → invalidates (w.heap.pc t) = false) : Settled selectorOf { w with heap := heap } := by
  have m := move_of_step h.coherent hs
  have hfol := follows_of_step hs
  obtain ⟨hout,hsa⟩ := safe_of_follows hfol ha hw hl
  have hinv : invalidates (w.heap.pc t) = false := by
    by_contra hi
    exact hi (hf (finish_of_follows hfol (Bool.eq_true_of_not_eq_false hi)))
  exact ⟨h.coherent.move m,h.counts.step h.coherent hok hs,h.inFlight,h.epoch,h.stage_move m hinv,
    fun hm => (h.fresh hm).move m hout hsa⟩

theorem Settled.resume (hs : Safepoint.step w.heap t a = some heap) (hok : CountStands w.heap (t,a)) (hout : w.heap.pc t ≠ .outside)
    (hinv : invalidates (w.heap.pc t) = false) : Settled selectorOf ⟨heap,w.sends.lookupCacheOnGcResume t⟩ := by
  have m := move_of_step h.coherent hs
  obtain ⟨hL,hp,hb,hst,hgc,he⟩ := resume_frame w.sends t
  refine ⟨h.coherent.move m,h.counts.step h.coherent hok hs,?_,?_,?_,?_⟩
  · exact ⟨by rw [hL,hp]; exact h.inFlight.pending,by rw [hL,hb]; exact h.inFlight.baked⟩
  · intro u
    rw [he,hgc]
    by_cases hut : u = t
    · simp [hut]
    · simpa [hut] using h.epoch u
  · rw [hst]
    exact h.stage_move m hinv
  · rw [hst]
    intro hm
    refine (h.fresh hm).resume ?_ ?_
    · rintro u hut ⟨hu,hl⟩
      simpa [World.Live,m.pc_other hut,he,hgc,hut] using And.intro hu hl
    · intro heq _
      exact ⟨hout,.inl heq⟩

theorem Settled.add (hs : Safepoint.step w.heap t .heapAddMutator = some heap)
    (hok : CountStands w.heap (t,.heapAddMutator)) :
    Settled selectorOf ⟨heap,w.sends.afterControl w.heap t .heapAddMutator⟩ := by
  have m := move_of_step h.coherent hs
  obtain ⟨hpc,_⟩ := follows_of_step hs
  refine ⟨h.coherent.move m,h.counts.step h.coherent hok hs,⟨h.inFlight.pending,h.inFlight.baked⟩,?_,
    h.stage_move m (by simp [hpc,invalidates]),?_⟩
  · intro u
    by_cases hut : u = t
    · simp [hut]
    · simpa [Sends.flushLookupCache,hut] using h.epoch u
  · intro hm
    refine (h.fresh hm).clear ?_ rfl (fun _ _ hway => hway) rfl rfl
    rintro u hut ⟨hu,hl⟩
    simpa [World.Live,Sends.flushLookupCache,m.pc_other hut,hut] using And.intro hu hl

theorem Settled.collect (hs : Safepoint.step w.heap t .finish = some heap)
    (hok : CountStands w.heap (t,.finish)) (hc : collects (w.heap.pc t)) :
    Settled selectorOf ⟨heap,w.sends.scavenge.lookupCacheOnGcResume t⟩ := by
  have m := move_of_step h.coherent hs
  have hst := h.not_mutated_of_collects hc
  obtain ⟨c,hct⟩ := collects_cases hc
  obtain ⟨hL,hp,hb,hsta,hgc,he⟩ := resume_frame w.sends.scavenge t
  refine ⟨h.coherent.move m,h.counts.step h.coherent hok hs,?_,?_,?_,?_⟩
  · exact ⟨by rw [hL,hp]; exact h.inFlight.pending,by rw [hL,hb]; exact h.inFlight.baked⟩
  · intro u
    rw [he,hgc]
    by_cases hut : u = t
    · simp [hut]
    · simpa [hut,Sends.scavenge] using Nat.le_succ_of_le (h.epoch u)
  · rw [hsta]
    exact fun hm => absurd hm hst
  · intro _
    have hf := h.fresh hst
    have hr : w.sends.scavenge.Fresh selectorOf fun _ => False := by
      refine ⟨?_,hf.specSites,fun _ hfa => hfa.elim⟩
      intro k way hway
      simp [Sends.scavenge] at hway
    refine hr.resume ?_ ?_
    · rintro u hut ⟨hu,hl⟩
      have hle := h.epoch u
      simp only [he,hgc,m.pc_other hut,ne_eq] at hu hl
      have hsa := h.safe_of_working hct hut hu
      rcases hl with heq | hnot
      · simp only [update_of_ne hut,Sends.scavenge] at heq
        omega
      · cases hsa.symm.trans hnot
    · intro heq _
      have hle := h.epoch t
      simp only [Sends.scavenge] at heq
      omega

theorem Settled.finishInvalidation
    (hs : Safepoint.step w.heap t .finish = some heap) (hok : CountStands w.heap (t,.finish))
    (hst : w.sends.stage = .swept) : Settled selectorOf ⟨heap,{ w.sends with stage := .idle }⟩ := by
  have m := move_of_step h.coherent hs
  obtain ⟨hout,hsa⟩ := safe_of_follows (follows_of_step hs) (by simp) (by simp) (by simp)
  refine ⟨h.coherent.move m,h.counts.step h.coherent hok hs,⟨h.inFlight.pending,h.inFlight.baked⟩,h.epoch,?_,?_⟩
  · intro hm
    cases hm
  · intro _
    have hf := (h.fresh (by simp [hst])).move m hout hsa
    exact ⟨hf.cells,hf.specSites,hf.caches⟩

theorem Settled.control (ha : w.sends.allows t (w.heap.pc t) a)
    (hs : Safepoint.step w.heap t a = some heap) (hok : CountStands w.heap (t,a)) :
    Settled selectorOf ⟨heap,w.sends.afterControl w.heap t a⟩ := by
  have hfol := follows_of_step hs
  cases a with
  | heapAddMutator => exact h.add hs hok
  | pollLocked =>
    by_cases hreq : w.heap.safepointRequested
    · simpa [hreq] using h.keep hs hok (by simp) (by simp) (by simp) (by simp)
    · simpa [hreq] using h.resume hs hok (by simp [hfol.1]) (by simp [hfol.1,invalidates])
  | pollWake => exact h.resume hs hok (by simp [hfol.1]) (by simp [hfol.1,invalidates])
  | heapGcLeaveBlocked =>
    obtain ⟨v,hpc,_⟩ := hfol
    exact h.resume hs hok (by simp [hpc]) (by simp [hpc,invalidates])
  | finish =>
    by_cases hc : collects (w.heap.pc t)
    · simpa [hc] using h.collect hs hok hc
    · by_cases hi : invalidates (w.heap.pc t)
      · have hst : w.sends.stage = .swept := by simpa [Sends.allows,hi] using ha
        simpa [hc,hi] using h.finishInvalidation hs hok hst
      · simpa [hc,hi] using h.keep hs hok (by simp) (by simp) (by simp) (by simpa using hi)
  | _ => exact h.keep hs hok (by simp) (by simp) (by simp) (by simp)

end Handshake

section Dispatching
variable [DecidableEq T] [DecidableEq C] [DecidableEq S] [DecidableEq K]
variable {hash : C → S → ℕ} {selectorOf : K → S}

variable {d : Sends T C S M K} {live : T → Prop}

omit [DecidableEq T] [DecidableEq K] in
theorem lookup_right (h : d.Fresh selectorOf live) (ht : live t) (cls : C)
    (hc : ∀ k, cell = some k → selector = selectorOf k) :
    (d.lookup hash t cls selector cell).Right selectorOf d.lookupSelector := by
  unfold Sends.lookup
  split
  · rename_i e he
    split
    · rename_i hhit
      refine ⟨?_,hc⟩
      have hr := h.caches t ht _ e he
      simpa [Entry.Right,hhit.1,hhit.2] using hr
    · exact ⟨rfl,hc⟩
  · exact ⟨rfl,hc⟩

/-- A dispatch leaves every entry right, and the epochs and the stage as they were. -/
structure Sends.Dispatched (selectorOf : K → S) (live : T → Prop) (d d' : Sends T C S M K) : Prop where
  fresh : d'.Fresh selectorOf live
  inFlight : d'.InFlight selectorOf
  lookupCacheEpoch : d'.lookupCacheEpoch = d.lookupCacheEpoch
  gcEpoch : d'.gcEpoch = d.gcEpoch
  stage : d'.stage = d.stage

omit [DecidableEq S] in
theorem deliver_right {t : T} (h : d.Fresh selectorOf live)
    (hf : d.InFlight selectorOf) (hp : ∀ q ∈ p :: rest, q.Right selectorOf d.lookupSelector) (lost : Bool) :
    d.Dispatched selectorOf live (d.deliver t p rest lost) := by
  obtain ⟨hri,hk⟩ := hp p mem_cons_self
  have hr : ∀ q ∈ rest, q.Right selectorOf d.lookupSelector := fun q hq => hp q (mem_cons_of_mem p hq)
  unfold Sends.deliver
  split
  · rename_i k hc
    split
    · exact ⟨⟨h.cells,h.specSites,h.caches⟩,hf.setPending rfl rfl rfl hr,rfl,rfl,rfl⟩
    · refine ⟨⟨?_,h.specSites,h.caches⟩,hf.setPending rfl rfl rfl hr,rfl,rfl,rfl⟩
      intro j way hway
      by_cases hj : j = k
      · subst hj
        have hb : way ∈ ((d.cells j).bind p.cls p.target).ways := by simpa using hway
        rcases mem_ways_bind hb with hold | rfl
        · exact h.cells j way hold
        · simpa [Entry.Right,Sends.setPending,hk j hc] using hri
      · exact h.cells j way (by simpa [hj] using hway)
  · refine ⟨⟨h.cells,h.specSites,h.caches⟩,?_,rfl,rfl,rfl⟩
    apply Sends.InFlight.addBaked
    · exact hf.setPending rfl rfl rfl hr
    · exact hri

theorem dispatch_right {a : Act C S M K} (h : d.Fresh selectorOf live) (hf : d.InFlight selectorOf) (ht : live t)
    (hs : d.dispatch hash selectorOf t a = some d') : d.Dispatched selectorOf live d' := by
  cases a with
  | control | mutate | sweep => cases hs
  | miss cls | bake cls =>
    cases hs
    refine ⟨⟨h.cells,h.specSites,h.caches⟩,hf.setPending rfl rfl rfl ?_,rfl,rfl,rfl⟩
    intro p hp
    rcases mem_cons.mp hp with rfl | hp
    · exact lookup_right h ht cls (by simp)
    · exact hf.pending t p hp
  | compiled =>
    simp only [Sends.dispatch] at hs
    split at hs
    · rename_i p r hpe
      simp only [ite_none_left_eq_some,some.injEq] at hs
      obtain ⟨_,rfl⟩ := hs
      have hp : ∀ q ∈ p :: r, q.Right selectorOf d.lookupSelector := hpe ▸ hf.pending t
      refine ⟨⟨h.cells,h.specSites,?_⟩,hf.setPending rfl rfl rfl ?_,rfl,rfl,rfl⟩
      · intro u hu slot e he
        by_cases hut : u = t
        · subst hut
          by_cases hsl : slot = hash p.cls p.selector
          · subst hsl
            simp only [Sends.store,update_self,some.injEq] at he
            subst he
            exact (hp p mem_cons_self).1
          · exact h.caches u hu slot e (by simpa [Sends.store,hsl] using he)
        · exact h.caches u hu slot e (by simpa [Sends.store,hut] using he)
      · intro q hq
        rcases mem_cons.mp hq with rfl | hq
        · exact hp p mem_cons_self
        · exact hp q (mem_cons_of_mem p hq)
    · cases hs
  | publish lost =>
    simp only [Sends.dispatch] at hs
    split at hs
    · rename_i p r hpe
      simp only [ite_none_right_eq_some,some.injEq] at hs
      obtain ⟨_,rfl⟩ := hs
      have hp : ∀ q ∈ p :: r, q.Right selectorOf d.lookupSelector := hpe ▸ hf.pending t
      exact deliver_right h hf hp lost
    · cases hs
  | promote k =>
    obtain ⟨way,hway,rfl⟩ := map_eq_some_iff.mp hs
    have hmem := mem_of_mem_head? hway
    exact ⟨⟨h.cells,h.specSites,h.caches⟩,hf.addBaked (h.cells k way hmem),rfl,rfl,rfl⟩
  | inline =>
    obtain ⟨cls,_,rfl⟩ := map_eq_some_iff.mp hs
    exact ⟨⟨h.cells,h.specSites,h.caches⟩,hf.addBaked rfl,rfl,rfl,rfl⟩
  | buildNativeCode =>
    cases hs
    refine ⟨⟨h.cells,?_,h.caches⟩,?_,rfl,rfl,rfl⟩
    · intro e he
      rcases mem_append.mp he with he | he
      · exact hf.baked t e he
      · exact h.specSites e he
    · exact hf.setBaked rfl rfl rfl (by simp)
  | retire k =>
    cases hs
    refine ⟨⟨?_,h.specSites,h.caches⟩,⟨hf.pending,hf.baked⟩,rfl,rfl,rfl⟩
    intro j way hway
    by_cases hj : j = k
    · subst hj
      simp [IcState.ways] at hway
    · exact h.cells j way (by simpa [hj] using hway)

theorem Settled.dispatch (h : Settled selectorOf w) {a : Act C S M K} (ht : w.heap.pc t = .running)
    (hs : w.sends.dispatch hash selectorOf t a = some d) : Settled selectorOf { w with sends := d } := by
  have hl : w.Live t := ⟨by simp [ht],.inr (by simp [ht])⟩
  obtain ⟨hf,hin,he,hgc,hst⟩ := dispatch_right (h.fresh (h.not_mutated ht)) h.inFlight hl hs
  refine ⟨h.coherent,h.counts,hin,?_,?_,?_⟩
  · rw [he,hgc]
    exact h.epoch
  · rw [hst]
    exact h.stage
  · intro _
    have hsa : World.Live { w with sends := d } = w.Live := by
      funext u
      simp [World.Live,he,hgc]
    rw [hsa]
    exact hf

theorem Settled.step {x : T × Act C S M K} (h : Settled selectorOf w)
    (hok : Timely w x) (hs : w.next hash selectorOf x = some w') : Settled selectorOf w' := by
  obtain ⟨t,a⟩ := x
  cases a <;> simp only [World.next,World.step,ite_none_right_eq_some,map_eq_some_iff,some.injEq] at hs
  case control =>
    obtain ⟨ha,heap,hst,rfl⟩ := hs
    exact h.control ha hst hok
  case mutate =>
    obtain ⟨⟨hi,_⟩,rfl⟩ := hs
    exact h.mutate hok hi
  case sweep =>
    obtain ⟨⟨hi,_⟩,rfl⟩ := hs
    exact h.sweep hi
  all_goals
    obtain ⟨hrun,d,hd,rfl⟩ := hs
    exact h.dispatch hrun hd

/-- In every interleaving in which no mutation changes the answer to a lookup in flight and no
thread registers under a pending count: outside of the invalidations themselves, every cell, every
speculation site and every entry in the lookup cache of a thread that can probe it agrees with what
`lookupSelector` answers. -/
theorem sends_reach_current_methods {main : T} {L : C → S → Option M} {as : List (T × Act C S M K)}
    {w : World T C S M K} (hok : Meets (World.next hash selectorOf) Timely (World.start main L) as)
    (h : perform (World.next hash selectorOf) (World.start main L) as = some w)
    (hdone : ∀ t, invalidates (w.heap.pc t) = false) :
    w.sends.Fresh selectorOf fun t => t ∈ w.heap.mutators ∧ (w.heap.pc t).isSafe = false := by
  have hw : Settled selectorOf w := invariant_of_meets (P := Settled selectorOf)
    (fun _ _ _ hs hx hste => hs.step hx hste) (settled_start main L) hok h
  have hst : w.sends.stage ≠ .mutated := by
    intro hm
    obtain ⟨t,ht⟩ := hw.stage hm
    simp [hdone t] at ht
  have hf := hw.fresh hst
  refine ⟨hf.cells,hf.specSites,?_⟩
  rintro t ⟨hin,hnot⟩
  exact hf.caches t ⟨(hw.coherent.registered t).mp hin,.inr hnot⟩

end Dispatching

/-- Thread 1 dispatches one call site, thread 0 replaces the method that it found. `before` is how
far the dispatch gets before the redefinition, `after` what thread 1 does when it is over. -/
def redefining (before after : List (Act Unit Unit (Fin 2) Unit)) : List (Fin 2 × Act Unit Unit (Fin 2) Unit) :=
  (peer,.control .heapAddMutator) :: (peer,.miss () ()) :: before.map (peer,·) ++
    [(peer,.control (.heapGcEnterBlocked .other)),
      (mutating,.control (.count .icInvalidateAllSends)),
      (mutating,.control (.heapGcEnterBlocked (.client .icInvalidateAllSends true))),
      (mutating,.control .acquire),(mutating,.control .heapGcLeaveBlocked),
      (mutating,.control (.heapGcBegin true)),(mutating,.mutate fun _ _ => some (Fin.last 1)),
      (mutating,.sweep),(mutating,.control .finish),(mutating,.control .unlock),
      (peer,.control .acquire),(peer,.control .heapGcLeaveBlocked)] ++ after.map (peer,·)

/-- The call site is dispatched, redefined, and dispatched again. -/
theorem sends_reach_redefined_method : ∃ w, Meets (World.next (fun _ _ => 0) fun _ => ()) Timely
        (World.start 0 fun _ _ => some 0) (redefining [.compiled,.publish false]
          [.miss () (),.compiled,.publish false]) ∧
      perform (World.next (fun _ _ => 0) fun _ => ()) (World.start 0 fun _ _ => some 0)
        (redefining [.compiled,.publish false] [.miss () (),.compiled,.publish false]) = some w ∧
      w.sends.cells () = .mono () (some 1) ∧
      w.sends.Fresh (fun _ => ()) fun t => t ∈ w.heap.mutators ∧ (w.heap.pc t).isSafe = false := by
  have hok : Meets (World.next (fun _ _ => 0) fun _ => ()) Timely
      (World.start 0 fun _ _ => some 0) (redefining [.compiled,.publish false]
        [.miss () (),.compiled,.publish false]) := by
    decide
  refine ⟨_,hok,rfl,rfl,?_⟩
  refine sends_reach_current_methods hok rfl ?_
  decide

/-- A dispatch that is parked on its way to the compiled method publishes the replaced method in
the lookup cache and in the cell after the invalidation has returned. -/
theorem dispatch_publishes_replaced_method :
    ∃ w, perform (World.next (fun _ _ => 0) fun _ => ()) (World.start 0 fun _ _ => some 0)
        (redefining [] [.compiled,.publish false]) = some w ∧
      (∀ t, invalidates (w.heap.pc t) = false) ∧ w.sends.lookupSelector () () = some 1 ∧
      w.sends.cells () = .mono () (some 0) ∧
      w.sends.lookupCache 1 0 = some ⟨(),(),some 0⟩ ∧ w.heap.pc 1 = .running := by
  refine ⟨_,rfl,?_,rfl,rfl,rfl,rfl⟩
  decide

end SmalltalkJit.Dispatch
