import Mathlib.Data.List.Basic
import Mathlib.Logic.Function.Basic
import SmalltalkJit.Lib.Interleaving

/-! # The stop-the-world handshake of a shared heap

The threads of one heap, the lock `gcLock`, the request word and the two flags
by which a mutator counts as safe. Every critical section under `safepointLock`
is one atomic step; a thread that sleeps on `safepointCond` is at a point of its
own and looks at the request again whenever it is scheduled, so that late and
spurious wake-ups are among the interleavings. The three functions that stop the
world are followed from the count of the mutators to the release of `gcLock`.
-/
namespace SmalltalkJit.Safepoint
open Interleaving Option

inductive Client
  | heapCollectYoung
  | objectBecome
  | icInvalidateAllSends
  deriving DecidableEq

/-- What a thread waits for behind `heapGcEnterBlocked`: an event or another lock, `gcLock` for a
client that may have counted the mutators, `gcLock` to unregister. -/
inductive Wait
  | other
  | client (c : Client) (multi : Bool)
  | endMutator
  deriving DecidableEq

inductive Pc
  | outside
  | running
  | polling
  | atSafepoint
  | counted (c : Client) (multi : Bool)
  | blocked (w : Wait)
  | leaving (w : Wait)
  | locked (w : Wait)
  | beginning (c : Client)
  | paused (c : Client)
  | alone (c : Client)
  | unlocking
  deriving DecidableEq

structure Mutator where
  pc : Pc
  spBlocked : Bool
  spAtSafepoint : Bool
  deriving DecidableEq

structure Heap (T : Type) where
  mutators : List T
  gcLock : Option T
  safepointRequested : Bool
  thread : T → Mutator

inductive Action
  | heapAddMutator
  | work
  | poll
  | pollLocked
  | pollWake
  | count (c : Client)
  | heapGcEnterBlocked (w : Wait)
  | acquire
  | heapGcLeaveBlocked
  | unlink
  | heapGcBegin (needed : Bool)
  | beginWake
  | finish
  | unlock
  deriving DecidableEq

/-- `heapCollectYoung` counts the mutators after it has taken `gcLock`, the others before. -/
def Client.countsUnderLock : Client → Bool
  | .heapCollectYoung => true
  | .objectBecome | .icInvalidateAllSends => false

/-- Which waits a thread may begin where it stands. -/
def Pc.mayBlock : Pc → Wait → Bool
  | .running, .other | .running, .endMutator => true
  | .running, .client c multi => c.countsUnderLock && !multi
  | .counted c multi, w => w = .client c multi
  | _, _ => false

def Wait.next : Wait → Pc
  | .other => .running
  | w => .locked w

variable {T : Type} [DecidableEq T]

variable (s : Heap T)

def Heap.pc (t : T) : Pc := (s.thread t).pc

def Heap.set (t : T) (m : Mutator) : Heap T := { s with thread := Function.update s.thread t m }

@[simp] def Heap.goto (t : T) (pc : Pc) : Heap T := s.set t { s.thread t with pc := pc }

def Heap.isMulti : Bool :=
  match s.mutators with
  | _ :: _ :: _ => true
  | _ => false

def Heap.heapAllSafe (exclude : T) : Bool :=
  s.mutators.all fun t => t = exclude || (s.thread t).spAtSafepoint || (s.thread t).spBlocked

def Heap.request (t : T) (c : Client) : Heap T :=
  { s with safepointRequested := true }.goto t
    (if s.heapAllSafe t then .paused c else .beginning c)

/-- Whether a client goes through the handshake; `multi` is what it counted before the lock. -/
def Heap.shakesHands (c : Client) (multi : Bool) : Bool := if c.countsUnderLock then s.isMulti else multi

/-- A client that has taken `gcLock`: `needed` tells whether a collection among several mutators is
still worth it. -/
def Heap.startClient (t : T) (c : Client) (multi needed : Bool) : Heap T :=
  if s.shakesHands c multi then
    if needed || !c.countsUnderLock then s.request t c else s.goto t .unlocking
  else s.goto t (.alone c)

def step (t : T) : Action → Option (Heap T)
  | .heapAddMutator =>
    if s.pc t = .outside ∧ s.gcLock = none then
      some ({ s with mutators := t :: s.mutators }.goto t .running)
    else none
  | .work => if s.pc t = .running then some s else none
  -- the request is read first without and then with `safepointLock`
  | .poll => if s.pc t = .running ∧ s.safepointRequested then some (s.goto t .polling) else none
  | .pollLocked =>
    if s.pc t = .polling then
      some (if s.safepointRequested then
          s.set t { s.thread t with pc := .atSafepoint, spAtSafepoint := true }
        else s.goto t .running)
    else none
  | .pollWake =>
    if s.pc t = .atSafepoint ∧ s.safepointRequested = false then
      some (s.set t { s.thread t with pc := .running, spAtSafepoint := false })
    else none
  | .count c =>
    if s.pc t = .running ∧ c.countsUnderLock = false then
      some (s.goto t (.counted c s.isMulti))
    else none
  | .heapGcEnterBlocked w =>
    if (s.pc t).mayBlock w then
      some (s.set t { s.thread t with pc := .blocked w, spBlocked := true })
    else none
  -- the event has come or the lock is taken, inside the blocked state
  | .acquire =>
    match s.pc t with
    | .blocked w =>
      if w = .other then some (s.goto t (.leaving w))
      else if s.gcLock = none then some ({ s with gcLock := some t }.goto t (.leaving w))
      else none
    | _ => none
  | .heapGcLeaveBlocked =>
    match s.pc t with
    | .leaving w =>
      if s.safepointRequested then none
      else some (s.set t { s.thread t with pc := w.next, spBlocked := false })
    | _ => none
  | .unlink =>
    if s.pc t = .locked .endMutator then
      some ({ s with mutators := s.mutators.erase t, gcLock := none }.goto t .outside)
    else none
  | .heapGcBegin needed =>
    match s.pc t with
    | .locked (.client c multi) => some (s.startClient t c multi needed)
    | _ => none
  | .beginWake =>
    match s.pc t with
    | .beginning c => if s.heapAllSafe t then some (s.goto t (.paused c)) else none
    | _ => none
  -- the collection, the rewriting or the mutation is over; `heapGcEnd` if there was a handshake
  | .finish =>
    match s.pc t with
    | .paused _ => some ({ s with safepointRequested := false }.goto t .unlocking)
    | .alone _ => some (s.goto t .unlocking)
    | _ => none
  | .unlock => if s.pc t = .unlocking then some ({ s with gcLock := none }.goto t .running) else none

def next (x : T × Action) : Option (Heap T) := step s x.1 x.2

def start (main : T) : Heap T where
  mutators := [main]
  gcLock := none
  safepointRequested := false
  thread t := ⟨if t = main then .running else .outside,false,false⟩

@[simp] def Pc.isBlocked : Pc → Bool
  | .blocked _ | .leaving _ => true
  | _ => false

@[simp] def Pc.isSafe (pc : Pc) : Bool := pc = .atSafepoint || pc.isBlocked

@[simp] def Pc.holdsGcLock : Pc → Bool
  | .leaving w => w ≠ .other
  | .locked _ | .beginning _ | .paused _ | .alone _ | .unlocking => true
  | _ => false

@[simp] def Pc.requests : Pc → Bool
  | .beginning _ | .paused _ => true
  | _ => false

/-- The flags, the lock and the request word say where the threads are, and a pause finds every
other registered thread safe. -/
structure Coherent (s : Heap T) : Prop where
  nodup : s.mutators.Nodup
  registered : ∀ t, t ∈ s.mutators ↔ s.pc t ≠ .outside
  blocked : ∀ t, (s.thread t).spBlocked = (s.pc t).isBlocked
  atSafepoint : ∀ t, (s.thread t).spAtSafepoint = decide (s.pc t = .atSafepoint)
  lock : ∀ t, s.gcLock = some t ↔ (s.pc t).holdsGcLock
  request : s.safepointRequested = true ↔ ∃ t, (s.pc t).requests
  pause : ∀ t c, s.pc t = .paused c → ∀ u ∈ s.mutators, u ≠ t → (s.pc u).isSafe

theorem coherent_start (main : T) : Coherent (start main) where
  nodup := by simp [start]
  registered t := by by_cases h : t = main <;> simp [start,Heap.pc,h]
  blocked t := by by_cases h : t = main <;> simp [start,Heap.pc,h]
  atSafepoint t := by by_cases h : t = main <;> simp [start,Heap.pc,h]
  lock t := by by_cases h : t = main <;> simp [start,Heap.pc,h]
  request := by
    constructor
    · intro h
      cases h
    · rintro ⟨t,ht⟩
      by_cases h : t = main <;> simp [start,Heap.pc,h] at ht
  pause t c hp := by by_cases h : t = main <;> simp [start,Heap.pc,h] at hp

section Updates
variable (s : Heap T) (t u : T) (m : Mutator) (pc : Pc)

@[simp] theorem set_mutators : (s.set t m).mutators = s.mutators := rfl

@[simp] theorem set_gcLock : (s.set t m).gcLock = s.gcLock := rfl

@[simp] theorem set_safepointRequested : (s.set t m).safepointRequested = s.safepointRequested := rfl

@[simp] theorem set_thread_self : (s.set t m).thread t = m := by simp [Heap.set]

@[simp] theorem set_thread_other {t u : T} (h : u ≠ t) : (s.set t m).thread u = s.thread u := by simp [Heap.set,h]

@[simp] theorem set_pc_self : (s.set t m).pc t = m.pc := by simp [Heap.pc]

end Updates

variable {s}

theorem holdsGcLock_of_requests {pc : Pc} (h : pc.requests) : pc.holdsGcLock := by cases pc <;> simp_all

/-- What a step of one thread respects: it moves no other thread, takes `gcLock` only when it is
free, writes the request word only under `gcLock`, finds every other mutator safe when its own pause
begins, and does not leave the safe states while the world is stopped by another thread. -/
structure Move (s s' : Heap T) (t : T) : Prop where
  others : ∀ u, u ≠ t → s'.thread u = s.thread u
  mutators : ∀ u, u ≠ t → (u ∈ s'.mutators ↔ u ∈ s.mutators)
  nodup : s'.mutators.Nodup
  registered : t ∈ s'.mutators ↔ s'.pc t ≠ .outside
  blocked : (s'.thread t).spBlocked = (s'.pc t).isBlocked
  atSafepoint : (s'.thread t).spAtSafepoint = decide (s'.pc t = .atSafepoint)
  lock : (s'.gcLock = s.gcLock ∧ (s'.pc t).holdsGcLock = (s.pc t).holdsGcLock) ∨
    (s.gcLock = none ∧ s'.gcLock = some t ∧ (s'.pc t).holdsGcLock) ∨
    (s.gcLock = some t ∧ s'.gcLock = none ∧ (s'.pc t).holdsGcLock = false)
  request : (s'.safepointRequested = s.safepointRequested ∧
      (s'.pc t).requests = (s.pc t).requests) ∨
    ((s.pc t).holdsGcLock ∧ s'.safepointRequested = (s'.pc t).requests)
  pause : ∀ c, s'.pc t = .paused c → s.heapAllSafe t
  stays : s.gcLock = none ∨ (s.pc t).holdsGcLock ∨ s.safepointRequested = false ∨
    s'.mutators = s.mutators ∧ ((s.pc t).isSafe → (s'.pc t).isSafe)

variable {s' : Heap T}

theorem Move.pc_other (m : Move s s' t) (h : u ≠ t) : s'.pc u = s.pc u := by simp [Heap.pc,m.others u h]

def Follows (pc pc' : Pc) : Action → Prop
  | .heapAddMutator => pc = .outside ∧ pc' = .running
  | .work => pc = .running ∧ pc' = .running
  | .poll => pc = .running ∧ pc' = .polling
  | .pollLocked => pc = .polling ∧ (pc' = .atSafepoint ∨ pc' = .running)
  | .pollWake => pc = .atSafepoint ∧ pc' = .running
  | .count c => pc = .running ∧ ∃ multi, pc' = .counted c multi
  | .heapGcEnterBlocked w => pc.mayBlock w ∧ pc' = .blocked w
  | .acquire => ∃ w, pc = .blocked w ∧ pc' = .leaving w
  | .heapGcLeaveBlocked => ∃ w, pc = .leaving w ∧ pc' = w.next
  | .unlink => pc = .locked .endMutator ∧ pc' = .outside
  | .heapGcBegin _ => ∃ c multi, pc = .locked (.client c multi) ∧
      (pc' = .paused c ∨ pc' = .beginning c ∨ pc' = .unlocking ∨ pc' = .alone c)
  | .beginWake => ∃ c, pc = .beginning c ∧ pc' = .paused c
  | .finish => (∃ c, pc = .paused c ∨ pc = .alone c) ∧ pc' = .unlocking
  | .unlock => pc = .unlocking ∧ pc' = .running

/-- The ways in which the guards let a thread step. -/
inductive Steps (s : Heap T) (t : T) : Action → Heap T → Prop
  | heapAddMutator (hpc : s.pc t = .outside) (hf : s.gcLock = none) :
    Steps s t .heapAddMutator ({ s with mutators := t :: s.mutators }.goto t .running)
  | work (hpc : s.pc t = .running) : Steps s t .work s
  | poll (hpc : s.pc t = .running) : Steps s t .poll (s.goto t .polling)
  | pollStop (hpc : s.pc t = .polling) :
    Steps s t .pollLocked (s.set t { s.thread t with pc := .atSafepoint, spAtSafepoint := true })
  | pollLeave (hpc : s.pc t = .polling) : Steps s t .pollLocked (s.goto t .running)
  | pollWake (hpc : s.pc t = .atSafepoint) (hreq : s.safepointRequested = false) :
    Steps s t .pollWake (s.set t { s.thread t with pc := .running, spAtSafepoint := false })
  | count (hpc : s.pc t = .running) : Steps s t (.count c) (s.goto t (.counted c s.isMulti))
  | heapGcEnterBlocked (hmay : (s.pc t).mayBlock w) :
    Steps s t (.heapGcEnterBlocked w) (s.set t { s.thread t with pc := .blocked w, spBlocked := true })
  | event (hpc : s.pc t = .blocked .other) : Steps s t .acquire (s.goto t (.leaving .other))
  | take (hpc : s.pc t = .blocked w) (hw : w ≠ .other) (hf : s.gcLock = none) :
    Steps s t .acquire ({ s with gcLock := some t }.goto t (.leaving w))
  | heapGcLeaveBlocked (hpc : s.pc t = .leaving w) (hreq : s.safepointRequested = false) :
    Steps s t .heapGcLeaveBlocked (s.set t { s.thread t with pc := w.next, spBlocked := false })
  | unlink (hpc : s.pc t = .locked .endMutator) :
    Steps s t .unlink ({ s with mutators := s.mutators.erase t, gcLock := none }.goto t .outside)
  | pause (hpc : s.pc t = .locked (.client c multi)) (hsa : s.heapAllSafe t) :
    Steps s t (.heapGcBegin needed) ({ s with safepointRequested := true }.goto t (.paused c))
  | wait (hpc : s.pc t = .locked (.client c multi)) :
    Steps s t (.heapGcBegin needed) ({ s with safepointRequested := true }.goto t (.beginning c))
  | skip (hpc : s.pc t = .locked (.client c multi)) : Steps s t (.heapGcBegin needed) (s.goto t .unlocking)
  | alone (hpc : s.pc t = .locked (.client c multi)) (hno : s.shakesHands c multi = false) :
    Steps s t (.heapGcBegin needed) (s.goto t (.alone c))
  | beginWake (hpc : s.pc t = .beginning c) (hsa : s.heapAllSafe t) : Steps s t .beginWake (s.goto t (.paused c))
  | heapGcEnd (hpc : s.pc t = .paused c) :
    Steps s t .finish ({ s with safepointRequested := false }.goto t .unlocking)
  | finish (hpc : s.pc t = .alone c) : Steps s t .finish (s.goto t .unlocking)
  | unlock (hpc : s.pc t = .unlocking) : Steps s t .unlock ({ s with gcLock := none }.goto t .running)

theorem steps_of_step (h : step s t a = some s') : Steps s t a s' := by
  cases a <;> simp only [step,ite_none_right_eq_some,some.injEq] at h
  case work | heapGcEnterBlocked | unlink | unlock =>
    obtain ⟨hpc,rfl⟩ := h
    constructor
    exact hpc
  case heapAddMutator | poll | pollWake | count =>
    obtain ⟨⟨hpc,_⟩,rfl⟩ := h
    constructor <;> assumption
  case pollLocked =>
    obtain ⟨hpc,rfl⟩ := h
    split
    · exact .pollStop hpc
    · exact .pollLeave hpc
  case acquire =>
    split at h
    · rename_i w hpc
      split at h
      · next hw =>
        subst hw
        cases h
        exact .event hpc
      · next hw =>
        simp only [ite_none_right_eq_some,some.injEq] at h
        obtain ⟨hf,rfl⟩ := h
        exact .take hpc hw hf
    · cases h
  case heapGcLeaveBlocked =>
    split at h
    · rename_i hpc
      simp only [ite_none_left_eq_some,some.injEq,Bool.not_eq_true] at h
      obtain ⟨hreq,rfl⟩ := h
      exact .heapGcLeaveBlocked hpc hreq
    · cases h
  case heapGcBegin =>
    split at h
    · rename_i hpc
      cases h
      unfold Heap.startClient Heap.request
      split
      · split
        · split
          · next hsa => exact .pause hpc hsa
          · exact .wait hpc
        · exact .skip hpc
      · next hno => exact .alone hpc (eq_false_of_ne_true hno)
    · cases h
  case beginWake =>
    split at h
    · rename_i hpc
      simp only [ite_none_right_eq_some,some.injEq] at h
      obtain ⟨hsa,rfl⟩ := h
      exact .beginWake hpc hsa
    · cases h
  case finish =>
    split at h
    · rename_i hpc
      cases h
      exact .heapGcEnd hpc
    · rename_i hpc
      cases h
      exact .finish hpc
    · cases h

theorem follows_of_step (h : step s t a = some s') : Follows (s.pc t) (s'.pc t) a := by
  cases steps_of_step h with
  | work hpc => exact ⟨hpc,hpc⟩
  | heapGcEnterBlocked hmay => simp [Follows,hmay]
  | _ hpc => simp [Follows,hpc]

section Moves
variable (h : Coherent s)
include h

omit [DecidableEq T] in
theorem Coherent.holder_unique (ht : (s.pc t).holdsGcLock)
    (hu : (s.pc u).holdsGcLock) : u = t := by
  have h1 := (h.lock t).mpr ht
  have h2 := (h.lock u).mpr hu
  exact some.inj (h2.symm.trans h1)

theorem Coherent.safe_of_heapAllSafe (hs : s.heapAllSafe t) : ∀ u ∈ s.mutators, u ≠ t → (s.pc u).isSafe := by
  intro u hu hne
  have hall := List.all_eq_true.mp hs u hu
  have hb := h.blocked u
  have ha := h.atSafepoint u
  simp_all

theorem Coherent.move (m : Move s s' t) : Coherent s' := by
  obtain ⟨hnd,hreg,hbl,hat,hl,hr,hpa⟩ := id h
  constructor
  · exact m.nodup
  · intro u
    by_cases hu : u = t
    · subst hu
      exact m.registered
    · rw [m.mutators u hu,m.pc_other hu]
      exact hreg u
  · intro u
    by_cases hu : u = t
    · subst hu
      exact m.blocked
    · rw [m.others u hu,m.pc_other hu]
      exact hbl u
  · intro u
    by_cases hu : u = t
    · subst hu
      exact m.atSafepoint
    · rw [m.others u hu,m.pc_other hu]
      exact hat u
  · intro u
    have hmt := m.lock
    by_cases hu : u = t
    · subst hu
      grind
    · rw [m.pc_other hu]
      grind
  · rcases m.request with ⟨hs,hrt⟩ | ⟨hh,hnew⟩
    · have hall : ∀ u, (s'.pc u).requests = (s.pc u).requests := by
        intro u
        by_cases hu : u = t
        · rw [hu,hrt]
        · rw [m.pc_other hu]
      rw [hs,hr]
      simp [hall,-Pc.requests]
    · rw [hnew]
      constructor
      · exact fun ht => ⟨t,ht⟩
      · rintro ⟨u,hu⟩
        by_cases hut : u = t
        · exact hut ▸ hu
        · rw [m.pc_other hut] at hu
          exact absurd (h.holder_unique hh (holdsGcLock_of_requests hu)) hut
  · intro p c hp u hu hne
    by_cases hpt : p = t
    · subst hpt
      rw [m.pc_other hne]
      exact h.safe_of_heapAllSafe (m.pause c hp) u ((m.mutators u hne).mp hu) hne
    · rw [m.pc_other hpt] at hp
      have hh : (s.pc p).holdsGcLock := by simp [hp]
      have hlo : s.gcLock = some p := (hl p).mpr hh
      have hreq : s.safepointRequested = true := hr.mpr ⟨p,by simp [hp]⟩
      by_cases hut : u = t
      · subst hut
        rcases m.stays with hn | ht | hf | ⟨hs,hsa⟩
        · simp [hn] at hlo
        · exact absurd (h.holder_unique ht hh) hpt
        · simp [hf] at hreq
        · exact hsa (hpa p c hp u (hs ▸ hu) hne)
      · rw [m.pc_other hut]
        exact hpa p c hp u ((m.mutators u hut).mp hu) hne

theorem Move.own
    (hout : s.pc t ≠ .outside) (hout' : m.pc ≠ .outside) (hb : m.spBlocked = m.pc.isBlocked)
    (ha : m.spAtSafepoint = decide (m.pc = .atSafepoint))
    (hl : m.pc.holdsGcLock = (s.pc t).holdsGcLock) (hr : m.pc.requests = (s.pc t).requests)
    (hp : ∀ c, m.pc = .paused c → s.heapAllSafe t)
    (hs : (s.pc t).isSafe → s.safepointRequested = false ∨ m.pc.isSafe) : Move s (s.set t m) t where
  others u hu := set_thread_other s m hu
  mutators u _ := Iff.rfl
  nodup := h.nodup
  registered := by simpa [hout'] using (h.registered t).mpr hout
  blocked := by simpa using hb
  atSafepoint := by simpa using ha
  lock := .inl (by simpa using hl)
  request := .inl (by simpa using hr)
  pause c hc := hp c (by simpa using hc)
  stays := by
    by_cases hreq : s.safepointRequested = false
    · exact .inr (.inr (.inl hreq))
    · refine .inr (.inr (.inr ⟨rfl,fun hsa => ?_⟩))
      simpa using (hs hsa).resolve_left hreq

theorem Move.take {t : T} {w : Wait} (hf : s.gcLock = none)
    (hpc : s.pc t = .blocked w) (hw : w ≠ .other) : Move s ({ s with gcLock := some t }.goto t (.leaving w)) t where
  others u hu := set_thread_other _ _ hu
  mutators u _ := Iff.rfl
  nodup := h.nodup
  registered := by simpa using (h.registered t).mpr (by simp [hpc])
  blocked := by simpa [hpc] using h.blocked t
  atSafepoint := by simpa [hpc] using h.atSafepoint t
  lock := .inr (.inl ⟨hf,rfl,by simpa using hw⟩)
  request := .inl (by simp [hpc])
  pause c hc := by simp at hc
  stays := .inl hf

theorem Move.held {lock : Option T} {requested : Bool}
    (hh : (s.pc t).holdsGcLock) (hs : (s.pc t).isSafe = false) (hs' : pc.isSafe = false)
    (hout : pc ≠ .outside) (hlo : lock = if pc.holdsGcLock then s.gcLock else none) (hreq : requested = pc.requests)
    (hp : ∀ c, pc = .paused c → s.heapAllSafe t) :
    Move s ({ s with safepointRequested := requested, gcLock := lock }.goto t pc) t := by
  subst hreq
  have hl := (h.lock t).mpr hh
  have hin : t ∈ s.mutators := (h.registered t).mpr fun ho => by simp [ho] at hh
  have hb : (s.thread t).spBlocked = false := by
    rw [h.blocked t]
    simp_all
  have ha : (s.thread t).spAtSafepoint = false := by
    rw [h.atSafepoint t]
    simp_all
  constructor
  · exact fun u hu => set_thread_other _ _ hu
  · exact fun u _ => Iff.rfl
  · exact h.nodup
  · simpa [hout] using hin
  · simp_all
  · simp_all
  · by_cases hk : pc.holdsGcLock
    · exact .inl (by simp [hk,hlo,hh,-Pc.holdsGcLock])
    · exact .inr (.inr (by simp [hk,hlo,hl,-Pc.holdsGcLock]))
  · exact .inr ⟨hh,by simp⟩
  · exact fun c hc => hp c (by simpa using hc)
  · exact .inr (.inl hh)

omit [DecidableEq T] in
theorem Coherent.request_eq (ht : (s.pc t).holdsGcLock) :
    s.safepointRequested = (s.pc t).requests := by
  rw [Bool.eq_iff_iff,h.request]
  constructor
  · rintro ⟨u,hu⟩
    exact h.holder_unique ht (holdsGcLock_of_requests hu) ▸ hu
  · exact fun hr => ⟨t,hr⟩

theorem move_of_step (hs : step s t a = some s') : Move s s' t := by
  have hb := h.blocked t
  have ha := h.atSafepoint t
  cases steps_of_step hs with
  | heapAddMutator hpc hf =>
    have hnot : t ∉ s.mutators := fun hin => (h.registered t).mp hin hpc
    constructor
    · exact fun u hu => set_thread_other _ _ hu
    · intro u hu
      simp [hu]
    · exact List.nodup_cons.mpr ⟨hnot,h.nodup⟩
    · simp
    · simpa [hpc] using hb
    · simpa [hpc] using ha
    · exact .inl (by simp [hpc])
    · exact .inl (by simp [hpc])
    · intro c hc
      simp at hc
    · exact .inl hf
  | work => constructor <;> simp_all [h.nodup,h.registered t]
  | heapGcEnterBlocked =>
    apply Move.own h <;> cases hpc : s.pc t <;>
      simp_all [Pc.mayBlock]
  | take hpc hw hf => exact Move.take h hf hpc hw
  | heapGcLeaveBlocked =>
    rename_i w _ _
    apply Move.own h <;> cases w <;>
      simp_all [Wait.next]
  | unlink hpc =>
    have hh : (s.pc t).holdsGcLock := by simp [hpc]
    constructor
    · exact fun u hu => set_thread_other _ _ hu
    · intro u hu
      exact List.mem_erase_of_ne hu
    · exact h.nodup.erase t
    · simpa using h.nodup.not_mem_erase
    · simpa [hpc] using hb
    · simpa [hpc] using ha
    · exact .inr (.inr ⟨(h.lock t).mpr hh,rfl,by simp⟩)
    · exact .inl (by simp [hpc])
    · intro c hc
      simp at hc
    · exact .inr (.inl hh)
  | unlock hpc =>
    have hreq : s.safepointRequested = false := by
      rw [h.request_eq (t := t) (by simp [hpc]),hpc]
      rfl
    apply Move.held h <;> simp_all
  | pause | wait | heapGcEnd => apply Move.held h <;> simp_all
  | _ => apply Move.own h <;> simp_all

omit h in
theorem coherent_of_perform {main : T} (h : perform next (start main) as = some s) : Coherent s :=
  invariant (fun _ _ _ hs hst => hs.move (move_of_step hs hst)) (coherent_start main) h

theorem Coherent.pause_step (hp : s.pc t = .paused c)
    (hu : u ≠ t) (hs : step s u a = some s') : s'.pc t = .paused c ∧ s'.mutators = s.mutators := by
  have m := move_of_step h hs
  have hh : (s.pc t).holdsGcLock := by simp [hp]
  refine ⟨by rw [m.pc_other hu.symm,hp],?_⟩
  rcases m.stays with hn | hhe | hf | ⟨hsa,_⟩
  · exact absurd ((h.lock t).mpr hh) (by simp [hn])
  · exact absurd (h.holder_unique hh hhe) hu
  · simp [h.request_eq hh,hp] at hf
  · exact hsa

theorem Coherent.pause_run {c : Client}
    (hp : s.pc t = .paused c) (hbs : ∀ x ∈ bs, x.1 ≠ t) (hs : perform next s bs = some s') :
    s'.pc t = .paused c ∧ s'.mutators = s.mutators := by
  induction bs generalizing s with
  | nil =>
    cases hs
    exact ⟨hp,rfl⟩
  | cons x _ ih =>
    obtain ⟨r,hr,hres⟩ := perform_cons hs
    obtain ⟨hpr,hmr⟩ := h.pause_step hp (hbs x List.mem_cons_self) hr
    rw [← hmr]
    exact ih (h.move (move_of_step h hr)) hpr (fun y hy => hbs y (List.mem_cons_of_mem x hy)) hres

end Moves

/-- From the return of `heapGcBegin` until its caller takes the next step, whatever the other
threads do: none registers or unregisters, every registered one is in the poll-wait or the blocked
state, and the flags that were counted agree with where the threads are. -/
theorem paused_excludes_mutators {main t : T} {c : Client} {as bs : List (T × Action)}
    {s s' : Heap T} (h : perform next (start main) as = some s) (hp : s.pc t = .paused c)
    (hbs : ∀ x ∈ bs, x.1 ≠ t) (h' : perform next s bs = some s') : s'.pc t = .paused c ∧ s'.mutators = s.mutators ∧
    (∀ u ∈ s'.mutators, u ≠ t → (s'.pc u).isSafe) ∧
    ∀ u, ((s'.thread u).spAtSafepoint || (s'.thread u).spBlocked) = (s'.pc u).isSafe := by
  have hc := coherent_of_perform (perform_append h h')
  obtain ⟨hpa,hs⟩ := (coherent_of_perform h).pause_run hp hbs h'
  refine ⟨hpa,hs,hc.pause t c hpa,?_⟩
  intro u
  rw [hc.atSafepoint u,hc.blocked u]
  rfl

/-- The collector's way from its call to the return of `heapGcBegin` among safe mutators. -/
def collecting : List Action :=
  [.heapGcEnterBlocked (.client .heapCollectYoung false),.acquire,.heapGcLeaveBlocked,
    .heapGcBegin true]

def twoPauses : List (Fin 3 × Action) :=
  [(1,.heapAddMutator),(2,.heapAddMutator),(2,.heapGcEnterBlocked .other)] ++
    collecting.map (0,·) ++ [(1,.poll),(1,.pollLocked),(0,.beginWake),(0,.finish),(0,.unlock)] ++
    collecting.map (0,·)

theorem paused_excludes_late_leaver : ∃ s s' : Heap (Fin 3), perform next (start 0) twoPauses = some s ∧ s.pc 0 =
      .paused .heapCollectYoung ∧ s.pc 1 = .atSafepoint ∧ perform next s [(2,.acquire)] = some s' ∧ s'.mutators =
      [2,1,0] ∧ ∀ u ∈ s'.mutators, u ≠ 0 → (s'.pc u).isSafe := by
  refine ⟨_,_,rfl,rfl,rfl,rfl,rfl,?_⟩
  have ho : ∀ x ∈ [((2 : Fin 3),Action.acquire)], x.1 ≠ 0 := by decide
  exact (paused_excludes_mutators (show perform next (start 0) twoPauses = _ from rfl) rfl ho rfl).2.2.1

/-- While a thread waits in `heapGcBegin`, two steps of its own make any other mutator safe. -/
theorem mutators_stop {u : T} {c : Client} {s : Heap T} (main t : T) (as : List (T × Action))
    (h : perform next (start main) as = some s) (hp : s.pc t = .beginning c) (hu : u ∈ s.mutators) (hne : u ≠ t) :
    ∃ (bs : List Action) (m : Mutator), bs.length ≤ 2 ∧ perform next s (bs.map (u,·)) = some (s.set u m) ∧
      (m.spAtSafepoint || m.spBlocked) := by
  have hc := coherent_of_perform h
  have hreq : s.safepointRequested := hc.request.mpr ⟨t,by simp [hp]⟩
  have hstay : perform next s [] = some (s.set u (s.thread u)) := by simp [perform,Heap.set]
  cases hpc : s.pc u with
  | outside => exact absurd hpc ((hc.registered u).mp hu)
  | running =>
    refine ⟨[.poll,.pollLocked],{ s.thread u with pc := .atSafepoint, spAtSafepoint := true },
      Nat.le_refl 2,?_,rfl⟩
    have hset : ∀ m m', (s.set u m).set u m' = s.set u m' := by simp [Heap.set]
    simp [perform,next,step,hpc,hreq,hset]
  | polling =>
    refine ⟨[.pollLocked],{ s.thread u with pc := .atSafepoint, spAtSafepoint := true },Nat.le_succ 1,?_,rfl⟩
    simp [perform,next,step,hpc,hreq]
  | counted c' multi =>
    refine ⟨[.heapGcEnterBlocked (.client c' multi)],
      { s.thread u with pc := .blocked (.client c' multi), spBlocked := true },Nat.le_succ 1,?_,Bool.or_true _⟩
    simp [perform,next,step,hpc,Pc.mayBlock]
  | atSafepoint => exact ⟨[],s.thread u,Nat.zero_le 2,hstay,by simp [hc.atSafepoint,hpc]⟩
  | blocked | leaving => exact ⟨[],s.thread u,Nat.zero_le 2,hstay,by simp [hc.blocked,hpc]⟩
  | locked | beginning | paused | alone | unlocking =>
    -- only the holder of `gcLock` is there, the thread that waits
    exact absurd (hc.holder_unique (by simp [hp]) (by simp [hpc])) hne

theorem mutators_stop_running : ∃ s : Heap (Fin 3), perform next (start 0) (twoPauses.take 7) = some s ∧
    s.pc 0 = .beginning .heapCollectYoung ∧ s.pc 1 = .running ∧ ∃ (bs : List Action) (m : Mutator),
      bs.length ≤ 2 ∧ perform next s (bs.map (1,·)) = some (s.set 1 m) ∧ (m.spAtSafepoint || m.spBlocked) :=
  ⟨_,rfl,rfl,rfl,mutators_stop 0 0 (twoPauses.take 7) rfl rfl (by decide) (by decide)⟩

end SmalltalkJit.Safepoint
