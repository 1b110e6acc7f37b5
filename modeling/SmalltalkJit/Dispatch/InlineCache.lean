import SmalltalkJit.Memory.StopTheWorld

/-! # Dispatch, its three caches, and their invalidation

A dispatch that misses probes the lookup cache of its thread, walks the class
chain, has the method compiled, and publishes what it found in the lookup cache
and in the cell of its call site; a compilation bakes targets into code that it
publishes at the end. Waiting for `codegenLock` and allocating park a thread
between the walk and the publication. `icInvalidateAllSends` mutates the method
dictionaries, resets the cells, poisons the speculation sites and advances the
epoch at which parked threads flush their lookup caches. The steps of the
handshake are those of `Memory.Safepoint`.
-/
namespace SmalltalkJit.Dispatch
open Function
open Interleaving Safepoint

variable {T C S M K : Type}

/-- A class and selector with the method they are bound to; no method is the code that sends
`doesNotUnderstand:`. -/
structure Entry (C S M : Type) where
  cls : C
  selector : S
  target : Option M
  deriving DecidableEq

/-- `IcState`: the classes that a call site has seen with their targets. -/
inductive IcState (C M : Type)
  | unlinked
  | mono (cls : C) (target : Option M)
  | pic (ways : List (C × Option M))
  | mega
  deriving DecidableEq

def icPicCapacity : ℕ := 6

def IcState.ways : IcState C M → List (C × Option M)
  | .mono cls target => [(cls,target)]
  | .pic ways => ways
  | .unlinked | .mega => []

/-- The state that `inlineCacheMiss` publishes over the one it has seen. -/
def IcState.bind [DecidableEq C] (state : IcState C M) (cls : C) (target : Option M) : IcState C M :=
  match state with
  | .unlinked => .mono cls target
  | .mono seen seenTarget => if seen = cls then state else .pic [(seen,seenTarget),(cls,target)]
  | .pic ways =>
    if ways.any fun way => way.1 = cls then state
    else if ways.length < icPicCapacity then .pic (ways ++ [(cls,target)])
    else .mega
  | .mega => .mega

/-- What `icResetNativeCodeCells` leaves in a cell. -/
def IcState.reset : IcState C M → IcState C M
  | .mega => .mega
  | _ => .unlinked

/-- A lookup that has been answered and not yet published: for the cell of a call site, or to be
baked into code. Until the method is compiled its thread may park. -/
structure Lookup (C S M K : Type) extends Entry C S M where
  cell : Option K
  compiled : Bool

inductive Stage
  | idle
  | mutated
  | swept
  deriving DecidableEq

structure Sends (T C S M K : Type) where
  lookupSelector : C → S → Option M
  gcEpoch : ℕ
  cells : K → IcState C M
  specSites : List (Entry C S M)
  lookupCache : T → ℕ → Option (Entry C S M)
  lookupCacheEpoch : T → ℕ
  pending : T → List (Lookup C S M K)
  baked : T → List (Entry C S M)
  stage : Stage

structure World (T C S M K : Type) where
  heap : Heap T
  sends : Sends T C S M K

inductive Act (C S M K : Type)
  | control (a : Action)
  | miss (cls : C) (cell : K)
  | bake (cls : C) (selector : S)
  | compiled
  | publish (lost : Bool)
  | promote (cell : K)
  | inline (cell : K)
  | buildNativeCode
  | retire (cell : K)
  | mutate (lookupSelector : C → S → Option M)
  | sweep

section Steps
variable [DecidableEq T] [DecidableEq C] [DecidableEq S] [DecidableEq K]
variable (hash : C → S → ℕ) (selectorOf : K → S)

variable (d : Sends T C S M K)

variable (t : T)

def Sends.flushLookupCache : Sends T C S M K := { d with lookupCache := update d.lookupCache t fun _ => none }

def Sends.lookupCacheOnGcResume : Sends T C S M K :=
  if d.lookupCacheEpoch t = d.gcEpoch then d
  else { d.flushLookupCache t with
    lookupCacheEpoch := update d.lookupCacheEpoch t d.gcEpoch }

/-- `cachedLookupNativeCode` and the walk of `lookupNativeCode`: a hit is ready to be published, a
walk still has its method to compile. -/
def Sends.lookup (cls : C) (selector : S) (cell : Option K) : Lookup C S M K :=
  match d.lookupCache t (hash cls selector) with
  | some e =>
    if e.cls = cls ∧ e.selector = selector then ⟨⟨cls,selector,e.target⟩,cell,true⟩
    else ⟨⟨cls,selector,d.lookupSelector cls selector⟩,cell,false⟩
  | none => ⟨⟨cls,selector,d.lookupSelector cls selector⟩,cell,false⟩

def Sends.setPending (ps : List (Lookup C S M K)) : Sends T C S M K := { d with pending := update d.pending t ps }

def Sends.addBaked (e : Entry C S M) : Sends T C S M K := { d with baked := update d.baked t (e :: d.baked t) }

/-- The end of `lookupNativeCode`: the thread's own cache takes the entry. -/
def Sends.store (p : Lookup C S M K) (rest : List (Lookup C S M K)) : Sends T C S M K :=
  { d.setPending t ({ p with compiled := true } :: rest) with
    lookupCache := update d.lookupCache t
      (update (d.lookupCache t) (hash p.cls p.selector) (some p.toEntry)) }

/-- The answer reaches its cell, unless the exchange is lost, or the code that is being generated. -/
def Sends.deliver (p : Lookup C S M K) (rest : List (Lookup C S M K)) (lost : Bool) : Sends T C S M K :=
  match p.cell with
  | some k =>
    if lost then d.setPending t rest
    else { d.setPending t rest with
      cells := update d.cells k ((d.cells k).bind p.cls p.target) }
  | none => (d.setPending t rest).addBaked t p.toEntry

def IcState.monoClass : IcState C M → Option C
  | .mono cls _ => some cls
  | _ => none

def Sends.sweep : Sends T C S M K :=
  { d.flushLookupCache t with
    cells := fun k => (d.cells k).reset
    specSites := []
    gcEpoch := d.gcEpoch+1
    lookupCacheEpoch := update d.lookupCacheEpoch t (d.gcEpoch+1)
    stage := .swept }

def Sends.scavenge : Sends T C S M K := { d with cells := fun k => (d.cells k).reset, gcEpoch := d.gcEpoch+1 }

def Pc.invalidates : Pc → Bool
  | .paused c | .alone c => c = .icInvalidateAllSends
  | _ => false

def Pc.collects : Pc → Bool
  | .paused c | .alone c => c = .heapCollectYoung
  | _ => false

/-- No safepoint lies between the end of a compilation and the publication of its result; become,
redefinition and exit are not reached from within a dispatch; an invalidation runs to its end. -/
def Sends.allows (pc : Pc) : Action → Bool
  | .count _ | .heapGcEnterBlocked .endMutator => (d.pending t).isEmpty && (d.baked t).isEmpty
  | .poll | .heapGcEnterBlocked _ =>
    match d.pending t with
    | p :: _ => !p.compiled
    | [] => true
  | .finish => !Pc.invalidates pc || d.stage = .swept
  | _ => true

/-- What a step of the handshake does to the caches: a new thread has none, a thread that resumes
compares epochs, a collection is over, an invalidation returns. -/
@[simp] def Sends.afterControl (heap : Heap T) (t : T) : Action → Sends T C S M K
  | .heapAddMutator => { d.flushLookupCache t with lookupCacheEpoch := update d.lookupCacheEpoch t 0 }
  | .pollLocked => if heap.safepointRequested then d else d.lookupCacheOnGcResume t
  | .pollWake | .heapGcLeaveBlocked => d.lookupCacheOnGcResume t
  | .finish =>
    if Pc.collects (heap.pc t) then d.scavenge.lookupCacheOnGcResume t
    else if Pc.invalidates (heap.pc t) then { d with stage := .idle }
    else d
  | _ => d

def Sends.dispatch : Act C S M K → Option (Sends T C S M K)
  | .miss cls k => some (d.setPending t (d.lookup hash t cls (selectorOf k) (some k) :: d.pending t))
  | .bake cls selector => some (d.setPending t (d.lookup hash t cls selector none :: d.pending t))
  | .compiled =>
    match d.pending t with
    | p :: rest => if p.compiled then none else some (d.store hash t p rest)
    | [] => none
  | .publish lost =>
    match d.pending t with
    | p :: rest => if p.compiled then some (d.deliver t p rest lost) else none
    | [] => none
  | .promote k => (d.cells k).ways.head?.map fun way => d.addBaked t ⟨way.1,selectorOf k,way.2⟩
  | .inline k => (d.cells k).monoClass.map fun cls =>
      d.addBaked t ⟨cls,selectorOf k,d.lookupSelector cls (selectorOf k)⟩
  | .buildNativeCode => some { d with
      specSites := d.baked t ++ d.specSites
      baked := update d.baked t [] }
  | .retire k => some { d with cells := update d.cells k .unlinked }
  | .control _ | .mutate _ | .sweep => none

def World.step (w : World T C S M K) (t : T) (a : Act C S M K) : Option (World T C S M K) :=
  match a with
  | .control a =>
    if w.sends.allows t (w.heap.pc t) a then
      (Safepoint.step w.heap t a).map fun heap => ⟨heap,w.sends.afterControl w.heap t a⟩
    else none
  | .mutate f =>
    if Pc.invalidates (w.heap.pc t) ∧ w.sends.stage = .idle then
      some { w with sends := { w.sends with lookupSelector := f, stage := .mutated } }
    else none
  | .sweep =>
    if Pc.invalidates (w.heap.pc t) ∧ w.sends.stage = .mutated then
      some { w with sends := w.sends.sweep t }
    else none
  | a =>
    if w.heap.pc t = .running then
      (w.sends.dispatch hash selectorOf t a).map fun sends => { w with sends := sends }
    else none

def World.next (w : World T C S M K) (x : T × Act C S M K) : Option (World T C S M K) :=
  w.step hash selectorOf x.1 x.2

def World.start (main : T) (lookupSelector : C → S → Option M) : World T C S M K where
  heap := Safepoint.start main
  sends := {
    lookupSelector := lookupSelector
    gcEpoch := 0
    cells := fun _ => .unlinked
    specSites := []
    lookupCache := fun _ _ => none
    lookupCacheEpoch := fun _ => 0
    pending := fun _ => []
    baked := fun _ => []
    stage := .idle }

end Steps

end SmalltalkJit.Dispatch
