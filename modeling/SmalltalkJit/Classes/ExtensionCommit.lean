import Mathlib.Data.Fintype.Basic
import SmalltalkJit.Classes.Extension
import SmalltalkJit.Dispatch.Invalidation

/-! # Lookups while an extension is committed

The two stores of `extendMutate` happen inside `icInvalidateAllSends`, while the
other threads look methods up class by class. A lookup has no safepoint inside,
so a thread that is stopped is not in the middle of one, and every lookup sees
both old or both new dictionaries. A thread that registers after the mutators
were counted is not stopped and can see one of each.
-/
namespace SmalltalkJit.Classes
open Interleaving Safepoint Dispatch Option

variable {T Sym E : Type} [DecidableEq T] [DecidableEq Sym] {hash : Sym → ℕ}

/-- A `lookupSelector` that has come to the class `current`. -/
structure Walk (Sym : Type) where
  start : Oop
  selector : Sym
  current : Oop

inductive Commit (T : Type)
  | before
  | half (t : T)
  | after
  deriving DecidableEq

structure Readers (T Sym : Type) where
  heap : Heap T
  commit : Commit T
  walks : T → Option (Walk Sym)
  answered : List (Oop × Sym × Option (CompiledMethod Sym))

inductive Reading (Sym : Type)
  | control (a : Action)
  | lookup (c : Oop) (selector : Sym)
  | walk
  | storeInstDict
  | storeClassDict

variable (c : ExtendContext hash)

def Commit.table (t : ClassTable hash) : Commit T → ClassTable hash
  | .before => t
  | .half _ => c.storeInstDict t
  | .after => extendMutate c t

def Walk.step (t : ClassTable hash) (w : Walk Sym) : Option (Walk Sym ⊕ Option (CompiledMethod Sym)) :=
  (t.classAt w.current).bind fun k => k.methodDictionary.map fun dict =>
    match dict.at? w.selector with
    | some method => .inr (some method)
    | none =>
      match k.superClass with
      | none => .inr none
      | some s => .inl { w with current := s }

def Readers.setWalk (r : Readers T Sym) (t : T) (walk : Option (Walk Sym)) : Readers T Sym :=
  { r with walks := Function.update r.walks t walk }

def Readers.step (classes : ClassTable hash) (r : Readers T Sym) (t : T) : Reading Sym → Option (Readers T Sym)
  | .control a =>
    if (r.walks t).isNone ∧ (a = .finish → r.commit ≠ .half t) then
      (Safepoint.step r.heap t a).map fun heap => { r with heap := heap }
    else none
  | .lookup start selector =>
    if r.heap.pc t = .running ∧ (r.walks t).isNone then
      some (r.setWalk t (some ⟨start,selector,start⟩))
    else none
  | .walk =>
    if r.heap.pc t = .running then
      (r.walks t).bind fun w => (w.step (r.commit.table c classes)).map fun
        | .inl w' => r.setWalk t (some w')
        | .inr answer => { r.setWalk t none with answered := (w.start,w.selector,answer) :: r.answered }
    else none
  | .storeInstDict =>
    if Pc.invalidates (r.heap.pc t) ∧ r.commit = .before then some { r with commit := .half t }
    else none
  | .storeClassDict =>
    if Pc.invalidates (r.heap.pc t) ∧ r.commit = .half t then some { r with commit := .after }
    else none

def Readers.next (classes : ClassTable hash) (r : Readers T Sym) (x : T × Reading Sym) : Option (Readers T Sym) :=
  r.step c classes x.1 x.2

def Readers.start (main : T) : Readers T Sym where
  heap := Safepoint.start main
  commit := .before
  walks _ := none
  answered := []

/-- No thread registers while the count of another is pending. -/
def Readers.CountStands (r : Readers T Sym) : T × Reading Sym → Prop
  | (t,.control a) => Safepoint.CountStands r.heap (t,a)
  | _ => True

instance (r : Readers T Sym) : ∀ x, Decidable (r.CountStands x)
  | (t,.control a) => inferInstanceAs (Decidable (Safepoint.CountStands r.heap (t,a)))
  | (_,.lookup _ _) | (_,.walk) | (_,.storeInstDict) | (_,.storeClassDict) => .isTrue trivial

def OldOrNew (classes : ClassTable hash) (x : Oop × Sym × Option (CompiledMethod Sym)) : Prop :=
  classes.Answers x.1 x.2.1 x.2.2 ∨ (extendMutate c classes).Answers x.1 x.2.1 x.2.2

structure Whole (c : ExtendContext hash) (classes : ClassTable hash) (r : Readers T Sym) : Prop where
  coherent : Coherent r.heap
  counts : CountsRight r.heap
  walking : ∀ t w, r.walks t = some w → r.heap.pc t = .running
  half : ∀ t, r.commit = .half t → Pc.invalidates (r.heap.pc t)
  progress : ∀ t w, r.walks t = some w → ∀ answer,
    (r.commit.table c classes).Answers w.current w.selector answer →
    (r.commit.table c classes).Answers w.start w.selector answer
  answered : ∀ x ∈ r.answered, OldOrNew c classes x

section Lookups
variable {c : ExtendContext hash} {classes : ClassTable hash} {r r' : Readers T Sym}

theorem Walk.step_inl {w w' : Walk Sym} (h : w.step t = some (.inl w')) : w'.start = w.start ∧ w'.selector =
      w.selector ∧ ∀ answer, t.Answers w'.current w.selector answer → t.Answers w.current w.selector answer := by
  simp only [Walk.step,bind_eq_some_iff,map_eq_some_iff] at h
  obtain ⟨k,hk,d,hd,h⟩ := h
  split at h
  · cases h
  · rename_i hm
    split at h
    · cases h
    · rename_i s hs
      cases h
      exact ⟨rfl,rfl,fun answer ha => answers_up hk hd hm hs ha⟩

theorem Walk.step_inr {w : Walk Sym} (h : w.step t = some (.inr answer)) : t.Answers w.current w.selector answer := by
  simp only [Walk.step,bind_eq_some_iff,map_eq_some_iff] at h
  obtain ⟨k,hk,d,hd,h⟩ := h
  split at h
  · rename_i m hm
    cases h
    exact answers_hit hk hd hm
  · rename_i hm
    split at h
    · rename_i hs
      cases h
      exact answers_miss hk hd hm hs
    · cases h

variable (h : Whole c classes r)
include h

section
omit [DecidableEq T]

theorem Whole.not_running (ht : Pc.invalidates (r.heap.pc t)) : r.heap.pc u ≠ .running := by
  intro hu
  obtain ⟨cl,hcl⟩ := invalidates_cases ht
  by_cases hut : u = t
  · subst hut
    rcases hcl with hc | hc <;> simp [hc] at hu
  · have hs := h.counts.safe_of_working h.coherent hcl u ((h.coherent.registered u).mpr (by simp [hu])) hut
    simp [hu] at hs

theorem Whole.no_walk (ht : Pc.invalidates (r.heap.pc t)) : r.walks u = none := by
  cases hw : r.walks u with
  | none => rfl
  | some w => exact absurd (h.walking u w hw) (h.not_running ht)

theorem Whole.store (ht : Pc.invalidates (r.heap.pc t))
    (hh : ∀ u, commit = .half u → u = t) : Whole c classes { r with commit := commit } where
  coherent := h.coherent
  counts := h.counts
  walking := h.walking
  half u hu := hh u hu ▸ ht
  progress u w hw := by
    change r.walks u = some w at hw
    rw [h.no_walk ht] at hw
    cases hw
  answered := h.answered

theorem Whole.oldOrNew (ht : r.heap.pc t = .running)
    (ha : (r.commit.table c classes).Answers o selector answer) : OldOrNew c classes (o,selector,answer) := by
  cases hc : r.commit with
  | before => exact .inl (by simpa [hc,Commit.table] using ha)
  | half u => exact absurd ht (h.not_running (h.half u hc))
  | after => exact .inr (by simpa [hc,Commit.table] using ha)

end

theorem Whole.setWalk (ht : r.heap.pc t = .running) (hp : ∀ w, walk = some w → ∀ answer,
      (r.commit.table c classes).Answers w.current w.selector answer →
      (r.commit.table c classes).Answers w.start w.selector answer) :
    Whole c classes (r.setWalk t walk) where
  coherent := h.coherent
  counts := h.counts
  walking u w hw := by
    by_cases hu : u = t
    · rw [hu]
      exact ht
    · exact h.walking u w (by simpa [Readers.setWalk,hu] using hw)
  half := h.half
  progress u w hw := by
    by_cases hu : u = t
    · subst hu
      exact hp w (by simpa [Readers.setWalk] using hw)
    · exact h.progress u w (by simpa [Readers.setWalk,hu] using hw)
  answered := h.answered

theorem Whole.control (hwa : r.walks t = none)
    (hfin : a = .finish → r.commit ≠ .half t) (hok : Safepoint.CountStands r.heap (t,a))
    (hs : Safepoint.step r.heap t a = some heap) : Whole c classes { r with heap := heap } := by
  have m := move_of_step h.coherent hs
  refine ⟨h.coherent.move m,h.counts.step h.coherent hok hs,?_,?_,h.progress,h.answered⟩
  · intro u w hw
    have hut : u ≠ t := by
      rintro rfl
      rw [hwa] at hw
      cases hw
    exact (m.pc_other hut).trans (h.walking u w hw)
  · intro u hu
    have hinv := h.half u hu
    by_cases hut : u = t
    · subst hut
      exact absurd hu (hfin (finish_of_follows (follows_of_step hs) hinv))
    · rwa [m.pc_other hut]

theorem Whole.step (hok : r.CountStands x)
    (hs : r.next c classes x = some r') : Whole c classes r' := by
  obtain ⟨t,a⟩ := x
  cases a <;>
    simp only [Readers.next,Readers.step,ite_none_right_eq_some,bind_eq_some_iff,map_eq_some_iff,some.injEq] at hs
  case control =>
    obtain ⟨⟨hwa,hfin⟩,heap,hst,rfl⟩ := hs
    exact h.control (by simpa using hwa) hfin hok hst
  case lookup =>
    obtain ⟨⟨hrun,-⟩,rfl⟩ := hs
    apply h.setWalk hrun
    rintro w hw answer ha
    cases hw
    exact ha
  case walk =>
    obtain ⟨hrun,w,hw,out,hout,rfl⟩ := hs
    cases out with
    | inl =>
      obtain ⟨hsta,hsel,hup⟩ := Walk.step_inl hout
      apply h.setWalk hrun
      rintro v hv answer ha
      cases hv
      rw [hsta,hsel] at *
      exact h.progress t w hw answer (hup answer ha)
    | inr answer =>
      have hw' : Whole c classes (r.setWalk t none) := h.setWalk hrun (by simp)
      refine ⟨hw'.coherent,hw'.counts,hw'.walking,hw'.half,hw'.progress,?_⟩
      intro x hx
      rcases List.mem_cons.mp hx with rfl | hx
      · exact h.oldOrNew hrun (h.progress t w hw answer (Walk.step_inr hout))
      · exact h.answered x hx
  case storeInstDict =>
    obtain ⟨⟨hinv,-⟩,rfl⟩ := hs
    exact h.store hinv (by simp [eq_comm])
  case storeClassDict =>
    obtain ⟨⟨hinv,-⟩,rfl⟩ := hs
    exact h.store hinv (by simp)

end Lookups

section Kernel

def kernelClass (cls : Oop) (superClass : Option Oop) : RawClass (id : ℕ → ℕ) where
  cls := cls
  superClass := superClass
  subClasses := []
  methodDictionary := some (.new 3)
  instanceShape := ⟨0,0,0,0,0,16⟩
  instanceVariables := []
  name := none
  instanceClass := none

/-- Object (10), Class (12), MetaClass (14) and their metaclasses. The name 0 is bound to Object and
the name 1 to the word of a shape. -/
def kernel : ClassTable (id : ℕ → ℕ) where
  classAt
    | 10 => some (kernelClass 11 none)
    | 11 => some (kernelClass 14 (some 12))
    | 12 => some (kernelClass 13 (some 10))
    | 13 => some (kernelClass 14 (some 11))
    | 14 => some (kernelClass 15 (some 10))
    | 15 => some (kernelClass 14 (some 11))
    | _ => none
  next := 16
  bindings
    | 0 => some (.pointer 10)
    | 1 => some (.immediate 0x18000100000000)
    | _ => none
  imported _ := none

def kernelContext : Context (id : ℕ → ℕ) Unit where
  handles := ⟨1,14,12,10⟩
  isClassVar _ := false
  analyze _ _ _ := .ok 0

end Kernel

end SmalltalkJit.Classes
