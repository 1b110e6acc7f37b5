import Mathlib.Data.List.Induction
import Mathlib.Data.List.Nodup
import Mathlib.Data.Nat.Basic
import Mathlib.Order.Basic
import SmalltalkJit.Exceptions.Unwinding

/-! # Chains of handlers

The log of a process is read as the run of a stack: a registration pushes a
cleanup, and only the cleanup on top may be run. The chain of handlers of a
process is to be this stack, and a process that is gone is to leave an empty one
when no loop on another stack has cleanups of it left.
-/
namespace SmalltalkJit.Exceptions
open State Function List

/-- An `ifCurtailed:` whose block completes drops its cleanup if it is still pending. -/
def Entry.apply : Entry → List ℕ → Option (List ℕ)
  | .register u, pending => some (u :: pending)
  | .execute u, pending => if pending.head? = some u then some pending.tail else none
  | .skip u, pending =>
    if pending.head? = some u then some pending.tail else if u ∈ pending then none else some pending

def replay (log : List Entry) : Option (List ℕ) := log.foldl (fun pending entry => pending.bind entry.apply) (some [])

theorem replay_append (log : List Entry) (entry : Entry) :
    replay (log ++ [entry]) = (replay log).bind entry.apply := by
  rw [replay,foldl_append]
  rfl

inductive Links (handlers : ℕ → UnwindHandler) : Option ℕ → List ℕ → Prop
  | nil : Links handlers none []
  | cons {u pending} (h : Links handlers (handlers u).parent pending) :
    Links handlers (some u) (u :: pending)

namespace Links
variable {handlers handlers' : ℕ → UnwindHandler} {head : Option ℕ} {pending : List ℕ}

variable (h : Links handlers head pending)
include h

theorem head?_eq : pending.head? = head := by
  cases h with
  | nil | cons => rfl

theorem congr (heq : ∀ u ∈ pending, handlers' u = handlers u) : Links handlers' head pending := by
  induction h with
  | nil => exact .nil
  | @cons u pending h ih =>
    refine .cons ?_
    rw [heq u mem_cons_self]
    exact ih fun v hv => heq v (mem_cons_of_mem u hv)

theorem le_of_mem (hpar : ∀ {u v}, u < bound → (handlers u).parent = some v →
      v < u ∧ (handlers v).frame < (handlers u).frame) (hhead : ∀ u, head = some u → u < bound) (hv : v ∈ pending) :
    ∃ u, head = some u ∧ v ≤ u ∧ (handlers v).frame ≤ (handlers u).frame := by
  induction h with
  | nil => cases hv
  | @cons u pending h ih =>
    refine ⟨u,rfl,?_⟩
    rcases mem_cons.mp hv with rfl | hv
    · exact ⟨le_rfl,le_rfl⟩
    · have hu := hhead u rfl
      have hlt := fun w hw => hpar (v := w) hu hw
      obtain ⟨w,hw,hle,hf⟩ := ih (fun w hw => (hlt w hw).1.trans hu) hv
      exact ⟨hle.trans (hlt w hw).1.le,hf.trans (hlt w hw).2.le⟩

end Links

section Stacks
variable {stack rest : List Frame} {frame f : Frame} {depth target : ℕ}

theorem frameAt_cons (h : frameAt rest depth = some f) : frameAt (frame :: rest) depth = some f := by
  obtain ⟨hlt,-⟩ := List.getElem?_eq_some_iff.mp h
  rw [frameAt,reverse_cons,List.getElem?_append_left hlt]
  exact h

theorem frameAt_of_cons (h : frameAt (frame :: rest) depth = some f) (hne : f ≠ frame) :
    frameAt rest depth = some f := by
  rw [frameAt,reverse_cons,List.getElem?_append] at h
  split at h
  · exact h
  · rw [List.getElem?_singleton] at h
    obtain ⟨-,h⟩ := Option.ite_none_right_eq_some.mp h
    exact absurd (Option.some.inj h).symm hne

theorem lt_of_frameAt (h : frameAt stack depth = some f) : depth < stack.length := by
  obtain ⟨hlt,-⟩ := List.getElem?_eq_some_iff.mp h
  rwa [length_reverse] at hlt

end Stacks

def Frame.walk? : Frame → Option (ℕ × Option ℕ)
  | .walk owner head => some (owner,head)
  | _ => none

/-- The loops on a stack over the cleanups of other processes: whose cleanups, and which are left. -/
def walks (stack : List Frame) : List (ℕ × Option ℕ) := stack.filterMap Frame.walk?

def owners (stack : List Frame) : List ℕ := (walks stack).map Prod.fst

theorem mem_owners {stack : List Frame} {head : Option ℕ} (h : (owner,head) ∈ walks stack) : owner ∈ owners stack :=
  mem_map_of_mem (f := Prod.fst) h

def awaited (stack : List Frame) : Bool := (walks stack).any fun walk => walk.2.isSome

structure Sane (s : State) : Prop where
  parent_lt : ∀ {u v}, u < s.nextHandler → (s.handlers u).parent = some v →
    v < u ∧ (s.handlers v).frame < (s.handlers u).frame
  head_lt : ∀ {p proc u}, s.processes p = some proc → proc.unwindHandler = some u → u < s.nextHandler
  walk_lt : ∀ {p proc owner u}, s.processes p = some proc → (owner,some u) ∈ walks proc.stack →
    u < s.nextHandler
  nodup : ∀ {p proc}, s.processes p = some proc → (owners proc.stack).Nodup
  dead : ∀ {p proc owner}, s.processes p = some proc → owner ∈ owners proc.stack →
    s.processes owner = none ∧ owner < s.nextProcess
  unique : ∀ {p q proc proc' owner}, s.processes p = some proc → s.processes q = some proc' →
    owner ∈ owners proc.stack → owner ∈ owners proc'.stack → p = q
  fresh : ∀ {p}, s.nextProcess ≤ p → s.processes p = none ∧ s.log p = []

/-- The chain of a process is the list of its pending cleanups, whose blocks are all still active; the
pending cleanups of a process that is gone are those that a loop has still to run. -/
structure Kept (s : State) : Prop where
  live : ∀ {p proc}, s.processes p = some proc → ∃ pending, Links s.handlers proc.unwindHandler pending ∧
    replay (s.log p) = some pending ∧
    ∀ u ∈ pending, frameAt proc.stack (s.handlers u).frame = some (.protect u)
  walked : ∀ {p proc owner head}, s.processes p = some proc → (owner,head) ∈ walks proc.stack →
    ∃ pending, Links s.handlers head pending ∧ replay (s.log owner) = some pending
  gone : ∀ {owner}, s.processes owner = none → replay (s.log owner) = some [] ∨
    ∃ p proc head, s.processes p = some proc ∧ (owner,head) ∈ walks proc.stack

theorem processes_update {s : State} {proc r : Process} (h : update s.processes p (some proc) q = some r) :
    q = p ∧ r = proc ∨ q ≠ p ∧ s.processes q = some r := by
  rcases eq_or_ne q p with rfl | hne
  · rw [update_self] at h
    exact .inl ⟨rfl,(Option.some.inj h).symm⟩
  · rw [update_of_ne hne] at h
    exact .inr ⟨hne,h⟩

theorem processes_other {s : State} {o o' : Option Process} (h : update s.processes p o q = o') (ho : o ≠ o') :
    q ≠ p ∧ s.processes q = o' := by
  have hne : q ≠ p := by
    rintro rfl
    rw [update_self] at h
    exact ho h
  exact ⟨hne,(update_of_ne hne ..).symm.trans h⟩

namespace Sane
variable {s : State} {p : ℕ} {proc proc' : Process}

section
variable (h : Sane s)
include h

theorem ne_of_mem_owners (hp : s.processes p = some proc)
    (hq : s.processes q = some r) (hmem : owner ∈ owners r.stack) : owner ≠ p := by
  rintro rfl
  exact absurd ((h.dead hq hmem).1.symm.trans hp) nofun

theorem lt (hp : s.processes p = some proc) : p < s.nextProcess := by
  by_contra hge
  exact absurd ((h.fresh (Nat.le_of_not_lt hge)).1.symm.trans hp) nofun

theorem record (hp : p < s.nextProcess) (entry : Entry) : Sane (s.record p entry) where
  parent_lt := h.parent_lt
  head_lt := h.head_lt
  walk_lt := h.walk_lt
  nodup := h.nodup
  dead := h.dead
  unique := h.unique
  fresh {q} hq := by
    have hne : q ≠ p := by
      rintro rfl
      exact absurd hp (Nat.not_lt.mpr hq)
    exact ⟨(h.fresh hq).1,(update_of_ne hne ..).trans (h.fresh hq).2⟩

theorem remove (p : ℕ) : Sane (s.put p none) where
  parent_lt := h.parent_lt
  head_lt hq := h.head_lt (processes_other hq nofun).2
  walk_lt hq := h.walk_lt (processes_other hq nofun).2
  nodup hq := h.nodup (processes_other hq nofun).2
  dead {_ _ owner} hq hmem := by
    obtain ⟨hn,hlt⟩ := h.dead (processes_other hq nofun).2 hmem
    refine ⟨?_,hlt⟩
    change update s.processes p none owner = none
    rw [update_apply,hn,ite_self]
  unique hq hr := h.unique (processes_other hq nofun).2 (processes_other hr nofun).2
  fresh {q} hq := by
    refine ⟨?_,(h.fresh hq).2⟩
    change update s.processes p none q = none
    rw [update_apply,(h.fresh hq).1,ite_self]

section
variable (hp : s.processes p = some proc) (hhead : ∀ u, proc'.unwindHandler = some u → u < s.nextHandler)
include hp hhead

theorem put (hw : ∀ owner u, (owner,some u) ∈ walks proc'.stack → u < s.nextHandler)
    (hn : (owners proc'.stack).Nodup) (ho : ∀ owner ∈ owners proc'.stack, owner ∈ owners proc.stack ∨
      s.processes owner = none ∧ owner < s.nextProcess ∧
        ∀ q r, s.processes q = some r → owner ∉ owners r.stack) :
    Sane (s.put p (some proc')) where
  parent_lt := h.parent_lt
  head_lt hq := by
    obtain ⟨rfl,rfl⟩ | ⟨-,hq⟩ := processes_update hq
    · exact hhead _
    · exact h.head_lt hq
  walk_lt hq := by
    obtain ⟨rfl,rfl⟩ | ⟨-,hq⟩ := processes_update hq
    · exact hw _ _
    · exact h.walk_lt hq
  nodup hq := by
    obtain ⟨rfl,rfl⟩ | ⟨-,hq⟩ := processes_update hq
    · exact hn
    · exact h.nodup hq
  dead {_ _ owner} hq hmem := by
    have hd : s.processes owner = none ∧ owner < s.nextProcess := by
      obtain ⟨rfl,rfl⟩ | ⟨-,hq⟩ := processes_update hq
      · exact (ho owner hmem).elim (h.dead hp) fun hnew => ⟨hnew.1,hnew.2.1⟩
      · exact h.dead hq hmem
    have hne : owner ≠ p := by
      rintro rfl
      exact absurd (hd.1.symm.trans hp) nofun
    exact ⟨(update_of_ne hne ..).trans hd.1,hd.2⟩
  unique {_ _ _ _ owner} hq hr hmem hmem' := by
    obtain ⟨rfl,rfl⟩ | ⟨-,hold⟩ := processes_update hq <;>
      obtain ⟨heq,rfl⟩ | ⟨-,hold'⟩ := processes_update hr
    · exact heq.symm
    · exact (ho owner hmem).elim (fun hmem => h.unique hp hold' hmem hmem')
        fun hnew => absurd hmem' (hnew.2.2 _ _ hold')
    · rw [heq]
      exact (ho owner hmem').elim (fun hmem' => h.unique hold hp hmem hmem')
        fun hnew => absurd hmem (hnew.2.2 _ _ hold)
    · exact h.unique hold hold' hmem hmem'
  fresh {q} hq := by
    have hne : q ≠ p := by
      rintro rfl
      exact absurd (h.lt hp) (Nat.not_lt.mpr hq)
    exact ⟨(update_of_ne hne ..).trans (h.fresh hq).1,(h.fresh hq).2⟩

theorem put_of_sublist (hsub : (walks proc'.stack).Sublist (walks proc.stack)) : Sane (s.put p (some proc')) :=
  h.put hp hhead (fun _ _ hmem => h.walk_lt hp (hsub.subset hmem)) ((hsub.map _).nodup (h.nodup hp))
    fun _ hmem => .inl ((hsub.map _).subset hmem)

end

theorem parent (hu : u < s.nextHandler) (hv : (s.handlers u).parent = some v) : v < s.nextHandler :=
  (h.parent_lt hu hv).1.trans hu

theorem lt_of_mem {head : Option ℕ} (hl : Links s.handlers head pending)
    (hhead : ∀ u, head = some u → u < s.nextHandler) (hu : u ∈ pending) : u < s.nextHandler := by
  obtain ⟨v,hv,hle,-⟩ := hl.le_of_mem h.parent_lt hhead hu
  exact hle.trans_lt (hhead v hv)

theorem register (hk : Kept s) (hp : s.processes p = some proc) (curtailed : Bool) :
    Sane (s.register p proc curtailed) := by
  have hold : ∀ {v}, v < s.nextHandler → ∀ handler, update s.handlers s.nextHandler handler v = s.handlers v :=
    fun hv _ => update_of_ne hv.ne ..
  have hs : Sane { s with
      handlers := update s.handlers s.nextHandler ⟨proc.unwindHandler,proc.stack.length,curtailed⟩
      nextHandler := s.nextHandler+1 } := by
    refine ⟨?_,fun hp hu => (h.head_lt hp hu).trans (Nat.lt_succ_self _),
      fun hp hu => (h.walk_lt hp hu).trans (Nat.lt_succ_self _),h.nodup,h.dead,h.unique,h.fresh⟩
    intro u v hu hv
    dsimp only at hu hv ⊢
    rcases Nat.lt_succ_iff_lt_or_eq.mp hu with hu | rfl
    · rw [hold hu] at hv ⊢
      rw [hold (h.parent hu hv)]
      exact h.parent_lt hu hv
    · -- the frame of the head of the chain is in the stack
      rw [update_self] at hv ⊢
      have hlt := h.head_lt hp hv
      obtain ⟨pending,hl,-,ha⟩ := hk.live hp
      rw [hold hlt]
      refine ⟨hlt,lt_of_frameAt (ha v ?_)⟩
      exact mem_of_mem_head? (hl.head?_eq.trans hv)
  refine (hs.record (h.lt hp) _).put_of_sublist hp ?_ (List.Sublist.refl (walks proc.stack))
  rintro u ⟨⟩
  exact Nat.lt_succ_self _

theorem spawn : Sane s.spawn := by
  have hpr : ∀ {q r}, s.spawn.processes q = some r → r = ⟨[.plain],none,false⟩ ∨ s.processes q = some r :=
    fun hq => (processes_update hq).imp And.right And.right
  have ho : ∀ {q r o}, s.spawn.processes q = some r → o ∈ owners r.stack → s.processes q = some r := by
    intro q r o hq hmem
    rcases hpr hq with rfl | hq
    · exact absurd hmem nofun
    · exact hq
  constructor
  case parent_lt => exact h.parent_lt
  case head_lt =>
    intro q r u hq hu
    rcases hpr hq with rfl | hq
    · cases hu
    · exact h.head_lt hq hu
  case walk_lt =>
    intro q r o u hq hu
    exact h.walk_lt (ho hq (mem_owners hu)) hu
  case nodup =>
    intro q r hq
    rcases hpr hq with rfl | hq
    · exact nodup_nil
    · exact h.nodup hq
  case dead =>
    intro q r o hq hmem
    obtain ⟨hn,hlt⟩ := h.dead (ho hq hmem) hmem
    exact ⟨(update_of_ne hlt.ne ..).trans hn,hlt.trans (Nat.lt_succ_self _)⟩
  case unique =>
    intro q r proc proc' o hq hr hmem hmem'
    exact h.unique (ho hq hmem) (ho hr hmem') hmem hmem'
  case fresh =>
    intro q hq
    have hlt : s.nextProcess < q := hq
    exact ⟨(update_of_ne hlt.ne' ..).trans (h.fresh hlt.le).1,(h.fresh hlt.le).2⟩

end

end Sane

end SmalltalkJit.Exceptions
