import Mathlib.Data.Set.Card
import Mathlib.Logic.Function.Basic
import SmalltalkJit.Lib.Interleaving

/-! # Channels

`send:` updates the queue and then signals the semaphore; `receive` waits for the
semaphore and then takes the first item. Each of the four is one section under a
monitor. Between two of them a process has put an item into the queue and owes the
signal, or it has a permit and owes the removal, and what it owes keeps the queue and
the semaphore in balance.
-/
namespace SmalltalkJit.Channels
open Interleaving Function List

inductive Stage
  | outside
  /-- in `send:`, before the signal -/
  | sending
  /-- parked in the wait of `receive` -/
  | parked
  /-- in `receive`, after the wait -/
  | permitted
  /-- `removeFirst` has found an empty queue -/
  | failed
  deriving DecidableEq

/-- The variables of a channel and of its semaphore, and the processes. What has been put into the queue
and taken out of it is recorded; nothing in the program reads this. -/
structure Channel (P α : Type) where
  queue : List α
  count : ℕ
  waiting : List P
  stage : P → Stage
  enqueued : List α
  received : List (P × α)

inductive Action (P α : Type)
  | addLast (p : P) (item : α)
  | signal (p : P)
  | wait (p : P)
  | removeFirst (p : P)

variable {P α : Type} [DecidableEq P]

namespace Channel
variable (c : Channel P α)

def new : Channel P α := ⟨[],0,[],fun _ => .outside,[],[]⟩

def setStage (p : P) (stage : Stage) : Channel P α := { c with stage := update c.stage p stage }

def addLast (item : α) : Channel P α := { c with queue := c.queue ++ [item], enqueued := c.enqueued ++ [item] }

/-- `Semaphore>>signal`. The process that is resumed has the permit. -/
def signal : Channel P α :=
  match c.waiting with
  | [] => { c with count := c.count+1 }
  | q :: rest => { c with waiting := rest }.setStage q .permitted

def wait (p : P) : Channel P α :=
  if 0 < c.count then { c with count := c.count-1 }.setStage p .permitted
  else { c with waiting := c.waiting ++ [p] }.setStage p .parked

def removeFirst (p : P) : Channel P α :=
  match c.queue with
  | [] => c.setStage p .failed
  | item :: rest => { c with queue := rest, received := c.received ++ [(p,item)] }.setStage p .outside

end Channel

def step (c : Channel P α) : Action P α → Option (Channel P α)
  | .addLast p item => if c.stage p = .outside then some ((c.addLast item).setStage p .sending) else none
  | .signal p => if c.stage p = .sending then some (c.signal.setStage p .outside) else none
  | .wait p => if c.stage p = .outside then some (c.wait p) else none
  | .removeFirst p => if c.stage p = .permitted then some (c.removeFirst p) else none

def Channel.processesAt (c : Channel P α) (stage : Stage) : Set P := {p | c.stage p = stage}

noncomputable def Channel.tally (c : Channel P α) (stage : Stage) : ℕ := (c.processesAt stage).ncard

structure Delivers (c : Channel P α) : Prop where
  /-- each item is received once, in the order of the queue, or is still queued -/
  once : c.enqueued = c.received.map Prod.snd ++ c.queue
  safe : ∀ p, c.stage p ≠ .failed
  balance : c.queue.length = c.count + c.tally .permitted + c.tally .sending
  /-- when every signal is done, a process is parked only if every item has its receiver -/
  awake : (∀ p, c.stage p ≠ .sending) → c.tally .permitted < c.queue.length → ∀ p, c.stage p ≠ .parked

def Stage.owes : Stage → Bool
  | .sending | .permitted => true
  | _ => false

def owing (stage : P → Stage) : Set P := {p | (stage p).owes}

section Owing
variable {stage : P → Stage} {p : P} {new : Stage}

theorem owing_update_of_owes (h : new.owes = true) : owing (update stage p new) = insert p (owing stage) := by
  ext q
  by_cases hq : q = p <;> simp [owing,update_apply,hq,h]

theorem owing_update_of_not_owes (h : new.owes = false) : owing (update stage p new) = owing stage \ {p} := by
  ext q
  by_cases hq : q = p <;> simp [owing,update_apply,hq,h]

variable (h : (owing stage).Finite)
include h

theorem finite_owing_update (p : P) (new : Stage) : (owing (update stage p new)).Finite := by
  cases hnew : new.owes
  · rw [owing_update_of_not_owes hnew]
    exact h.sdiff
  · rw [owing_update_of_owes hnew]
    exact h.insert p

theorem ncard_owing_begin (new : Stage) (hp : (stage p).owes = false) (hnew : new.owes = true) :
    (owing (update stage p new)).ncard = (owing stage).ncard+1 := by
  have hnot : p ∉ owing stage := fun hmem => absurd (hp.symm.trans hmem) nofun
  rw [owing_update_of_owes hnew,Set.ncard_insert_of_notMem hnot h]

theorem ncard_owing_end (new : Stage) (hp : (stage p).owes = true) (hnew : new.owes = false) :
    (owing (update stage p new)).ncard+1 = (owing stage).ncard := by
  rw [owing_update_of_not_owes hnew,Set.ncard_sdiff_singleton_add_one (show p ∈ owing stage from hp) h]

end Owing

/-- The waiting processes are those that are parked, and there are no permits while there are any. -/
structure Balanced (c : Channel P α) : Prop where
  once : c.enqueued = c.received.map Prod.snd ++ c.queue
  safe : ∀ p, c.stage p ≠ .failed
  finite : (owing c.stage).Finite
  balance : c.queue.length = c.count + (owing c.stage).ncard
  parked : ∀ p, p ∈ c.waiting ↔ c.stage p = .parked
  distinct : c.waiting.Nodup
  spent : c.waiting ≠ [] → c.count = 0

omit [DecidableEq P] in
theorem ncard_owing (c : Channel P α) (h : (owing c.stage).Finite) :
    (owing c.stage).ncard = c.tally .permitted + c.tally .sending := by
  have hu : owing c.stage = c.processesAt .permitted ∪ c.processesAt .sending := by
    ext p
    cases hp : c.stage p <;> simp [owing,Channel.processesAt,Stage.owes,hp]
  have hd : Disjoint (c.processesAt .permitted) (c.processesAt .sending) :=
    Set.disjoint_left.mpr fun p hp hs => absurd (hp.symm.trans hs) nofun
  rw [hu] at h ⊢
  exact Set.ncard_union_eq hd (h.subset Set.subset_union_left) (h.subset Set.subset_union_right)

namespace Balanced
variable {c : Channel P α} {p : P}

section
variable (h : Balanced c)
include h

omit [DecidableEq P] in
theorem delivers : Delivers c := by
  have hb := h.balance
  rw [ncard_owing c h.finite] at hb
  refine ⟨h.once,h.safe,by omega,fun hs hi p hp => ?_⟩
  have hn : c.tally .sending = 0 := by
    rw [Channel.tally,Set.eq_empty_of_forall_notMem (s := c.processesAt .sending) hs,Set.ncard_empty]
  have hc := h.spent (ne_nil_of_mem ((h.parked p).mpr hp))
  omega

theorem safe_update (hnew : new ≠ .failed) (q : P) : update c.stage p new q ≠ .failed := by
  rw [update_apply]
  split
  · exact hnew
  · exact h.safe q

theorem parked_update (hold : c.stage p ≠ .parked) (hnew : new ≠ .parked) (q : P) :
    q ∈ c.waiting ↔ update c.stage p new q = .parked := by
  rw [update_apply]
  split
  · next hq => exact iff_of_false (fun hw => hold (hq ▸ (h.parked q).mp hw)) hnew
  · exact h.parked q

theorem addLast (hp : c.stage p = .outside) (item : α) : Balanced ((c.addLast item).setStage p .sending) where
  once := by
    change c.enqueued ++ [item] = _ ++ (c.queue ++ [item])
    rw [h.once,append_assoc]
    rfl
  safe := h.safe_update nofun
  finite := finite_owing_update h.finite p _
  balance := by
    change (c.queue ++ [item]).length = c.count + (owing (update c.stage p .sending)).ncard
    rw [ncard_owing_begin h.finite .sending (by rw [hp]; rfl) rfl,length_append,h.balance]
    rfl
  parked := h.parked_update (by rw [hp]; exact nofun) nofun
  distinct := h.distinct
  spent := h.spent

theorem removeFirst (hp : c.stage p = .permitted) : Balanced (c.removeFirst p) := by
  have hend := ncard_owing_end h.finite .outside (show (c.stage p).owes = true by rw [hp]; rfl) rfl
  have hb := h.balance
  unfold Channel.removeFirst
  split
  · next hq =>
    rw [hq,length_nil] at hb
    omega
  · next x r hq =>
    refine ⟨?_,h.safe_update nofun,finite_owing_update h.finite p _,?_,
      h.parked_update (by rw [hp]; exact nofun) nofun,h.distinct,h.spent⟩
    · change c.enqueued = (c.received ++ [(p,x)]).map Prod.snd ++ r
      rw [h.once,hq,map_append,append_assoc]
      rfl
    · change r.length = c.count + (owing (update c.stage p .outside)).ncard
      rw [hq,length_cons] at hb
      omega

theorem wait (hp : c.stage p = .outside) : Balanced (c.wait p) := by
  have hb := h.balance
  unfold Channel.wait
  split
  · next hc =>
    have hbe := ncard_owing_begin h.finite .permitted (show (c.stage p).owes = false by rw [hp]; rfl) rfl
    refine ⟨h.once,h.safe_update nofun,finite_owing_update h.finite p _,?_,
      h.parked_update (by rw [hp]; exact nofun) nofun,h.distinct,fun hw => ?_⟩
    · change c.queue.length = c.count-1 + (owing (update c.stage p .permitted)).ncard
      omega
    · have hs := h.spent hw
      omega
  · next hc =>
    refine ⟨h.once,h.safe_update nofun,finite_owing_update h.finite p _,?_,fun q => ?_,?_,fun _ => ?_⟩
    · change c.queue.length = c.count + (owing (update c.stage p .parked)).ncard
      rw [owing_update_of_not_owes rfl,Set.sdiff_singleton_eq_self,hb]
      exact fun hmem => absurd (show (c.stage p).owes = true from hmem) (by rw [hp]; exact nofun)
    · change q ∈ c.waiting ++ [p] ↔ update c.stage p .parked q = .parked
      rw [mem_append,mem_singleton,h.parked q,update_apply]
      split
      · next hq => exact iff_of_true (.inr hq) rfl
      · next hq => exact or_iff_left hq
    · change (c.waiting ++ [p]).Nodup
      refine nodup_append.mpr ⟨h.distinct,nodup_singleton p,?_⟩
      rintro q hq r hr rfl
      rw [mem_singleton] at hr
      exact absurd ((h.parked q).mp hq) (by rw [hr,hp]; exact nofun)
    · exact Nat.eq_zero_of_not_pos hc

theorem signal (hp : c.stage p = .sending) : Balanced (c.signal.setStage p .outside) := by
  have hb := h.balance
  unfold Channel.signal
  split
  · next hwa =>
    have hend := ncard_owing_end h.finite .outside (show (c.stage p).owes = true by rw [hp]; rfl) rfl
    refine ⟨h.once,h.safe_update nofun,finite_owing_update h.finite p _,?_,
      h.parked_update (by rw [hp]; exact nofun) nofun,h.distinct,fun hw => absurd hwa hw⟩
    change c.queue.length = c.count+1 + (owing (update c.stage p .outside)).ncard
    omega
  · next q l hwa =>
    have hpar : c.stage q = .parked := (h.parked q).mp (hwa ▸ mem_cons_self)
    have hpq : p ≠ q := by
      rintro rfl
      exact absurd (hp.symm.trans hpar) nofun
    have hs : update c.stage q .permitted p = .sending := by rw [update_of_ne hpq,hp]
    have hd := h.distinct
    rw [hwa,nodup_cons] at hd
    -- the process that is resumed takes over what the sender owed
    have hbe := ncard_owing_begin h.finite .permitted (show (c.stage q).owes = false by rw [hpar]; rfl) rfl
    have hend := ncard_owing_end (finite_owing_update h.finite q .permitted) .outside
      (show (update c.stage q .permitted p).owes = true by rw [hs]; rfl) rfl
    refine ⟨h.once,fun r => ?_,finite_owing_update (finite_owing_update h.finite q _) p _,?_,fun r => ?_,
      hd.2,fun _ => h.spent (hwa ▸ cons_ne_nil q l)⟩
    · change update (update c.stage q .permitted) p .outside r ≠ .failed
      rw [update_apply]
      split
      · exact nofun
      · exact h.safe_update (show Stage.permitted ≠ .failed from nofun) r
    · change c.queue.length = c.count + (owing (update (update c.stage q .permitted) p .outside)).ncard
      omega
    · change r ∈ l ↔ update (update c.stage q .permitted) p .outside r = .parked
      have hr := h.parked r
      rw [hwa,mem_cons] at hr
      by_cases hrp : r = p
      · rw [hrp,update_self]
        rw [hrp,hp] at hr
        exact iff_of_false (fun hmem => absurd (hr.mp (.inr hmem)) nofun) nofun
      rw [update_of_ne hrp]
      by_cases hrq : r = q
      · rw [hrq,update_self]
        exact iff_of_false hd.1 nofun
      · rw [update_of_ne hrq,← hr,or_iff_right hrq]

end

end Balanced

omit [DecidableEq P] in
theorem balanced_new : Balanced (Channel.new : Channel P α) where
  once := rfl
  safe _ := nofun
  finite := by simp [owing,Channel.new,Stage.owes]
  balance := by simp [owing,Channel.new,Stage.owes]
  parked _ := by simp [Channel.new]
  distinct := nodup_nil
  spent h := absurd rfl h

theorem balanced_step {a : Action P α} (h : Balanced c) (hs : step c a = some c') : Balanced c' := by
  cases a <;> simp only [step,Option.ite_none_right_eq_some,Option.some.injEq] at hs
  case addLast p item => exact hs.2 ▸ h.addLast hs.1 item
  case signal p => exact hs.2 ▸ h.signal hs.1
  case wait p => exact hs.2 ▸ h.wait hs.1
  case removeFirst p => exact hs.2 ▸ h.removeFirst hs.1

/-- Whatever the processes do, and in whatever order their steps happen. -/
theorem channel_delivers (actions : List (Action P α)) : Along step Delivers Channel.new actions :=
  along_of_invariant (fun _ _ _ h hs => balanced_step h hs) (fun _ h => h.delivers) balanced_new actions

end SmalltalkJit.Channels
