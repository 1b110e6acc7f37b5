import SmalltalkJit.Concurrency.Polling

/-! # The timer heap

The heap of timers lies in an array that is made larger when it is full. Whatever
was pushed and woken before, a call of `wakeExpiredTimers` takes the timers that are
due, the earliest first, and no other.
-/
namespace SmalltalkJit.Concurrency
open Scheduler BinaryHeap Multiset

/-- `gTimers`, with the number of slots there are. -/
structure TimerArray where
  sched : Scheduler
  cap : ℕ
  count_le : sched.timers.count ≤ cap

/-- A push comes with what the array holds beyond its old capacity when it has been made larger. -/
inductive TimerCall
  | push (fresh : ℕ → Timer) (timer : Timer)
  | wake (now : ℤ)

namespace TimerArray
variable (a : TimerArray) (fresh : ℕ → Timer) (timer : Timer)

/-- `realloc` keeps the slots there were. -/
def grow : BinaryHeap Timer := ⟨fun i => if i < a.cap then a.sched.timers.entries i else fresh i,a.sched.timers.count⟩

def push : TimerArray where
  sched := { a.sched with timers := a.grow fresh }.timerPush timer
  cap := if a.sched.timers.count = a.cap then if a.cap = 0 then 16 else a.cap*2 else a.cap
  count_le := by
    have := a.count_le
    change a.sched.timers.count+1 ≤ _
    split_ifs <;> omega

theorem count_wakeExpired_le (s : Scheduler) : s.wakeExpiredTimers.timers.count ≤ s.timers.count :=
  wakeExpired_rule (P := fun s' => s'.timers.count ≤ s.timers.count) le_rfl (fun s' h => by
    rw [aside_resume.timers]
    exact (Nat.sub_le ..).trans h) _

def wake (now : ℤ) : TimerArray where
  sched := { a.sched with now := now }.wakeExpiredTimers
  cap := a.cap
  count_le := (count_wakeExpired_le { a.sched with now := now }).trans a.count_le

def call (a : TimerArray) : TimerCall → TimerArray
  | .push fresh timer => a.push fresh timer
  | .wake now => a.wake now

/-- No timer has been pushed yet. -/
def init (workerCount fibers : ℕ) : TimerArray where
  sched := start workerCount fibers
  cap := 0
  count_le := by
    rw [(aside_start workerCount fibers).timers]
    exact le_rfl

end TimerArray

/-- From `s` on, the fibers of some timers are resumed: of those that are due, in the order of their
deadlines. -/
structure Fires (s : Scheduler) (fired : List Timer) (s' : Scheduler) : Prop where
  resumes : s' = fired.foldl (fun s timer => s.timerPop.schedulerResumeLocked timer.fiberId) s
  sorted : fired.Pairwise fun t u => t.deadline ≤ u.deadline
  conserved : fired + s'.timers.contents = s.timers.contents
  due : ∀ t ∈ fired, t.deadline ≤ s.now
  kept : ∀ t ∈ s'.timers.contents, s.now < t.deadline
  root : ∀ t ∈ s'.timers.contents, (s'.timers.entries 0).deadline ≤ t.deadline

variable {s : Scheduler} {a : TimerArray}

theorem fires_nil (h : TimersOrdered s) (hl : ∀ t ∈ s.timers.contents, s.now < t.deadline) : Fires s [] s :=
  ⟨rfl,.nil,zero_add _,by simp,hl,fun _ => root_le h⟩

theorem fires_wakeExpired (h : TimersOrdered s) (hf : s.timers.count ≤ fuel) :
    ∃ fired, Fires s fired (wakeExpired fuel s) := by
  induction fuel generalizing s with
  | zero =>
    refine ⟨[],fires_nil h fun t ht => ?_⟩
    have := count_pos_of_mem ht
    omega
  | succ fuel ih =>
    unfold wakeExpired
    split
    · next hdue =>
      -- The root is due and no timer comes before it, so it is the first one taken.
      have hc := @contents_pop _ _ _ Timer.deadline s.timers hdue.1
      have ho : TimersOrdered (s.timerPop.schedulerResumeLocked (s.timers.entries 0).fiberId) := by
        unfold TimersOrdered
        rw [aside_resume.timers]
        exact ordered_pop h
      obtain ⟨fired,hre,hso,hcon,hdu,hk,hro⟩ := ih ho (by
        rw [aside_resume.timers]
        exact Nat.sub_le_of_le_add hf)
      rw [aside_resume.timers] at hcon
      rw [aside_resume.now] at hdu hk
      change _ = (pop Timer.deadline s.timers).contents at hcon
      refine ⟨s.timers.entries 0 :: fired,hre,List.pairwise_cons.mpr ⟨fun t ht => root_le h ?_,hso⟩,?_,
        fun t ht => ?_,hk,hro⟩
      · rw [← hc,← hcon]
        exact mem_cons_of_mem (mem_add.mpr (.inl (mem_coe.mpr ht)))
      · rw [← hc,← hcon,← cons_add]
        rfl
      · obtain rfl | ht := List.mem_cons.mp ht
        · exact hdue.2
        · exact hdu t ht
    · next hdue =>
      refine ⟨[],fires_nil h fun t ht => not_le.mp fun hle => hdue ?_⟩
      exact ⟨count_pos_of_mem ht,(root_le h ht).trans hle⟩

theorem ordered_grow (h : TimersOrdered a.sched) :
    Ordered Timer.deadline (a.grow fresh).entries (a.grow fresh).count := by
  intro i hi hpos
  have hlt : i < a.cap := lt_of_lt_of_le hi a.count_le
  have hp : (i-1) / 2 < a.cap := by omega
  simp only [TimerArray.grow,if_pos hlt,if_pos hp]
  exact h i hi hpos

theorem TimersOrdered.call (h : TimersOrdered a.sched) (c : TimerCall) : TimersOrdered (a.call c).sched := by
  cases c with
  | push _ timer => exact ordered_push (ordered_grow h) timer
  | wake now => exact TimersOrdered.wakeExpired (s := { a.sched with now := now }) h _

/-- A push adds its timer to those there are, and a call wakes those that are due. -/
theorem timers_fire (workerCount fibers : ℕ) (calls : List TimerCall) :
    let a := calls.foldl TimerArray.call (.init workerCount fibers)
    (∀ fresh timer, (a.push fresh timer).sched.timers.contents = timer ::ₘ a.sched.timers.contents) ∧
      ∀ now, ∃ fired, Fires { a.sched with now := now } fired (a.wake now).sched := by
  intro a
  have ho : TimersOrdered a.sched := List.foldlRecOn calls _
    (motive := fun a : TimerArray => TimersOrdered a.sched) (timersOrdered_start workerCount fibers)
    fun _ h c _ => h.call c
  refine ⟨fun fresh timer => ?_,fun now => fires_wakeExpired ho le_rfl⟩
  refine (contents_push (a.grow fresh) timer).trans (congrArg _ (map_congr rfl fun _ hk => ?_))
  exact if_pos ((mem_range.mp hk).trans_le a.count_le)

end SmalltalkJit.Concurrency
