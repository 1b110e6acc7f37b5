import Mathlib.Data.Rat.Floor
import Mathlib.Data.Int.Bitwise
import Mathlib.Tactic.FieldSimp
import Mathlib.Tactic.Linarith

/-! # Intervals

An `Interval` describes the numbers from `start` in steps of `step` that do not
pass `stop`. `do:` adds the step again and again, `size` and `last` divide, and
`reverseDo:` and `hash` begin at `stop`, which need not be one of the numbers. The
arithmetic is exact; of a block it matters what it answers for each number.
-/
namespace SmalltalkJit.Collections
open List

structure Interval where
  start : ℚ
  stop : ℚ
  step : ℚ
  step_ne : step ≠ 0

/-- The condition of the loops of `to:by:do:`. -/
def Within (stop step i : ℚ) : Prop := if 0 < step then i ≤ stop else stop ≤ i

instance : Decidable (Within stop step i) := inferInstanceAs (Decidable (ite ..))

section Loop
variable {start stop step i : ℚ}

theorem within_iff (h : step ≠ 0) : Within stop step i ↔ 0 ≤ ⌊(stop - i) / step⌋ := by
  rw [Within,Int.floor_nonneg]
  split
  · next hpos => rw [le_div_iff₀ hpos,zero_mul,sub_nonneg]
  · next hneg =>
    have hlt : step < 0 := lt_of_le_of_ne (not_lt.mp hneg) h
    rw [le_div_iff_of_neg hlt,zero_mul,sub_nonpos]

theorem floor_later (h : step ≠ 0) (k : ℤ) : ⌊(stop - (i + k * step)) / step⌋ = ⌊(stop - i) / step⌋ - k := by
  rw [← Int.floor_sub_intCast]
  congr 1
  field_simp
  ring

theorem floor_next (h : step ≠ 0) : ⌊(stop - (i + step)) / step⌋ = ⌊(stop - i) / step⌋-1 := by
  simpa using floor_later h 1

/-- The numbers for which `to:by:do:` evaluates its block, in turn. -/
def toByDo (stop step : ℚ) (hstep : step ≠ 0) (i : ℚ) : List ℚ :=
  if Within stop step i then i :: toByDo stop step hstep (i + step) else []
termination_by (⌊(stop - i) / step⌋+1).toNat
decreasing_by
  next h =>
    have hfloor := (within_iff hstep).mp h
    rw [floor_next hstep]
    omega

end Loop

namespace Interval
variable (v w : Interval)

def size : ℤ :=
  if v.step < 0 then if v.start < v.stop then 0 else ⌊(v.stop - v.start) / v.step⌋+1
  else if v.stop < v.start then 0 else ⌊(v.stop - v.start) / v.step⌋+1

/-- The answer of `at:` is `none` where it signals an error. -/
def at? (index : ℤ) : Option ℚ := if 1 ≤ index ∧ index ≤ v.size then some (v.start + v.step * (index-1)) else none

/-- The remainder is that of the floored quotient. -/
def last : ℚ := v.stop - ((v.stop - v.start) - ⌊(v.stop - v.start) / v.step⌋ * v.step)

def enumerate : List ℚ := toByDo v.stop v.step v.step_ne v.start

def reverseDo : List ℚ := toByDo v.start (-v.step) (neg_ne_zero.mpr v.step_ne) v.stop

/-- The loop of `collect:`; a slot that is not written is `none`. -/
def store {β : Type} (f : ℚ → β) : List ℚ → ℕ → List (Option β) → Option (List (Option β))
  | [],_,collection => some collection
  | i :: rest,index,collection =>
    if index < collection.length then store f rest (index+1) (collection.set index (some (f i))) else none

def collect {β : Type} (f : ℚ → β) : Option (List (Option β)) := store f v.enumerate 0 (replicate v.size.toNat none)

def hash (hash : ℚ → ℤ) : ℤ := Int.lor (Int.lor (hash v.start <<< (2 : ℕ)) (hash v.stop) <<< (1 : ℕ)) v.size

/-- The list of the numbers that do not pass `stop`. -/
def Lists (l : List ℚ) : Prop := ∀ (k : ℕ) q, l[k]? = some q ↔ q = v.start + k * v.step ∧ Within v.stop v.step q

structure Agrees (l : List ℚ) : Prop where
  lists : v.Lists l
  enumerate : v.enumerate = l
  reverseDo : v.reverseDo = l.reverse
  collect : ∀ {β : Type} (f : ℚ → β), v.collect f = some (l.map fun q => some (f q))
  size : v.size = l.length
  at? : ∀ index, v.at? index = if 1 ≤ index then l[(index-1).toNat]? else none
  last : l ≠ [] → l.getLast? = some v.last

/-- There are no numbers, or `stop` is one of them. -/
def Regular : Prop := v.size = 0 ∨ ∃ k : ℤ, v.stop = v.start + k * v.step

variable {v w : Interval}

end Interval

end SmalltalkJit.Collections
