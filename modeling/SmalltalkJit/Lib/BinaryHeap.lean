import Mathlib.Data.Multiset.MapFold
import Mathlib.Data.Multiset.Range
import Mathlib.Logic.Equiv.Basic
import Mathlib.Order.Basic

/-! # Binary heaps in an array

The first `count` entries of an array, ordered by a key so that no entry lies
below its parent. `push` appends and swaps upwards, `pop` moves the last entry to
the root and swaps downwards. While an entry moves, the order holds for all pairs
but its own, and across it.
-/
namespace SmalltalkJit
open Function Multiset

structure BinaryHeap (α : Type*) where
  entries : ℕ → α
  count : ℕ

namespace BinaryHeap

section Definitions
variable {α K : Type*} [LinearOrder K] (key : α → K)

def empty (x : α) : BinaryHeap α := ⟨fun _ => x,0⟩

def swap (a : ℕ → α) (i j k : ℕ) : α := if k = i then a j else if k = j then a i else a k

def siftUp : ℕ → (ℕ → α) → ℕ → ℕ → α
  | 0,a,_ => a
  | fuel+1,a,i =>
    if i = 0 then a
    else if key (a ((i-1) / 2)) ≤ key (a i) then a
    else siftUp fuel (swap a ((i-1) / 2) i) ((i-1) / 2)

def push (h : BinaryHeap α) (x : α) : BinaryHeap α :=
  ⟨siftUp key h.count (update h.entries h.count x) h.count,h.count+1⟩

def smallest (a : ℕ → α) (count i : ℕ) : ℕ :=
  let smallest := if 2*i+1 < count ∧ key (a (2*i+1)) < key (a i) then 2*i+1 else i
  if 2*i+2 < count ∧ key (a (2*i+2)) < key (a smallest) then 2*i+2 else smallest

def siftDown (count : ℕ) : ℕ → (ℕ → α) → ℕ → ℕ → α
  | 0,a,_ => a
  | fuel+1,a,i =>
    let smallest := smallest key a count i
    if smallest = i then a else siftDown count fuel (swap a smallest i) smallest

def pop (h : BinaryHeap α) : BinaryHeap α :=
  ⟨siftDown key (h.count-1) (h.count-1) (update h.entries 0 (h.entries (h.count-1))) 0,
    h.count-1⟩

def contents (h : BinaryHeap α) : Multiset α := (range h.count).map h.entries

def Ordered (a : ℕ → α) (count : ℕ) : Prop := ∀ i < count, 0 < i → key (a ((i-1) / 2)) ≤ key (a i)

structure OrderedAbove (a : ℕ → α) (count hole : ℕ) : Prop where
  except : ∀ i < count, 0 < i → i ≠ hole → key (a ((i-1) / 2)) ≤ key (a i)
  across : 0 < hole → ∀ i < count, 0 < i → (i-1) / 2 = hole →
    key (a ((hole-1) / 2)) ≤ key (a i)

structure OrderedBelow (a : ℕ → α) (count hole : ℕ) : Prop where
  except : ∀ i < count, 0 < i → (i-1) / 2 ≠ hole → key (a ((i-1) / 2)) ≤ key (a i)
  across : 0 < hole → ∀ i < count, 0 < i → (i-1) / 2 = hole →
    key (a ((hole-1) / 2)) ≤ key (a i)

end Definitions

section Contents
variable {α K : Type*} [LinearOrder K] {key : α → K} {a : ℕ → α} {count fuel i j k : ℕ}

theorem swap_left : swap a i j i = a j := if_pos rfl

theorem swap_right : swap a i j j = a i := by
  unfold swap
  split
  · next h => rw [h]
  · exact if_pos rfl

theorem swap_other (hi : k ≠ i) (hj : k ≠ j) : swap a i j k = a k := by
  unfold swap
  rw [if_neg hi,if_neg hj]

theorem map_swap (hi : i < count) (hj : j < count) : (range count).map (swap a i j) = (range count).map a := by
  have hr : (range count).map (Equiv.swap i j) = range count := by
    have hn := nodup_range count
    apply (Nodup.ext (hn.map (Equiv.injective _)) hn).mpr
    intro k
    rw [mem_map]
    constructor
    · rintro ⟨m,hm,rfl⟩
      rw [mem_range] at hm ⊢
      rw [Equiv.swap_apply_def]
      split_ifs <;> assumption
    · intro hk
      refine ⟨Equiv.swap i j k,?_,Equiv.swap_apply_self i j k⟩
      rw [mem_range] at hk ⊢
      rw [Equiv.swap_apply_def]
      split_ifs <;> assumption
  have hs : swap a i j = a ∘ Equiv.swap i j := by
    funext k
    rw [comp_apply,Equiv.swap_apply_def,swap]
    split_ifs <;> rfl
  rw [hs,← map_map,hr]

theorem map_siftUp (hi : i < count) : (range count).map (siftUp key fuel a i) = (range count).map a := by
  induction fuel generalizing a i with
  | zero => rfl
  | succ _ ih =>
    unfold siftUp
    split_ifs with h0 hkey
    · rfl
    · rfl
    · rw [ih (by omega),map_swap (by omega) hi]

theorem smallest_lt (hi : i < count) : smallest key a count i < count := by
  unfold smallest
  dsimp only
  split_ifs <;> omega

theorem map_siftDown (hi : i < count) : (range count).map (siftDown key count fuel a i) = (range count).map a := by
  induction fuel generalizing a i with
  | zero => rfl
  | succ _ ih =>
    unfold siftDown
    dsimp only
    split_ifs with hs
    · rfl
    · rw [ih (smallest_lt hi),map_swap (smallest_lt hi) hi]

theorem contents_push (h : BinaryHeap α) (x : α) : (h.push key x).contents = x ::ₘ h.contents := by
  have hs : (range h.count).map (update h.entries h.count x) = h.contents := by
    refine map_congr rfl fun k hk => ?_
    rw [mem_range] at hk
    exact update_of_ne (by omega) _ _
  unfold contents push
  rw [map_siftUp (Nat.lt_succ_self _),range_succ,map_cons,hs,update_self]
  rfl

theorem contents_pop (h : BinaryHeap α) (hpos : 0 < h.count) : h.entries 0 ::ₘ (h.pop key).contents = h.contents := by
  obtain ⟨n,hn⟩ := Nat.exists_eq_succ_of_ne_zero hpos.ne'
  have hl : h.count-1 = n := by omega
  have hs : (h.pop key).contents = (range n).map (update h.entries 0 (h.entries n)) := by
    unfold contents pop
    rw [hl]
    obtain rfl | h0 := Nat.eq_zero_or_pos n
    · rfl
    · exact map_siftDown h0
  have hsw : (range n).map (update h.entries 0 (h.entries n)) = (range n).map (swap h.entries 0 n) := by
    refine map_congr rfl fun k hk => ?_
    rw [mem_range] at hk
    obtain rfl | h0 := Nat.eq_zero_or_pos k
    · rw [update_self,swap_left]
    · rw [update_of_ne h0.ne',swap_other h0.ne' hk.ne]
  calc h.entries 0 ::ₘ (h.pop key).contents
      = (range (n+1)).map (swap h.entries 0 n) := by rw [hs,hsw,range_succ,map_cons,swap_right]
    _ = h.contents := by rw [map_swap (Nat.succ_pos n) (Nat.lt_succ_self n),contents,hn]

end Contents

section Order
variable {α K : Type*} [LinearOrder K] {key : α → K} {a : ℕ → α} {count fuel i : ℕ}

theorem OrderedAbove.swap (h : OrderedAbove key a count i) (h0 : i ≠ 0) (hkey : key (a i) < key (a ((i-1) / 2))) :
    OrderedAbove key (swap a ((i-1) / 2) i) count ((i-1) / 2) := by
  have hc : ∀ k < count, 0 < k → k ≠ i → (k-1) / 2 = (i-1) / 2 → key (a ((i-1) / 2)) ≤ key (a k) := by
    intro k hk hk0 hki hp
    rw [← hp]
    exact h.except k hk hk0 hki
  constructor
  · intro k hk hk0 hkp
    by_cases hki : k = i
    · subst hki
      rw [swap_left,swap_right]
      exact hkey.le
    · rw [swap_other hkp hki]
      by_cases hpp : (k-1) / 2 = (i-1) / 2
      · rw [hpp,swap_left]
        exact hkey.le.trans (hc k hk hk0 hki hpp)
      · by_cases hpi : (k-1) / 2 = i
        · rw [hpi,swap_right]
          exact h.across (by omega) k hk hk0 hpi
        · rw [swap_other hpp hpi]
          exact h.except k hk hk0 hki
  · intro hp0 k hk hk0 hp
    have hg : key (a (((i-1) / 2-1) / 2)) ≤ key (a ((i-1) / 2)) := h.except _ (by omega) hp0 (by omega)
    rw [swap_other (k := ((i-1) / 2-1) / 2) (by omega) (by omega)]
    by_cases hki : k = i
    · subst hki
      rw [swap_right]
      exact hg
    · rw [swap_other (by omega) hki]
      exact hg.trans (hc k hk hk0 hki hp)

theorem OrderedAbove.siftUp (h : OrderedAbove key a count i) (hi : i < count) (hf : i ≤ fuel) :
    Ordered key (siftUp key fuel a i) count := by
  induction fuel generalizing a i with
  | zero =>
    intro k hk hk0
    exact h.except k hk hk0 (by omega)
  | succ _ ih =>
    unfold BinaryHeap.siftUp
    split_ifs with h0 hkey
    · intro k hk hk0
      exact h.except k hk hk0 (by omega)
    · intro k hk hk0
      by_cases hki : k = i
      · rw [hki]
        exact hkey
      · exact h.except k hk hk0 hki
    · exact ih (h.swap h0 (not_le.mp hkey)) (by omega) (by omega)

theorem ordered_push {h : BinaryHeap α} (hh : Ordered key h.entries h.count) (x : α) :
    Ordered key (h.push key x).entries (h.push key x).count := by
  refine OrderedAbove.siftUp ⟨fun k hk hk0 hne => ?_,fun _ k hk _ hp => ?_⟩ (Nat.lt_succ_self _) le_rfl
  all_goals change k < h.count+1 at hk
  · rw [update_of_ne (by omega),update_of_ne hne]
    exact hh k (by omega) hk0
  · omega

theorem smallest_cases (key : α → K) (a : ℕ → α) (count i : ℕ) :
    (∀ k < count, 0 < k → (k-1) / 2 = i → key (a (smallest key a count i)) ≤ key (a k)) ∧
      (smallest key a count i ≠ i → (smallest key a count i-1) / 2 = i ∧
        0 < smallest key a count i ∧ key (a (smallest key a count i)) < key (a i)) := by
  have hc : ∀ k, 0 < k → (k-1) / 2 = i → k = 2*i+1 ∨ k = 2*i+2 := by omega
  unfold smallest
  dsimp only
  split_ifs with hl hr hr
  · refine ⟨fun k hk hk0 hp => ?_,fun _ => ⟨by omega,by omega,hr.2.trans hl.2⟩⟩
    obtain rfl | rfl := hc k hk0 hp
    · exact hr.2.le
    · exact le_rfl
  · refine ⟨fun k hk hk0 hp => ?_,fun _ => ⟨by omega,by omega,hl.2⟩⟩
    obtain rfl | rfl := hc k hk0 hp
    · exact le_rfl
    · exact not_lt.mp fun hlt => hr ⟨hk,hlt⟩
  · refine ⟨fun k hk hk0 hp => ?_,fun _ => ⟨by omega,by omega,hr.2⟩⟩
    obtain rfl | rfl := hc k hk0 hp
    · exact hr.2.le.trans (not_lt.mp fun hlt => hl ⟨hk,hlt⟩)
    · exact le_rfl
  · refine ⟨fun k hk hk0 hp => ?_,fun h => absurd rfl h⟩
    obtain rfl | rfl := hc k hk0 hp
    · exact not_lt.mp fun hlt => hl ⟨hk,hlt⟩
    · exact not_lt.mp fun hlt => hr ⟨hk,hlt⟩

theorem OrderedBelow.swap (h : OrderedBelow key a count i) (hs : (s-1) / 2 = i) (hs0 : 0 < s) (hc : s < count)
    (hkey : key (a s) < key (a i)) (hl : ∀ k < count, 0 < k → (k-1) / 2 = i → key (a s) ≤ key (a k)) :
    OrderedBelow key (swap a s i) count s := by
  constructor
  · intro k hk hk0 hp
    by_cases hpi : (k-1) / 2 = i
    · rw [hpi,swap_right]
      by_cases hks : k = s
      · rw [hks,swap_left]
        exact hkey.le
      · rw [swap_other hks (by omega)]
        exact hl k hk hk0 hpi
    · rw [swap_other hp hpi]
      by_cases hki : k = i
      · subst hki
        rw [swap_right]
        exact h.across hk0 s hc hs0 hs
      · rw [swap_other (by rintro rfl; exact hpi hs) hki]
        exact h.except k hk hk0 hpi
  · intro _ k hk hk0 hp
    rw [hs,swap_right,swap_other (by omega) (by omega),← hp]
    exact h.except k hk hk0 (by omega)

theorem OrderedBelow.siftDown (h : OrderedBelow key a count i) (hi : i < count)
    (hf : count ≤ fuel + i) : Ordered key (siftDown key count fuel a i) count := by
  induction fuel generalizing a i with
  | zero => omega
  | succ _ ih =>
    obtain ⟨hl,hm⟩ := smallest_cases key a count i
    unfold BinaryHeap.siftDown
    dsimp only
    split_ifs with hsa
    · rw [hsa] at hl
      intro k hk hk0
      by_cases hp : (k-1) / 2 = i
      · rw [hp]
        exact hl k hk hk0 hp
      · exact h.except k hk hk0 hp
    · obtain ⟨hs,hs0,hkey⟩ := hm hsa
      exact ih (h.swap hs hs0 (smallest_lt hi) hkey hl) (smallest_lt hi) (by omega)

theorem ordered_pop {h : BinaryHeap α} (hh : Ordered key h.entries h.count) :
    Ordered key (h.pop key).entries (h.pop key).count := by
  obtain h0 | h0 := Nat.eq_zero_or_pos (h.count-1)
  · intro k hk
    change k < h.count-1 at hk
    omega
  · refine OrderedBelow.siftDown ⟨fun k hk hk0 hp => ?_,fun h => absurd h (lt_irrefl 0)⟩ h0 le_rfl
    rw [update_of_ne hp,update_of_ne hk0.ne']
    exact hh k (by omega) hk0

theorem root_le {h : BinaryHeap α} (hh : Ordered key h.entries h.count)
    (hx : x ∈ h.contents) : key (h.entries 0) ≤ key x := by
  obtain ⟨k,hk,rfl⟩ := mem_map.mp hx
  rw [mem_range] at hk
  clear hx
  induction k using Nat.strong_induction_on with
  | _ k ih =>
    obtain rfl | hk0 := Nat.eq_zero_or_pos k
    · exact le_rfl
    · exact (ih ((k-1) / 2) (by omega) (by omega)).trans (hh k hk hk0)

theorem root_mem {h : BinaryHeap α} (hpos : 0 < h.count) : h.entries 0 ∈ h.contents :=
  mem_map_of_mem _ (mem_range.mpr hpos)

theorem count_pos_of_mem {h : BinaryHeap α} (hx : x ∈ h.contents) : 0 < h.count := by
  obtain ⟨k,hk,-⟩ := mem_map.mp hx
  exact Nat.zero_lt_of_lt (mem_range.mp hk)

end Order

end BinaryHeap

end SmalltalkJit
