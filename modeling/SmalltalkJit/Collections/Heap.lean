import SmalltalkJit.Collections.Sorting
import SmalltalkJit.Lib.BinaryHeap
import Mathlib.Order.Antisymmetrization

/-! # Heaps

A `Heap` keeps its elements in an ordered collection, from position 1 on; the
children of position `i` are `2 * i` and `2 * i + 1`. It does what a binary heap
over the equivalence classes of its sort block does.
-/
namespace SmalltalkJit.Collections
open Function hiding swap
open BinaryHeap

structure Heap (α : Type*) where
  contents : ℕ → α
  size : ℕ

namespace Heap
variable {α : Type*} (block : α → α → Bool)

def siftUp (a : ℕ → α) (i : ℕ) : ℕ → α :=
  if 1 < i ∧ ¬block (a (i / 2)) (a i) then siftUp (swap a (i / 2) i) (i / 2) else a
termination_by i

def siftDown (size : ℕ) (a : ℕ → α) (i : ℕ) : ℕ → α :=
  if h : 0 < i ∧ i*2 ≤ size then
    let child := if i*2 < size ∧ ¬block (a (i*2)) (a (i*2+1)) then i*2+1 else i*2
    if block (a i) (a child) then a else siftDown size (swap a i child) child
  else a
termination_by size+1 - i
decreasing_by split <;> omega

def add (h : Heap α) (x : α) : Heap α := ⟨siftUp block (update h.contents (h.size+1) x) (h.size+1),h.size+1⟩

/-- The answer is `none` where `emptyCheck` signals its error. -/
def removeFirst (h : Heap α) : Option α × Heap α :=
  if h.size = 0 then (none,h)
  else
    let last := h.contents h.size
    let size := h.size-1
    if size = 0 then (some (h.contents 1),⟨h.contents,size⟩)
    else (some (h.contents 1),⟨siftDown block size (update h.contents 1 last) 1,size⟩)

def elements (h : Heap α) : Multiset α := (Multiset.range h.size).map fun k => h.contents (k+1)

def Ordered (h : Heap α) : Prop := ∀ i, 2 ≤ i → i ≤ h.size → block (h.contents (i / 2)) (h.contents i) = true

inductive Operation (α : Type*)
  | add (x : α)
  | removeFirst

def perform (h : Heap α) : Operation α → Heap α
  | .add x => h.add block x
  | .removeFirst => (h.removeFirst block).2

end Heap

/-- A sort block compares the classes of its elements that are on a par. -/
theorem SortBlock.exists_rank {α : Type u} (b : SortBlock α) : ∃ (K : Type u) (_ : LinearOrder K) (rank : α → K),
    ∀ x y, b.value x y = true ↔ rank x ≤ rank y :=
  letI : Preorder α :=
    { le x y := b.value x y = true
      le_refl x := (b.total x x).elim id id
      le_trans := b.trans }
  letI : DecidableLE α := fun x y => inferInstanceAs (Decidable (b.value x y = true))
  letI : DecidableLT α := decidableLTOfDecidableLE
  haveI : Std.Total fun x y : α => x ≤ y := ⟨b.total⟩
  ⟨Antisymmetrization α (· ≤ ·),inferInstance,toAntisymmetrization (· ≤ ·),fun _ _ => Iff.rfl⟩

namespace Heap
variable {α K : Type*} [LinearOrder K] {block : α → α → Bool} {rank : α → K} {size : ℕ}

/-- The same heap with its positions counted from 0. -/
def binary (h : Heap α) : BinaryHeap α := ⟨fun k => h.contents (k+1),h.size⟩

theorem swap_succ (a : ℕ → α) (i j : ℕ) : (fun k => swap a (i+1) (j+1) (k+1)) = swap (fun k => a (k+1)) i j := by
  funext k
  simp [swap]

theorem swap_comm (a : ℕ → α) (i j : ℕ) : swap a i j = swap a j i := by
  funext k
  unfold swap
  split_ifs <;> simp_all

theorem update_succ (a : ℕ → α) (i : ℕ) (x : α) :
    (fun k => update a (i+1) x (k+1)) = update (fun k => a (k+1)) i x := by
  funext k
  simp [update_apply]

section Ranked
variable (hrank : ∀ x y, block x y = true ↔ rank x ≤ rank y)
include hrank

theorem siftUp_succ (hf : i ≤ fuel) :
    (fun k => siftUp block a (i+1) (k+1)) = BinaryHeap.siftUp rank fuel (fun k => a (k+1)) i := by
  induction fuel generalizing a i with
  | zero =>
    rw [siftUp,if_neg (by omega)]
    rfl
  | succ _ ih =>
    rw [siftUp,BinaryHeap.siftUp]
    by_cases h0 : i = 0
    · rw [if_neg (by omega),if_pos h0]
    · have hp : (i+1) / 2 = (i-1) / 2+1 := by omega
      rw [if_neg h0,hp]
      by_cases hkey : block (a ((i-1) / 2+1)) (a (i+1)) = true
      · rw [if_neg (fun h => h.2 hkey),if_pos ((hrank _ _).mp hkey)]
      · rw [if_pos ⟨by omega,hkey⟩,if_neg (mt (hrank _ _).mpr hkey),ih (by omega),swap_succ]

theorem add_binary (h : Heap α) (x : α) : (h.add block x).binary = h.binary.push rank x := by
  have hs := siftUp_succ hrank (a := update h.contents (h.size+1) x) (le_refl h.size)
  rw [update_succ] at hs
  exact congrArg (BinaryHeap.mk · (h.size+1)) hs

theorem smallest_eq (hl : 2*i+1 < size) : smallest rank a size i =
    let child := if 2*i+2 < size ∧ ¬block (a (2*i+1)) (a (2*i+2)) then 2*i+2 else 2*i+1
    if block (a i) (a child) then i else child := by
  simp only [smallest,hrank,not_le,hl,true_and]
  split_ifs <;> grind

theorem siftDown_succ (hf : size ≤ fuel + i) :
    (fun k => siftDown block size a (i+1) (k+1)) = BinaryHeap.siftDown rank size fuel (fun k => a (k+1)) i := by
  induction fuel generalizing a i with
  | zero =>
    rw [siftDown,dif_neg (by omega)]
    rfl
  | succ _ ih =>
    rw [siftDown,BinaryHeap.siftDown]
    dsimp only
    by_cases hl : 2*i+1 < size
    · obtain ⟨c,hc⟩ : ∃ c, c = if 2*i+2 < size ∧ ¬block (a (2*i+1+1)) (a (2*i+2+1)) then 2*i+2 else 2*i+1 := ⟨_,rfl⟩
      have hch : (if (i+1)*2 < size ∧ ¬block (a ((i+1)*2)) (a ((i+1)*2+1)) then (i+1)*2+1 else (i+1)*2) = c+1 := by
        rw [hc,show (i+1)*2 = 2*i+1+1 by omega]
        split_ifs <;> rfl
      rw [dif_pos (by omega),smallest_eq hrank hl,hch]
      dsimp only
      rw [← hc]
      have hlt : i < c := by
        rw [hc]
        split_ifs <;> omega
      by_cases hkey : block (a (i+1)) (a (c+1)) = true
      · rw [if_pos hkey,if_pos hkey,if_pos rfl]
      · rw [if_neg hkey,if_neg hkey,if_neg hlt.ne',ih (by omega),swap_succ,swap_comm]
    · have hs : smallest rank (fun k => a (k+1)) size i = i := by simp [smallest,hl,show ¬2*i+2 < size by omega]
      rw [dif_neg (by omega),if_pos hs]

theorem removeFirst_binary {h : Heap α} (hne : h.size ≠ 0) : ∃ h' : Heap α,
    h.removeFirst block = (some (h.contents 1),h') ∧ h'.binary = h.binary.pop rank := by
  have hl : h.size-1+1 = h.size := by omega
  have hpop : h.binary.pop rank =
      ⟨BinaryHeap.siftDown rank (h.size-1) (h.size-1) (update h.binary.entries 0 (h.contents h.size)) 0,h.size-1⟩ := by
    conv_rhs => rw [← hl]
    rfl
  unfold removeFirst
  rw [if_neg hne,hpop]
  dsimp only
  split_ifs with h1
  · refine ⟨_,rfl,?_⟩
    rw [h1,show h.size = 1 by omega]
    exact congrArg (BinaryHeap.mk · 0) (update_eq_self 0 h.binary.entries).symm
  · refine ⟨_,rfl,?_⟩
    have hs := siftDown_succ hrank (a := update h.contents 1 (h.contents h.size)) (i := 0) (le_refl (h.size-1))
    rw [update_succ _ 0] at hs
    exact congrArg (BinaryHeap.mk · (h.size-1)) hs

theorem ordered_iff {h : Heap α} : h.Ordered block ↔ BinaryHeap.Ordered rank h.binary.entries h.binary.count := by
  constructor
  · intro hh i hi h0
    have := hh (i+1) (by omega) hi
    rw [show (i+1) / 2 = (i-1) / 2+1 by omega] at this
    exact (hrank _ _).mp this
  · intro hh i h2 hi
    have := (hrank _ _).mpr (hh (i-1) (by change _ < h.size; omega) (by omega))
    simp only [binary] at this
    rwa [show (i-1-1) / 2+1 = i / 2 by omega,show i-1+1 = i by omega] at this

theorem ordered_perform {h : Heap α} (hh : h.Ordered block) (op : Operation α) : (h.perform block op).Ordered block := by
  rw [ordered_iff hrank] at hh ⊢
  cases op with
  | add x =>
    rw [perform,add_binary hrank]
    exact ordered_push hh x
  | removeFirst =>
    rw [perform]
    by_cases h0 : h.size = 0
    · rwa [removeFirst,if_pos h0]
    · obtain ⟨h',heq,hpop⟩ := removeFirst_binary hrank h0
      rw [heq,hpop]
      exact ordered_pop hh

end Ranked

/-- A heap is a priority queue, whatever was added and removed before. -/
theorem heap_priorityQueue (b : SortBlock α) (a : ℕ → α) (ops : List (Operation α)) :
    let h := ops.foldl (perform b.value) ⟨a,0⟩
    h.Ordered b.value ∧ (∀ x, (h.add b.value x).elements = x ::ₘ h.elements) ∧
    (h.size = 0 → h.removeFirst b.value = (none,h)) ∧
    (h.size ≠ 0 → ∃ x h', h.removeFirst b.value = (some x,h') ∧ h.elements = x ::ₘ h'.elements ∧
      ∀ y ∈ h.elements, b.value x y = true) := by
  intro h
  obtain ⟨K,_,rank,hrank⟩ := b.exists_rank
  have ho : h.Ordered b.value := by
    refine List.foldlRecOn ops _ (fun i h2 hi => ?_) fun h hh op _ => ordered_perform hrank hh op
    change i ≤ 0 at hi
    omega
  refine ⟨ho,fun x => ?_,fun h0 => if_pos h0,fun h0 => ?_⟩
  · exact (congrArg BinaryHeap.contents (add_binary hrank h x)).trans (contents_push h.binary x)
  · obtain ⟨h',heq,hpop⟩ := removeFirst_binary hrank h0
    refine ⟨_,h',heq,?_,fun y hy => ?_⟩
    · have hc := @contents_pop _ _ _ rank h.binary (Nat.pos_of_ne_zero h0)
      rw [← hpop] at hc
      exact hc.symm
    · exact (hrank _ _).mpr (root_le ((ordered_iff hrank).mp ho) hy)

end Heap

end SmalltalkJit.Collections
