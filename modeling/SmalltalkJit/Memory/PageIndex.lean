import Mathlib.Data.Finset.Basic
import SmalltalkJit.Lib.Interleaving

/-! # The index over the pages of a space

The bodies of the mapped pages are kept as ranges in the order of their bases.
One binary search finds the place of a page in them and, with the other
comparison, the only range that can contain an address. The capacity of the
array is left out: it never limits the ranges.
-/
namespace SmalltalkJit.PageIndex
open List Interleaving

section Search
variable {α : Type*} {before : α → Bool} {l r : List α}

/-- The loop of the three searches, which differ in what they compare. -/
def search (before : α → Bool) (ranges : List α) (lo hi : ℕ) : ℕ :=
  if lo < hi then
    let mid := (lo+hi)/2
    if ranges[mid]?.any before then search before ranges (mid+1) hi else search before ranges lo mid
  else lo
termination_by hi-lo

theorem search_eq (hl : ∀ a ∈ l, before a = true) (hr : ∀ a ∈ r, before a = false) (hlo : lo ≤ l.length)
    (hhi : l.length ≤ hi) (hend : hi ≤ (l ++ r).length) : search before (l ++ r) lo hi = l.length := by
  fun_induction search before (l ++ r) lo hi with
  | case1 _ _ _ _ hb ih =>
    refine ih (Nat.succ_le_of_lt ?_) hhi hend
    -- beyond `l` nothing is before the key
    by_contra hmid
    rw [getElem?_append_right (Nat.le_of_not_lt hmid)] at hb
    obtain ⟨a,ha,hb⟩ := (Option.any_eq_true _ _).mp hb
    rw [hr a (mem_of_getElem? ha)] at hb
    cases hb
  | case2 _ _ _ _ hb ih =>
    refine ih hlo ?_ (by omega)
    by_contra hmid
    rw [getElem?_append_left (Nat.lt_of_not_le hmid)] at hb
    exact hb (by simp [getElem?_eq_getElem (Nat.lt_of_not_le hmid),hl])
  | case3 => omega

theorem exists_split {ranges : List α} (h : ranges.Pairwise fun a b => before b = true → before a = true) :
    ∃ l r, ranges = l ++ r ∧ (∀ a ∈ l, before a = true) ∧ (∀ a ∈ r, before a = false) ∧
      search before ranges 0 ranges.length = l.length := by
  suffices hs : ∃ l r, ranges = l ++ r ∧ (∀ a ∈ l, before a = true) ∧ ∀ a ∈ r, before a = false by
    obtain ⟨l,r,rfl,hl,hr⟩ := hs
    exact ⟨l,r,rfl,hl,hr,search_eq hl hr (Nat.zero_le _) (by simp) (Nat.le_refl _)⟩
  induction h with
  | nil => exact ⟨[],[],rfl,nofun,nofun⟩
  | @cons a ranges ha _ ih =>
    cases hbe : before a with
    | true =>
      obtain ⟨l,r,rfl,hl,hr⟩ := ih
      exact ⟨a :: l,r,rfl,forall_mem_cons.mpr ⟨hbe,hl⟩,hr⟩
    | false =>
      refine ⟨[],a :: ranges,rfl,nofun,forall_mem_cons.mpr ⟨hbe,fun b hb => ?_⟩⟩
      exact Bool.eq_false_iff.mpr fun hb' => by simp [ha b hb hb'] at hbe

end Search

/-- A page has room for an object: `mapHeapPage` maps whole pages of the system. -/
structure HeapPage where
  body : ℕ
  bodySize : ℕ
  pos : 0 < bodySize
  deriving DecidableEq

structure PageRange where
  base : ℕ
  stop : ℕ

structure PageSpace where
  ranges : List PageRange
  totalBytes : ℕ

def HeapPage.range (page : HeapPage) : PageRange := ⟨page.body,page.body+page.bodySize⟩

def HeapPage.Includes (page : HeapPage) (addr : ℕ) : Prop := page.body ≤ addr ∧ addr < page.body+page.bodySize

namespace PageSpace

def place (s : PageSpace) (base : ℕ) : ℕ := search (fun r => decide (r.base < base)) s.ranges 0 s.ranges.length

def indexAdd (s : PageSpace) (page : HeapPage) : PageSpace :=
  let lo := s.place page.body
  ⟨s.ranges.take lo ++ page.range :: s.ranges.drop lo,s.totalBytes+page.bodySize⟩

def indexRemove (s : PageSpace) (page : HeapPage) : PageSpace :=
  let lo := s.place page.body
  if s.ranges[lo]?.any fun r => r.base = page.body then
    ⟨s.ranges.take lo ++ s.ranges.drop (lo+1),s.totalBytes-page.bodySize⟩
  else s

def includes (s : PageSpace) (addr : ℕ) : Bool :=
  let lo := search (fun r => decide (r.base ≤ addr)) s.ranges 0 s.ranges.length
  if lo = 0 then false else s.ranges[lo-1]?.any fun r => addr < r.stop

end PageSpace

inductive Action
  | add (page : HeapPage)
  | remove (page : HeapPage)

/-- The pages that are mapped, and the index over them. -/
structure World where
  mapped : Finset HeapPage
  space : PageSpace

def World.start : World := ⟨∅,⟨[],0⟩⟩

def World.next (w : World) : Action → World
  | .add page => ⟨insert page w.mapped,w.space.indexAdd page⟩
  | .remove page => ⟨w.mapped.erase page,w.space.indexRemove page⟩

def HeapPage.Apart (p q : HeapPage) : Prop := p.body+p.bodySize ≤ q.body ∨ q.body+q.bodySize ≤ p.body

/-- A page that is mapped lies apart from the others, and so does one that is unmapped. -/
def Fits (w : World) : Action → Prop
  | .add page => ∀ q ∈ w.mapped, page.Apart q
  | .remove page => ∀ q ∈ w.mapped, q ≠ page → page.Apart q

def Sorted (s : PageSpace) : Prop := s.ranges.Pairwise fun a b => a.base < b.base

structure Indexed (w : World) : Prop where
  sorted : Sorted w.space
  mem : ∀ r, r ∈ w.space.ranges ↔ ∃ page ∈ w.mapped, page.range = r
  apart : ∀ p ∈ w.mapped, ∀ q ∈ w.mapped, q ≠ p → p.Apart q

theorem HeapPage.Apart.ne {p q : HeapPage} (h : p.Apart q) : q.body ≠ p.body := by
  have hp := p.pos
  have hq := q.pos
  obtain h | h := h <;> omega

variable {w : World}

section Place
variable (h : Indexed w) (p : HeapPage)
include h

theorem Indexed.place_eq : ∃ l r, w.space.ranges = l ++ r ∧ (∀ a ∈ l, a.base < p.body) ∧ (∀ a ∈ r, p.body ≤ a.base) ∧
      w.space.place p.body = l.length ∧ (l ++ r).Pairwise fun a b => a.base < b.base := by
  obtain ⟨l,r,heq,hl,hr,hp⟩ := @exists_split _ (fun r => decide (r.base < p.body)) _
    (h.sorted.imp fun hlt hb => decide_eq_true (hlt.trans (of_decide_eq_true hb)))
  have hs := h.sorted
  rw [Sorted,heq] at hs
  exact ⟨l,r,heq,fun a ha => of_decide_eq_true (hl a ha),
    fun a ha => Nat.le_of_not_lt (of_decide_eq_false (hr a ha)),hp,hs⟩

theorem Indexed.add (hf : ∀ q ∈ w.mapped, p.Apart q) : Indexed (w.next (.add p)) := by
  obtain ⟨l,r,heq,hl,hr,hp,hs⟩ := h.place_eq p
  obtain ⟨hsl,hsr,hlr⟩ := pairwise_append.mp hs
  have hra : (w.next (.add p)).space.ranges = l ++ p.range :: r := by simp [World.next,PageSpace.indexAdd,hp,heq]
  refine ⟨?_,fun a => ?_,fun q hq q' hq' hne => ?_⟩
  · rw [Sorted,hra]
    refine pairwise_append.mpr ⟨hsl,pairwise_cons.mpr ⟨fun a ha => ?_,hsr⟩,fun a ha => ?_⟩
    · obtain ⟨q,hq,rfl⟩ := (h.mem a).mp (heq ▸ mem_append_right l ha)
      exact Nat.lt_of_le_of_ne (hr _ ha) (hf q hq).ne.symm
    · exact forall_mem_cons.mpr ⟨hl a ha,hlr a ha⟩
  · have hmem := h.mem a
    rw [heq,mem_append] at hmem
    rw [hra,mem_append,mem_cons]
    simp only [World.next,Finset.mem_insert,exists_eq_or_imp,← hmem]
    tauto
  · obtain rfl | hin := Finset.mem_insert.mp hq <;> obtain rfl | hin' := Finset.mem_insert.mp hq'
    · exact absurd rfl hne
    · exact hf q' hin'
    · exact (hf q hin).symm
    · exact h.apart q hin q' hin' hne

theorem Indexed.remove (hf : ∀ q ∈ w.mapped, q ≠ p → p.Apart q) : Indexed (w.next (.remove p)) := by
  obtain ⟨l,r,heq,hl,hr,hp,hs⟩ := h.place_eq p
  obtain ⟨hsl,hsr,hlr⟩ := pairwise_append.mp hs
  -- what stays is the ranges with another base, whether or not the page was mapped
  have hra : (w.next (.remove p)).space.ranges = w.space.ranges.filter (·.base != p.body) := by
    have hk : l.filter (·.base != p.body) = l := filter_eq_self.mpr fun a ha => bne_iff_ne.mpr (hl a ha).ne
    simp only [World.next,PageSpace.indexRemove,hp,heq,filter_append,hk]
    cases r with
    | nil => simp [heq]
    | cons a r =>
      have hres : r.filter (·.base != p.body) = r := filter_eq_self.mpr fun b hb =>
        bne_iff_ne.mpr ((hr a mem_cons_self).trans_lt ((pairwise_cons.mp hsr).1 b hb)).ne'
      by_cases ha : a.base = p.body <;> simp [ha,hres,heq]
  refine ⟨?_,fun a => ?_,fun q hq q' hq' => ?_⟩
  · rw [Sorted,hra]
    exact h.sorted.filter _
  · rw [hra,mem_filter,h.mem,bne_iff_ne]
    simp only [World.next,Finset.mem_erase]
    constructor
    · rintro ⟨⟨q,hq,rfl⟩,hne⟩
      exact ⟨q,⟨fun heq => hne (heq ▸ rfl),hq⟩,rfl⟩
    · rintro ⟨q,⟨hne,hq⟩,rfl⟩
      exact ⟨⟨q,hq,rfl⟩,(hf q hq hne).ne⟩
  · exact h.apart q (Finset.mem_of_mem_erase hq) q' (Finset.mem_of_mem_erase hq')

theorem Indexed.next {a : Action} (hf : Fits w a) : Indexed (w.next a) := by
  cases a with
  | add page => exact h.add page hf
  | remove page => exact h.remove page hf

theorem Indexed.includes (addr : ℕ) : w.space.includes addr = true ↔ ∃ page ∈ w.mapped, page.Includes addr := by
  obtain ⟨l,r,heq,hl,hr,hpl⟩ := @exists_split _ (fun r => decide (r.base ≤ addr)) _
    (h.sorted.imp fun hlt hb => decide_eq_true (hlt.le.trans (of_decide_eq_true hb)))
  have hmem : ∀ a, a ∈ l ++ r ↔ ∃ page ∈ w.mapped, page.range = a := heq ▸ h.mem
  -- a page with the address in its body is among those the search has passed
  have hpa : ∀ page ∈ w.mapped, page.body ≤ addr → page.range ∈ l := fun page hp hle =>
    (mem_append.mp ((hmem _).mpr ⟨page,hp,rfl⟩)).resolve_right fun hin => of_decide_eq_false (hr _ hin) hle
  simp only [PageSpace.includes,hpl]
  obtain rfl | ⟨l,a,rfl⟩ := eq_nil_or_concat' l
  · exact iff_of_false nofun fun ⟨page,hp,hle,_⟩ => by cases hpa page hp hle
  obtain ⟨q,hq,rfl⟩ := (hmem a).mp (by simp)
  have hla : w.space.ranges[(l ++ [q.range]).length-1]? = some q.range := by simp [heq]
  rw [if_neg (by simp),hla,Option.any_some,decide_eq_true_iff]
  have hle : q.body ≤ addr := of_decide_eq_true (hl q.range (by simp))
  refine ⟨fun hlt => ⟨q,hq,hle,hlt⟩,fun ⟨page,hp,hf,hto⟩ => ?_⟩
  obtain rfl | hne := eq_or_ne page q
  · exact hto
  -- another page would lie before the last one passed, so end before the address
  have hbe : page.body ≤ q.body := by
    have hs : (l ++ [q.range] ++ r).Pairwise fun a b => a.base < b.base := heq ▸ h.sorted
    obtain hin | hin := mem_append.mp (hpa page hp hf)
    · exact ((pairwise_append.mp (pairwise_append.mp hs).1).2.2 _ hin _ mem_cons_self).le
    · exact (congrArg PageRange.base (mem_singleton.mp hin)).le
  have hpos := q.pos
  obtain ha | ha := h.apart page hp q hq hne.symm <;> omega

end Place

theorem pageIndex_exact {actions : List Action} (h : Meets (fun w a => some (World.next w a)) Fits .start actions) :
    Sorted (actions.foldl World.next .start).space ∧ ∀ addr, (actions.foldl World.next .start).space.includes addr =
      true ↔ ∃ page ∈ (actions.foldl World.next .start).mapped, page.Includes addr := by
  have hs : Indexed .start := ⟨Pairwise.nil,by simp [World.start],by simp [World.start]⟩
  have hw := invariant_of_meets (P := Indexed) (fun w a w' hw hf hn => by cases hn; exact hw.next hf)
    hs h (perform_total World.next .start actions)
  exact ⟨hw.sorted,hw.includes⟩

theorem pageIndex_exact_remapped : let page := HeapPage.mk 4136 4048 (by decide)
    let w := [.add page,.add ⟨40,4048,by decide⟩,.remove page].foldl World.next .start
    Sorted w.space ∧ ∀ addr, w.space.includes addr = true ↔ ∃ page ∈ w.mapped, page.Includes addr :=
  pageIndex_exact (by simp [Meets,Fits,World.start,World.next,HeapPage.Apart])

end SmalltalkJit.PageIndex
