import SmalltalkJit.Memory.Objects

/-! # Iteration over remembered sets

Blocks are chained from the newest to the oldest. When a thread leaves, its chain is put
before that of the heap, with blocks that are partly filled. The iterator takes an empty
block for the end, except at the start, so that only the oldest one may be empty.
-/
namespace SmalltalkJit.Memory
open List

namespace RememberedSet

def reset (_ : RememberedSet) : RememberedSet := empty

/-- `heapEndMutator`: a lone empty block is freed, and any other chain is put before that of the heap. -/
def splice (thread heap : RememberedSet) : RememberedSet :=
  if thread.prev = [] ∧ thread.head = [] then heap else ⟨thread.head,thread.prev ++ heap.head :: heap.prev⟩

end RememberedSet

/-- The block of the iterator, the older ones, and the index of the next entry. -/
structure RememberedSetIterator where
  block : List Oop
  older : List (List Oop)
  next : Option ℕ

def setBlock (block : List Oop) (older : List (List Oop)) : RememberedSetIterator :=
  ⟨block,older,if 0 < block.length then some 0 else none⟩

namespace RememberedSetIterator

def init (s : RememberedSet) : RememberedSetIterator :=
  match (setBlock s.head s.prev).next,s.prev with
  | none,block :: older => setBlock block older
  | _,_ => setBlock s.head s.prev

def iteratorNext (i : RememberedSetIterator) : Option (Oop × RememberedSetIterator) := do
  let next ← i.next
  let object ← i.block[next]?
  if next+1 < i.block.length then return (object,{ i with next := some (next+1) })
  else match i.older with
    | block :: older => return (object,setBlock block older)
    | [] => return (object,{ i with next := none })

/-- The loop over the entries, for a number of rounds. -/
def entries : ℕ → RememberedSetIterator → Option (List Oop)
  | 0,_ => none
  | rounds+1,i =>
    if i.next.isSome then (iteratorNext i).bind fun p => (entries rounds p.2).map (p.1 :: ·) else some []

end RememberedSetIterator

open RememberedSetIterator

/-- The sets of threads, and of the heap, with the entries since their last reset. -/
inductive Filled : Bool → RememberedSet → List Oop → Prop
  | init : Filled heap .empty []
  | add (o : Oop) (h : Filled heap s added) : Filled heap (s.add o) (o :: added)
  | reset (h : Filled heap s added) : Filled heap s.reset []
  | splice (h : Filled false s added) (h' : Filled true s' added') : Filled true (s.splice s') (added ++ added')

/-- Only the oldest block may be empty, and in the set of a thread only if it is alone. -/
structure Chained (heap : Bool) (s : RememberedSet) : Prop where
  filled : [] ∉ (s.head :: s.prev).dropLast
  thread : heap = false → [] ∉ s.prev

theorem entries_eq {blocks : List (List Oop)} (hk : k < b.length) (hb : [] ∉ (b :: blocks).dropLast)
    (hl : b.drop k ++ blocks.flatten = l) : entries (l.length+1) ⟨b,blocks,some k⟩ = some l := by
  -- every round takes the first of the entries that are left
  induction l generalizing b k blocks with
  | nil => simp [drop_eq_nil_iff,Nat.not_le_of_lt hk] at hl
  | cons x l ih =>
    rw [drop_eq_getElem_cons hk,cons_append] at hl
    obtain ⟨hx,hl⟩ := cons.inj hl
    change (iteratorNext ⟨b,blocks,some k⟩).bind (fun p => (entries (l.length+1) p.2).map (p.1 :: ·)) = some (x :: l)
    simp only [iteratorNext,bind,Option.bind_some,getElem?_eq_getElem hk,hx]
    by_cases hk1 : k+1 < b.length
    · rw [if_pos hk1]
      simp [pure,ih hk1 hb hl]
    · rw [if_neg hk1]
      rw [drop_of_length_le (not_lt.mp hk1),nil_append] at hl
      cases blocks with
      | nil =>
        cases hl
        rfl
      | cons c blocks =>
        have hb' : [] ∉ (c :: blocks).dropLast := fun hm => hb (mem_cons_of_mem b hm)
        by_cases hc : c = []
        · subst hc
          cases blocks with
          | nil =>
            cases hl
            rfl
          | cons => simp at hb'
        · have hpos := length_pos_iff.mpr hc
          simp [pure,setBlock,hpos,ih hpos hb' hl]

namespace Chained
variable {s s' : RememberedSet} {heap : Bool} (h : Chained heap s)
include h

theorem prev_eq_nil (he : s.head = []) : s.prev = [] := by
  have hf := h.filled
  rw [he] at hf
  cases hp : s.prev with
  | nil => rfl
  | cons => simp [hp] at hf

theorem entries_init : entries (s.members.length+1) (init s) = some s.members := by
  obtain ⟨head,prev⟩ := s
  cases head with
  | nil =>
    cases h.prev_eq_nil rfl
    rfl
  | cons x head =>
    have hi : init ⟨x :: head,prev⟩ = ⟨x :: head,prev,some 0⟩ := by cases prev <;> rfl
    rw [hi]
    exact entries_eq (Nat.succ_pos _) h.filled rfl

theorem add (o : Oop) : Chained heap (s.add o) ∧ (s.add o).members ~ o :: s.members := by
  rw [RememberedSet.add]
  split
  · next hlen =>
    have hne : s.head ≠ [] := fun he => absurd (he ▸ hlen) (by decide)
    refine ⟨⟨?_,fun ht => ?_⟩,.refl _⟩
    · rw [dropLast_cons_cons,mem_cons,not_or]
      exact ⟨nofun,h.filled⟩
    · rw [mem_cons,not_or]
      exact ⟨hne.symm,h.thread ht⟩
  · refine ⟨⟨?_,h.thread⟩,?_⟩
    · have hf := h.filled
      cases hp : s.prev <;> simp_all
    · simp only [RememberedSet.members,append_assoc]
      exact perm_middle

theorem splice (h' : Chained true s') (hf : heap = false) :
    Chained true (s.splice s') ∧ (s.splice s').members = s.members ++ s'.members := by
  rw [RememberedSet.splice]
  split
  · next he => exact ⟨h',by simp [RememberedSet.members,he]⟩
  · next he =>
    have hne : s.head ≠ [] := fun hh => he ⟨h.prev_eq_nil hh,hh⟩
    refine ⟨⟨?_,nofun⟩,by simp [RememberedSet.members]⟩
    rw [← cons_append,dropLast_append_cons,mem_append,mem_cons,not_or,not_or]
    exact ⟨⟨hne.symm,h.thread hf⟩,h'.filled⟩

end Chained

theorem Filled.chained (h : Filled heap s added) : Chained heap s ∧ s.members ~ added := by
  induction h with
  | init | reset => exact ⟨⟨not_mem_nil,fun _ => not_mem_nil⟩,.refl _⟩
  | add o _ ih =>
    obtain ⟨hc,hm⟩ := ih.1.add o
    exact ⟨hc,hm.trans (ih.2.cons o)⟩
  | splice _ _ ih ih' =>
    obtain ⟨hc,hm⟩ := ih.1.splice ih'.1 rfl
    exact ⟨hc,hm ▸ ih.2.append ih'.2⟩

/-- The iterator over the set of a thread or of the heap gives each entry since the last reset once. -/
theorem entries_complete (h : Filled heap s added) :
    ∃ l, entries (s.members.length+1) (init s) = some l ∧ l ~ added :=
  ⟨_,h.chained.1.entries_init,h.chained.2⟩

theorem entries_spliced : ∃ l, entries 3 (init ((RememberedSet.empty.add 8).splice (RememberedSet.empty.add 16))) =
    some l ∧ l ~ [8,16] :=
  entries_complete (.splice (.add 8 .init) (.add 16 .init))

end SmalltalkJit.Memory
