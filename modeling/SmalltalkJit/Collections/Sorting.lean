import Mathlib.Data.List.Chain

/-! # Sorting

`sort:` sorts a collection in place: both halves of a range are sorted, the range
is copied to the working array and merged back from there. A tie is taken from
the left half. The positions are those of the source and count from 1; a position
outside the range that is sorted keeps its element.
-/
namespace SmalltalkJit.Collections
open List Function

/-- A block that answers whether its first argument may stand before its second. -/
structure SortBlock (α : Type*) where
  value : α → α → Bool
  total : ∀ a b, value a b = true ∨ value b a = true
  trans : ∀ a b c, value a b = true → value b c = true → value a c = true

variable {α : Type*}

def mergeBack (block : α → α → Bool) (work : ℕ → α) (mid high : ℕ) (self : ℕ → α) (i j k : ℕ) : ℕ → α :=
  if k ≤ high then
    if high < j ∨ (i ≤ mid ∧ block (work i) (work j)) then
      mergeBack block work mid high (update self k (work i)) (i+1) j (k+1)
    else mergeBack block work mid high (update self k (work j)) i (j+1) (k+1)
  else self
termination_by high+1 - k

def copyRange (low high : ℕ) (self work : ℕ → α) (x : ℕ) : α := if low ≤ x ∧ x ≤ high then self x else work x

/-- The first array is the collection, the second one the working array. -/
def mergeSortFrom (block : α → α → Bool) (low high : ℕ) (arrays : (ℕ → α) × (ℕ → α)) : (ℕ → α) × (ℕ → α) :=
  if high ≤ low then arrays
  else
    let mid := (low + high) / 2
    let halves := mergeSortFrom block (mid+1) high (mergeSortFrom block low mid arrays)
    let work := copyRange low high halves.1 halves.2
    (mergeBack block work mid high halves.1 low (mid+1) low,work)
termination_by high - low

/-- The elements after `sort:` of a collection of the given size; `work` is what the working array held. -/
def sort (block : α → α → Bool) (size : ℕ) (self work : ℕ → α) : ℕ → α :=
  if size ≤ 1 then self else (mergeSortFrom block 1 size (self,work)).1

def elementsFrom (a : ℕ → α) (low n : ℕ) : List α := (range' low n).map a

section Ranges
variable {a b : ℕ → α} {low n : ℕ}

theorem elementsFrom_succ : elementsFrom a low (n+1) = a low :: elementsFrom a (low+1) n := by
  rw [elementsFrom,range'_succ,map_cons,elementsFrom]

theorem elementsFrom_congr (h : ∀ x, low ≤ x → x < low + n → a x = b x) :
    elementsFrom a low n = elementsFrom b low n := by
  refine map_congr_left fun x hx => ?_
  rw [mem_range'_1] at hx
  exact h x hx.1 hx.2

theorem elementsFrom_append : elementsFrom a low (m + n) = elementsFrom a low m ++ elementsFrom a (low + m) n := by
  rw [elementsFrom,← range'_append_1,map_append,elementsFrom,elementsFrom]

end Ranges

variable {block : α → α → Bool} {self work : ℕ → α}

theorem mergeBack_outside (hx : x < k ∨ high < x) : mergeBack block work mid high self i j k x = self x := by
  fun_induction mergeBack block work mid high self i j k with
  | case1 _ _ _ _ _ _ ih => rw [ih (by omega),update_of_ne (by omega)]
  | case2 _ _ _ _ _ _ ih => rw [ih (by omega),update_of_ne (by omega)]
  | case3 => rfl

theorem elementsFrom_mergeBack (hl : l = mid+1 - i) (hr : r = high+1 - j) (hk : k + l + r = high+1) :
    elementsFrom (mergeBack block work mid high self i j k) k (l + r) =
      merge (elementsFrom work i l) (elementsFrom work j r) block := by
  fun_induction mergeBack block work mid high self i j k generalizing l r with
  | case1 self i j k _ ht ih =>
    have hf : mergeBack block work mid high (update self k (work i)) (i+1) j (k+1) k = work i := by
      rw [mergeBack_outside (.inl k.lt_succ_self),update_self]
    obtain ⟨l,rfl⟩ : ∃ l', l = l'+1 := ⟨l-1,by omega⟩
    rw [show l+1 + r = l + r+1 by omega,elementsFrom_succ,hf,ih (l := l) (by omega) hr (by omega),elementsFrom_succ]
    cases r with
    | zero => simp [elementsFrom]
    | succ =>
      have hb := (ht.resolve_left (by omega)).2
      rw [elementsFrom_succ,cons_merge_cons_pos _ _ _ hb]
  | case2 self i j k _ ht ih =>
    have hf : mergeBack block work mid high (update self k (work j)) i (j+1) (k+1) k = work j := by
      rw [mergeBack_outside (.inl k.lt_succ_self),update_self]
    obtain ⟨r,rfl⟩ : ∃ r', r = r'+1 := ⟨r-1,by omega⟩
    rw [← Nat.add_assoc,elementsFrom_succ,hf,ih hl (r := r) (by omega) (by omega),@elementsFrom_succ _ _ j]
    cases l with
    | zero => simp [elementsFrom]
    | succ =>
      have hb : ¬block (work i) (work j) := fun h => ht (.inr ⟨by omega,h⟩)
      rw [elementsFrom_succ,cons_merge_cons_neg _ _ _ hb]
  | case3 =>
    obtain ⟨rfl,rfl⟩ : l = 0 ∧ r = 0 := by omega
    simp [elementsFrom]

theorem mergeSortFrom_outside (hx : x < low ∨ high < x) : (mergeSortFrom block low high arrays).1 x = arrays.1 x := by
  fun_induction mergeSortFrom block low high arrays with
  | case1 => rfl
  | case2 _ _ arrays _ _ halves _ ihl _ ihr =>
    have hs : halves.1 x = arrays.1 x := (ihr (by omega)).trans (ihl (by omega))
    exact (mergeBack_outside hx).trans hs

theorem mergeSort_append {l r : List α} (h : 0 < r.length) (hlen : l.length = (l.length + r.length+1) / 2) :
    mergeSort (l ++ r) block = merge (mergeSort l block) (mergeSort r block) block := by
  obtain ⟨x,y,xs,hc⟩ : ∃ x y xs, l ++ r = x :: y :: xs := by
    match hlr : l ++ r with
    | x :: y :: xs => exact ⟨x,y,xs,rfl⟩
    | [] | [_] =>
      have hl := congrArg length hlr
      simp only [length_append,length_nil,length_cons] at hl
      omega
  have hh : ((x :: y :: xs).length+1) / 2 = l.length := by rw [← hc,length_append,← hlen]
  rw [hc,mergeSort]
  simp only [MergeSort.Internal.splitInTwo_fst,MergeSort.Internal.splitInTwo_snd]
  rw [hh,← hc,take_left,drop_left]

theorem elementsFrom_mergeSortFrom : elementsFrom (mergeSortFrom block low high arrays).1 low (high+1 - low) =
    mergeSort (elementsFrom arrays.1 low (high+1 - low)) block := by
  fun_induction mergeSortFrom block low high arrays with
  | case1 low high =>
    obtain h | h : high+1 - low = 0 ∨ high+1 - low = 1 := by omega
    · simp [h,elementsFrom]
    · simp [h,elementsFrom]
  | case2 low high arrays _ mid halves work ihl _ ihr =>
    obtain ⟨l,hl⟩ : ∃ l, l = mid+1 - low := ⟨_,rfl⟩
    obtain ⟨r,hr⟩ : ∃ r, r = high+1 - (mid+1) := ⟨_,rfl⟩
    have hmid : low + l = mid+1 := by omega
    have hw : ∀ x, low ≤ x → x ≤ high → work x = halves.1 x := fun x h h' => if_pos ⟨h,h'⟩
    have hlef : elementsFrom work low l = mergeSort (elementsFrom arrays.1 low l) block := by
      rw [hl,← ihl,← hl]
      refine elementsFrom_congr fun x h h' => (hw x h (by omega)).trans ?_
      exact mergeSortFrom_outside (.inl (by omega))
    have hri : elementsFrom work (mid+1) r = mergeSort (elementsFrom arrays.1 (mid+1) r) block := by
      rw [elementsFrom_congr (b := halves.1) fun x h h' => hw x (by omega) (by omega),hr,ihr,← hr]
      refine congrArg (mergeSort · block) (elementsFrom_congr fun x h h' => ?_)
      exact mergeSortFrom_outside (.inr (by omega))
    rw [show high+1 - low = l + r by omega,elementsFrom_mergeBack hl hr (by omega),hlef,hri,elementsFrom_append,hmid]
    refine (mergeSort_append ?_ ?_).symm
    all_goals simp only [elementsFrom,length_map,length_range']
    all_goals omega

/-- The elements that a block takes to be on a par with `x`, in their order. -/
def equivalents (block : α → α → Bool) (x : α) (l : List α) : List α := l.filter fun y => block x y && block y x

theorem SortBlock.equivalents_mergeSort (b : SortBlock α) (x : α) (l : List α) :
    equivalents b.value x (mergeSort l b.value) = equivalents b.value x l := by
  have ht : ∀ y z, b.value y z || b.value z y := fun y z => by simpa using b.total y z
  have hpar : (equivalents b.value x l).Pairwise fun y z => b.value y z := by
    refine pairwise_of_forall_mem_list fun y hy z hz => ?_
    simp only [equivalents,mem_filter,Bool.and_eq_true] at hy hz
    exact b.trans _ _ _ hy.2.2 hz.2.1
  have hsub := (sublist_mergeSort b.trans ht hpar filter_sublist).filter fun y => b.value x y && b.value y x
  rw [equivalents,filter_filter] at hsub
  simp only [Bool.and_self] at hsub
  exact (hsub.eq_of_length ((mergeSort_perm l b.value).filter _).length_eq.symm).symm

/-- `sort:` answers the elements in the order of the block, and leaves those on a par as they stood. -/
theorem sort_stable (b : SortBlock α) (size : ℕ) (self work : ℕ → α) :
    (elementsFrom (sort b.value size self work) 1 size).Perm (elementsFrom self 1 size) ∧
    (elementsFrom (sort b.value size self work) 1 size).IsChain (fun x y => b.value x y = true) ∧
    ∀ x, equivalents b.value x (elementsFrom (sort b.value size self work) 1 size) =
      equivalents b.value x (elementsFrom self 1 size) := by
  have hs : elementsFrom (sort b.value size self work) 1 size = mergeSort (elementsFrom self 1 size) b.value := by
    unfold sort
    split
    · obtain rfl | rfl : size = 0 ∨ size = 1 := by omega
      · simp [elementsFrom]
      · simp [elementsFrom]
    · exact elementsFrom_mergeSortFrom
  rw [hs]
  refine ⟨mergeSort_perm _ _,?_,fun x => b.equivalents_mergeSort x _⟩
  exact (pairwise_mergeSort b.trans (fun y z => by simpa using b.total y z) _).isChain

end SmalltalkJit.Collections
