import Mathlib.Data.List.ReduceOption
import Mathlib.Data.List.Pairwise
import Mathlib.Data.List.Perm.Basic
import Mathlib.Data.Nat.Notation

/-! # Linear probing with removal

Entries lie in a list of slots. The search for a key starts at the key's home slot
and walks around the table to an empty slot or to an entry with that key. Between
an entry and its home there is no empty slot. Removal clears the slot of an entry
and puts the rest of its cluster into the table again, one entry after the other;
while it does, only the entries it has not come to may have a gap before them.
-/
namespace SmalltalkJit.LinearProbing
open List

variable {E K : Type}

abbrev Slots (E : Type) := List (Option E)

def next (n i : ℕ) : ℕ := if i+1 = n then 0 else i+1

def dist (n a b : ℕ) : ℕ := if a ≤ b then b - a else b + n - a

/-- The search loop. It does not end in a full table without the key; `fuel` bounds the slots it
visits. -/
def probe (hit : E → Bool) (slots : Slots E) : ℕ → ℕ → Option ℕ
  | 0, _ => none
  | fuel+1, i =>
    match slots[i]? with
    | some none => some i
    | some (some e) => if hit e then some i else probe hit slots fuel (next slots.length i)
    | none => none

section Cycle
variable {n a b j x z : ℕ}

theorem dist_spec (n : ℕ) (ha : a < n) (b : ℕ) : a ≤ b ∧ dist n a b + a = b ∨ b < a ∧ dist n a b + a = b + n := by
  unfold dist
  split <;> omega

theorem next_spec (n i : ℕ) : i+1 = n ∧ next n i = 0 ∨ i+1 ≠ n ∧ next n i = i+1 := by
  unfold next
  split <;> omega

theorem next_lt (ha : a < n) : next n a < n := by
  have := next_spec n a
  omega

theorem dist_lt (ha : a < n) (hb : b < n) : dist n a b < n := by
  have := dist_spec n ha b
  omega

theorem dist_self : dist n a a = 0 := by
  unfold dist
  rw [if_pos (Nat.le_refl a),Nat.sub_self]

theorem dist_self_lt (ha : a < n) (hne : b ≠ a) : dist n a a < dist n a b := by
  have := dist_spec n ha b
  rw [dist_self]
  omega

theorem eq_of_dist_eq (ha : a < n) (hb : b < n) (hx : x < n) (h : dist n a b = dist n a x) : b = x := by
  have := dist_spec n ha b
  have := dist_spec n ha x
  omega

theorem dist_next (ha : a < n) (hb : b < n) (hne : b ≠ a) : dist n a b = dist n (next n a) b+1 := by
  have := dist_spec n ha b
  have := next_spec n a
  have := dist_spec n (next_lt ha) b
  omega

/-- A way that leaves a part of the circle goes through the end of the part. -/
theorem end_on_way (hh : h < n) (hj : j < n) (hz : z < n) (hq : q < n) (hin : dist n j x < dist n j z)
    (hout : ¬ dist n j q < dist n j z) (hway : dist n h x < dist n h q) : dist n h z < dist n h q ∨ z = q := by
  have := dist_spec n hj x
  have := dist_spec n hj z
  have := dist_spec n hj q
  have := dist_spec n hh x
  have := dist_spec n hh q
  have := dist_spec n hh z
  omega

theorem not_behind (hh : h < n) (hj : j < n) (hz : z < n) (hway : dist n h r ≤ dist n h j)
    (hend : dist n h j < dist n h z) : ¬ dist n (next n j) r < dist n (next n j) z := by
  have := dist_spec n hh r
  have := dist_spec n hh j
  have := dist_spec n hh z
  have := next_spec n j
  have := dist_spec n (next_lt hj) r
  have := dist_spec n (next_lt hj) z
  omega

theorem between_next_iff (hj : j < n) (hx : x < n) (hz : z < n) (hzj : z ≠ j) :
    dist n (next n j) x < dist n (next n j) z ↔ x ≠ j ∧ dist n j x < dist n j z := by
  have := dist_spec n hj x
  have := dist_spec n hj z
  have := next_spec n j
  have := dist_spec n (next_lt hj) x
  have := dist_spec n (next_lt hj) z
  omega

end Cycle

section Entries
variable {slots : Slots E} {i : ℕ} {e : E} {o : Option E}

theorem lt_of_getElem? (h : slots[i]? = some o) : i < slots.length := (List.getElem?_eq_some_iff.mp h).1

theorem exists_append_of_getElem? (h : slots[i]? = some o) : ∃ a b, slots = a ++ o :: b ∧ a.length = i := by
  obtain ⟨hlt,rfl⟩ := List.getElem?_eq_some_iff.mp h
  exact ⟨slots.take i,slots.drop (i+1),by simp,by rw [length_take]; omega⟩

theorem reduceOption_set_some (h : slots[i]? = some none) (e : E) :
    (slots.set i (some e)).reduceOption.Perm (e :: slots.reduceOption) := by
  obtain ⟨a,b,rfl,rfl⟩ := exists_append_of_getElem? h
  simp only [set_append_right _ _ (Nat.le_refl a.length),Nat.sub_self,set_cons_zero,
    reduceOption_append,reduceOption_cons_of_some,reduceOption_cons_of_none]
  exact perm_middle

theorem reduceOption_set_none (h : slots[i]? = some (some e)) :
    slots.reduceOption.Perm (e :: (slots.set i none).reduceOption) := by
  obtain ⟨hlt,he⟩ := List.getElem?_eq_some_iff.mp h
  have hp := reduceOption_set_some (getElem?_set_self hlt) e
  rwa [set_set,← he,set_getElem_self] at hp

theorem mem_reduceOption_iff : e ∈ slots.reduceOption ↔ ∃ i : ℕ, slots[i]? = some (some e) := by
  rw [reduceOption_mem_iff,mem_iff_getElem?]

theorem mem_reduceOption_set (h : e' ∈ (slots.set i (some e)).reduceOption) : e' = e ∨ e' ∈ slots.reduceOption := by
  rw [reduceOption_mem_iff] at h
  rcases mem_or_eq_of_mem_set h with hmem | heq
  · exact .inr (reduceOption_mem_iff.mpr hmem)
  · exact .inl (Option.some.inj heq)

theorem of_getElem?_set_none (h : (slots.set j none)[i]? = some (some e)) : j ≠ i ∧ slots[i]? = some (some e) := by
  have hji : j ≠ i := by
    rintro rfl
    simp [getElem?_set] at h
  exact ⟨hji,by rwa [getElem?_set_ne hji] at h⟩

theorem exists_empty (h : slots.reduceOption.length < slots.length) : ∃ z : ℕ, slots[z]? = some none := by
  have hn : none ∈ slots := by
    by_contra hf
    have hall : ∀ o ∈ slots, Option.isSome o = true := by
      intro o ho
      cases o with
      | none => exact absurd ho hf
      | some => rfl
    have := reduceOption_length_eq_iff.mpr hall
    omega
  exact getElem?_of_mem hn

end Entries

/-- The search from slot `h` ends at slot `r`. -/
structure Ends (hit : E → Bool) (slots : Slots E) (h r : ℕ) : Prop where
  lt : r < slots.length
  passed : ∀ j < slots.length, dist slots.length h j < dist slots.length h r →
    ∃ e, slots[j]? = some (some e) ∧ hit e = false
  stop : slots[r]? = some none ∨ ∃ e, slots[r]? = some (some e) ∧ hit e = true

section Searching
variable {hit : E → Bool} {slots : Slots E} {h r r' z : ℕ}

theorem Ends.le (hr : Ends hit slots h r) (hr' : Ends hit slots h r') :
    dist slots.length h r' ≤ dist slots.length h r := by
  by_contra hlt
  obtain ⟨e,he,hno⟩ := hr'.passed r hr.lt (Nat.lt_of_not_le hlt)
  rcases hr.stop with hs | ⟨e',hs,hyes⟩
  · simp [hs] at he
  · obtain rfl : e' = e := by simpa [hs] using he
    simp [hno] at hyes

theorem Ends.unique (hh : h < slots.length) (hr : Ends hit slots h r) (hr' : Ends hit slots h r') : r = r' :=
  eq_of_dist_eq hh hr.lt hr'.lt (Nat.le_antisymm (hr'.le hr) (hr.le hr'))

theorem exists_probe_eq_some (hh : h < slots.length) (hz : slots[z]? = some none)
    (hf : dist slots.length h z < fuel) : ∃ r, probe hit slots fuel h = some r ∧ Ends hit slots h r := by
  have hzlt := lt_of_getElem? hz
  induction fuel generalizing h with
  | zero => omega
  | succ fuel ih =>
    have hhe : ∀ j, ¬ dist slots.length h j < dist slots.length h h := by
      rw [dist_self]
      omega
    match hs : slots[h]? with
    | none => simp [hh] at hs
    | some none => exact ⟨h,by simp only [probe,hs],hh,fun j _ hlt => absurd hlt (hhe j),.inl hs⟩
    | some (some e) =>
      cases hhit : hit e with
      | true => exact ⟨h,by simp only [probe,hs,hhit,if_true],hh,fun j _ hlt => absurd hlt (hhe j), .inr ⟨e,hs,hhit⟩⟩
      | false =>
        have hzh : z ≠ h := by
          rintro rfl
          simp [hz] at hs
        have hst := dist_next hh hzlt hzh
        obtain ⟨r,hrun,hr⟩ := ih (next_lt hh) (by omega)
        refine ⟨r,by simpa only [probe,hs,hhit,Bool.false_eq_true,if_false] using hrun,hr.lt,?_,hr.stop⟩
        intro j hj hlt
        by_cases hjh : j = h
        · subst hjh
          exact ⟨e,hs,hhit⟩
        · have hrh : r ≠ h := by
            rintro rfl
            exact hhe j hlt
          have := dist_next hh hj hjh
          have := dist_next hh hr.lt hrh
          exact hr.passed j hj (by omega)

theorem exists_probe (hit : E → Bool) (hh : h < slots.length) (hz : slots[z]? = some none) :
    ∃ r, probe hit slots slots.length h = some r ∧ Ends hit slots h r :=
  exists_probe_eq_some hh hz (dist_lt hh (lt_of_getElem? hz))

theorem probe_congr (hst : ∀ e ∈ slots.reduceOption, hit e = hit' e) (fuel i : ℕ) :
    probe hit slots fuel i = probe hit' slots fuel i := by
  induction fuel generalizing i with
  | zero => rfl
  | succ fuel ih =>
    match hs : slots[i]? with
    | none => simp only [probe,hs]
    | some none => simp only [probe,hs]
    | some (some e) => simp only [probe,hs,hst e (mem_reduceOption_iff.mpr ⟨i,hs⟩),ih]

end Searching

/-- How entries have keys, when two keys are the same, and where the search for a key starts. -/
structure Hashing (E K : Type) where
  key : E → K
  same : K → K → Bool
  home : ℕ → K → ℕ
  refl : ∀ k, same k k
  symm : ∀ k l, same k l → same l k
  trans : ∀ k l m, same k l → same l m → same k m
  home_lt : ∀ n k, 0 < n → home n k < n
  home_same : ∀ n k l, same k l → home n k = home n l

namespace Hashing

def hit (H : Hashing E K) (k : K) (e : E) : Bool := H.same (H.key e) k

def findIndex (H : Hashing E K) (slots : Slots E) (k : K) : Option ℕ :=
  probe (H.hit k) slots slots.length (H.home slots.length k)

end Hashing

/-- There is no empty slot between the home of the entry and its slot. -/
def NoGapAt (H : Hashing E K) (slots : Slots E) (i : ℕ) (e : E) : Prop :=
  ∀ j < slots.length, dist slots.length (H.home slots.length (H.key e)) j <
    dist slots.length (H.home slots.length (H.key e)) i → ∃ e', slots[j]? = some (some e')

def NoGap (H : Hashing E K) (slots : Slots E) : Prop := ∀ i e, slots[i]? = some (some e) → NoGapAt H slots i e

def Distinct (H : Hashing E K) (entries : List E) : Prop :=
  entries.Pairwise fun e e' => H.same (H.key e) (H.key e') = false

section Tables
variable {H : Hashing E K} {slots : Slots E} {i j r z : ℕ} {e e' : E} {k : K}

theorem Hashing.home_lt_length (h : slots[i]? = some o) : H.home slots.length k < slots.length :=
  H.home_lt _ _ (Nat.zero_lt_of_lt (lt_of_getElem? h))

theorem Distinct.perm (h : Distinct H l) (hp : l.Perm l') : Distinct H l' := by
  refine (hp.pairwise_iff ?_).mp h
  intro e e' hne
  rw [Bool.eq_false_iff] at hne ⊢
  exact fun hs => hne (H.symm _ _ hs)

theorem Distinct.eq_of_same (h : Distinct H l) (he : e ∈ l) (he' : e' ∈ l)
    (hs : H.same (H.key e) (H.key e')) : e = e' := by
  induction l with
  | nil => cases he
  | cons _ _ ih =>
    obtain ⟨hf,hr⟩ := pairwise_cons.mp h
    rcases mem_cons.mp he with rfl | hin <;> rcases mem_cons.mp he' with rfl | hin'
    · rfl
    · exact absurd hs (by simp [hf e' hin'])
    · exact absurd (H.symm _ _ hs) (by simp [hf e hin])
    · exact ih hr hin hin'

theorem Distinct.index_unique (h : Distinct H slots.reduceOption) (hi : slots[i]? = some (some e))
    (hj : slots[j]? = some (some e')) (hs : H.same (H.key e) (H.key e')) : i = j := by
  by_contra hij
  have ho : e' ∈ (slots.set i none).reduceOption := mem_reduceOption_iff.mpr ⟨j,by rwa [getElem?_set_ne hij]⟩
  have hp := h.perm (reduceOption_set_none hi)
  exact absurd hs (by simp [rel_of_pairwise_cons hp ho])

theorem ends_of_stored (hgap : NoGap H slots) (hdis : Distinct H slots.reduceOption)
    (hi : slots[i]? = some (some e)) (hs : H.same (H.key e) k) : Ends (H.hit k) slots (H.home slots.length k) i := by
  refine ⟨lt_of_getElem? hi,?_,.inr ⟨e,hi,hs⟩⟩
  intro j hj hlt
  rw [← H.home_same _ _ _ hs] at hlt
  obtain ⟨e',he'⟩ := hgap i e hi j hj hlt
  refine ⟨e',he',Bool.eq_false_iff.mpr ?_⟩
  intro hsa
  obtain rfl := hdis.index_unique he' hi (H.trans _ _ _ hsa (H.symm _ _ hs))
  omega

theorem not_stored (hgap : NoGap H slots) (hdis : Distinct H slots.reduceOption)
    (hr : Ends (H.hit k) slots (H.home slots.length k) r) (hem : slots[r]? = some none) :
    ∀ e ∈ slots.reduceOption, H.same (H.key e) k = false := by
  intro e he
  rw [Bool.eq_false_iff]
  intro hs
  obtain ⟨i,hi⟩ := mem_reduceOption_iff.mp he
  have heq := hr.unique (H.home_lt _ _ (Nat.zero_lt_of_lt hr.lt)) (ends_of_stored hgap hdis hi hs)
  subst heq
  simp [hem] at hi

theorem NoGapAt.set_some (h : NoGapAt H slots i e) (r : ℕ) (e' : E) : NoGapAt H (slots.set r (some e')) i e := by
  intro x hx hlt
  rw [length_set] at hx hlt
  by_cases hrx : r = x
  · subst hrx
    exact ⟨e',getElem?_set_self hx⟩
  · obtain ⟨e'',he''⟩ := h x hx hlt
    exact ⟨e'',by rwa [getElem?_set_ne hrx]⟩

section Insertion
variable (hr : Ends (H.hit (H.key e)) slots (H.home slots.length (H.key e)) r)
include hr

theorem Ends.noGapAt : NoGapAt H (slots.set r (some e)) r e := by
  refine NoGapAt.set_some (fun j hj hlt => ?_) r e
  obtain ⟨e',he',-⟩ := hr.passed j hj hlt
  exact ⟨e',he'⟩

theorem noGap_set_some (hgap : NoGap H slots) : NoGap H (slots.set r (some e)) := by
  intro i p hi
  by_cases hri : r = i
  · subst hri
    obtain rfl : e = p := by simpa [hr.lt] using hi
    exact hr.noGapAt
  · rw [getElem?_set_ne hri] at hi
    exact (hgap i p hi).set_some r e

theorem distinct_set_some (hgap : NoGap H slots) (hdis : Distinct H slots.reduceOption) (he : slots[r]? = some none) :
    Distinct H (slots.set r (some e)).reduceOption := by
  refine Distinct.perm (pairwise_cons.mpr ⟨?_,hdis⟩) (reduceOption_set_some he e).symm
  intro e' he'
  have hne := not_stored hgap hdis hr he e' he'
  rw [Bool.eq_false_iff] at hne ⊢
  exact fun hs => hne (H.symm _ _ hs)

end Insertion

/-- The cluster from slot `j` to the empty slot `z` is still to be put into the table again: the
other entries have no gap before them, and no entry's way from its home leads through `z`. -/
structure Clearing (H : Hashing E K) (slots : Slots E) (j z : ℕ) : Prop where
  lt : j < slots.length
  empty : slots[z]? = some none
  pending : ∀ x < slots.length, dist slots.length j x < dist slots.length j z → ∃ e, slots[x]? = some (some e)
  settled : ∀ i e, slots[i]? = some (some e) → ¬ dist slots.length j i < dist slots.length j z →
    NoGapAt H slots i e
  way : ∀ i e, slots[i]? = some (some e) → dist slots.length (H.home slots.length (H.key e)) i <
    dist slots.length (H.home slots.length (H.key e)) z

theorem NoGapAt.way (h : NoGapAt H slots i e) (hi : slots[i]? = some (some e)) (hz : slots[z]? = some none) :
    dist slots.length (H.home slots.length (H.key e)) i < dist slots.length (H.home slots.length (H.key e)) z := by
  have hh : H.home slots.length (H.key e) < slots.length := H.home_lt_length hi
  by_contra hle
  rcases Nat.lt_or_eq_of_le (Nat.not_lt.mp hle) with hlt | heq
  · obtain ⟨e',he'⟩ := h z (lt_of_getElem? hz) hlt
    simp [hz] at he'
  · obtain rfl := eq_of_dist_eq hh (lt_of_getElem? hz) (lt_of_getElem? hi) heq
    simp [hz] at hi

theorem NoGapAt.set_none (h : NoGapAt H slots i e) (hi : slots[i]? = some (some e)) (hz : slots[z]? = some none)
    (hj : j < slots.length) (hin : dist slots.length j r < dist slots.length j z)
    (hout : ¬ dist slots.length j i < dist slots.length j z) : NoGapAt H (slots.set r none) i e := by
  intro x hx hlt
  rw [length_set] at hx hlt
  obtain ⟨e',he'⟩ := h x hx hlt
  have hrx : r ≠ x := by
    rintro rfl
    have hway := h.way hi hz
    rcases end_on_way (H.home_lt_length hi) hj (lt_of_getElem? hz) (lt_of_getElem? hi) hin hout hlt with
      hc | rfl
    · omega
    · simp [hz] at hi
  exact ⟨e',by rwa [getElem?_set_ne hrx]⟩

theorem exists_clearing (hgap : NoGap H slots) (hi : slots[i]? = some (some e)) (hr : slots[z]? = some none) :
    ∃ z, Clearing H (slots.set i none) (next slots.length i) z ∧ slots[z]? = some none := by
  have hlt := lt_of_getElem? hi
  have hn := next_lt hlt
  -- The search for nothing ends at the first empty slot after the entry.
  obtain ⟨z,-,hz⟩ := exists_probe (fun _ => false) hn hr
  have he : slots[z]? = some none := by
    rcases hz.stop with hs | ⟨e',-,hno⟩
    · exact hs
    · cases hno
  have hzi : z ≠ i := by
    rintro rfl
    simp [he] at hi
  refine ⟨z,⟨by rwa [length_set],by rwa [getElem?_set_ne hzi.symm],?_,?_,?_⟩,he⟩
  · intro x hx hin
    rw [length_set] at hx hin
    obtain ⟨e',he',-⟩ := hz.passed x hx hin
    have hxi := ((between_next_iff hlt hx hz.lt hzi).mp hin).1
    exact ⟨e',by rwa [getElem?_set_ne hxi.symm]⟩
  · intro p e' hp hout
    rw [length_set] at hout
    obtain ⟨hpi,hp⟩ := of_getElem?_set_none hp
    exact (hgap p e' hp).set_none hp he hlt (dist_self_lt hlt hzi)
      (fun hin => hout ((between_next_iff hlt (lt_of_getElem? hp) hz.lt hzi).mpr ⟨hpi.symm,hin⟩))
  · intro p e' hp
    obtain ⟨-,hp⟩ := of_getElem?_set_none hp
    rw [length_set]
    exact (hgap p e' hp).way hp he

/-- One turn: the entry goes to the end of the search for its key, which is not behind its slot. -/
theorem Clearing.step (h : Clearing H slots j z) (hdis : Distinct H slots.reduceOption)
    (hj : slots[j]? = some (some e))
    (hr : Ends (H.hit (H.key e)) (slots.set j none) (H.home slots.length (H.key e)) r) :
    (slots.set j none)[r]? = some none ∧ Clearing H ((slots.set j none).set r (some e)) (next slots.length j) z := by
  have hh : H.home slots.length (H.key e) < slots.length := H.home_lt_length hj
  have hrlt : r < slots.length := by simpa using hr.lt
  have hzlt := lt_of_getElem? h.empty
  have hzj : z ≠ j := by
    rintro rfl
    simp [h.empty] at hj
  have hb : dist slots.length (H.home slots.length (H.key e)) r ≤
      dist slots.length (H.home slots.length (H.key e)) j := by
    by_contra hlt
    obtain ⟨e',he',-⟩ := hr.passed j (by simpa using h.lt) (by rw [length_set]; omega)
    simp [h.lt] at he'
  have hbe := not_behind hh h.lt hzlt hb (h.way j e hj)
  have hrz : r ≠ z := by
    rintro rfl
    have := h.way j e hj
    omega
  have he : (slots.set j none)[r]? = some none := by
    rcases hr.stop with hs | ⟨e',hs,hsa⟩
    · exact hs
    · obtain ⟨hrj,hs⟩ := of_getElem?_set_none hs
      exact absurd (hdis.index_unique hj hs (H.symm _ _ hsa)) hrj
  have hold : ∀ (p : ℕ) (e' : E), r ≠ p → ((slots.set j none).set r (some e))[p]? = some (some e') →
      j ≠ p ∧ slots[p]? = some (some e') := by
    intro p e' hrp hp
    rw [getElem?_set_ne hrp] at hp
    exact of_getElem?_set_none hp
  have hnew : ∀ e' : E, ((slots.set j none).set r (some e))[r]? = some (some e') → e = e' := by
    intro e' he'
    simpa [hrlt] using he'
  refine ⟨he,⟨by simpa using next_lt h.lt,?_,?_,?_,?_⟩⟩
  · rw [getElem?_set_ne hrz,getElem?_set_ne hzj.symm]
    exact h.empty
  · intro x hx hin
    simp only [length_set] at hx hin
    have hrx : r ≠ x := by
      rintro rfl
      exact hbe hin
    obtain ⟨hxj,hin⟩ := (between_next_iff h.lt hx hzlt hzj).mp hin
    rw [getElem?_set_ne hrx,getElem?_set_ne hxj.symm]
    exact h.pending x hx hin
  · intro p e' hp hout
    simp only [length_set] at hout
    by_cases hrp : r = p
    · subst hrp
      obtain rfl := hnew e' hp
      exact Ends.noGapAt (by rwa [length_set])
    · obtain ⟨hjp,hp⟩ := hold p e' hrp hp
      have hnot : ¬ dist slots.length j p < dist slots.length j z := fun hin =>
        hout ((between_next_iff h.lt (lt_of_getElem? hp) hzlt hzj).mpr ⟨hjp.symm,hin⟩)
      exact ((h.settled p e' hp hnot).set_none hp h.empty h.lt (dist_self_lt h.lt hzj) hnot).set_some r e
  · intro p e' hp
    simp only [length_set]
    by_cases hrp : r = p
    · subst hrp
      obtain rfl := hnew e' hp
      exact Nat.lt_of_le_of_lt hb (h.way j e hj)
    · exact h.way p e' (hold p e' hrp hp).2

theorem Clearing.noGap (h : Clearing H slots z z) : NoGap H slots := fun i e hi =>
  h.settled i e hi (by rw [dist_self]; omega)

theorem Clearing.exists_entry (h : Clearing H slots j z) (hjz : j ≠ z) : ∃ e, slots[j]? = some (some e) := by
  exact h.pending j h.lt (dist_self_lt h.lt hjz.symm)

end Tables

end SmalltalkJit.LinearProbing
