import SmalltalkJit.Lib.LinearProbing
import Mathlib.Algebra.Ring.Int.Defs
import Mathlib.Algebra.Order.Ring.Nat

/-! # Hashed collections

`Set` and `Dictionary` keep their elements in an open-addressed array. A set stores
the elements themselves, a dictionary stores associations; both search with
`findIndex:`, insert with `atNewIndex:put:` and remove by clearing a slot and adding
the rest of the cluster again. Slots are counted from 0 here. A loop that does not
end has no result.
-/
namespace SmalltalkJit.Collections
open LinearProbing List Option

/-- What the collections ask of their keys: `=` and `hash`, consistent and unchanging. -/
structure KeyProtocol (K : Type) where
  equals : K → K → Bool
  hash : K → ℤ
  refl : ∀ k, equals k k
  symm : ∀ k l, equals k l → equals l k
  trans : ∀ k l m, equals k l → equals l m → equals k m
  consistent : ∀ k l, equals k l → hash k = hash l

/-- `bitAnd:` of small integers, which have 62 bits. -/
def bitAnd (n : ℤ) (mask : ℕ) : ℕ := (n % 2^62).toNat &&& mask

variable {E K V : Type}

def KeyProtocol.hashing (P : KeyProtocol K) (key : E → K) : Hashing E K where
  key := key
  same := P.equals
  home size k := bitAnd (P.hash k) (size-1)
  refl := P.refl
  symm := P.symm
  trans := P.trans
  home_lt size k hsize := by
    have : bitAnd (P.hash k) (size-1) ≤ size-1 := Nat.and_le_right
    omega
  home_same size k l h := by rw [P.consistent k l h]

structure HashedCollection (E : Type) where
  contents : Slots E
  tally : ℤ
  deriving DecidableEq

/-- `computeSize:` fills the bits below the highest one. -/
def computeSize (n : ℤ) : ℕ :=
  let size := (max 8 ((n*4+2) / 3)).toNat
  if size &&& (size-1) = 0 then size
  else
    let size := size-1
    let size := size ||| size >>> 1
    let size := size ||| size >>> 2
    let size := size ||| size >>> 4
    let size := size ||| size >>> 8
    let size := size ||| size >>> 16
    size+1

def HashedCollection.ofSize (size : ℕ) : HashedCollection E := ⟨replicate size none,0⟩

def HashedCollection.new (n : ℤ) : HashedCollection E := .ofSize (computeSize n)

section Operations
variable (H : Hashing E K) (renew : E → E → E)

/-- `add:` with `atNewIndex:put:` and `grow`. An entry with an equal key is renewed. Growing adds the
entries to the new contents; `depth` bounds the calls of `add:` within each other. -/
def add : ℕ → E → HashedCollection E → Option (HashedCollection E)
  | 0, _, _ => none
  | depth+1, e, c => do
    let i ← H.findIndex c.contents (H.key e)
    match c.contents[i]? with
    | some none =>
      let contents := c.contents.set i (some e)
      if (c.tally+1)*4 ≥ contents.length*3 then
        contents.reduceOption.foldlM (fun c item => add depth item c) (.ofSize (contents.length*2))
      else some ⟨contents,c.tally+1⟩
    | some (some old) => some { c with contents := c.contents.set i (some (renew old e)) }
    | none => none

def readd (size : ℕ) : ℕ → ℕ → HashedCollection E → Option (HashedCollection E)
  | 0, _, _ => none
  | fuel+1, i, c =>
    match c.contents[i]? with
    | some none => some c
    | some (some item) => do
      let c ← add H renew 2 item ⟨c.contents.set i none,c.tally-1⟩
      readd size fuel (next size i) c
    | none => none

/-- `remove:ifAbsent:` and `removeKey:ifAbsent:`, with the entry removed. -/
def removeKey (k : K) (c : HashedCollection E) : Option (Option E × HashedCollection E) := do
  let i ← H.findIndex c.contents k
  match c.contents[i]? with
  | some (some e) =>
    let c ← readd H renew c.contents.length c.contents.length (next c.contents.length i)
      ⟨c.contents.set i none,c.tally-1⟩
    some (some e,c)
  | some none => some (none,c)
  | none => none

def lookup (k : K) (c : HashedCollection E) : Option (Option E) := do
  let i ← H.findIndex c.contents k
  c.contents[i]?

end Operations

structure HashedCollection.Sound (H : Hashing E K) (c : HashedCollection E) : Prop where
  noGap : NoGap H c.contents
  distinct : Distinct H c.contents.reduceOption
  tally : c.tally = c.contents.reduceOption.length
  load : c.tally*4 < c.contents.length*3

def insertEntry (H : Hashing E K) (renew : E → E → E) (e : E) (l : List E) : List E :=
  if l.any (H.hit (H.key e)) then l.map fun old => if H.hit (H.key e) old then renew old e else old
  else e :: l

section Entries
variable {H : Hashing E K} {renew : E → E → E} {c : HashedCollection E} {e : E} {k : K}

namespace HashedCollection.Sound

theorem exists_empty (h : c.Sound H) : ∃ z : ℕ, c.contents[z]? = some none :=
  LinearProbing.exists_empty (by have := h.tally; have := h.load; omega)

theorem exists_findIndex (h : c.Sound H) (k : K) : ∃ r, H.findIndex c.contents k = some r ∧
    Ends (H.hit k) c.contents (H.home c.contents.length k) r := by
  obtain ⟨z,hz⟩ := h.exists_empty
  exact exists_probe (H.hit k) (H.home_lt_length hz) hz

theorem findIndex_eq (h : c.Sound H) (hr : Ends (H.hit k) c.contents (H.home c.contents.length k) r) :
    H.findIndex c.contents k = some r := by
  obtain ⟨r',hrun,hr'⟩ := h.exists_findIndex k
  obtain ⟨z,hz⟩ := h.exists_empty
  rw [hrun,hr'.unique (H.home_lt_length hz) hr]

theorem find?_eq (h : c.Sound H) (hr : Ends (H.hit k) c.contents (H.home c.contents.length k) r) :
    c.contents[r]? = some (c.contents.reduceOption.find? (H.hit k)) := by
  rcases hr.stop with hs | ⟨e,hs,hhit⟩
  · rw [hs,Option.some.injEq,eq_comm,find?_eq_none]
    intro e he
    simp [Hashing.hit,not_stored h.noGap h.distinct hr hs e he]
  · rw [hs,Option.some.injEq]
    have hmem : e ∈ c.contents.reduceOption := mem_reduceOption_iff.mpr ⟨r,hs⟩
    cases hf : c.contents.reduceOption.find? (H.hit k) with
    | none => exact absurd hhit (find?_eq_none.mp hf e hmem)
    | some e' =>
      obtain ⟨i,hi⟩ := mem_reduceOption_iff.mp (mem_of_find?_eq_some hf)
      have hsa : H.same (H.key e) (H.key e') :=
        H.trans _ _ _ hhit (H.symm _ _ (by simpa [Hashing.hit] using find?_some hf))
      obtain rfl := h.distinct.index_unique hs hi hsa
      rw [hs] at hi
      exact Option.some.inj hi

end HashedCollection.Sound

theorem lookup_eq (h : c.Sound H) (k : K) : lookup H k c = some (c.contents.reduceOption.find? (H.hit k)) := by
  obtain ⟨r,hrun,hr⟩ := h.exists_findIndex k
  simp only [lookup,hrun,bind,bind_some,h.find?_eq hr]

theorem sound_ofSize (hs : 0 < size) : (HashedCollection.ofSize size : HashedCollection E).Sound H := by
  have hn : ∀ (i : ℕ) (e : E), (replicate size none : Slots E)[i]? ≠ some (some e) := by
    intro i e
    simp [getElem?_replicate]
  have he : (replicate size none : Slots E).reduceOption = [] := reduceOption_replicate_none
  refine ⟨fun i e hi => absurd hi (hn i e),?_,?_,?_⟩
  · simp [HashedCollection.ofSize,he,Distinct]
  · simp [HashedCollection.ofSize,he]
  · simp only [HashedCollection.ofSize,length_replicate]
    omega

theorem add_new (renew : E → E → E) (h : c.Sound H)
    (hnew : ∀ e' ∈ c.contents.reduceOption, H.same (H.key e') (H.key e) = false)
    (hl : (c.tally+1)*4 < c.contents.length*3) (depth : ℕ) : ∃ r, H.findIndex c.contents (H.key e) = some r ∧
      add H renew (depth+1) e c = some ⟨c.contents.set r (some e),c.tally+1⟩ ∧
      HashedCollection.Sound H ⟨c.contents.set r (some e),c.tally+1⟩ ∧
      (c.contents.set r (some e)).reduceOption.Perm (e :: c.contents.reduceOption) := by
  obtain ⟨r,hrun,hr⟩ := h.exists_findIndex (H.key e)
  have he : c.contents[r]? = some none := by
    rcases hr.stop with hs | ⟨e',hs,hhit⟩
    · exact hs
    · exact absurd hhit (by simp [Hashing.hit,hnew e' (mem_reduceOption_iff.mpr ⟨r,hs⟩)])
  have hp := reduceOption_set_some he e
  refine ⟨r,hrun,?_,⟨noGap_set_some hr h.noGap,distinct_set_some hr h.noGap h.distinct he,?_,?_⟩,hp⟩
  · simp only [add,hrun,bind,bind_some,he,length_set]
    rw [if_neg (by omega)]
  · change c.tally+1 = _
    rw [hp.length_eq,length_cons,h.tally]
    omega
  · simpa using hl

def relocate (H : Hashing E K) : List E → Slots E → Option (Slots E)
  | [], slots => some slots
  | e :: rest, slots => (H.findIndex slots (H.key e)).bind fun i => relocate H rest (slots.set i (some e))

theorem foldlM_add (renew : E → E → E) (h : c.Sound H) (hdis : Distinct H (l ++ c.contents.reduceOption))
    (hl : (c.tally + l.length)*4 < c.contents.length*3) (depth : ℕ) :
    ∃ c', l.foldlM (fun c item => add H renew (depth+1) item c) c = some c' ∧ c'.Sound H ∧
      relocate H l c.contents = some c'.contents ∧
      c'.contents.length = c.contents.length ∧ c'.contents.reduceOption.Perm (l ++ c.contents.reduceOption) := by
  induction l generalizing c with
  | nil => exact ⟨c,rfl,h,rfl,rfl,.refl _⟩
  | cons e l ih =>
    rw [length_cons] at hl
    have hdis' : Distinct H (e :: (l ++ c.contents.reduceOption)) := hdis
    have hf := (pairwise_cons.mp hdis').1
    obtain ⟨r,hfin,hadd,hso,hp⟩ := add_new renew h (e := e) (fun e' he' => by
        have hne := hf e' (mem_append_right l he')
        rw [Bool.eq_false_iff] at hne ⊢
        exact fun hs => hne (H.symm _ _ hs))
      (by omega) depth
    have hm : (l ++ (c.contents.set r (some e)).reduceOption).Perm (e :: l ++ c.contents.reduceOption) :=
      (hp.append_left l).trans perm_middle
    obtain ⟨c',hres,hso',hr,hlen,hp'⟩ := ih hso (hdis.perm hm.symm) (by simp only [length_set]; omega)
    refine ⟨c',?_,hso',?_,hlen.trans length_set,hp'.trans hm⟩
    · simp only [foldlM_cons,hadd,bind,bind_some] at hres ⊢
      exact hres
    · simp only [relocate,hfin,bind_some,hr]

theorem insertEntry_new (hnew : ∀ e' ∈ l, H.same (H.key e') (H.key e) = false) :
    insertEntry H renew e l = e :: l := by
  unfold insertEntry
  rw [if_neg]
  simpa [Hashing.hit] using hnew

theorem insertEntry_stored (hmem : old ∈ l) (hhit : H.hit (H.key e) old) :
    insertEntry H renew e l = l.map fun old => if H.hit (H.key e) old then renew old e else old := by
  rw [insertEntry,if_pos (any_eq_true.mpr ⟨old,hmem,hhit⟩)]

theorem reduceOption_set_renew (h : c.Sound H) (hr : c.contents[r]? = some (some old))
    (hhit : H.hit (H.key e) old) : (c.contents.set r (some (renew old e))).reduceOption =
      c.contents.reduceOption.map fun old => if H.hit (H.key e) old then renew old e else old := by
  obtain ⟨a,b,hab,rfl⟩ := exists_append_of_getElem? hr
  have hdis := h.distinct
  have ho : ∀ e' ∈ a.reduceOption ++ b.reduceOption, H.hit (H.key e) e' = false := by
    have hp : Distinct H (old :: (a.reduceOption ++ b.reduceOption)) := by
      refine hdis.perm ?_
      rw [hab,reduceOption_append,reduceOption_cons_of_some]
      exact perm_middle
    intro e' he'
    have hne := (pairwise_cons.mp hp).1 e' he'
    rw [Bool.eq_false_iff] at hne ⊢
    exact fun hs => hne (H.trans _ _ _ hhit (H.symm _ _ hs))
  have hmap : ∀ l : List E, (∀ e' ∈ l, H.hit (H.key e) e' = false) →
      (l.map fun old => if H.hit (H.key e) old then renew old e else old) = l := by
    intro l hl
    conv_rhs => rw [← map_id l]
    refine map_congr_left fun e' he' => ?_
    rw [hl e' he',if_neg (Bool.false_ne_true),id]
  rw [hab,set_append_right _ _ (Nat.le_refl a.length),Nat.sub_self,set_cons_zero,
    reduceOption_append,reduceOption_cons_of_some,reduceOption_append,
    reduceOption_cons_of_some,map_append,map_cons,if_pos hhit,
    hmap _ (fun e' he' => ho e' (mem_append_left _ he')),
    hmap _ (fun e' he' => ho e' (mem_append_right _ he'))]

/-- What `add:` may do to a stored entry. -/
def KeepsKey (H : Hashing E K) (renew : E → E → E) : Prop := ∀ old e, H.key (renew old e) = H.key old

theorem distinct_map (hkey : KeepsKey H renew) (h : Distinct H l) :
    Distinct H (l.map fun old => if H.hit (H.key e) old then renew old e else old) := by
  refine pairwise_map.mpr (h.imp ?_)
  intro a b hab
  split <;> split <;> simpa [hkey _ _] using hab

theorem grow_spec (renew : E → E → E) (h : c.Sound H)
    (hr : Ends (H.hit (H.key e)) c.contents (H.home c.contents.length (H.key e)) r)
    (hem : c.contents[r]? = some none) :
    ∃ c', (c.contents.set r (some e)).reduceOption.foldlM (fun c item => add H renew 1 item c)
        (.ofSize (c.contents.length*2)) = some c' ∧ c'.Sound H ∧
      relocate H (c.contents.set r (some e)).reduceOption (replicate (c.contents.length*2) none) =
        some c'.contents ∧
      c'.contents.length = c.contents.length*2 ∧
      c'.contents.reduceOption.Perm (e :: c.contents.reduceOption) := by
  have hp := reduceOption_set_some hem e
  have hdis := distinct_set_some hr h.noGap h.distinct hem
  have hl := h.load
  have hlt := hr.lt
  have hf : (HashedCollection.ofSize (c.contents.length*2) : HashedCollection E).Sound H := sound_ofSize (by omega)
  have hn : (HashedCollection.ofSize (c.contents.length*2) : HashedCollection E).contents.reduceOption = [] :=
    reduceOption_replicate_none
  obtain ⟨c',hg,hs,hrel,hlen,he⟩ := foldlM_add renew
    (l := (c.contents.set r (some e)).reduceOption) hf (by rwa [hn,append_nil])
    (by
      rw [hp.length_eq,length_cons]
      simp only [HashedCollection.ofSize,length_replicate]
      have := h.tally
      by_cases hz : 0 < c.tally <;> omega) 0
  rw [hn,append_nil] at he
  exact ⟨c',hg,hs,hrel,hlen.trans length_replicate,he.trans hp⟩

theorem add_spec (hkey : KeepsKey H renew) (h : c.Sound H) (e : E) : ∃ c', add H renew 2 e c = some c' ∧ c'.Sound H ∧
      (c'.contents.length = c.contents.length ∨ c'.contents.length = c.contents.length*2) ∧
      c'.contents.reduceOption.Perm (insertEntry H renew e c.contents.reduceOption) := by
  obtain ⟨r,hrun,hr⟩ := h.exists_findIndex (H.key e)
  rcases hr.stop with hs | ⟨old,hs,hhit⟩
  · have hnew := not_stored h.noGap h.distinct hr hs
    rw [insertEntry_new hnew]
    by_cases hf : (c.tally+1)*4 ≥ c.contents.length*3
    · obtain ⟨c',hg,hso,-,hlen,hp⟩ := grow_spec renew h hr hs
      refine ⟨c',?_,hso,.inr hlen,hp⟩
      simp only [add,hrun,bind,bind_some,hs,length_set,if_pos hf] at hg ⊢
      exact hg
    · obtain ⟨r',-,hadd,hso,hp⟩ := add_new renew h hnew (by omega) 1
      exact ⟨_,hadd,hso,.inl length_set,hp⟩
  · have he : (c.contents.set r (some (renew old e))).reduceOption = _ := reduceOption_set_renew h hs hhit
    rw [insertEntry_stored (mem_reduceOption_iff.mpr ⟨r,hs⟩) hhit]
    refine ⟨{ c with contents := c.contents.set r (some (renew old e)) },?_,⟨?_,?_,?_,?_⟩,.inl length_set, .of_eq he⟩
    · simp only [add,hrun,bind,bind_some,hs]
    · refine noGap_set_some (ends_of_stored h.noGap h.distinct hs ?_) h.noGap
      rw [hkey]
      exact H.refl _
    · rw [he]
      exact distinct_map hkey h.distinct
    · rw [he,length_map]
      exact h.tally
    · simpa using h.load

theorem add_clearing (renew : E → E → E) (hc : Clearing H c.contents j z)
    (hdis : Distinct H c.contents.reduceOption) (hj : c.contents[j]? = some (some e))
    (hl : c.tally*4 < c.contents.length*3) : ∃ contents, add H renew 2 e ⟨c.contents.set j none,c.tally-1⟩ =
      some ⟨contents,c.tally⟩ ∧ Clearing H contents (next c.contents.length j) z ∧ contents.length =
      c.contents.length ∧ contents.reduceOption.Perm c.contents.reduceOption := by
  have hzj : j ≠ z := by
    rintro rfl
    simp [hc.empty] at hj
  have hz : (c.contents.set j none)[z]? = some none := by
    rw [getElem?_set_ne hzj]
    exact hc.empty
  have hs : (c.contents.set j none).length = c.contents.length := length_set
  obtain ⟨r,hrun,hr⟩ := exists_probe (H.hit (H.key e)) (H.home_lt_length (k := H.key e) hz) hz
  have hf : H.findIndex (c.contents.set j none) (H.key e) = some r := hrun
  rw [hs] at hr
  obtain ⟨he,hn⟩ := hc.step hdis hj hr
  refine ⟨(c.contents.set j none).set r (some e),?_,hn,by simp,
    (reduceOption_set_some he e).trans (reduceOption_set_none hj).symm⟩
  simp only [add,hf,bind,bind_some,he,length_set]
  rw [if_neg (by omega),Int.sub_add_cancel]

theorem readd_spec (renew : E → E → E) (fuel : ℕ) (hc : Clearing H c.contents j z)
    (hdis : Distinct H c.contents.reduceOption) (hl : c.tally*4 < c.contents.length*3)
    (hf : dist c.contents.length j z < fuel) :
    ∃ contents, readd H renew c.contents.length fuel j c = some ⟨contents,c.tally⟩ ∧ NoGap H contents ∧
      contents.length = c.contents.length ∧ contents.reduceOption.Perm c.contents.reduceOption := by
  induction fuel generalizing c j with
  | zero => omega
  | succ _ ih =>
    by_cases hjz : j = z
    · subst hjz
      exact ⟨c.contents,by simp only [readd,hc.empty],hc.noGap,rfl,.refl _⟩
    · obtain ⟨e,hj⟩ := hc.exists_entry hjz
      obtain ⟨contents,hadd,hn,hlen,hp⟩ := add_clearing renew hc hdis hj hl
      have hs := dist_next hc.lt (lt_of_getElem? hc.empty) (Ne.symm hjz)
      obtain ⟨c',hrun,hgap,hlen',hp'⟩ := ih (c := ⟨contents,c.tally⟩)
        (by simpa only [hlen] using hn) (hdis.perm hp.symm) (by simpa only [hlen] using hl)
        (by simp only [hlen]; omega)
      refine ⟨c',?_,hgap,hlen'.trans hlen,hp'.trans hp⟩
      simp only [hlen] at hrun
      simp only [readd,hj,hadd,bind,bind_some,hrun]

theorem removeKey_spec (renew : E → E → E) (h : c.Sound H) (k : K) : ∃ c', removeKey H renew k c =
      some (c.contents.reduceOption.find? (H.hit k),c') ∧ c'.Sound H ∧ c'.contents.length = c.contents.length ∧
      c'.contents.reduceOption.Perm (c.contents.reduceOption.filter fun e => !H.hit k e) := by
  obtain ⟨r,hrun,hr⟩ := h.exists_findIndex k
  have hf := h.find?_eq hr
  rcases hr.stop with hs | ⟨e,hs,hhit⟩
  · rw [hs] at hf
    refine ⟨c,by simp only [removeKey,hrun,bind,bind_some,hs,← Option.some.inj hf],h,rfl,?_⟩
    rw [filter_eq_self.mpr]
    intro e he
    simp [Hashing.hit,not_stored h.noGap h.distinct hr hs e he]
  · rw [hs] at hf
    obtain ⟨z,hz⟩ := h.exists_empty
    obtain ⟨z,hc,hz⟩ := exists_clearing h.noGap hs hz
    have hp := reduceOption_set_none hs
    obtain ⟨ho,hres⟩ := pairwise_cons.mp (h.distinct.perm hp)
    have hdis : Distinct H (c.contents.set r none).reduceOption := hres
    have hsi : (c.contents.set r none).length = c.contents.length := length_set
    obtain ⟨contents,hre,hgap,hlen,hen⟩ := readd_spec (c := ⟨c.contents.set r none,c.tally-1⟩) renew
      c.contents.length hc hdis
      (by have := h.load; simp only [hsi]; omega)
      (by simpa only [hsi] using dist_lt (next_lt hr.lt) (lt_of_getElem? hz))
    simp only [hsi] at hre hlen
    have hco := hp.length_eq
    rw [length_cons] at hco
    refine ⟨⟨contents,c.tally-1⟩,?_,⟨hgap,hdis.perm hen.symm,?_,?_⟩,hlen, hen.trans ?_⟩
    · simp only [removeKey,hrun,bind,bind_some,hs,hre,← Option.some.inj hf]
    · have := h.tally
      have := hen.length_eq
      simp only at this ⊢
      omega
    · have := h.load
      simp only [hlen]
      omega
    · have hfi := (hp.filter fun e => !H.hit k e).symm
      rw [filter_cons_of_neg (by simp [hhit]),filter_eq_self.mpr] at hfi
      · exact hfi
      · intro e' he'
        have hne := ho e' he'
        rw [Bool.eq_false_iff] at hne
        rw [Bool.not_eq_true',Bool.eq_false_iff]
        exact fun hs => hne (H.trans _ _ _ hhit (H.symm _ _ hs))

end Entries

end SmalltalkJit.Collections
