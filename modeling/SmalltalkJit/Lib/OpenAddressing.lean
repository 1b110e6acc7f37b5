import Mathlib.Data.Nat.Bitwise
import Mathlib.Data.List.Count
import Mathlib.Data.Fintype.EquivFin
import SmalltalkJit.Lib.LinearProbing

/-! # Hash tables with linear probing

A table is a list of slots whose length is a power of two. The search for a key
starts at its hash, masked, and walks around the table to an empty slot or to
the key. Inserting into the empty slot that a search has found never breaks the
search for another key; a table that is three quarters full is rebuilt at twice
its length. A sound table is a finite map.
-/
namespace SmalltalkJit.OpenAddressing
open List Option

variable {K V : Type}

abbrev Slots (K V : Type) := List (Option (K × V))

structure Table (K V : Type) where
  slots : Slots K V
  tally : ℕ
  deriving DecidableEq

def Slots.used (slots : Slots K V) : ℕ := slots.countP isSome

@[simp] theorem used_some_cons (e : K × V) (slots : Slots K V) : Slots.used (some e :: slots) = slots.used+1 := by
  simp [Slots.used]

@[simp] theorem used_replicate (n : ℕ) : Slots.used (replicate n (none : Option (K × V))) = 0 := by simp [Slots.used]

theorem exists_empty {slots : Slots K V} (h : slots.used < slots.length) : ∃ e : ℕ, slots[e]? = some none := by
  rw [Slots.used,countP_eq_length_filter,← reduceOption_length_eq] at h
  exact LinearProbing.exists_empty h

theorem used_set_of_empty {slots : Slots K V} (h : slots[i]? = some none) (e : K × V) :
    (Slots.used (slots.set i (some e))) = slots.used+1 := by
  obtain ⟨hlt,hi⟩ := List.getElem?_eq_some_iff.mp h
  simp [Slots.used,countP_set,hlt,hi]

theorem used_set_of_key {slots : Slots K V} (h : slots[i]? = some (some e)) (e' : K × V) :
    (Slots.used (slots.set i (some e'))) = slots.used := by
  obtain ⟨hlt,hi⟩ := List.getElem?_eq_some_iff.mp h
  have hpos : 0 < slots.countP isSome := countP_pos_iff.mpr ⟨some e,hi ▸ getElem_mem hlt,rfl⟩
  simp only [Slots.used,countP_set hlt,hi,isSome_some,if_true]
  omega

def DifferentKeys (a b : Option (K × V)) : Prop := ∀ k v w, a = some (k,v) → b ≠ some (k,w)

def after (length i : ℕ) : ℕ := if i = length-1 then 0 else i+1

/-- The first free slot from a position on. The keys on the way are not compared. -/
def probeFree (slots : Slots K V) : ℕ → ℕ → Option ℕ
  | 0, _ => none
  | fuel+1, i =>
    match slots[i]? with
    | some none => some i
    | some (some _) => probeFree slots fuel (after slots.length i)
    | none => none

def rehash (hash : K × V → ℕ) : Slots K V → Slots K V → Option (Slots K V)
  | [], slots => some slots
  | none :: rest, slots => rehash hash rest slots
  | some e :: rest, slots =>
    (probeFree slots slots.length (hash e &&& (slots.length-1))).bind fun i => rehash hash rest (slots.set i (some e))

section Search
variable [DecidableEq K]

/-- The search loop. It never ends in a full table without the key; `fuel` bounds the slots it
visits. -/
def probe (slots : Slots K V) (key : K) : ℕ → ℕ → Option ℕ
  | 0, _ => none
  | fuel+1, i =>
    match slots[i]? with
    | some none => some i
    | some (some e) => if e.1 = key then some i else probe slots key fuel (after slots.length i)
    | none => none

def findIndex (hash : K → ℕ) (slots : Slots K V) (key : K) : Option ℕ :=
  probe slots key slots.length (hash key &&& (slots.length-1))

def relocate (hash : K → ℕ) : Slots K V → Slots K V → Option (Slots K V)
  | [], slots => some slots
  | none :: rest, slots => relocate hash rest slots
  | some e :: rest, slots => (findIndex hash slots e.1).bind fun i => relocate hash rest (slots.set i (some e))

def grow (hash : K → ℕ) (t : Table K V) : Option (Table K V) :=
  (relocate hash t.slots (replicate (t.slots.length*2) none)).map fun slots => ⟨slots,t.tally⟩

def put (hash : K → ℕ) (t : Table K V) (key : K) (value : V) : Option (Table K V) :=
  (findIndex hash t.slots key).bind fun i =>
    match t.slots[i]? with
    | some none =>
      if (t.tally+1)*4 ≥ t.slots.length*3 then
        grow hash ⟨t.slots.set i (some (key,value)),t.tally+1⟩
      else some ⟨t.slots.set i (some (key,value)),t.tally+1⟩
    | _ => some ⟨t.slots.set i (some (key,value)),t.tally⟩

/-- The value under a key; the outer option is a search that ends. -/
def get? (hash : K → ℕ) (t : Table K V) (key : K) : Option (Option V) :=
  (findIndex hash t.slots key).map fun i => (t.slots[i]?.join).map Prod.snd

end Search

/-- The search for every stored key ends where the key is stored. -/
structure Slots.Sound [DecidableEq K] (hash : K → ℕ) (slots : Slots K V) : Prop where
  pow : ∃ m, slots.length = 2^m
  found : ∀ i e, slots[i]? = some (some e) → findIndex hash slots e.1 = some i

structure Table.Sound [DecidableEq K] (hash : K → ℕ) (t : Table K V) : Prop where
  slots : t.slots.Sound hash
  tally : t.tally = t.slots.used
  load : t.tally*4 < t.slots.length*3

section Probing
variable [DecidableEq K] {slots : Slots K V} {key : K} {fuel i j : ℕ}

theorem probe_spec (h : probe slots key fuel i = some j) :
    slots[j]? = some none ∨ ∃ v, slots[j]? = some (some (key,v)) := by
  induction fuel generalizing i with
  | zero => cases h
  | succ fuel ih =>
    match hi : slots[i]? with
    | none => simp [probe,hi] at h
    | some none =>
      simp only [probe,hi,some.injEq] at h
      exact .inl (h ▸ hi)
    | some (some e) =>
      simp only [probe,hi] at h
      split at h
      · rename_i hk
        cases h
        exact .inr ⟨e.2,by rw [hi,← hk]⟩
      · exact ih h

/-- A slot may be filled with the key at the end of its own search, and anything may happen to a
slot that keeps its key or that no search passes. -/
theorem probe_set (h : probe slots key fuel i = some j) (hs : e = j → ∃ v, x = some (key,v))
    (ho : ∀ k v, e ≠ j → slots[e]? = some (some (k,v)) → ∃ w, x = some (k,w)) :
    probe (slots.set e x) key fuel i = some j := by
  induction fuel generalizing i with
  | zero => cases h
  | succ fuel ih =>
    simp only [probe,getElem?_set,length_set] at h ⊢
    by_cases hie : e = i
    · subst hie
      match he : slots[e]? with
      | none => simp [he] at h
      | some none =>
        have hlt := (List.getElem?_eq_some_iff.mp he).1
        simp only [he,some.injEq] at h
        subst h
        obtain ⟨v,rfl⟩ := hs rfl
        simp [hlt]
      | some (some p) =>
        have hlt := (List.getElem?_eq_some_iff.mp he).1
        simp only [he] at h
        split at h
        · cases h
          obtain ⟨v,rfl⟩ := hs rfl
          simp [hlt]
        · rename_i hk
          have hne : e ≠ j := by
            rintro rfl
            rcases probe_spec h with hj | ⟨v,hj⟩ <;> simp_all
          obtain ⟨w,rfl⟩ := ho p.1 p.2 hne he
          simpa [hlt,hk] using ih h
    · simp only [if_neg hie]
      match hi : slots[i]? with
      | none => simp [hi] at h
      | some none => simpa [hi] using h
      | some (some p) =>
        simp only [hi] at h ⊢
        split at h
        · rename_i hk
          rw [if_pos hk,h]
        · rename_i hk
          rw [if_neg hk]
          exact ih h

theorem probe_eq (slots : Slots K V) (key : K) (fuel i : ℕ) :
    probe slots key fuel i = LinearProbing.probe (fun e => e.1 = key) slots fuel i := by
  induction fuel generalizing i with
  | zero => rfl
  | succ fuel ih =>
    match hi : slots[i]? with
    | none => simp only [probe,LinearProbing.probe,hi]
    | some none => simp only [probe,LinearProbing.probe,hi]
    | some (some e) =>
      have hlt := LinearProbing.lt_of_getElem? hi
      have hn : after slots.length i = LinearProbing.next slots.length i := by
        unfold after LinearProbing.next
        split_ifs <;> omega
      simp only [probe,LinearProbing.probe,hi,decide_eq_true_eq,ih,hn]

theorem findIndex_isSome (hash : K → ℕ) (hpow : ∃ m, slots.length = 2^m)
    (hr : slots.used < slots.length) (key : K) : (findIndex hash slots key).isSome := by
  obtain ⟨m,hm⟩ := hpow
  obtain ⟨e,he⟩ := exists_empty hr
  have hlt := (List.getElem?_eq_some_iff.mp he).1
  have hs : hash key &&& (slots.length-1) < slots.length := by
    rw [hm,Nat.and_two_pow_sub_one_eq_mod,← hm]
    exact Nat.mod_lt _ (by omega)
  obtain ⟨r,hr,-⟩ := LinearProbing.exists_probe (fun e => e.1 = key) hs he
  rw [findIndex,probe_eq,hr]
  rfl

end Probing

section Inserting
variable [DecidableEq K] {hash : K → ℕ} {slots : Slots K V}

theorem Slots.Sound.index_unique (h : slots.Sound hash) {i j : ℕ}
    (hi : slots[i]? = some (some (k,v))) (hj : slots[j]? = some (some (k,w))) : i = j := by
  have hfi := h.found i _ hi
  have hfj := h.found j _ hj
  exact some.inj (hfi.symm.trans hfj)

theorem Slots.Sound.set (h : slots.Sound hash) {e : K × V}
    (hi : findIndex hash slots e.1 = some i) : Slots.Sound hash (slots.set i (some e)) where
  pow := by simpa using h.pow
  found := by
    intro j p hj
    unfold findIndex at hi ⊢
    rw [length_set]
    by_cases hji : i = j
    · subst hji
      have hlt : i < slots.length := by
        simpa using (List.getElem?_eq_some_iff.mp hj).1
      obtain rfl : e = p := by simpa [hlt] using hj
      exact probe_set hi (fun _ => ⟨e.2,rfl⟩) (fun _ _ hne => absurd rfl hne)
    · rw [getElem?_set_ne hji] at hj
      apply probe_set (h.found j p hj) (fun hc => absurd hc hji)
      intro k v _ hk
      rcases probe_spec hi with hs | ⟨w,hs⟩
      · simp [hs] at hk
      · obtain ⟨rfl,-⟩ : e.1 = k ∧ w = v := by simpa [hs] using hk
        exact ⟨e.2,rfl⟩

theorem Slots.Sound.mem_set (h : slots.Sound hash) {e p : K × V} (hi : findIndex hash slots e.1 = some i) :
    some p ∈ slots.set i (some e) ↔ p = e ∨ p.1 ≠ e.1 ∧ some p ∈ slots := by
  have hsp := probe_spec hi
  have hlt : i < slots.length := by rcases hsp with hs | ⟨v,hs⟩ <;> exact (List.getElem?_eq_some_iff.mp hs).1
  constructor
  · intro hp
    obtain ⟨j,hj⟩ := getElem?_of_mem hp
    by_cases hij : i = j
    · subst hij
      exact .inl (by simpa [hlt,eq_comm] using hj)
    · rw [getElem?_set_ne hij] at hj
      refine .inr ⟨?_,mem_of_getElem? hj⟩
      intro hk
      have hjk := h.found j p hj
      rw [hk,hi] at hjk
      exact hij (some.inj hjk)
  · rintro (rfl | ⟨hne,hp⟩)
    · exact mem_of_getElem? (i := i) (by simp [hlt])
    · obtain ⟨j,hj⟩ := getElem?_of_mem hp
      have hij : i ≠ j := by
        rintro rfl
        rcases hsp with hs | ⟨v,hs⟩
        · simp [hs] at hj
        · obtain rfl : (e.1,v) = p := by simpa [hs] using hj
          exact hne rfl
      exact mem_of_getElem? (by rwa [getElem?_set_ne hij])

theorem sound_replicate (hn : ∃ m, n = 2^m) : Slots.Sound hash (replicate n (none : Option (K × V))) where
  pow := by simpa using hn
  found := by
    intro i e he
    simp [getElem?_replicate] at he

theorem relocate_spec {entries slots : Slots K V} (h : slots.Sound hash)
    (hr : slots.used + entries.used < slots.length) (hkey : entries.Pairwise DifferentKeys)
    (hnew : ∀ k v w, some (k,v) ∈ entries → some (k,w) ∉ slots) : ∃ slots', relocate hash entries slots =
      some slots' ∧ slots'.Sound hash ∧ slots'.length = slots.length ∧ slots'.used = slots.used + entries.used ∧ ∀ p,
      some p ∈ slots' ↔ some p ∈ entries ∨ some p ∈ slots := by
  induction entries generalizing slots with
  | nil => exact ⟨slots,rfl,h,rfl,rfl,by simp⟩
  | cons a _ ih =>
    rw [pairwise_cons] at hkey
    cases a with
    | none =>
      obtain ⟨slots',hrun,hs,hlen,hu,hmem⟩ := ih h hr hkey.2
        fun k v w hk => hnew k v w (mem_cons_of_mem _ hk)
      exact ⟨slots',hrun,hs,hlen,hu,by simpa using hmem⟩
    | some e =>
      rw [used_some_cons] at hr ⊢
      obtain ⟨i,hi⟩ := isSome_iff_exists.mp (findIndex_isSome hash h.pow (by omega) e.1)
      have he : slots[i]? = some none := by
        rcases probe_spec hi with hs | ⟨v,hs⟩
        · exact hs
        · exact absurd (mem_of_getElem? hs) (hnew e.1 e.2 v mem_cons_self)
      have hc := used_set_of_empty he e
      have hset := fun p => h.mem_set (p := p) hi
      obtain ⟨slots',hrun,hs,hlen,hu,hmem⟩ := ih (h.set hi) (by rw [hc,length_set]; omega) hkey.2 (by
          intro k v w hk hw
          rcases (hset (k,w)).mp hw with heq | ⟨-,hw⟩
          · exact hkey.1 _ hk k w v (by rw [← heq]) rfl
          · exact hnew k v w (mem_cons_of_mem _ hk) hw)
      refine ⟨slots',by simp [relocate,hi,hrun],hs,by simpa using hlen,by omega,?_⟩
      intro p
      rw [hmem p,hset p,mem_cons,some.injEq]
      constructor
      · rintro (hp | rfl | ⟨-,hp⟩)
        · exact .inl (.inr hp)
        · exact .inl (.inl rfl)
        · exact .inr hp
      · rintro ((rfl | hp) | hp)
        · exact .inr (.inl rfl)
        · exact .inl hp
        · refine .inr (.inr ⟨?_,hp⟩)
          intro hk
          exact hnew e.1 e.2 p.2 mem_cons_self (by rwa [← hk])

theorem probeFree_eq_probe (key : K) (h : ∀ v, some (key,v) ∉ slots) (fuel i : ℕ) :
    probeFree slots fuel i = probe slots key fuel i := by
  induction fuel generalizing i with
  | zero => rfl
  | succ fuel ih =>
    match hi : slots[i]? with
    | none => simp only [probeFree,probe,hi]
    | some none => simp only [probeFree,probe,hi]
    | some (some e) =>
      have hne : e.1 ≠ key := by
        rintro rfl
        exact h e.2 (mem_of_getElem? hi)
      simp only [probeFree,probe,hi,if_neg hne,ih]

theorem probeFree_isSome [Infinite K] (hpow : ∃ m, slots.length = 2^m) (hr : slots.used < slots.length) (n : ℕ) :
    (probeFree slots slots.length (n &&& (slots.length-1))).isSome := by
  -- the search for a key that is nowhere in the table
  obtain ⟨key,hkey⟩ := Infinite.exists_notMem_finset ((slots.filterMap id).map Prod.fst).toFinset
  rw [probeFree_eq_probe key fun v hv => hkey (mem_toFinset.mpr
    (mem_map.mpr ⟨(key,v),mem_filterMap.mpr ⟨_,hv,rfl⟩,rfl⟩))]
  exact findIndex_isSome (fun _ => n) hpow hr key

theorem rehash_eq_relocate (hs : slots.Sound hash) (hst : ∀ e, some e ∈ entries → stored e = hash e.1)
    (hkey : entries.Pairwise DifferentKeys) (hnew : ∀ k v w, some (k,v) ∈ entries → some (k,w) ∉ slots) :
    rehash stored entries slots = relocate hash entries slots := by
  induction entries generalizing slots with
  | nil => rfl
  | cons a _ ih =>
    rw [pairwise_cons] at hkey
    have hr := fun e he => hst e (mem_cons_of_mem _ he)
    cases a with
    | none => exact ih hs hr hkey.2 fun k v w hk => hnew k v w (mem_cons_of_mem _ hk)
    | some e =>
      rw [rehash,relocate,findIndex,hst e mem_cons_self,probeFree_eq_probe e.1 (hnew e.1 e.2 · mem_cons_self)]
      refine bind_congr fun i hi => ih (hs.set hi) hr hkey.2 fun k v w hk hw => ?_
      rcases (hs.mem_set hi).mp hw with heq | ⟨-,hw⟩
      · exact hkey.1 _ hk k w v (by rw [← heq]) rfl
      · exact hnew k v w (mem_cons_of_mem _ hk) hw

variable (h : slots.Sound hash)
include h

theorem Slots.Sound.pairwise : slots.Pairwise DifferentKeys := by
  rw [pairwise_iff_getElem]
  intro i j hi hj hij k v w ha hb
  have := h.index_unique (i := i) (j := j) (k := k) (v := v) (w := w) (by simp [hi,ha]) (by simp [hj,hb])
  omega

theorem Slots.Sound.double : Slots.Sound hash (replicate (slots.length*2) none : Slots K V) := by
  obtain ⟨m,hm⟩ := h.pow
  exact sound_replicate ⟨m+1,by rw [hm,Nat.pow_succ]⟩

theorem Slots.Sound.relocate_double (hr : slots.used < slots.length*2) : ∃ slots',
    relocate hash slots (replicate (slots.length*2) none) = some slots' ∧ slots'.Sound hash ∧
      slots'.length = slots.length*2 ∧ slots'.used = slots.used ∧ ∀ p, some p ∈ slots' ↔ some p ∈ slots := by
  obtain ⟨slots',hrun,hs,hlen,hu,hmem⟩ := relocate_spec h.double
    (by rw [used_replicate,length_replicate]; omega) h.pairwise (by simp)
  rw [length_replicate] at hlen
  rw [used_replicate,Nat.zero_add] at hu
  exact ⟨slots',hrun,hs,hlen,hu,by simpa using hmem⟩

theorem Slots.Sound.rehash_double (hst : ∀ e, some e ∈ slots → stored e = hash e.1) :
    rehash stored slots (replicate (slots.length*2) none) = relocate hash slots (replicate (slots.length*2) none) :=
  rehash_eq_relocate h.double hst h.pairwise (by simp)

end Inserting

section Tables
variable [DecidableEq K] {hash : K → ℕ} {t : Table K V}

def empty (capacity : ℕ) : Table K V := ⟨replicate capacity none,0⟩

theorem sound_empty (hash : K → ℕ) (m : ℕ) : Table.Sound hash (empty (2^m) : Table K V) where
  slots := sound_replicate ⟨m,rfl⟩
  tally := by simp [empty]
  load := by
    have := Nat.two_pow_pos m
    simp only [empty,length_replicate]
    omega

theorem Table.Sound.room (h : t.Sound hash) : t.slots.used < t.slots.length := by
  have := h.load
  have := h.tally
  omega

theorem Table.Sound.get?_isSome (h : t.Sound hash) (key : K) : (get? hash t key).isSome := by
  simpa [get?] using findIndex_isSome hash h.slots.pow h.room key

theorem Slots.Sound.get?_eq_some_iff (h : t.slots.Sound hash) (key : K) (v : V) :
    get? hash t key = some (some v) ↔ some (key,v) ∈ t.slots := by
  constructor
  · intro hg
    simp only [get?,map_eq_some_iff] at hg
    obtain ⟨i,hi,e,he,rfl⟩ := hg
    rcases probe_spec hi with hs | ⟨w,hs⟩
    · simp [hs] at he
    · obtain rfl : (key,w) = e := by simpa [hs] using he
      exact mem_of_getElem? hs
  · intro hm
    obtain ⟨i,hi⟩ := getElem?_of_mem hm
    simp [get?,h.found i _ hi,hi]

theorem grow_spec (h : t.slots.Sound hash) (ht : t.tally = t.slots.used) (hl : t.tally*4 < t.slots.length*6) :
    ∃ t', grow hash t = some t' ∧ t'.Sound hash ∧ t'.tally = t.tally ∧ ∀ p, some p ∈ t'.slots ↔ some p ∈ t.slots := by
  obtain ⟨slots,hrun,hs,hlen,hu,hmem⟩ := h.relocate_double (by omega)
  refine ⟨⟨slots,t.tally⟩,by simp [grow,hrun],⟨hs,?_,?_⟩,rfl,hmem⟩
  · rw [hu,ht]
  · change t.tally*4 < slots.length*3
    omega

theorem put_spec (h : t.Sound hash) (key : K) (value : V) : ∃ t', put hash t key value = some t' ∧ t'.Sound hash ∧
      ∀ p, some p ∈ t'.slots ↔ p = (key,value) ∨ p.1 ≠ key ∧ some p ∈ t.slots := by
  obtain ⟨i,hi⟩ := isSome_iff_exists.mp (findIndex_isSome hash h.slots.pow h.room key)
  have hset := h.slots.set (e := (key,value)) hi
  have hmem := fun p => h.slots.mem_set (e := (key,value)) (p := p) hi
  have hl := h.load
  have ht := h.tally
  have hle : t.tally+1 ≤ t.slots.length := by omega
  rcases probe_spec hi with hs | ⟨v,hs⟩
  · have hu := used_set_of_empty hs (key,value)
    by_cases hf : (t.tally+1)*4 ≥ t.slots.length*3
    · obtain ⟨t',hg,hso,-,hgm⟩ := grow_spec (t := ⟨t.slots.set i (some (key,value)),t.tally+1⟩)
        hset (by rw [hu,ht]) (by simp only [length_set]; omega)
      exact ⟨t',by simp only [put,hi,bind_some,hs,if_pos hf,hg],hso,fun p => (hgm p).trans (hmem p)⟩
    · refine ⟨⟨t.slots.set i (some (key,value)),t.tally+1⟩,?_,⟨hset,?_,?_⟩,hmem⟩
      · simp only [put,hi,bind_some,hs,if_neg hf]
      · rw [hu,ht]
      · simp only [length_set]
        omega
  · have hu := used_set_of_key hs (key,value)
    refine ⟨⟨t.slots.set i (some (key,value)),t.tally⟩,?_,⟨hset,?_,?_⟩,hmem⟩
    · simp only [put,hi,bind_some,hs]
    · rw [hu,ht]
    · rwa [length_set]

end Tables

structure HashMap (K V : Type) [DecidableEq K] (hash : K → ℕ) where
  table : Table K V
  sound : table.Sound hash

namespace HashMap
variable [DecidableEq K] {hash : K → ℕ}

def new (m : ℕ) : HashMap K V hash := ⟨empty (2^m),sound_empty hash m⟩

variable (d : HashMap K V hash)

def size : ℕ := d.table.tally

def at? (key : K) : Option V := (get? hash d.table key).get (d.sound.get?_isSome key)

theorem put_isSome (key : K) (value : V) : (put hash d.table key value).isSome := by
  obtain ⟨t,ht,-⟩ := put_spec d.sound key value
  simp [ht]

theorem put_sound (key : K) (value : V) : ((put hash d.table key value).get (d.put_isSome key value)).Sound hash := by
  obtain ⟨t,ht,hs,-⟩ := put_spec d.sound key value
  simpa [ht] using hs

def atPut (key : K) (value : V) : HashMap K V hash :=
  ⟨(put hash d.table key value).get (d.put_isSome key value),d.put_sound key value⟩

theorem at?_eq_some_iff (key : K) (v : V) : d.at? key = some v ↔ some (key,v) ∈ d.table.slots := by
  rw [← d.sound.slots.get?_eq_some_iff,at?,← some.injEq,some_get]

theorem mem_atPut (key : K) (value : V) (p : K × V) : some p ∈ (d.atPut key value).table.slots ↔
      p = (key,value) ∨ p.1 ≠ key ∧ some p ∈ d.table.slots := by
  obtain ⟨t,ht,-,hmem⟩ := put_spec d.sound key value
  simpa [atPut,ht] using hmem p

theorem at?_atPut (key : K) (value : V) (k : K) :
    (d.atPut key value).at? k = if k = key then some value else d.at? k := by
  apply ext
  intro v
  rw [at?_eq_some_iff,mem_atPut]
  split
  · rename_i hk
    simp [hk,eq_comm]
  · rename_i hk
    simp [hk,at?_eq_some_iff]

@[simp] theorem at?_new (m : ℕ) (k : K) : (new m : HashMap K V hash).at? k = none := by
  rw [eq_none_iff_forall_ne_some]
  intro v hv
  rw [at?_eq_some_iff] at hv
  simp [new,empty] at hv

theorem exists_at?_eq_none [Infinite K] : ∃ k, d.at? k = none := by
  obtain ⟨k,hk⟩ := Infinite.exists_notMem_finset (d.table.slots.filterMap (Option.map Prod.fst)).toFinset
  refine ⟨k,eq_none_iff_forall_ne_some.mpr fun v hv => hk ?_⟩
  rw [at?_eq_some_iff] at hv
  rw [List.mem_toFinset,mem_filterMap]
  exact ⟨some (k,v),hv,rfl⟩

def copySlots (fresh : HashMap K V hash) : Slots K V → HashMap K V hash
  | [] => fresh
  | none :: rest => fresh.copySlots rest
  | some e :: rest => (fresh.atPut e.1 e.2).copySlots rest

end HashMap

end SmalltalkJit.OpenAddressing
