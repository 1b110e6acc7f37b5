import SmalltalkJit.Collections.HashedCollection

/-! # Sets and dictionaries as finite sets and maps

A finite set is a list of elements no two of which are equal, a finite map a list
of pairs no two of which have equal keys; the order means nothing. In every run of
operations a `Set` or a `Dictionary` gives the answers of the finite set or map.
-/
namespace SmalltalkJit.Collections
open LinearProbing Option List Prod

variable {E K V O S T A : Type}

section Sets
variable (P : KeyProtocol K)

inductive SetOperation (K : Type)
  | add (object : K)
  | remove (object : K)
  | includes (object : K)
  | size

inductive SetAnswer (K : Type)
  | object (object : K)
  -- The block of `remove:ifAbsent:` was evaluated.
  | absent
  | includes (found : Bool)
  | size (n : ℤ)

def keepOld (old _ : K) : K := old

def SetOperation.perform : SetOperation K → HashedCollection K → Option (SetAnswer K × HashedCollection K)
  | .add x, c => do
    let c ← Collections.add (P.hashing id) keepOld 2 x c
    some (.object x,c)
  | .remove x, c => do
    let (removed,c) ← removeKey (P.hashing id) keepOld x c
    some (if removed.isSome then .object x else .absent,c)
  | .includes x, c => do
    let found ← lookup (P.hashing id) x c
    some (.includes found.isSome,c)
  | .size, c => some (.size c.tally,c)

end Sets

section Dictionaries
variable (P : KeyProtocol K)

inductive DictionaryOperation (K V : Type)
  | atPut (key : K) (value : V)
  | add (key : K) (value : V)
  | atKey (key : K)
  | includesKey (key : K)
  | removeKey (key : K)
  | remove (key : K) (value : V)
  | size

inductive DictionaryAnswer (K V : Type)
  | value (value : V)
  | association (key : K) (value : V)
  -- The block for an absent key was evaluated.
  | absent
  | includes (found : Bool)
  | size (n : ℤ)

def DictionaryAnswer.ofValue (found : Option (K × V)) : DictionaryAnswer K V :=
  match found with
  | some e => .value e.2
  | none => .absent

def DictionaryAnswer.ofAssociation (key : K) (value : V) (found : Option (K × V)) : DictionaryAnswer K V :=
  match found with
  | some e => .association e.1 value
  | none => .association key value

/-- A dictionary stores associations. The association of an equal key gets the new value. -/
def renewValue (old e : K × V) : K × V := (old.1,e.2)

def DictionaryOperation.perform : DictionaryOperation K V → HashedCollection (K × V) →
    Option (DictionaryAnswer K V × HashedCollection (K × V))
  | .atPut k v, c => do
    let c ← Collections.add (P.hashing fst) renewValue 2 (k,v) c
    some (.value v,c)
  | .add k v, c => do
    let found ← lookup (P.hashing fst) k c
    let c ← Collections.add (P.hashing fst) renewValue 2 (k,v) c
    some (.ofAssociation k v found,c)
  | .atKey k, c => do
    let found ← lookup (P.hashing fst) k c
    some (.ofValue found,c)
  | .includesKey k, c => do
    let found ← lookup (P.hashing fst) k c
    some (.includes found.isSome,c)
  | .removeKey k, c => do
    let (removed,c) ← Collections.removeKey (P.hashing fst) renewValue k c
    some (.ofValue removed,c)
  | .remove k v, c => do
    let (removed,c) ← Collections.removeKey (P.hashing fst) renewValue k c
    some (if removed.isSome then .association k v else .absent,c)
  | .size, c => some (.size c.tally,c)

end Dictionaries

section Entries
variable {H : Hashing E K} {l l' : List E} {k : K}

theorem find?_perm (h : Distinct H l) (hp : l.Perm l') : l.find? (H.hit k) = l'.find? (H.hit k) := by
  cases hf : l'.find? (H.hit k) with
  | none =>
    rw [find?_eq_none] at hf ⊢
    exact fun e he => hf e (hp.mem_iff.mp he)
  | some e =>
    have hmem := hp.mem_iff.mpr (mem_of_find?_eq_some hf)
    have hhit := find?_some hf
    cases hf' : l.find? (H.hit k) with
    | none => exact absurd hhit (find?_eq_none.mp hf' e hmem)
    | some =>
      have hhit' := find?_some hf'
      rw [h.eq_of_same (mem_of_find?_eq_some hf') hmem (H.trans _ _ _ hhit' (H.symm _ _ hhit))]

theorem insertEntry_perm (renew : E → E → E) (e : E) (hp : l.Perm l') :
    (insertEntry H renew e l).Perm (insertEntry H renew e l') := by
  have hany : l.any (H.hit (H.key e)) = l'.any (H.hit (H.key e)) := by
    rw [Bool.eq_iff_iff,List.any_eq_true,List.any_eq_true]
    exact exists_congr fun x => and_congr_left fun _ => hp.mem_iff
  unfold insertEntry
  rw [hany]
  split
  · exact hp.map _
  · exact hp.cons e

def Holds (H : Hashing E K) (c : HashedCollection E) (l : List E) : Prop := c.Sound H ∧ c.contents.reduceOption.Perm l

variable {c : HashedCollection E}

theorem Holds.lookup_eq (h : Holds H c l) (k : K) : lookup H k c = some (l.find? (H.hit k)) := by
  rw [Collections.lookup_eq h.1,find?_perm h.1.distinct h.2]

theorem Holds.exists_add (h : Holds H c l) (hkey : KeepsKey H renew) (e : E) :
    ∃ c', add H renew 2 e c = some c' ∧ Holds H c' (insertEntry H renew e l) := by
  obtain ⟨c',hrun,hs,-,hp⟩ := add_spec hkey h.1 e
  exact ⟨c',hrun,hs,hp.trans (insertEntry_perm renew e h.2)⟩

theorem Holds.exists_removeKey (h : Holds H c l) (renew : E → E → E) (k : K) :
    ∃ c', removeKey H renew k c = some (l.find? (H.hit k),c') ∧ Holds H c' (l.filter fun e => !H.hit k e) := by
  obtain ⟨c',hrun,hs,-,hp⟩ := removeKey_spec renew h.1 k
  rw [find?_perm h.1.distinct h.2] at hrun
  exact ⟨c',hrun,hs,hp.trans (h.2.filter _)⟩

end Entries

section Steps
variable {P : KeyProtocol K}

theorem keepsKey_renewValue : KeepsKey (P.hashing fst) (renewValue : K × V → K × V → K × V) := fun _ _ => rfl

end Steps

/-- What the searches rest on: every stored entry is found, with no empty slot before it; no two
stored keys are the same; the tally counts; and a slot is empty, so that every search ends. -/
structure Probed (H : Hashing E K) (c : HashedCollection E) : Prop where
  found : ∀ i e, c.contents[i]? = some (some e) →
    H.findIndex c.contents (H.key e) = some i ∧ NoGapAt H c.contents i e
  different : ∀ (i j : ℕ) (e e' : E), c.contents[i]? = some (some e) → c.contents[j]? = some (some e') →
    H.same (H.key e) (H.key e') → i = j
  tally : c.tally = c.contents.countP Option.isSome
  room : ∃ z : ℕ, c.contents[z]? = some none
  ends : ∀ k, ∃ i, H.findIndex c.contents k = some i

theorem HashedCollection.Sound.probed {c : HashedCollection E} (h : c.Sound H) : Probed H c where
  found i e hi := ⟨h.findIndex_eq (ends_of_stored h.noGap h.distinct hi (H.refl _)),h.noGap i e hi⟩
  different _ _ _ _ hi hj hs := h.distinct.index_unique hi hj hs
  tally := by rw [h.tally,reduceOption,length_filterMap_eq_countP]; rfl
  room := h.exists_empty
  ends k := by
    obtain ⟨r,hrun,-⟩ := h.exists_findIndex k
    exact ⟨r,hrun⟩

end SmalltalkJit.Collections
