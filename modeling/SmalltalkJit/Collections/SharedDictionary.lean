import SmalltalkJit.Collections.FiniteMaps
import SmalltalkJit.Lib.Interleaving

/-! # Dictionaries that the virtual machine and the image share

The virtual machine inserts into dictionaries with string or symbol keys on its
own. It computes the first slot of a search, compares keys and grows by itself, and
it compares strings by their bytes only, so that a string finds a symbol with the
same bytes. As long as no string and symbol with the same bytes are in a dictionary
together, its insertions are those of `at:put:`.
-/
namespace SmalltalkJit.Collections
open LinearProbing Interleaving Option List Function

variable {V : Type}

inductive DictKey
  | string (bytes : List UInt8)
  | symbol (bytes : List UInt8)
  deriving DecidableEq

def DictKey.bytes : DictKey → List UInt8
  | .string bytes => bytes
  | .symbol bytes => bytes

section Hashes
variable (cityHash : List UInt8 → ℕ)

/-- Two shifts take off the highest two of 64 bits. -/
def computeStringHash (bytes : List UInt8) : ℕ := cityHash bytes % 2^62

/-- A symbol's hash is a field of 32 bits that `asSymbol` sets. -/
def DictKey.hash : DictKey → ℕ
  | .string bytes => computeStringHash cityHash bytes
  | .symbol bytes => computeStringHash cityHash bytes % 2^32

def asSmallInteger (bits : ℕ) : ℤ := if bits < 2^61 then bits else bits-2^62

/-- `=` and `hash` of strings and symbols. Strings are equal to strings with the same bytes, symbols
are unique. -/
def dictKeys : KeyProtocol DictKey where
  equals a b := decide (a = b)
  hash k := asSmallInteger (k.hash cityHash)
  refl := by simp
  symm := by simp +contextual
  trans := by simp +contextual
  consistent := by simp +contextual

def imageHashing : Hashing (DictKey × V) DictKey := (dictKeys cityHash).hashing Prod.fst

end Hashes

abbrev SharedDictionary (V : Type) := HashedCollection (DictKey × V)

def identityCmp (a b : DictKey) : Bool := a = b

/-- `stringEquals` does not look at the classes. -/
def stringCmp (a b : DictKey) : Bool := a.bytes = b.bytes

def comparator : DictKey → DictKey → DictKey → Bool
  | .string _ => stringCmp
  | .symbol _ => identityCmp

def vmFindIndex (contents : Slots (DictKey × V)) (cmp : DictKey → DictKey → Bool) (key : DictKey) (hash : ℕ) :
    Option ℕ :=
  probe (fun assoc => cmp assoc.1 key) contents contents.length (hash &&& (contents.length-1))

section Routines
variable (cityHash : List UInt8 → ℕ)

def relocateAssociations : List (DictKey × V) → Slots (DictKey × V) → Option (Slots (DictKey × V))
  | [], newContents => some newContents
  | assoc :: rest, newContents =>
    (vmFindIndex newContents (comparator assoc.1) assoc.1 (assoc.1.hash cityHash)).bind fun index =>
      relocateAssociations rest (newContents.set index (some assoc))

def growDictionary (dict : SharedDictionary V) : Option (SharedDictionary V) := do
  let newContents ← relocateAssociations cityHash dict.contents.reduceOption
    (replicate (dict.contents.length*2) none)
  some { dict with contents := newContents }

def dictAtPut (cmp : DictKey → DictKey → Bool) (key : DictKey) (hash : ℕ) (value : V) (dict : SharedDictionary V) :
    Option (SharedDictionary V) := do
  let index ← vmFindIndex dict.contents cmp key hash
  match dict.contents[index]? with
  | some none =>
    let dict : SharedDictionary V := ⟨dict.contents.set index (some (key,value)),dict.tally+1⟩
    if dict.tally*4 ≥ dict.contents.length*3 then growDictionary cityHash dict else some dict
  | some (some assoc) => some { dict with contents := dict.contents.set index (some (assoc.1,value)) }
  | none => none

def symbolDictAtPut (bytes : List UInt8) (value : V) (dict : SharedDictionary V) : Option (SharedDictionary V) :=
  dictAtPut cityHash identityCmp (.symbol bytes) ((DictKey.symbol bytes).hash cityHash) value dict

def stringDictAtPut (bytes : List UInt8) (value : V) (dict : SharedDictionary V) : Option (SharedDictionary V) :=
  dictAtPut cityHash stringCmp (.string bytes) ((DictKey.string bytes).hash cityHash) value dict

/-- The value under a key; none inside stands for nil. -/
def dictAt (cmp : DictKey → DictKey → Bool) (key : DictKey) (hash : ℕ) (dict : SharedDictionary V) :
    Option (Option V) := do
  let index ← vmFindIndex dict.contents cmp key hash
  let assoc ← dict.contents[index]?
  some (assoc.map Prod.snd)

def symbolDictAt (bytes : List UInt8) (dict : SharedDictionary V) : Option (Option V) :=
  dictAt identityCmp (.symbol bytes) ((DictKey.symbol bytes).hash cityHash) dict

def stringDictAt (bytes : List UInt8) (dict : SharedDictionary V) : Option (Option V) :=
  dictAt stringCmp (.string bytes) ((DictKey.string bytes).hash cityHash) dict

inductive SharedOperation (V : Type)
  | symbolDictAtPut (bytes : List UInt8) (value : V)
  | stringDictAtPut (bytes : List UInt8) (value : V)
  | atPut (key : DictKey) (value : V)
  | removeKey (key : DictKey)

def SharedOperation.step (dict : SharedDictionary V) : SharedOperation V → Option (SharedDictionary V)
  | .symbolDictAtPut bytes value => Collections.symbolDictAtPut cityHash bytes value dict
  | .stringDictAtPut bytes value => Collections.stringDictAtPut cityHash bytes value dict
  | .atPut key value => add (imageHashing cityHash) renewValue 2 (key,value) dict
  | .removeKey key => (Collections.removeKey (imageHashing cityHash) renewValue key dict).map Prod.snd

end Routines

def SharedOperation.latest (m : DictKey → Option V) : SharedOperation V → DictKey → Option V
  | .symbolDictAtPut bytes value => update m (.symbol bytes) (some value)
  | .stringDictAtPut bytes value => update m (.string bytes) (some value)
  | .atPut key value => update m key (some value)
  | .removeKey key => update m key none

def Unmatched (dict : SharedDictionary V) (key : DictKey) : Prop :=
  ∀ assoc ∈ dict.contents.reduceOption, assoc.1.bytes = key.bytes → assoc.1 = key

/-- What is inserted has no double of the other kind. -/
def Unmixed (dict : SharedDictionary V) : SharedOperation V → Prop
  | .symbolDictAtPut bytes _ => Unmatched dict (.symbol bytes)
  | .stringDictAtPut bytes _ => Unmatched dict (.string bytes)
  | .atPut key _ => Unmatched dict key
  | .removeKey _ => True

instance (dict : SharedDictionary V) (key : DictKey) : Decidable (Unmatched dict key) :=
  inferInstanceAs (Decidable (∀ assoc ∈ dict.contents.reduceOption, assoc.1.bytes = key.bytes → assoc.1 = key))

instance (dict : SharedDictionary V) : ∀ op, Decidable (Unmixed dict op)
  | .symbolDictAtPut bytes _ => inferInstanceAs (Decidable (Unmatched dict (.symbol bytes)))
  | .stringDictAtPut bytes _ => inferInstanceAs (Decidable (Unmatched dict (.string bytes)))
  | .atPut key _ => inferInstanceAs (Decidable (Unmatched dict key))
  | .removeKey _ => .isTrue trivial

section Agreement
theorem hash_lt (k : DictKey) : k.hash cityHash < 2^62 := by
  cases k with
  | string => exact Nat.mod_lt _ (Nat.two_pow_pos 62)
  | symbol => exact Nat.lt_of_le_of_lt (Nat.mod_le _ _) (Nat.mod_lt _ (Nat.two_pow_pos 62))

theorem home_eq (n : ℕ) (k : DictKey) :
    (imageHashing cityHash : Hashing (DictKey × V) DictKey).home n k = k.hash cityHash &&& (n-1) := by
  have hb : (asSmallInteger (k.hash cityHash) % 2^62).toNat = k.hash cityHash := by
    have : k.hash cityHash < 2^62 := hash_lt k
    unfold asSmallInteger
    split <;> omega
  change bitAnd (asSmallInteger (k.hash cityHash)) (n-1) = _
  rw [bitAnd,hb]

theorem vmFindIndex_eq {slots : Slots (DictKey × V)}
    (h : ∀ assoc ∈ slots.reduceOption, assoc.1.bytes = k.bytes → assoc.1 = k) :
    vmFindIndex slots (comparator k) k (k.hash cityHash) = (imageHashing cityHash).findIndex slots k := by
  rw [Hashing.findIndex,home_eq,vmFindIndex]
  refine probe_congr ?_ _ _
  intro assoc ha
  cases k with
  | string =>
    simp only [comparator,stringCmp,Hashing.hit,imageHashing,KeyProtocol.hashing,dictKeys]
    exact decide_eq_decide.mpr ⟨h assoc ha,fun heq => by rw [heq]⟩
  | symbol => rfl

def Separate (l : List (DictKey × V)) : Prop := ∀ a ∈ l, ∀ b ∈ l, a.1.bytes = b.1.bytes → a.1 = b.1

theorem relocateAssociations_eq {l : List (DictKey × V)} (h : Separate (l ++ slots.reduceOption)) :
    relocateAssociations cityHash l slots = relocate (imageHashing cityHash) l slots := by
  induction l generalizing slots with
  | nil => rfl
  | cons assoc l ih =>
    have hf : vmFindIndex slots (comparator assoc.1) assoc.1 (assoc.1.hash cityHash) =
        (imageHashing cityHash).findIndex slots assoc.1 :=
      vmFindIndex_eq fun b hb => h b (mem_append_right _ hb) assoc (by simp)
    simp only [relocateAssociations,relocate,hf]
    congr 1
    funext i
    refine ih ?_
    have hsub : ∀ a ∈ l ++ (slots.set i (some assoc)).reduceOption, a ∈ assoc :: l ++ slots.reduceOption := by
      intro a ha
      rcases mem_append.mp ha with ha | ha
      · exact mem_append_left _ (mem_cons_of_mem _ ha)
      · rcases mem_reduceOption_set ha with rfl | ha
        · simp
        · exact mem_append_right _ ha
    exact fun a ha b hb => h a (hsub a ha) b (hsub b hb)

theorem dictAtPut_eq_add {dict : SharedDictionary V} (h : dict.Sound (imageHashing cityHash))
    (hsep : Separate dict.contents.reduceOption) (hk : Unmatched dict k) (value : V) :
    dictAtPut cityHash (comparator k) k (k.hash cityHash) value dict =
      add (imageHashing cityHash) renewValue 2 (k,value) dict := by
  obtain ⟨r,hrun,hr⟩ := h.exists_findIndex k
  have hfin : vmFindIndex dict.contents (comparator k) k (k.hash cityHash) = some r := (vmFindIndex_eq hk).trans hrun
  have hkey : (imageHashing cityHash).findIndex dict.contents ((imageHashing cityHash).key (k,value)) = some r := hrun
  rcases hr.stop with hs | ⟨old,hs,-⟩
  · by_cases hf : (dict.tally+1)*4 ≥ dict.contents.length*3
    · obtain ⟨c',hg,hso,hrel,-,hp⟩ := grow_spec renewValue h (e := (k,value)) hr hs
      have he := reduceOption_set_some hs (k,value)
      have hseparate : Separate ((dict.contents.set r (some (k,value))).reduceOption ++
          (replicate (dict.contents.length*2) none : Slots (DictKey × V)).reduceOption) := by
        rw [reduceOption_replicate_none,append_nil]
        intro a ha b hb hab
        rw [he.mem_iff,mem_cons] at ha hb
        rcases ha with rfl | ha <;> rcases hb with rfl | hb
        · rfl
        · exact (hk b hb hab.symm).symm
        · exact hk a ha hab
        · exact hsep a ha b hb hab
      have ht : dict.tally+1 = c'.tally := by
        rw [hso.tally,h.tally,hp.length_eq,length_cons]
        omega
      have hi : add (imageHashing cityHash) renewValue 2 (k,value) dict = some c' := by
        simp only [add,hkey,bind,bind_some,hs,length_set,if_pos hf] at hg ⊢
        exact hg
      rw [hi]
      rw [ht] at hf
      simp only [dictAtPut,hfin,bind,bind_some,hs,length_set,ht,if_pos hf,
        growDictionary,relocateAssociations_eq hseparate,hrel]
    · simp only [dictAtPut,add,hfin,hkey,bind,bind_some,hs,length_set,if_neg hf]
  · simp only [dictAtPut,add,hfin,hkey,bind,bind_some,hs,renewValue]

end Agreement

/-- Both sides find every key that is bound, with its value; no key is stored twice; tally and
capacity are as both sides need them, and the searches of both end. -/
structure Agree (cityHash : List UInt8 → ℕ) (dict : SharedDictionary V) (m : DictKey → Option V) : Prop where
  image : ∀ k, lookup (imageHashing cityHash) k dict = some ((m k).map fun v => (k,v))
  symbols : ∀ bytes v, m (.symbol bytes) = some v → symbolDictAt cityHash bytes dict = some (some v)
  strings : ∀ bytes v, m (.string bytes) = some v → stringDictAt cityHash bytes dict = some (some v)
  once : ∀ (i j : ℕ) (a b : DictKey × V), dict.contents[i]? = some (some a) → dict.contents[j]? = some (some b) →
    a.1 = b.1 → i = j
  tally : dict.tally = dict.contents.countP Option.isSome
  capacity : ∃ n, dict.contents.length = 2^n
  room : ∃ z : ℕ, dict.contents[z]? = some none
  imageEnds : ∀ k, ((imageHashing cityHash).findIndex dict.contents k).isSome
  vmEnds : ∀ cmp k hash, (vmFindIndex dict.contents cmp k hash).isSome

section Runs
variable {cityHash : List UInt8 → ℕ} {dict : SharedDictionary V} {m : DictKey → Option V}

structure Shared (cityHash : List UInt8 → ℕ) (dict : SharedDictionary V) (m : DictKey → Option V) : Prop where
  sound : dict.Sound (imageHashing cityHash)
  separate : Separate dict.contents.reduceOption
  capacity : ∃ n, dict.contents.length = 2^n
  bound : ∀ k v, m k = some v ↔ (k,v) ∈ dict.contents.reduceOption

theorem mem_insertEntry_iff {a : DictKey × V} :
    a ∈ insertEntry (imageHashing cityHash) renewValue (k,v) l ↔ a = (k,v) ∨ a.1 ≠ k ∧ a ∈ l := by
  have hhit : ∀ b : DictKey × V, (imageHashing cityHash).hit ((imageHashing cityHash).key (k,v)) b = decide (b.1 = k) :=
    fun b => rfl
  unfold insertEntry
  split
  · rename_i hany
    obtain ⟨old,hmem,hold⟩ := List.any_eq_true.mp hany
    rw [hhit,decide_eq_true_eq] at hold
    simp only [List.mem_map,hhit,decide_eq_true_eq,renewValue]
    constructor
    · rintro ⟨b,hb,rfl⟩
      split
      · rename_i hbk
        exact .inl (by rw [hbk])
      · rename_i hbk
        exact .inr ⟨hbk,hb⟩
    · rintro (rfl | ⟨hne,ha⟩)
      · exact ⟨old,hmem,by rw [if_pos hold,hold]⟩
      · exact ⟨a,ha,if_neg hne⟩
  · rename_i hany
    rw [List.mem_cons]
    refine or_congr_right ⟨fun ha => ⟨?_,ha⟩,fun ha => ha.2⟩
    intro hk
    exact hany (List.any_eq_true.mpr ⟨a,ha,by rw [hhit,decide_eq_true_eq]; exact hk⟩)

theorem shared_ofSize (n : ℕ) : Shared cityHash (.ofSize (2^n) : SharedDictionary V) fun _ => none := by
  have he : (HashedCollection.ofSize (2^n) : SharedDictionary V).contents.reduceOption = [] :=
    reduceOption_replicate_none
  refine ⟨sound_ofSize (Nat.two_pow_pos n),?_,⟨n,length_replicate⟩,?_⟩
  · rw [he]
    intro a ha
    cases ha
  · rw [he]
    simp

section Runs
variable (h : Shared cityHash dict m)
include h

theorem Shared.find?_eq (k : DictKey) :
    dict.contents.reduceOption.find? ((imageHashing cityHash).hit k) = (m k).map fun v => (k,v) := by
  cases hm : m k with
  | none =>
    rw [map_none,find?_eq_none]
    intro a ha hhit
    obtain rfl : a.1 = k := by simpa [Hashing.hit,imageHashing,KeyProtocol.hashing,dictKeys] using hhit
    rw [(h.bound a.1 a.2).mpr ha] at hm
    cases hm
  | some v =>
    have hmem := (h.bound k v).mp hm
    cases hf : dict.contents.reduceOption.find? ((imageHashing cityHash).hit k) with
    | none =>
      exact absurd ((imageHashing cityHash : Hashing (DictKey × V) DictKey).refl k) (find?_eq_none.mp hf _ hmem)
    | some =>
      have hhit := find?_some hf
      rw [h.sound.distinct.eq_of_same (mem_of_find?_eq_some hf) hmem hhit,map_some]

theorem Shared.dictAt_eq {k : DictKey} (hk : m k = some v) :
    dictAt (comparator k) k (k.hash cityHash) dict = some (some v) := by
  obtain ⟨r,hrun,hr⟩ := h.sound.exists_findIndex k
  have hmem := (h.bound k v).mp hk
  have hf : vmFindIndex dict.contents (comparator k) k (k.hash cityHash) = some r :=
    (vmFindIndex_eq fun a ha => h.separate a ha (k,v) hmem).trans hrun
  have hs := h.sound.find?_eq hr
  rw [h.find?_eq,hk] at hs
  simp [dictAt,hf,hs]

theorem Shared.agree : Agree cityHash dict m where
  image k := by rw [lookup_eq h.sound,h.find?_eq]
  symbols bytes v hv := h.dictAt_eq hv
  strings bytes v hv := h.dictAt_eq hv
  once i j a b hi hj hab := h.sound.distinct.index_unique hi hj (by
    change decide (a.1 = b.1) = true
    exact decide_eq_true hab)
  tally := h.sound.probed.tally
  capacity := h.capacity
  room := h.sound.exists_empty
  imageEnds k := by
    obtain ⟨r,hrun,-⟩ := h.sound.exists_findIndex k
    rw [hrun,isSome_some]
  vmEnds cmp k hash := by
    obtain ⟨z,hz⟩ := h.sound.exists_empty
    have hs : hash &&& (dict.contents.length-1) < dict.contents.length := by
      have : hash &&& (dict.contents.length-1) ≤ dict.contents.length-1 := Nat.and_le_right
      have := lt_of_getElem? hz
      omega
    obtain ⟨r,hrun,-⟩ := exists_probe (fun assoc => cmp assoc.1 k) hs hz
    rw [vmFindIndex,hrun,isSome_some]

theorem Shared.exists_add (hk : Unmatched dict k) (v : V) :
    ∃ dict', add (imageHashing cityHash) renewValue 2 (k,v) dict = some dict' ∧
      Shared cityHash dict' (update m k (some v)) := by
  obtain ⟨dict',hrun,hs,hlen,hp⟩ := add_spec keepsKey_renewValue h.sound (k,v)
  have hmem : ∀ a : DictKey × V, a ∈ dict'.contents.reduceOption ↔
      a = (k,v) ∨ a.1 ≠ k ∧ a ∈ dict.contents.reduceOption :=
    fun a => hp.mem_iff.trans mem_insertEntry_iff
  refine ⟨dict',hrun,hs,?_,?_,?_⟩
  · intro a ha b hb hab
    rw [hmem] at ha hb
    rcases ha with rfl | ⟨-,ha⟩ <;> rcases hb with rfl | ⟨-,hb⟩
    · rfl
    · exact (hk b hb hab.symm).symm
    · exact hk a ha hab
    · exact h.separate a ha b hb hab
  · obtain ⟨n,hn⟩ := h.capacity
    rcases hlen with hlen | hlen
    · exact ⟨n,hlen.trans hn⟩
    · exact ⟨n+1,by rw [hlen,hn,Nat.pow_succ]⟩
  · intro k' v'
    rw [hmem,Prod.mk.injEq]
    by_cases hkk : k' = k
    · subst hkk
      simp [eq_comm]
    · rw [update_of_ne hkk,h.bound]
      simp [hkk]

theorem Shared.exists_removeKey (k : DictKey) :
    ∃ dict', (removeKey (imageHashing cityHash) renewValue k dict).map Prod.snd = some dict' ∧
      Shared cityHash dict' (update m k none) := by
  obtain ⟨dict',hrun,hs,hlen,hp⟩ := removeKey_spec renewValue h.sound k
  have hmem : ∀ a : DictKey × V, a ∈ dict'.contents.reduceOption ↔ a ∈ dict.contents.reduceOption ∧ a.1 ≠ k := by
    intro a
    rw [hp.mem_iff,mem_filter]
    refine and_congr_right fun _ => ?_
    simp [Hashing.hit,imageHashing,KeyProtocol.hashing,dictKeys]
  refine ⟨dict',by rw [hrun,map_some],hs,?_,?_,?_⟩
  · exact fun a ha b hb => h.separate a ((hmem a).mp ha).1 b ((hmem b).mp hb).1
  · obtain ⟨n,hn⟩ := h.capacity
    exact ⟨n,hlen.trans hn⟩
  · intro k' v'
    rw [hmem]
    by_cases hkk : k' = k
    · subst hkk
      simp
    · rw [update_of_ne hkk,h.bound]
      simp [hkk]

theorem Shared.exists_step (op : SharedOperation V) (hop : Unmixed dict op) :
    ∃ dict', op.step cityHash dict = some dict' ∧ Shared cityHash dict' (op.latest m) := by
  cases op with
  | symbolDictAtPut _ v | stringDictAtPut _ v =>
    obtain ⟨dict',hrun,h'⟩ := h.exists_add hop v
    exact ⟨dict',(dictAtPut_eq_add h.sound h.separate hop v).trans hrun,h'⟩
  | atPut _ v => exact h.exists_add hop v
  | removeKey key => exact h.exists_removeKey key

theorem Shared.exists_run (hok : Meets (SharedOperation.step cityHash) Unmixed dict ops) :
    ∃ dict', perform (SharedOperation.step cityHash) dict ops = some dict' ∧
      Shared cityHash dict' (ops.foldl SharedOperation.latest m) := by
  induction ops generalizing dict m with
  | nil => exact ⟨dict,rfl,h⟩
  | cons op ops ih =>
    obtain ⟨d1,hs,h1⟩ := h.exists_step op hok.1
    have hr : Meets (SharedOperation.step cityHash) Unmixed d1 ops := by simpa [Meets,hs] using hok.2
    obtain ⟨d2,hrun,h2⟩ := ih h1 hr
    exact ⟨d2,by simp only [perform,hs,hrun],h2⟩

end Runs

/-- In every run in which no string and symbol with the same bytes meet, the two sides agree. -/
theorem shared_agree (n : ℕ) (ops : List (SharedOperation V))
    (hok : Meets (SharedOperation.step cityHash) Unmixed (.ofSize (2^n)) ops) :
    ∃ dict, perform (SharedOperation.step cityHash) (.ofSize (2^n)) ops = some dict ∧
      Agree cityHash dict (ops.foldl SharedOperation.latest fun _ => none) := by
  obtain ⟨dict,hrun,h⟩ := (shared_ofSize n).exists_run hok
  exact ⟨dict,hrun,h.agree⟩

end Runs

theorem shared_agree_three : Meets (SharedOperation.step fun _ => 0) Unmixed (.ofSize (2^3))
        [.symbolDictAtPut [97] 1,.atPut (.string [98]) 2,.stringDictAtPut [98] 3,.removeKey (.symbol [97])] ∧
      ∃ dict, perform (SharedOperation.step fun _ => 0) (.ofSize (2^3))
          [.symbolDictAtPut [97] 1,.atPut (.string [98]) 2,.stringDictAtPut [98] 3,.removeKey (.symbol [97])] =
            some dict ∧
        Agree (fun _ => 0) dict (foldl SharedOperation.latest (fun _ => none)
          [.symbolDictAtPut [97] 1,.atPut (.string [98]) 2,.stringDictAtPut [98] 3,.removeKey (.symbol [97])]) :=
  have hok : Meets (SharedOperation.step fun _ => 0) Unmixed (.ofSize (2^3) : SharedDictionary ℕ)
      [.symbolDictAtPut [97] 1,.atPut (.string [98]) 2,.stringDictAtPut [98] 3,.removeKey (.symbol [97])] := by
    decide
  ⟨hok,shared_agree 3 _ hok⟩

/-- A string that the virtual machine inserts takes the place of a symbol. -/
theorem shared_disagree : ∃ dict, perform (SharedOperation.step fun _ => 0) (.ofSize (2^3) : SharedDictionary ℕ)
      [.symbolDictAtPut [97] 1,.stringDictAtPut [97] 2] = some dict ∧
    symbolDictAt (fun _ => 0) [97] dict = some (some 2) ∧
    lookup (imageHashing fun _ => 0) (.string [97]) dict = some none ∧
    ¬ Agree (fun _ => 0) dict (foldl SharedOperation.latest (fun _ => none)
      [.symbolDictAtPut [97] 1,.stringDictAtPut [97] 2]) :=
  ⟨_,rfl,by decide,by decide,fun h => absurd (h.image (.string [97])) (by decide)⟩

end SmalltalkJit.Collections
