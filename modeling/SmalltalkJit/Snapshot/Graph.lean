import Mathlib.Data.FinEnum
import Mathlib.Data.Set.Card
import Mathlib.Order.Interval.Finset.Nat
import SmalltalkJit.Snapshot.Writer

/-! # Graphs of objects

The objects that are reached from the roots, and what the dictionary says about
them while they are written. Objects have a header of two words each and do not
overlap, so there are not too many of them for an id and a mark to fit in a word.
-/
namespace SmalltalkJit.Snapshot
open ByteStream Set

structure Formed (object : RawObject) (shape : InstanceShape) : Prop where
  payload : object.payload.length = shape.payloadSize.toNat
  vars : object.vars.length = shape.fields object.size
  bytes : object.bytes.length = if shape.hasBytes then object.size.toNat else 0
  size : shape.isIndexed = 0 → object.size = 0

/-- A memory in which every pointer points to an object, and every object has a class. -/
structure ObjectMemory where
  object : Memory
  formed : ∀ {a o}, object a = some o → ∃ shape, shapeOf object o = some shape ∧ Formed o shape
  closed : ∀ {a o}, object a = some o → ∀ v ∈ o.vars, isPointer v → (object (asObject v)).isSome
  /-- the tag of a shape is that of an integer -/
  immediate : ∀ {a o cls word}, object a = some o → object o.cls = some cls → cls.vars[3]? = some word →
    isPointer word = false
  apart : ∀ {a b}, (object a).isSome → (object b).isSome → a ≠ b →
    a.toNat+16 ≤ b.toNat ∨ b.toNat+16 ≤ a.toNat

/-- The built-in handles denote different objects; they are among the handles of the thread. -/
structure Roots (m : ObjectMemory) where
  builtins : List Word
  handles : List Word
  distinct : builtins.Nodup
  subset : ∀ a ∈ builtins, a ∈ handles
  objects : ∀ a ∈ handles, (m.object a).isSome

variable {m : ObjectMemory}

inductive Reaches (roots : Roots m) : Word → Prop
  | root {a} (h : a ∈ roots.handles) : Reaches roots a
  | cls {a o} (h : Reaches roots a) (ho : m.object a = some o) : Reaches roots o.cls
  | field {a o v} (h : Reaches roots a) (ho : m.object a = some o) (hv : v ∈ o.vars) (hp : isPointer v) :
    Reaches roots (asObject v)

theorem ObjectMemory.cls_isSome (ho : m.object a = some o) : (m.object o.cls).isSome := by
  obtain ⟨sh,hs,-⟩ := m.formed ho
  obtain ⟨cls,hcls,-⟩ := Option.bind_eq_some_iff.mp hs
  rw [hcls]
  rfl

theorem Reaches.isSome {roots : Roots m} (h : Reaches roots a) : (m.object a).isSome := by
  induction h with
  | root h => exact roots.objects _ h
  | cls _ ho => exact m.cls_isSome ho
  | field _ ho hv hp => exact m.closed ho _ hv hp

theorem ncard_objects_le (m : ObjectMemory) : {a | (m.object a).isSome}.ncard ≤ 1152921504606846976 := by
  have hm : ∀ a ∈ {a | (m.object a).isSome}, a.toNat / 16 ∈ Iio 1152921504606846976 := by
    intro a ha
    have hlt : a.toNat < 18446744073709551616 := a.isLt
    exact mem_Iio.mpr (by omega)
  have hinj : InjOn (fun a : Word => a.toNat / 16) {a | (m.object a).isSome} := by
    intro a ha b hb heq
    dsimp only at heq
    by_contra hne
    rcases m.apart ha hb hne with h | h <;> omega
  have hc : ∀ n : ℕ, (Iio n).ncard = n := by
    intro n
    rw [ncard_eq_toFinset_card',toFinset_Iio,Nat.card_Iio]
  exact (ncard_le_ncard_of_injOn _ hm hinj (finite_Iio _)).trans (hc _).le

def SnapshotDictionary.Written (d : SnapshotDictionary) (a : Word) : Prop := ∃ id, d.at? a = some (id,true)

def unwritten (roots : Roots m) (d : SnapshotDictionary) : Set Word := {a | Reaches roots a ∧ ¬ d.Written a}

/-- The ids of a dictionary are different numbers below its tally, given to objects that are reached. -/
structure Numbered (roots : Roots m) (d : SnapshotDictionary) : Prop where
  reached : ∀ {a v}, d.at? a = some v → Reaches roots a
  injective : ∀ {a b id v w}, d.at? a = some (id,v) → d.at? b = some (id,w) → a = b
  lt : ∀ {a id w}, d.at? a = some (id,w) → id.toNat < d.tally
  tally : d.tally = {a | (d.at? a).isSome}.ncard

def Grows (d d' : SnapshotDictionary) : Prop :=
  ∀ a id w, d.at? a = some (id,w) → ∃ w', d'.at? a = some (id,w') ∧ (w = true → w' = true)

theorem Grows.refl (d : SnapshotDictionary) : Grows d d := fun _ _ _ h => ⟨_,h,id⟩

theorem Grows.trans (h : Grows d d') (h' : Grows d' d'') : Grows d d'' := by
  intro a id w ha
  obtain ⟨w',ha',hw'⟩ := h a id w ha
  obtain ⟨w'',ha'',hw''⟩ := h' a id w' ha'
  exact ⟨w'',ha'',hw'' ∘ hw'⟩

theorem Grows.written (h : Grows d d') (ha : d.Written a) : d'.Written a := by
  obtain ⟨id,ha⟩ := ha
  obtain ⟨w,ha',hw⟩ := h a id true ha
  cases hw rfl
  exact ⟨id,ha'⟩

section Registering
variable {roots : Roots m} {d : SnapshotDictionary}

theorem Numbered.le (h : Numbered roots d) : d.tally ≤ 1152921504606846976 := by
  rw [h.tally]
  refine (ncard_le_ncard ?_ (toFinite _)).trans (ncard_objects_le m)
  intro a ha
  obtain ⟨v,hv⟩ := Option.isSome_iff_exists.mp ha
  exact (h.reached hv).isSome

theorem Numbered.id_lt (h : Numbered roots d) {a id : Word} (ha : d.at? a = some (id,w)) :
    id.toNat < 1152921504606846976 :=
  (h.lt ha).trans_le h.le

theorem grows_register (a : Word) (written : Bool) : Grows d (d.register a written) := by
  obtain ⟨before,hc,hat⟩ := d.register_spec a written
  intro b id w hb
  rw [hat]
  split
  · next heq =>
    cases heq
    rcases hc with ⟨hold,-⟩ | ⟨hnew,-⟩
    · rw [hold] at hb
      cases hb
      exact ⟨_,rfl,fun hw => by rw [hw,Bool.true_or]⟩
    · exact absurd (hnew.symm.trans hb) nofun
  · exact ⟨w,hb,fun hw => hw⟩

theorem at?_register_self (a : Word) : (d.register a true).at? a = some (d.id a true,true) := by
  obtain ⟨before,-,hat⟩ := d.register_spec a true
  rw [hat,if_pos rfl,Bool.or_true]

theorem written_register (a : Word) : (d.register a true).Written a := ⟨_,at?_register_self a⟩

theorem written_of_register (h : (d.register a true).Written b) (hne : b ≠ a) : d.Written b := by
  obtain ⟨before,-,hat⟩ := d.register_spec a true
  obtain ⟨id,h⟩ := h
  rw [hat,if_neg hne] at h
  exact ⟨id,h⟩

theorem Numbered.register (h : Numbered roots d) (ha : Reaches roots a) (written : Bool) :
    Numbered roots (d.register a written) := by
  obtain ⟨before,hca,hat⟩ := d.register_spec a written
  -- the entry of the object has its old id, or the tally, which no other entry has
  have hid : ∀ {b v}, b ≠ a → d.at? b ≠ some (d.id a written,v) := by
    intro b v hne hb
    rcases hca with ⟨hold,-⟩ | ⟨-,hnew,-,-⟩
    · exact hne (h.injective hb hold)
    · have hlt := h.lt hb
      have hle := h.le
      rw [hnew,BitVec.toNat_ofNat,Nat.mod_eq_of_lt (by omega)] at hlt
      omega
  constructor
  case reached =>
    intro b v hb
    rw [hat] at hb
    split at hb
    · next heq => exact heq ▸ ha
    · exact h.reached hb
  case injective =>
    intro b c id v w hb hc
    rw [hat] at hb hc
    split at hb <;> split at hc
    · next hb' hc' => rw [hb',hc']
    · next hne =>
      cases hb
      exact absurd hc (hid hne)
    · next hne _ =>
      cases hc
      exact absurd hb (hid hne)
    · exact h.injective hb hc
  case lt =>
    intro b id w hb
    rw [hat] at hb
    split at hb
    · cases hb
      rcases hca with ⟨hold,ht⟩ | ⟨-,hnew,-,ht⟩
      · rw [ht]
        exact h.lt hold
      · have hle := h.le
        rw [ht,hnew,BitVec.toNat_ofNat,Nat.mod_eq_of_lt (by omega)]
        exact Nat.lt_succ_self _
    · have hlt := h.lt hb
      rcases hca with ⟨-,ht⟩ | ⟨-,-,-,ht⟩ <;> omega
  case tally =>
    have hset : {b | ((d.register a written).at? b).isSome} = insert a {b | (d.at? b).isSome} := by
      ext b
      rw [mem_ofPred_eq,hat,mem_insert_iff,mem_ofPred_eq]
      split
      · next heq => simp [heq]
      · next hne => simp [hne]
    rw [hset]
    rcases hca with ⟨hold,ht⟩ | ⟨hnew,-,-,ht⟩
    · have hmem : a ∈ {b | (d.at? b).isSome} := by
        rw [mem_ofPred_eq,hold]
        rfl
      rw [ht,insert_eq_of_mem hmem,h.tally]
    · have hnot : a ∉ {b | (d.at? b).isSome} := by
        rw [mem_ofPred_eq,hnew]
        exact Bool.false_ne_true
      rw [ht,ncard_insert_of_notMem hnot (toFinite _),h.tally]

theorem unwritten_mono (h : Grows d d') : (unwritten roots d').ncard ≤ (unwritten roots d).ncard :=
  ncard_le_ncard (fun _ ha => ⟨ha.1,fun hw => ha.2 (h.written hw)⟩) (toFinite _)

theorem unwritten_register (ha : Reaches roots a) (hw : ¬ d.Written a) :
    (unwritten roots (d.register a true)).ncard < (unwritten roots d).ncard := by
  refine ncard_lt_ncard ⟨fun _ hb => ⟨hb.1,fun h => hb.2 ((grows_register a true).written h)⟩,?_⟩ (toFinite _)
  exact fun hsub => (hsub ⟨ha,hw⟩).2 (written_register a)

end Registering

end SmalltalkJit.Snapshot
