import SmalltalkJit.Lib.ByteStream
import SmalltalkJit.Lib.OpenAddressing

/-! # The dictionary of a snapshot

While a snapshot is written the dictionary maps the addresses of objects to their
ids, and while it is read it maps ids to values. It is a table with linear
probing that is rebuilt at twice its size when it is full. A slot that is defined
holds a key, a value and the flag that the object has been written.
-/
namespace SmalltalkJit.Snapshot
open ByteStream OpenAddressing List Option

abbrev Assocs := Table Word (Word × Bool)

def index : Assocs → Word → Option ℕ := fun dict key => findIndex BitVec.toNat dict.slots key

variable (dict : Assocs)

/-- The entries are taken from the first slots of the old array, as many as it has entries. -/
def snapshotGrowDict : Option Assocs :=
  (relocate BitVec.toNat (dict.slots.take dict.tally) (List.replicate (dict.slots.length*2) none)).map
    fun slots => ⟨slots,dict.tally⟩

def growIfFull : Option Assocs := if dict.tally = dict.slots.length then snapshotGrowDict dict else some dict

def snapshotDictAt (key : Word) : Option (Option (Word × Bool)) := get? BitVec.toNat dict key

/-- The flags of a slot are kept. -/
def snapshotDictAtPut (key value : Word) : Option Assocs :=
  (index dict key).bind fun i =>
    growIfFull ⟨dict.slots.set i (some (key,value,(dict.slots[i]?.join).any fun assoc => assoc.2.2)),
      dict.tally+1⟩

/-- The slot of the object, defined with the next id if it was not. -/
def defineObject (object : Word) : Option (Assocs × ℕ) :=
  (index dict object).bind fun i =>
    match dict.slots[i]? with
    | some none =>
      (growIfFull ⟨dict.slots.set i (some (object,BitVec.ofNat 64 dict.tally,false)),dict.tally+1⟩).bind
        fun dict => (index dict object).map fun i => (dict,i)
    | _ => some (dict,i)

def registerObject (object : Word) (written : Bool) : Option (Assocs × Word) :=
  (defineObject dict object).bind fun (dict,i) =>
    (dict.slots[i]?.join).map fun assoc =>
      (⟨dict.slots.set i (some (assoc.1,assoc.2.1,assoc.2.2 || written)),dict.tally⟩,assoc.2.1)

structure Fits (dict : Assocs) : Prop where
  slots : dict.slots.Sound BitVec.toNat
  used : dict.slots.used ≤ dict.tally
  room : dict.tally < dict.slots.length

section Tables
variable {dict : Assocs}

theorem Fits.index_isSome (h : Fits dict) (key : Word) : (index dict key).isSome :=
  findIndex_isSome BitVec.toNat h.slots.pow (h.used.trans_lt h.room) key

theorem growIfFull_spec (dict : Assocs) (hsl : dict.slots.Sound BitVec.toNat)
    (hu : dict.slots.used ≤ dict.tally) (hr : dict.tally ≤ dict.slots.length) : ∃ dict', growIfFull dict =
      some dict' ∧ Fits dict' ∧ dict'.tally = dict.tally ∧ ∀ p, some p ∈ dict'.slots ↔ some p ∈ dict.slots := by
  rw [growIfFull]
  split
  · next hf =>
    obtain ⟨m,hm⟩ := hsl.pow
    have hpos : 0 < dict.slots.length := by
      rw [hm]
      exact Nat.two_pow_pos m
    obtain ⟨slots,hrun,hs,hl,hc,hmem⟩ := hsl.relocate_double (by omega)
    refine ⟨⟨slots,dict.tally⟩,?_,⟨hs,?_,?_⟩,rfl,hmem⟩
    · rw [snapshotGrowDict,hf,take_length,hrun]
      rfl
    · change slots.used ≤ dict.tally
      rwa [hc]
    · change dict.tally < slots.length
      omega
  · next hf => exact ⟨dict,rfl,⟨hsl,hu,by omega⟩,rfl,fun p => Iff.rfl⟩

theorem snapshotDictAtPut_spec (h : Fits dict) (key value : Word) :
    ∃ dict' written, snapshotDictAtPut dict key value = some dict' ∧ Fits dict' ∧
      ∀ p, some p ∈ dict'.slots ↔ p = (key,value,written) ∨ p.1 ≠ key ∧ some p ∈ dict.slots := by
  obtain ⟨i,hi⟩ := isSome_iff_exists.mp (h.index_isSome key)
  let written := (dict.slots[i]?.join).any fun a => a.2.2
  have hu : (Slots.used (dict.slots.set i (some (key,value,written)))) ≤ dict.tally+1 := by
    rcases probe_spec hi with hs | ⟨v,hs⟩
    · rw [used_set_of_empty hs]
      exact Nat.succ_le_succ h.used
    · rw [used_set_of_key hs]
      exact h.used.trans (Nat.le_succ _)
  obtain ⟨dict',hg,hf,-,hmem⟩ := growIfFull_spec ⟨dict.slots.set i (some (key,value,written)),dict.tally+1⟩
    (h.slots.set (e := (key,value,written)) hi) hu (by rw [length_set]; exact h.room)
  refine ⟨dict',written,by rw [snapshotDictAtPut,hi]; exact hg,hf,fun p => (hmem p).trans ?_⟩
  exact h.slots.mem_set (e := (key,value,written)) (p := p) hi

theorem defineObject_spec (h : Fits dict) (object : Word) :
    ∃ dict' i id written, defineObject dict object = some (dict',i) ∧ Fits dict' ∧
      index dict' object = some i ∧ dict'.slots[i]? = some (some (object,id,written)) ∧
      (some (object,id,written) ∈ dict.slots ∧ dict' = dict ∨
        (∀ v, some (object,v) ∉ dict.slots) ∧ id = BitVec.ofNat 64 dict.tally ∧ written = false ∧
          dict'.tally = dict.tally+1 ∧
          ∀ p, some p ∈ dict'.slots ↔ p = (object,id,false) ∨ p.1 ≠ object ∧ some p ∈ dict.slots) := by
  obtain ⟨i,hi⟩ := isSome_iff_exists.mp (h.index_isSome object)
  rcases probe_spec hi with hs | ⟨⟨id,written⟩,hs⟩
  · let id := BitVec.ofNat 64 dict.tally
    have hnew : ∀ v, some (object,v) ∉ dict.slots := by
      intro v hv
      obtain ⟨j,hj⟩ := List.getElem?_of_mem hv
      have hij := (h.slots.found j _ hj).symm.trans hi
      cases hij
      rw [hs] at hj
      cases hj
    obtain ⟨dict',hg,hf,ht,hmem⟩ := growIfFull_spec ⟨dict.slots.set i (some (object,id,false)),dict.tally+1⟩
      (h.slots.set (e := (object,id,false)) hi) (by rw [used_set_of_empty hs]; exact Nat.succ_le_succ h.used)
      (by rw [length_set]; exact h.room)
    have hmem' : ∀ p, some p ∈ dict'.slots ↔ p = (object,id,false) ∨ p.1 ≠ object ∧ some p ∈ dict.slots :=
      fun p => (hmem p).trans (h.slots.mem_set (e := (object,id,false)) (p := p) hi)
    obtain ⟨j,hj⟩ := List.getElem?_of_mem ((hmem' (object,id,false)).mpr (.inl rfl))
    have hin : index dict' object = some j := hf.slots.found j _ hj
    refine ⟨dict',j,id,false,?_,hf,hin,hj,.inr ⟨hnew,rfl,rfl,ht,hmem'⟩⟩
    rw [defineObject,hi,bind_some,hs]
    dsimp only
    rw [hg,bind_some,hin]
    rfl
  · refine ⟨dict,i,id,written,?_,h,hi,hs,.inl ⟨mem_of_getElem? hs,rfl⟩⟩
    rw [defineObject,hi,bind_some,hs]

theorem registerObject_spec (h : Fits dict) (object : Word) (written : Bool) :
    ∃ dict' id before, registerObject dict object written = some (dict',id) ∧ Fits dict' ∧
      (some (object,id,before) ∈ dict.slots ∧ dict'.tally = dict.tally ∨
        (∀ v, some (object,v) ∉ dict.slots) ∧ id = BitVec.ofNat 64 dict.tally ∧ before = false ∧
          dict'.tally = dict.tally+1) ∧
      ∀ p, some p ∈ dict'.slots ↔ p = (object,id,before || written) ∨ p.1 ≠ object ∧ some p ∈ dict.slots := by
  obtain ⟨middle,i,id,before,hd,hf,hi,hs,hc⟩ := defineObject_spec h object
  have hset := fun p => hf.slots.mem_set (e := (object,id,before || written)) (p := p) hi
  refine ⟨⟨middle.slots.set i (some (object,id,before || written)),middle.tally⟩,id,before,?_,?_,?_,?_⟩
  · rw [registerObject,hd,bind_some]
    dsimp only
    rw [hs]
    rfl
  · refine ⟨hf.slots.set (e := (object,id,before || written)) hi,?_,?_⟩
    · rw [used_set_of_key hs]
      exact hf.used
    · rw [length_set]
      exact hf.room
  · rcases hc with ⟨hmem,rfl⟩ | ⟨hnew,hid,hb,ht,-⟩
    · exact .inl ⟨hmem,rfl⟩
    · exact .inr ⟨hnew,hid,hb,ht⟩
  · intro p
    refine (hset p).trans (or_congr_right (and_congr_right fun hne => ?_))
    rcases hc with ⟨-,rfl⟩ | ⟨-,-,-,-,hmem⟩
    · exact Iff.rfl
    · rw [hmem p]
      exact ⟨fun hp => (hp.resolve_left fun heq => hne (by rw [heq])).2,fun hp => .inr ⟨hne,hp⟩⟩

end Tables

/-- A dictionary in which every search ends. -/
structure SnapshotDictionary where
  assocs : Assocs
  fits : Fits assocs

namespace SnapshotDictionary
variable (d : SnapshotDictionary)

def new : SnapshotDictionary where
  assocs := ⟨List.replicate 8192 none,0⟩
  fits := {
    slots := sound_replicate ⟨13,rfl⟩
    used := by rw [used_replicate]
    room := by rw [length_replicate]; decide }

def tally : ℕ := d.assocs.tally

theorem dictAt_isSome (key : Word) : (snapshotDictAt d.assocs key).isSome := by
  rw [snapshotDictAt,get?,isSome_map]
  exact d.fits.index_isSome key

def at? (key : Word) : Option (Word × Bool) := (snapshotDictAt d.assocs key).get (d.dictAt_isSome key)

theorem atPut_isSome (key value : Word) : (snapshotDictAtPut d.assocs key value).isSome := by
  obtain ⟨dict,-,h,-⟩ := snapshotDictAtPut_spec d.fits key value
  rw [h]
  rfl

theorem atPut_fits (key value : Word) :
    Fits ((snapshotDictAtPut d.assocs key value).get (d.atPut_isSome key value)) := by
  obtain ⟨dict,-,h,hf,-⟩ := snapshotDictAtPut_spec d.fits key value
  simpa [h] using hf

def atPut (key value : Word) : SnapshotDictionary := ⟨_,d.atPut_fits key value⟩

theorem register_isSome (object : Word) (written : Bool) : (registerObject d.assocs object written).isSome := by
  obtain ⟨dict,id,-,h,-⟩ := registerObject_spec d.fits object written
  rw [h]
  rfl

theorem register_fits (object : Word) (written : Bool) :
    Fits ((registerObject d.assocs object written).get (d.register_isSome object written)).1 := by
  obtain ⟨dict,id,-,h,hf,-⟩ := registerObject_spec d.fits object written
  simpa [h] using hf

def register (object : Word) (written : Bool) : SnapshotDictionary := ⟨_,d.register_fits object written⟩

def id (object : Word) (written : Bool) : Word :=
  ((registerObject d.assocs object written).get (d.register_isSome object written)).2

variable {d}

theorem at?_eq_some_iff : d.at? key = some v ↔ some (key,v) ∈ d.assocs.slots := by
  rw [← d.fits.slots.get?_eq_some_iff,at?,← Option.some.injEq,some_get]
  rfl

theorem at?_new (key : Word) : new.at? key = none := by
  rw [eq_none_iff_forall_ne_some]
  intro v hv
  rw [at?_eq_some_iff] at hv
  exact absurd (eq_of_mem_replicate hv) nofun

theorem at?_atPut (key value : Word) : ∃ written,
    ∀ k, (d.atPut key value).at? k = if k = key then some (value,written) else d.at? k := by
  obtain ⟨dict,written,h,-,hmem⟩ := snapshotDictAtPut_spec d.fits key value
  refine ⟨written,fun k => Option.ext fun v => ?_⟩
  have ha : (d.atPut key value).assocs = dict := by simp [atPut,h]
  rw [at?_eq_some_iff,ha,hmem]
  split
  · next hk => simp [hk,eq_comm]
  · next hk => simp [hk,at?_eq_some_iff]

theorem register_spec (object : Word) (written : Bool) :
    (∃ before, (d.at? object = some (d.id object written,before) ∧
        (d.register object written).tally = d.tally ∨
      d.at? object = none ∧ d.id object written = BitVec.ofNat 64 d.tally ∧ before = false ∧
        (d.register object written).tally = d.tally+1) ∧
      ∀ k, (d.register object written).at? k =
        if k = object then some (d.id object written,before || written) else d.at? k) := by
  obtain ⟨dict,id,before,h,-,hc,hmem⟩ := registerObject_spec d.fits object written
  have ha : (d.register object written).assocs = dict := by simp [register,h]
  have hid : d.id object written = id := by simp [SnapshotDictionary.id,h]
  rw [hid,tally,tally,ha]
  refine ⟨before,?_,fun k => Option.ext fun v => ?_⟩
  · rcases hc with ⟨hold,ht⟩ | ⟨hnew,hc⟩
    · exact .inl ⟨at?_eq_some_iff.mpr hold,ht⟩
    · refine .inr ⟨?_,hc⟩
      rw [eq_none_iff_forall_ne_some]
      exact fun v hv => hnew v (at?_eq_some_iff.mp hv)
  · rw [at?_eq_some_iff,ha,hmem]
    split
    · next hk => simp [hk,eq_comm]
    · next hk => simp [hk,at?_eq_some_iff]

end SnapshotDictionary

end SmalltalkJit.Snapshot
