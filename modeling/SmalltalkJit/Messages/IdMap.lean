import SmalltalkJit.Lib.ByteStream
import SmalltalkJit.Lib.OpenAddressing

/-! # The numbers of the objects of a message

While a message is written, a table with linear probing maps the address of every
object that has been met to its number. The table is rebuilt at twice its size
before an insertion when three quarters of it are used.
-/
namespace SmalltalkJit.Messages
open ByteStream OpenAddressing List Option

abbrev Id := BitVec 32

abbrev Entries := Table Word Id

def addressHash (a : Word) : ℕ := a.toNat >>> 4

/-- The position after one is `(h + 1) & (cap - 1)`, since the capacity is a power of two. -/
def idmapGrow (m : Entries) : Option Entries :=
  (rehash (fun e => addressHash e.1) m.slots (List.replicate (m.slots.length*2) none)).map fun slots => ⟨slots,m.tally⟩

def idmapGetOrPut (m : Entries) (key : Word) (newId : Id) : Option (Entries × Id × Bool) :=
  (if m.tally*4 ≥ m.slots.length*3 then idmapGrow m else some m).bind fun m =>
    (findIndex addressHash m.slots key).map fun i =>
      match m.slots[i]? with
      | some (some entry) => (m,entry.2,true)
      | _ => (⟨m.slots.set i (some (key,newId)),m.tally+1⟩,newId,false)

theorem idmapGrow_eq_grow (h : m.slots.Sound addressHash) : idmapGrow m = grow addressHash m := by
  rw [idmapGrow,h.rehash_double fun _ _ => rfl]
  rfl

structure IdMap where
  entries : Entries
  slots : entries.slots.Sound addressHash
  tally : entries.tally = entries.slots.used
  load : entries.tally*4 < entries.slots.length*3+4
  large : 1024 ≤ entries.slots.length

namespace IdMap

def init : IdMap where
  entries := ⟨List.replicate 1024 none,0⟩
  slots := sound_replicate ⟨10,rfl⟩
  tally := by rw [used_replicate]
  load := by rw [length_replicate]; decide
  large := by rw [length_replicate]

variable (m : IdMap)

variable (key : Word)

theorem findIndex_isSome : (findIndex addressHash m.entries.slots key).isSome := by
  refine OpenAddressing.findIndex_isSome addressHash m.slots.pow ?_ key
  have ht := m.tally
  have hlo := m.load
  have hl := m.large
  omega

theorem get?_isSome : (get? addressHash m.entries key).isSome := by
  rw [get?,isSome_map]
  exact m.findIndex_isSome key

def at? : Option Id := (get? addressHash m.entries key).get (m.get?_isSome key)

variable {m}

theorem at?_eq_some_iff {key : Word} {id : Id} : m.at? key = some id ↔ some (key,id) ∈ m.entries.slots := by
  rw [← m.slots.get?_eq_some_iff,at?,← Option.some.injEq,some_get]

theorem at?_init : init.at? key = none := by
  rw [eq_none_iff_forall_ne_some]
  intro id hid
  rw [at?_eq_some_iff] at hid
  exact absurd (eq_of_mem_replicate hid) nofun

variable (m)

theorem grow_spec : ∃ m' : IdMap,
    (if m.entries.tally*4 ≥ m.entries.slots.length*3 then idmapGrow m.entries else some m.entries) =
      some m'.entries ∧ m'.entries.tally*4 < m'.entries.slots.length*3 ∧ ∀ key, m'.at? key = m.at? key := by
  split
  · have hl := m.load
    have hla := m.large
    obtain ⟨entries,hrun,hs,ht,hmem⟩ := OpenAddressing.grow_spec m.slots m.tally (by omega)
    have hl' := hs.load
    rw [idmapGrow_eq_grow m.slots]
    refine ⟨⟨entries,hs.slots,hs.tally,by omega,by omega⟩,hrun,hl',fun key => Option.ext fun id => ?_⟩
    rw [at?_eq_some_iff,at?_eq_some_iff]
    exact hmem (key,id)
  · exact ⟨m,rfl,by omega,fun _ => rfl⟩

variable (newId : Id)

theorem getOrPut_spec : ∃ (m' : IdMap) (id : Id) (found : Bool),
    idmapGetOrPut m.entries key newId = some (m'.entries,id,found) ∧
    (m.at? key = some id ∧ found = true ∧ (∀ k, m'.at? k = m.at? k) ∨
      m.at? key = none ∧ found = false ∧ id = newId ∧
        ∀ k, m'.at? k = if k = key then some newId else m.at? k) := by
  obtain ⟨g,hrun,hr,hat⟩ := m.grow_spec
  obtain ⟨i,hi⟩ := isSome_iff_exists.mp (g.findIndex_isSome key)
  rw [idmapGetOrPut,hrun,bind_some,hi,map_some]
  rw [← hat key]
  obtain hs | ⟨id,hs⟩ := probe_spec hi
  · have hmem := fun p => g.slots.mem_set (e := (key,newId)) (p := p) hi
    have hu := used_set_of_empty hs (key,newId)
    have ht := g.tally
    refine ⟨⟨⟨g.entries.slots.set i (some (key,newId)),g.entries.tally+1⟩,
      g.slots.set (e := (key,newId)) hi,by rw [hu,ht],?_,?_⟩,newId,false,by rw [hs],
      .inr ⟨?_,rfl,rfl,fun k => Option.ext fun v => ?_⟩⟩
    · change (g.entries.tally+1)*4 < (g.entries.slots.set i (some (key,newId))).length*3+4
      rw [length_set]
      omega
    · rw [length_set]
      exact g.large
    · rw [eq_none_iff_forall_ne_some]
      intro v hv
      obtain ⟨j,hj⟩ := List.getElem?_of_mem (at?_eq_some_iff.mp hv)
      cases (g.slots.found j _ hj).symm.trans hi
      cases hs.symm.trans hj
    · rw [at?_eq_some_iff]
      refine (hmem (k,v)).trans ?_
      split
      · next hk => simp [hk,eq_comm]
      · next hk => simp [hk,← hat k,at?_eq_some_iff]
  · refine ⟨g,id,true,by rw [hs],.inl ⟨?_,rfl,hat⟩⟩
    exact at?_eq_some_iff.mpr (mem_of_getElem? hs)

theorem getOrPut_isSome : (idmapGetOrPut m.entries key newId).isSome := by
  obtain ⟨m',id,found,h,-⟩ := m.getOrPut_spec key newId
  rw [h]
  rfl

def numberOf : Id × Bool := ((idmapGetOrPut m.entries key newId).get (m.getOrPut_isSome key newId)).2

theorem getOrPut_sound : ∃ m' : IdMap,
    m'.entries = ((idmapGetOrPut m.entries key newId).get (m.getOrPut_isSome key newId)).1 := by
  obtain ⟨m',id,found,h,-⟩ := m.getOrPut_spec key newId
  exact ⟨m',by simp [h]⟩

def getOrPut : IdMap where
  entries := ((idmapGetOrPut m.entries key newId).get (m.getOrPut_isSome key newId)).1
  slots := by
    obtain ⟨m',h⟩ := m.getOrPut_sound key newId
    exact h ▸ m'.slots
  tally := by
    obtain ⟨m',h⟩ := m.getOrPut_sound key newId
    exact h ▸ m'.tally
  load := by
    obtain ⟨m',h⟩ := m.getOrPut_sound key newId
    exact h ▸ m'.load
  large := by
    obtain ⟨m',h⟩ := m.getOrPut_sound key newId
    exact h ▸ m'.large

variable {m}

theorem getOrPut_of_some {key : Word} {id : Id} (h : m.at? key = some id) :
    m.numberOf key newId = (id,true) ∧ ∀ k, (m.getOrPut key newId).at? k = m.at? k := by
  obtain ⟨m',id',found,hrun,hc⟩ := m.getOrPut_spec key newId
  obtain ⟨hid,hf,hat⟩ | ⟨hn,-⟩ := hc
  · have he : (m.getOrPut key newId) = m' := by
      cases m'
      simp [getOrPut,hrun]
    cases h.symm.trans hid
    refine ⟨?_,by rw [he]; exact hat⟩
    simp [numberOf,hrun,hf]
  · cases h.symm.trans hn

theorem getOrPut_of_none {key : Word} (h : m.at? key = none) : m.numberOf key newId = (newId,false) ∧
      ∀ k, (m.getOrPut key newId).at? k = if k = key then some newId else m.at? k := by
  obtain ⟨m',id',found,hrun,hc⟩ := m.getOrPut_spec key newId
  obtain ⟨hid,-⟩ | ⟨-,hf,hid,hat⟩ := hc
  · cases h.symm.trans hid
  · have he : (m.getOrPut key newId) = m' := by
      cases m'
      simp [getOrPut,hrun]
    refine ⟨?_,by rw [he]; exact hat⟩
    simp [numberOf,hrun,hf,hid]

end IdMap

end SmalltalkJit.Messages
