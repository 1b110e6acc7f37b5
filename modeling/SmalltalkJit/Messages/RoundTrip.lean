import SmalltalkJit.Messages.Necessity

/-! # The round trip of a message

A graph that is accepted by the writer is rebuilt by the reader, with the same
classes, variables, elements, sharing and cycles, if and only if its walk meets
nothing that a message cannot carry. The writer accepts every graph in which it
meets no object of a rejected class.
-/
namespace SmalltalkJit.Messages
open ByteStream Snapshot List Option

variable {heap : MessageHeap} {r r' : Reader} {φ φ' : Word → Word} {a v root : Word} {o : RawObject}

def MessageHeap.reader (heap : MessageHeap) (bytes : List Byte) : Reader where
  data := bytes
  registry := []
  memory := heap.memory.object
  symbols := heap.symbols
  free := heap.free

theorem linked_init (heap : MessageHeap) (bytes : List Byte) : Linked heap ⟨[],[]⟩ (heap.reader bytes) id where
  grounded := ⟨id,id,.inl,heap.distinct,heap.fresh⟩
  registry := rfl
  nodup := nodup_nil
  object h := absurd h not_mem_nil
  injective h := absurd h not_mem_nil
  single _ := rfl
  shared h := absurd h not_mem_nil
  copied h := absurd h not_mem_nil
  room := by
    refine (Nat.mul_le_mul_left 3 (Set.ncard_le_ncard ?_ (Set.toFinite _))).trans heap.room
    exact fun a ha => ha.1

theorem isomorphic_of_reads (h : Reads heap ∅ ⟨[],[]⟩ s' r r' φ φ') (hr : isPointer root → Known heap s' (asObject root)) :
    Isomorphic heap root (imageOf φ' root) r'.memory φ' := by
  have hl := h.linked
  have hmet : ∀ {a}, Known heap s' a → ¬ heap.Shared a → a ∈ s'.met := fun ha hs => ha.resolve_right fun h => hs (.inl h)
  have hc : ∀ {a}, Known heap s' a → ¬ heap.Shared a → Complete heap s' φ' r'.memory a := fun ha hs =>
    h.complete _ (hmet ha hs) not_mem_nil hs
  have hk : ∀ {a}, heap.Part root a → Known heap s' a := by
    intro a ha
    induction ha with
    | root hp => exact hr hp
    | field _ hs ho hv hp ih =>
      obtain ⟨o,-,-,ho',-,-,-,hvar⟩ := hc ih hs
      cases ho.symm.trans ho'
      exact hvar _ hv hp
  have hsel : ∀ {a}, Known heap s' a → heap.Shared a → φ' a = a := fun ha hs => ha.elim (hl.shared · hs) hl.single
  have hso : ∀ {a}, Known heap s' a → (heap.memory.object a).isSome := fun ha => ha.elim hl.object isSome_of_singleton
  -- the copy of an object is no object of the heap
  have hap : ∀ {a b}, Known heap s' a → Known heap s' b → heap.Shared a → ¬ heap.Shared b → φ' a ≠ φ' b := by
    intro a b ha hb hsa hsb heq
    have hobj := hso ha
    rw [← hsel ha hsa,heq,(hl.copied (hmet hb hsb) hsb).1] at hobj
    exact absurd hobj Bool.false_ne_true
  constructor
  case value => rfl
  case injective =>
    intro a b ha hb heq
    by_cases hsa : heap.Shared a <;> by_cases hsb : heap.Shared b
    · rwa [hsel (hk ha) hsa,hsel (hk hb) hsb] at heq
    · exact absurd heq (hap (hk ha) (hk hb) hsa hsb)
    · exact absurd heq.symm (hap (hk hb) (hk ha) hsb hsa)
    · exact hl.injective (hmet (hk ha) hsa) (hmet (hk hb) hsb) heq
  case shared => exact fun ha hs => hsel (hk ha) hs
  case copied =>
    intro a o ha hs ho
    obtain ⟨o1,sh,o',ho1,hsh,ho',hco,-⟩ := hc (hk ha) hs
    cases ho.symm.trans ho1
    exact ⟨(hl.copied (hmet (hk ha) hs) hs).1,sh,o',hsh,ho',hco⟩
  case kept => exact hl.grounded.kept

theorem root_isSome (h : messageSerialize heap.handles heap.memory.object root = some bytes)
    (hp : isPointer root) : (heap.memory.object (asObject root)).isSome := by
  obtain ⟨w,hw,-⟩ := map_eq_some_iff.mp h
  rw [writeValue,if_pos hp] at hw
  by_cases hs : heap.isSingleton (asObject root)
  · exact isSome_of_singleton hs
  · simp only [MessageHeap.isSingleton,Bool.or_eq_true,decide_eq_true_iff,not_or] at hs
    have hd : maxDepth = 18446744073709551615+1 := rfl
    rw [hd,writeObjectRef,if_neg hs.1.1,if_neg hs.1.2,if_neg hs.2,
      (IdMap.getOrPut_of_none _ (IdMap.at?_init _)).1,if_neg Bool.false_ne_true] at hw
    obtain ⟨o,ho,-⟩ := bind_eq_some_iff.mp hw
    rw [ho]
    rfl

/-- For every graph that is accepted: what is read is an isomorphic graph exactly if every object that
the walk meets is fine and those that are met again have numbers of 32 bits. -/
theorem message_isomorphic_iff (heap : MessageHeap) (root : Word) (bytes : List Byte)
    (h : messageSerialize heap.handles heap.memory.object root = some bytes) :
    (∃ root' memory ψ, messageDeserialize heap.handles heap.globals heap.memory.object heap.symbols heap.free bytes =
        some (root',memory) ∧ Isomorphic heap root root' memory ψ) ↔ heap.Transferable root := by
  have hm := messageSerialize_message (root_isSome h) h
  have hd : (heap.reader bytes).data = bytes ++ [] := (append_nil bytes).symm
  constructor
  · rintro ⟨root',memory,ψ,hre,hiso⟩
    obtain ⟨⟨v',r'⟩,hrun,heq⟩ := map_eq_some_iff.mp hre
    cases heq
    exact (message_needs _ _ _ _ _ hm (bytes.length+1) (heap.reader bytes) id [] _ r' _ ψ root _
      (Nat.le_succ _) (linked_init heap bytes) ⟨nofun,nofun⟩ hd hrun hiso .root hiso.value ⟨rfl,nofun⟩
      fun _ _ _ => rfl).1
  · intro hg
    obtain ⟨r',φ,hrun,-,hr,hk⟩ := message_sends _ _ _ _ _ hm hg (bytes.length+1)
      (heap.reader bytes) id [] (Nat.le_succ _) (linked_init heap bytes) hd
    refine ⟨_,_,φ,?_,isomorphic_of_reads hr hk⟩
    change (readValue heap.handles heap.globals (bytes.length+1) (heap.reader bytes)).map _ = _
    rw [hrun]
    rfl

section Sample

def sampleObject (cls size : Word) (vars : List Word) (bytes : List Byte) : RawObject :=
  ⟨cls,7,0,0,0,0,size,[],vars,bytes⟩

def sampleClass (cls : Word) (varsSize isIndexed isBytes : Byte) (name : Word) : RawObject :=
  sampleObject cls 0 [97,97,97,snapshotEncodeShape ⟨0,0,varsSize,isIndexed,isBytes,0,0⟩,97,tagPtr name] []

/-- The classes of classes, strings, symbols and nil; the core class `P`, the class `Q` of a package and
the core class `T` with bytes and a named variable; and an object of each, the first of which refers to
itself. -/
def sampleObjects : List (Word × RawObject) :=
  [(16,sampleClass 32 6 0 0 96),(32,sampleClass 16 6 0 0 96),(48,sampleClass 16 0 1 1 96),
    (64,sampleClass 16 0 1 1 96),(80,sampleClass 16 0 0 0 96),(96,sampleObject 80 0 [] []),
    (112,sampleObject 80 0 [] []),(128,sampleObject 80 0 [] []),(144,sampleClass 16 2 0 0 160),
    (160,sampleObject 64 1 [] [80]),(176,sampleClass 16 0 0 0 192),(192,sampleObject 64 1 [] [81]),
    (208,sampleClass 16 1 1 1 224),(224,sampleObject 64 1 [] [84]),(240,sampleObject 144 0 [241,12] []),
    (256,sampleObject 176 0 [] []),(272,sampleObject 208 2 [20] [1,2])]

def sampleMemory : Memory := fun a => (sampleObjects.find? fun entry => entry.1 = a).map Prod.snd

theorem sample_mem (h : sampleMemory a = some o) : (a,o) ∈ sampleObjects := by
  obtain ⟨⟨b,o'⟩,hf,rfl⟩ := map_eq_some_iff.mp h
  have hb : b = a := by simpa using List.find?_some hf
  exact hb ▸ mem_of_find?_eq_some hf

theorem sample_all (h : sampleObjects.all check = true) (ho : sampleMemory a = some o) : check (a,o) = true :=
  all_eq_true.mp h _ (sample_mem ho)

def sampleObjectMemory : ObjectMemory where
  object := sampleMemory
  formed {a o} ho := by
    have hall : (sampleObjects.all fun p => (shapeOf sampleMemory p.2).any fun shape =>
        p.2.payload.length = shape.payloadSize.toNat ∧ p.2.vars.length = shape.fields p.2.size ∧
        p.2.bytes.length = (if shape.hasBytes then p.2.size.toNat else 0) ∧
        (shape.isIndexed = 0 → p.2.size = 0)) = true := by decide +kernel
    obtain ⟨shape,hshape,hformed⟩ := (any_eq_true _ _).mp (sample_all hall ho)
    obtain ⟨h1,h2,h3,h4⟩ := of_decide_eq_true hformed
    exact ⟨shape,hshape,h1,h2,h3,h4⟩
  closed {a o} ho v hv hp := by
    have hall : (sampleObjects.all fun p => p.2.vars.all fun v =>
        !isPointer v || (sampleMemory (asObject v)).isSome) = true := by decide +kernel
    have hchecked := all_eq_true.mp (sample_all hall ho) v hv
    rwa [hp,Bool.not_true,Bool.false_or] at hchecked
  immediate {a o cls word} ho hcls hword := by
    have hall : (sampleObjects.all fun p =>
        ((sampleMemory p.2.cls).bind fun cls => cls.vars[3]?).all fun word => !isPointer word) = true := by
      decide +kernel
    have hchecked := sample_all hall ho
    dsimp only at hchecked
    rw [hcls,bind_some,hword] at hchecked
    simpa using hchecked
  apart {a b} ha hb hne := by
    have hall : (sampleObjects.all fun p => sampleObjects.all fun q => p.1 = q.1 ∨
        p.1.toNat+16 ≤ q.1.toNat ∨ q.1.toNat+16 ≤ p.1.toNat) = true := by decide +kernel
    obtain ⟨o,ho⟩ := isSome_iff_exists.mp ha
    obtain ⟨o',ho'⟩ := isSome_iff_exists.mp hb
    have hchecked := sample_all (sample_all hall ho) ho'
    exact (of_decide_eq_true hchecked).resolve_left hne

def sampleSymbols (bytes : List Byte) : Option Word :=
  if bytes = [80] then some 160 else if bytes = [81] then some 192 else if bytes = [84] then some 224 else none

def sampleGlobals (symbol : Word) : Option Word :=
  if symbol = 160 then some (tagPtr 144) else if symbol = 224 then some (tagPtr 208) else none

theorem sampleGlobals_cases (h : sampleGlobals a = some v) : a = 160 ∧ v = tagPtr 144 ∨ a = 224 ∧ v = tagPtr 208 := by
  rw [sampleGlobals] at h
  split at h
  · next heq => exact .inl ⟨heq,(Option.some.inj h).symm⟩
  split at h
  · next heq => exact .inr ⟨heq,(Option.some.inj h).symm⟩
  · cases h

def sampleFree : List Word := (List.range 60).map fun k => BitVec.ofNat 64 (4096+16*k)

def sampleHeap : MessageHeap where
  memory := sampleObjectMemory
  handles := ⟨96,112,128,48,64,32,0,0,0,0,0,0,0⟩
  globals := sampleGlobals
  symbols := sampleSymbols
  free := sampleFree
  aligned {a} ha := by
    have hall : (sampleObjects.all fun p => p.1.toNat % 4 = 0) = true := by decide +kernel
    obtain ⟨o,ho⟩ := isSome_iff_exists.mp ha
    exact of_decide_eq_true (sample_all hall ho)
  nil := by decide +kernel
  true := by decide +kernel
  false := by decide +kernel
  string := by decide +kernel
  text {a o shape} ho hcls hshape := by
    have hall : (sampleObjects.all fun p => p.2.cls ≠ 64 ∨
        (shapeOf sampleMemory p.2).all Snapshot.InstanceShape.hasBytes = Bool.true) = Bool.true := by decide +kernel
    have hchecked := (of_decide_eq_true (sample_all hall ho)).resolve_left (not_not_intro hcls)
    dsimp only at hchecked
    rwa [show shapeOf sampleMemory o = some shape from hshape] at hchecked
  interned {a o} ho hcls := by
    have hall : (sampleObjects.all fun p => p.2.cls ≠ 64 ∨ sampleSymbols p.2.bytes = some p.1) = Bool.true := by
      decide +kernel
    exact (of_decide_eq_true (sample_all hall ho)).resolve_left (not_not_intro hcls)
  symbol {bytes a} h := by
    rw [sampleSymbols] at h
    split at h
    · next heq =>
      cases h
      exact ⟨sampleObject 64 1 [] [80],by decide +kernel,rfl,heq.symm⟩
    split at h
    · next heq =>
      cases h
      exact ⟨sampleObject 64 1 [] [81],by decide +kernel,rfl,heq.symm⟩
    split at h
    · next heq =>
      cases h
      exact ⟨sampleObject 64 1 [] [84],by decide +kernel,rfl,heq.symm⟩
    · cases h
  key {a v} h := by obtain ⟨rfl,-⟩ | ⟨rfl,-⟩ := sampleGlobals_cases h <;> decide +kernel
  value {a v} h _ := by obtain ⟨-,rfl⟩ | ⟨-,rfl⟩ := sampleGlobals_cases h <;> decide +kernel
  distinct := by decide +kernel
  fresh {b} hb := by
    have hall : (sampleFree.all fun b => sampleMemory b = none ∧ b.toNat % 4 = 0) = Bool.true := by decide +kernel
    exact of_decide_eq_true (all_eq_true.mp hall b hb)
  room := by
    have hsub : {a | (sampleMemory a).isSome} ⊆ ↑(sampleObjects.map Prod.fst).toFinset := by
      intro a ha
      obtain ⟨o,ho⟩ := isSome_iff_exists.mp ha
      exact mem_toFinset.mpr (mem_map_of_mem (sample_mem ho))
    have hcard := (Set.ncard_le_ncard hsub (Finset.finite_toSet _)).trans_eq (Set.ncard_coe_finset _)
    have hlength := hcard.trans (toFinset_card_le _)
    exact (Nat.mul_le_mul_left 3 hlength).trans (by decide +kernel)

def sampleMessage : List Byte := [7,1,0,0,0,80,7,0,0,0,0,0,0,0,0,0,0,0,8,0,0,0,0,1,12,0,0,0,0,0,0,0]

theorem sample_transferable : sampleHeap.Transferable 241 where
  fine a ha := by
    have hmet : (sampleHeap.walk 241).met = [240] := by decide +kernel
    rw [hmet] at ha
    obtain rfl := mem_singleton.mp ha
    refine @MessageHeap.Fine.object sampleHeap 240 (sampleObject 144 0 [241,12] []) (sampleClass 16 2 0 0 160)
      ⟨0,0,2,0,0,0,0⟩ 160 [80] ?_ ?_ ?_ ?_ ?_ ?_ ?_ ?_ ?_ ?_ ?_ <;> decide +kernel
  numbered i hi := by
    have hag : (sampleHeap.walk 241).again = [0] := by decide +kernel
    rw [hag] at hi
    rw [mem_singleton.mp hi]
    decide

theorem sample_serialized :
    messageSerialize sampleHeap.handles sampleHeap.memory.object 241 = some sampleMessage := by decide +kernel

theorem message_isomorphic_self : ∃ root' memory ψ,
    messageDeserialize sampleHeap.handles sampleHeap.globals sampleHeap.memory.object sampleHeap.symbols
      sampleHeap.free sampleMessage = some (root',memory) ∧ Isomorphic sampleHeap 241 root' memory ψ :=
  (message_isomorphic_iff sampleHeap 241 sampleMessage sample_serialized).mpr sample_transferable

/-- The class of the first object is not among the core globals; the second object has bytes and a
named variable, which is nil in what is read. -/
theorem message_not_isomorphic :
    (∃ bytes, messageSerialize sampleHeap.handles sampleHeap.memory.object 257 = some bytes ∧
      messageDeserialize sampleHeap.handles sampleHeap.globals sampleHeap.memory.object sampleHeap.symbols
        sampleHeap.free bytes = none) ∧
    ∃ bytes, messageSerialize sampleHeap.handles sampleHeap.memory.object 273 = some bytes ∧
      ∀ root' memory ψ, messageDeserialize sampleHeap.handles sampleHeap.globals sampleHeap.memory.object
        sampleHeap.symbols sampleHeap.free bytes = some (root',memory) → ¬ Isomorphic sampleHeap 273 root' memory ψ := by
  refine ⟨⟨[7,1,0,0,0,81,7,0,0,0,0,0,0,0,0,0,0,0],by decide +kernel, isNone_iff_eq_none.mp (by decide +kernel)⟩,
    [7,1,0,0,0,84,7,0,0,0,0,0,0,0,2,0,0,0,1,2],by decide +kernel,?_⟩
  intro root' memory ψ hr hiso
  have hl : (messageDeserialize sampleHeap.handles sampleHeap.globals sampleHeap.memory.object sampleHeap.symbols
      sampleHeap.free [7,1,0,0,0,84,7,0,0,0,0,0,0,0,2,0,0,0,1,2]).any (fun read =>
        (read.2 (asObject read.1)).any fun o => o.vars = [97]) = true := by decide +kernel
  have hp : sampleHeap.Part 273 272 := @MessageHeap.Part.root sampleHeap 273 (by decide +kernel)
  have hc : ¬ sampleHeap.Shared 272 := by
    rintro (hs | ⟨o,ho,hs⟩)
    · exact absurd hs (by decide +kernel)
    · cases ho.symm.trans (show sampleHeap.memory.object 272 = some (sampleObject 208 2 [20] [1,2]) by decide +kernel)
      exact absurd hs (by decide +kernel)
  obtain ⟨-,sh,o',-,ho',hco⟩ := hiso.copied hp hc
    (show sampleHeap.memory.object 272 = some (sampleObject 208 2 [20] [1,2]) by decide +kernel)
  have hro : asObject root' = ψ 272 := by
    rw [hiso.value]
    exact asObject_tagPtr (ψ 272)
  have hv : o'.vars = [20] := hco.vars.trans rfl
  rw [hr,any_some] at hl
  change (memory (asObject root')).any _ = true at hl
  rw [hro,ho',any_some,hv] at hl
  exact absurd hl (by decide)

end Sample

end SmalltalkJit.Messages
