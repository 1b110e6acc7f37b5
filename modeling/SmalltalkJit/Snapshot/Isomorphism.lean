import SmalltalkJit.Snapshot.RoundTrip

/-! # The loaded graph

A snapshot that has been read back is a copy of the graph that was written: the
objects that are reached from the handles correspond one to one to the objects
that have been loaded, each copy has the contents of its object with every
pointer replaced by the address of a copy, and the built-in handles denote the
copies of what they denoted.
-/
namespace SmalltalkJit.Snapshot
open ByteStream List Option SnapshotDictionary Set

variable {m : ObjectMemory} {roots : Roots m}

structure FreshSpace where
  addresses : List Word
  distinct : addresses.Nodup
  aligned : ∀ b ∈ addresses, b.toNat % 4 = 0 ∧ b ≠ 0

def imageOf (φ : Word → Word) (v : Word) : Word := if isPointer v then tagPtr (φ (asObject v)) else v

/-- The copy of an object: pointers are replaced, the payload is zero unless it is the value of a float,
and the tags of the memory manager are cleared. -/
def copyOf (φ : Word → Word) (shape : InstanceShape) (o : RawObject) : RawObject :=
  { o with
    cls := φ o.cls
    unused := 0
    tags := 0
    payload := if shape.isFloatShape then o.payload else List.replicate o.payload.length 0
    vars := o.vars.map (imageOf φ) }

/-- The loaded memory is the image of the objects that are reached. -/
structure Isomorphism (roots : Roots m) (image : Image) (φ : Word → Word) : Prop where
  injective : ∀ {a b}, Reaches roots a → Reaches roots b → φ a = φ b → a = b
  onto : ∀ b, (image.memory b).isSome ↔ ∃ a, Reaches roots a ∧ φ a = b
  pointer : ∀ {a}, Reaches roots a → isPointer (tagPtr (φ a))
  object : ∀ {a o}, Reaches roots a → m.object a = some o → ∃ shape, shapeOf m.object o = some shape ∧
    image.memory (φ a) = some (copyOf φ shape o) ∧ shapeOf image.memory (copyOf φ shape o) = some shape
  builtins : image.builtins = roots.builtins.map φ

section Loading

theorem handles_transfer {s : Output} (hh : ∀ a ∈ handles, Reaches roots a) (hs : Numbered roots s.dict)
    (hn : (unwritten roots s.dict).ncard ≤ n) : ∃ s' bytes, iterateHandles (writeObject m.object n) s handles =
      some s' ∧ Emits roots s s' bytes ∧ (∀ a ∈ handles, s'.dict.Written a) ∧ ∀ depth count r φ,
      bytes.length ≤ depth → bytes.length < count → Linked roots s.dict r φ → r.file = bytes → ∃ r' φ',
      readObjects depth count r = some r' ∧ Reads roots s'.dict r r' φ φ' := by
  induction handles generalizing s with
  | nil =>
    refine ⟨s,[],rfl,⟨(append_nil _).symm,hs,Grows.refl _⟩,nofun,?_⟩
    intro depth count r φ _ hc hl hf
    obtain ⟨count,rfl⟩ := Nat.exists_eq_succ_of_ne_zero (Nat.ne_zero_of_lt hc)
    refine ⟨r,φ,?_,hl.reads r.file⟩
    rw [readObjects,Input.readInt64,hf]
    rfl
  | cons a handles ih =>
    have hres : ∀ a ∈ handles, Reaches roots a := fun b hb => hh b (mem_cons_of_mem a hb)
    by_cases hw : s.dict.Written a
    · obtain ⟨s',bytes,hwrite,he,hwr,hre⟩ := ih hres hs hn
      obtain ⟨id,hid⟩ := hw
      refine ⟨s',bytes,?_,he,?_,hre⟩
      · rw [iterateHandles,writeNewObject,hid]
        exact hwrite
      · intro b hb
        rcases mem_cons.mp hb with rfl | hb
        · exact he.grows.written ⟨id,hid⟩
        · exact hwr b hb
    · obtain ⟨s1,field,b1,hwrite1,he1,hwr1,-,hre1⟩ := objectTransfer roots n s a (hh a mem_cons_self) hw hs hn
      obtain ⟨s2,b2,hwrite2,he2,hwr2,hre2⟩ := ih hres he1.numbered ((unwritten_mono he1.grows).trans hn)
      refine ⟨s2,_,?_,he1.trans he2,?_,?_⟩
      · rw [iterateHandles,writeNewObject]
        split
        · next id hid => exact absurd ⟨id,hid⟩ hw
        · rw [hwrite1,bind_some,hwrite2]
      · intro b hb
        rcases mem_cons.mp hb with rfl | hb
        · exact he2.grows.written hwr1
        · exact hwr2 b hb
      · intro depth count r φ hd hc hl hf
        rw [append_assoc] at hf
        simp only [length_append,length_wordBytes] at hd hc
        obtain ⟨count,rfl⟩ := Nat.exists_eq_succ_of_ne_zero (Nat.ne_zero_of_lt hc)
        obtain ⟨r1,φ1,b,hrun1,hf1,-,hr1⟩ := hre1 depth { r with file := b1 ++ b2 } φ b2 (by omega) (hl.atFile _) rfl
        obtain ⟨r2,φ2,hrun2,hr2⟩ := hre2 depth count r1 φ1 (by omega) (by omega) hr1.linked hf1
        have hr : Reads roots s1.dict r r1 φ φ1 := ⟨hr1.linked,hr1.grows,hr1.kept,hr1.copied⟩
        refine ⟨r2,φ2,?_,hr.trans hr2⟩
        rw [readObjects,readInt64_append hf]
        dsimp only
        rw [hrun1,bind_some,hrun2]

theorem registerBuiltinObjects_spec (hd : Numbered roots d) (ho : ∀ a ∈ objects, Reaches roots a ∧ d.at? a = none)
    (hn : objects.Nodup) : ∃ d', registerBuiltinObjects d d.tally objects = some d' ∧ Numbered roots d' ∧ Grows d d' ∧
      (∀ a, d'.Written a → d.Written a) ∧ ∀ i a, objects[i]? = some a → ∃ w, d'.at? a =
      some (BitVec.ofNat 64 (d.tally + i),w) := by
  induction objects generalizing d with
  | nil => exact ⟨d,rfl,hd,Grows.refl d,fun _ h => h,fun i a h => absurd h (by simp)⟩
  | cons a objects ih =>
    obtain ⟨ha,hno⟩ := ho a mem_cons_self
    rw [nodup_cons] at hn
    obtain ⟨before,hc,hat⟩ := d.register_spec a false
    rcases hc with ⟨hold,-⟩ | ⟨-,hid,rfl,ht⟩
    · exact absurd (hno.symm.trans hold) nofun
    have hwr : ∀ b, (d.register a false).Written b → d.Written b := by
      rintro b ⟨id,hb⟩
      rw [hat] at hb
      split at hb
      · cases hb
      · exact ⟨id,hb⟩
    have hr : ∀ b ∈ objects, Reaches roots b ∧ (d.register a false).at? b = none := by
      intro b hb
      have hne : b ≠ a := by
        rintro rfl
        exact hn.1 hb
      rw [hat,if_neg hne]
      exact ho b (mem_cons_of_mem a hb)
    obtain ⟨d',hrun,hnum,hg,hu,hids⟩ := ih (hd.register ha false) hr hn.2
    rw [ht] at hrun hids
    refine ⟨d',?_,hnum,(grows_register a false).trans hg,fun b hb => hwr b (hu b hb),?_⟩
    · rw [registerBuiltinObjects,if_pos hid,hrun]
    · intro i b hb
      cases i with
      | zero =>
        cases hb
        have hs := hat a
        rw [if_pos rfl,hid] at hs
        obtain ⟨w,hw,-⟩ := hg a _ _ hs
        exact ⟨w,hw⟩
      | succ i =>
        obtain ⟨w,hw⟩ := hids i b hb
        refine ⟨w,?_⟩
        rw [hw,Nat.add_assoc,Nat.add_comm 1 i]

theorem createBuiltinObjectsHandles_eq {objects : List Word}
    (h : ∀ j a, objects[j]? = some a → ∃ w, r.dict.at? (BitVec.ofNat 64 (i + j)) = some (tagPtr (φ a),w)) :
    createBuiltinObjectsHandles r i objects.length = some (objects.map φ) := by
  induction objects generalizing i with
  | nil => rfl
  | cons a _ ih =>
    obtain ⟨w,hw⟩ := h 0 a rfl
    have hr := ih (i := i+1) fun j b hb => by
      obtain ⟨w,hw⟩ := h (j+1) b hb
      refine ⟨w,?_⟩
      rw [← hw,Nat.add_assoc,Nat.add_comm 1 j]
    rw [Nat.add_zero] at hw
    rw [length_cons,createBuiltinObjectsHandles,hw,bind_some,hr,asObject_tagPtr]
    rfl

end Loading

section Image
variable {φ : Images}

def addressOf (φ : Images) (a : Word) : Word := (φ a).getD 0

theorem addressOf_eq (h : φ a = some b) : addressOf φ a = b := by
  rw [addressOf,h]
  rfl

theorem map_imageOf (h : List.Forall₂ (FieldImage φ) vs vs') : vs' = vs.map (imageOf (addressOf φ)) := by
  induction h with
  | nil => rfl
  | @cons v v' vs vs' hv _ ih =>
    rw [map_cons,← ih]
    rw [FieldImage] at hv
    rw [imageOf]
    split at hv
    · next hp =>
      obtain ⟨b,hb,rfl⟩ := hv
      rw [if_pos hp,addressOf_eq hb]
    · next hp => rw [if_neg hp,hv]

theorem exists_image (h : List.Forall₂ (FieldImage φ) vs vs') (hv : v ∈ vs) : ∃ v', FieldImage φ v v' := by
  induction h with
  | nil => cases hv
  | cons hi _ ih =>
    rcases mem_cons.mp hv with rfl | hv
    · exact ⟨_,hi⟩
    · exact ih hv

theorem Copied.eq_copyOf (h : Copied φ shape o o') : o' = copyOf (addressOf φ) shape o := by
  obtain ⟨cls,hash,unused,payloadSize,varsSize,tags,size,p,vs,b⟩ := o'
  obtain ⟨hcls,rfl,rfl,rfl,rfl,rfl,rfl,rfl,hv,rfl⟩ := h
  dsimp only at hcls hv
  rw [copyOf,addressOf_eq hcls,← map_imageOf hv]

theorem isSome_of_reaches (h : Reads roots d r r' (fun _ => none) φ)
    (hh : ∀ a ∈ roots.handles, d.Written a) (ha : Reaches roots a) : (φ a).isSome := by
  induction ha with
  | root ha => exact (h.linked.written _).mpr (hh _ ha)
  | cls _ ho ih =>
    obtain ⟨b,hb⟩ := isSome_iff_exists.mp ih
    obtain ⟨o,sh,o',ho',-,-,hco⟩ := h.copied rfl hb
    cases ho.symm.trans ho'
    rw [hco.cls]
    rfl
  | field _ ho hv hp ih =>
    obtain ⟨b,hb⟩ := isSome_iff_exists.mp ih
    obtain ⟨o,sh,o',ho',-,-,hco⟩ := h.copied rfl hb
    cases ho.symm.trans ho'
    obtain ⟨v',hi⟩ := exists_image hco.vars hv
    rw [FieldImage,if_pos hp] at hi
    obtain ⟨c,hc,-⟩ := hi
    rw [hc]
    rfl

theorem shapeOf_copyOf (ho : m.object a = some o) (hcls : m.object o.cls = some cls)
    (hs : shapeOf m.object o = some shape) (hc : memory (address o.cls) = some (copyOf address clsShape cls)) :
    shapeOf memory (copyOf address shape o) = some shape := by
  rw [shapeOf,hcls,bind_some,RawObject.instanceShape] at hs
  obtain ⟨w,hw,rfl⟩ := map_eq_some_iff.mp hs
  have hi := m.immediate ho hcls hw
  change (memory (address o.cls)).bind RawObject.instanceShape = _
  rw [hc,bind_some]
  change ((cls.vars.map (imageOf address))[3]?).map snapshotDecodeShape = _
  rw [List.getElem?_map,hw,map_some,map_some,imageOf,if_neg (by rw [hi]; decide)]

theorem Reads.isomorphism (h : Reads roots d r r' (fun _ => none) φ)
    (hd : Numbered roots d) (hh : ∀ a ∈ roots.handles, d.Written a) :
    Isomorphism roots ⟨r'.memory,roots.builtins.map (addressOf φ)⟩ (addressOf φ) := by
  have hs : ∀ {a}, Reaches roots a → φ a = some (addressOf φ a) := by
    intro a ha
    obtain ⟨b,hb⟩ := isSome_iff_exists.mp (isSome_of_reaches h hh ha)
    rw [addressOf_eq hb,hb]
  have hobj : ∀ {a o}, Reaches roots a → m.object a = some o → ∃ sh,
      shapeOf m.object o = some sh ∧ r'.memory (addressOf φ a) = some (copyOf (addressOf φ) sh o) := by
    intro a o ha ho
    obtain ⟨o1,sh,o',ho1,hsh,ho',hco⟩ := h.copied rfl (hs ha)
    cases ho.symm.trans ho1
    exact ⟨sh,hsh,by rw [ho',hco.eq_copyOf]⟩
  constructor
  case injective =>
    intro a b ha hb heq
    have hb' := hs hb
    rw [← heq] at hb'
    exact h.linked.injective (hs ha) hb'
  case onto =>
    intro b
    rw [h.linked.loaded b]
    constructor
    · rintro ⟨a,ha⟩
      obtain ⟨id,hid⟩ := (h.linked.written a).mp (by rw [ha]; rfl)
      exact ⟨a,hd.reached hid,addressOf_eq ha⟩
    · rintro ⟨a,ha,rfl⟩
      exact ⟨a,hs ha⟩
  case pointer => exact fun ha => isPointer_tagPtr (h.linked.address (hs ha)).1
  case object =>
    intro a o ha ho
    obtain ⟨sh,hsh,hcopy⟩ := hobj ha ho
    obtain ⟨cls,hcls⟩ := isSome_iff_exists.mp (m.cls_isSome ho)
    obtain ⟨clsShape,-,hc⟩ := hobj (.cls ha ho) hcls
    exact ⟨sh,hsh,hcopy,shapeOf_copyOf ho hcls hsh hc⟩
  case builtins => rfl

end Image

theorem numbered_new (roots : Roots m) : Numbered roots .new := by
  have hn : ∀ {a v}, new.at? a ≠ some v := fun h => absurd ((at?_new _).symm.trans h) nofun
  refine ⟨fun h => absurd h hn,fun h => absurd h hn,fun h => absurd h hn,?_⟩
  have he : {a | (new.at? a).isSome} = ∅ := by
    rw [eq_empty_iff_forall_notMem]
    intro a ha
    rw [mem_ofPred_eq,at?_new] at ha
    cases ha
  rw [he,ncard_empty]
  rfl

theorem unwritten_le (roots : Roots m) (d : SnapshotDictionary) :
    (unwritten roots d).ncard ≤ {a | Reaches roots a}.ncard :=
  ncard_le_ncard (fun _ ha => ha.1) (toFinite _)

/-- A graph that is written and read back where there is room for it is loaded as an isomorphic graph. -/
theorem snapshot_round_trip (roots : Roots m) (space : FreshSpace)
    (hroom : {a | Reaches roots a}.ncard ≤ space.addresses.length) : ∃ file image φ,
      snapshotWrite m.object roots.builtins roots.handles = some file ∧
      snapshotRead roots.builtins.length space.addresses file = .ok (some image) ∧ Isomorphism roots image φ := by
  have hre : ∀ a ∈ roots.handles, Reaches roots a := fun a ha => .root ha
  obtain ⟨d,hr,hn,-,hu,hids⟩ := registerBuiltinObjects_spec (numbered_new roots)
    (fun a ha => ⟨hre a (roots.subset a ha),at?_new a⟩) roots.distinct
  have hd : (unwritten roots d).ncard ≤ maxDepth := by
    refine (unwritten_le roots d).trans ((ncard_le_ncard (fun a ha => ha.isSome) (toFinite _)).trans
      ((ncard_objects_le m).trans (by decide)))
  obtain ⟨s,bytes,hwrite,he,hwr,hread⟩ := handles_transfer (s := ⟨snapshotWriteHeader,d⟩) hre hn hd
  -- nothing has been written before the first handle
  have hl : Linked roots d ⟨bytes,.new,fun _ => none,space.addresses⟩ (fun _ => none) := by
    refine ⟨fun a => iff_of_false Bool.false_ne_true fun hw => ?_,nofun,nofun,nofun,nofun,
      fun b => iff_of_false Bool.false_ne_true nofun,space.distinct,space.aligned,
      (unwritten_le roots d).trans hroom⟩
    obtain ⟨id,hid⟩ := hu a hw
    exact absurd ((at?_new a).symm.trans hid) nofun
  obtain ⟨r,φ,hrun,hreads⟩ := hread bytes.length (bytes.length+1) _ _ le_rfl (Nat.lt_succ_self _) hl rfl
  have hbu : createBuiltinObjectsHandles r 0 roots.builtins.length = some (roots.builtins.map (addressOf φ)) := by
    refine createBuiltinObjectsHandles_eq fun i a ha => ?_
    have hmem := roots.subset a (mem_of_getElem? ha)
    obtain ⟨w,hid⟩ := hids i a ha
    obtain ⟨w',hid',-⟩ := he.grows a _ _ hid
    obtain ⟨id,hs⟩ := hwr a hmem
    cases hs.symm.trans hid'
    obtain ⟨b,hb⟩ := isSome_iff_exists.mp ((hreads.linked.written a).mpr (hwr a hmem))
    rw [addressOf_eq hb]
    exact hreads.linked.found hb hs
  refine ⟨snapshotWriteHeader ++ bytes,⟨r.memory,roots.builtins.map (addressOf φ)⟩,addressOf φ,?_,?_,?_⟩
  · have hz : new.tally = 0 := rfl
    rw [hz] at hr
    rw [snapshotWrite,hr,bind_some,hwrite,map_some,he.file]
  · rw [snapshotRead,checkHeader_writeHeader,Except.map,hrun,bind_some,hbu]
    rfl
  · exact hreads.isomorphism he.numbered hwr

/-- A class with four fields that is its own class and refers to itself. -/
def ownClass : RawObject where
  cls := 16
  hash := 7
  unused := 0
  payloadSize := 0
  varsSize := 4
  tags := 0
  size := 0
  payload := []
  vars := [tagPtr 16,0,0,snapshotEncodeShape ⟨0,0,4,0,0,0,48⟩]
  bytes := []

def ownClassMemory : ObjectMemory where
  object a := if a = 16 then some ownClass else none
  formed {a o} ho := by
    obtain ⟨-,ho⟩ := ite_none_right_eq_some.mp ho
    cases ho
    exact ⟨⟨0,0,4,0,0,0,48⟩,by decide,by decide,by decide,by decide,by decide⟩
  closed {a o} ho v hv hp := by
    obtain ⟨-,ho⟩ := ite_none_right_eq_some.mp ho
    cases ho
    have hall : ownClass.vars.all (fun v => !isPointer v || v = tagPtr 16) = true := by decide
    have hself := all_eq_true.mp hall v hv
    rw [hp,Bool.not_true,Bool.false_or,decide_eq_true_iff] at hself
    rw [hself,asObject_tagPtr]
    rfl
  immediate {a o cls word} ho hcls hword := by
    obtain ⟨-,hcls⟩ := ite_none_right_eq_some.mp hcls
    cases hcls
    cases hword
    decide
  apart {a b} ha hb hne := by
    have heq : ∀ {c : Word}, (if c = 16 then some ownClass else none).isSome → c = 16 := by
      intro c hc
      by_contra hne
      rw [if_neg hne] at hc
      cases hc
    exact absurd ((heq ha).trans (heq hb).symm) hne

def ownClassRoots : Roots ownClassMemory where
  builtins := [16]
  handles := [16]
  distinct := nodup_singleton 16
  subset _ ha := ha
  objects a ha := by
    rw [mem_singleton.mp ha]
    rfl

def oneAddress : FreshSpace where
  addresses := [32]
  distinct := nodup_singleton 32
  aligned b hb := by
    rw [mem_singleton.mp hb]
    decide

theorem reaches_ownClass (h : Reaches ownClassRoots a) : a = 16 := by
  have hi := h.isSome
  by_contra hne
  change (if a = 16 then some ownClass else none).isSome at hi
  rw [if_neg hne] at hi
  cases hi

theorem snapshot_round_trip_ownClass : ∃ file image φ, snapshotWrite ownClassMemory.object [16] [16] = some file ∧
      snapshotRead 1 [32] file = .ok (some image) ∧ Isomorphism ownClassRoots image φ := by
  refine snapshot_round_trip ownClassRoots oneAddress ?_
  refine (ncard_le_ncard (t := {16}) (fun a ha => reaches_ownClass ha) (toFinite _)).trans ?_
  rw [ncard_singleton]
  rfl

end SmalltalkJit.Snapshot
