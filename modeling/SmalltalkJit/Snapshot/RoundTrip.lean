import SmalltalkJit.Snapshot.Graph
import SmalltalkJit.Snapshot.Reader

/-! # Reading back what was written

The reader meets the objects in the order in which they were written. The partial
map from the objects that have been written to their copies grows with every
object; a copy is complete when its call has returned, and from then on nothing
changes it.
-/
namespace SmalltalkJit.Snapshot
open ByteStream Function List Option

variable {m : ObjectMemory} {roots : Roots m}

abbrev Images := Word → Option Word

def Extends (φ φ' : Images) : Prop := ∀ a b, φ a = some b → φ' a = some b

def FieldImage (φ : Images) (v v' : Word) : Prop :=
  if isPointer v then ∃ b, φ (asObject v) = some b ∧ v' = tagPtr b else v' = v

/-- An object and its copy. Only the payload of a float is copied. -/
structure Copied (φ : Images) (shape : InstanceShape) (o o' : RawObject) : Prop where
  cls : φ o.cls = some o'.cls
  hash : o'.hash = o.hash
  unused : o'.unused = 0
  payloadSize : o'.payloadSize = o.payloadSize
  varsSize : o'.varsSize = o.varsSize
  tags : o'.tags = 0
  size : o'.size = o.size
  payload : o'.payload = if shape.isFloatShape then o.payload else replicate o.payload.length 0
  vars : Forall₂ (FieldImage φ) o.vars o'.vars
  bytes : o'.bytes = o.bytes

section Images
theorem Extends.trans (h : Extends φ φ') (h' : Extends φ' φ'') : Extends φ φ'' := fun a b hab => h' a b (h a b hab)

theorem FieldImage.mono (h : Extends φ φ') (hv : FieldImage φ v v') : FieldImage φ' v v' := by
  rw [FieldImage] at hv ⊢
  split
  · next hp =>
    rw [if_pos hp] at hv
    obtain ⟨b,hb,rfl⟩ := hv
    exact ⟨b,h _ _ hb,rfl⟩
  · next hp => rwa [if_neg hp] at hv

theorem Copied.mono (h : Extends φ φ') (hc : Copied φ shape o o') : Copied φ' shape o o' :=
  { hc with cls := h _ _ hc.cls, vars := hc.vars.imp fun _ _ hv => hv.mono h }

end Images

/-- The state of the reader when it has read what is written according to the dictionary. -/
structure Linked (roots : Roots m) (d : SnapshotDictionary) (r : Input) (φ : Images) : Prop where
  written : ∀ a, (φ a).isSome ↔ d.Written a
  found : ∀ {a b id}, φ a = some b → d.at? a = some (id,true) → ∃ w, r.dict.at? id = some (tagPtr b,w)
  injective : ∀ {a a' b}, φ a = some b → φ a' = some b → a = a'
  taken : ∀ {a b}, φ a = some b → b ∉ r.free
  address : ∀ {a b}, φ a = some b → b.toNat % 4 = 0 ∧ b ≠ 0
  loaded : ∀ b, (r.memory b).isSome ↔ ∃ a, φ a = some b
  distinct : r.free.Nodup
  fresh : ∀ b ∈ r.free, b.toNat % 4 = 0 ∧ b ≠ 0
  room : (unwritten roots d).ncard ≤ r.free.length

/-- The copies that are added between two states of the reader are complete, and the others are kept. -/
structure Reads (roots : Roots m) (d : SnapshotDictionary) (r r' : Input) (φ φ' : Images) : Prop where
  linked : Linked roots d r' φ'
  grows : Extends φ φ'
  kept : ∀ {a b}, φ a = some b → r'.memory b = r.memory b
  copied : ∀ {a b}, φ a = none → φ' a = some b → ∃ o shape o', m.object a = some o ∧
    shapeOf m.object o = some shape ∧ r'.memory b = some o' ∧ Copied φ' shape o o'

structure Filling (roots : Roots m) (r : Input) (φ : Images) (a b : Word) (d : SnapshotDictionary)
    (r' : Input) (φ' : Images) (o : RawObject) : Prop where
  linked : Linked roots d r' φ'
  grows : Extends φ φ'
  new : φ a = none
  self : φ' a = some b
  object : r'.memory b = some o
  kept : ∀ {x y}, φ x = some y → r'.memory y = r.memory y
  copied : ∀ {x y}, x ≠ a → φ x = none → φ' x = some y → ∃ o shape o', m.object x = some o ∧
    shapeOf m.object o = some shape ∧ r'.memory y = some o' ∧ Copied φ' shape o o'

section Linking
theorem Linked.atFile (h : Linked roots d r φ) (rest : List Byte) : Linked roots d { r with file := rest } φ :=
  ⟨h.written,h.found,h.injective,h.taken,h.address,h.loaded,h.distinct,h.fresh,h.room⟩

theorem Linked.modify (h : Linked roots d r φ) (b : Word) (f : RawObject → RawObject) :
    Linked roots d (r.modify b f) φ := by
  refine ⟨h.written,h.found,h.injective,h.taken,h.address,fun c => ?_,h.distinct,h.fresh,h.room⟩
  rw [← h.loaded c]
  rcases eq_or_ne c b with rfl | hne
  · change (update r.memory c _ c).isSome ↔ _
    rw [update_self,isSome_map]
  · change (update r.memory b _ c).isSome ↔ _
    rw [update_of_ne hne]

theorem Linked.reads (h : Linked roots d r φ) (rest : List Byte) : Reads roots d r { r with file := rest } φ φ where
  linked := h.atFile rest
  grows _ _ hab := hab
  kept _ := rfl
  copied hno hso := absurd (hno.symm.trans hso) nofun

theorem Reads.trans (h : Reads roots d r r' φ φ') (h' : Reads roots d' r' r'' φ' φ'') :
    Reads roots d' r r'' φ φ'' where
  linked := h'.linked
  grows := h.grows.trans h'.grows
  kept hab := (h'.kept (h.grows _ _ hab)).trans (h.kept hab)
  copied {a b} hno hso := by
    cases ha : φ' a with
    | none => exact h'.copied ha hso
    | some c =>
      cases (h'.grows a c ha).symm.trans hso
      obtain ⟨o,sh,o',ho,hsh,ho',hc⟩ := h.copied hno ha
      exact ⟨o,sh,o',ho,hsh,(h'.kept ha).trans ho',hc.mono h'.grows⟩

end Linking

namespace Filling
variable {d d' : SnapshotDictionary} {r r' r'' : Input} {φ φ' φ'' : Images} {a b : Word} {o : RawObject}

section
variable (h : Filling roots r φ a b d r' φ' o)
include h

theorem reads (h' : Reads roots d' r' r'' φ' φ'') : Filling roots r φ a b d' r'' φ'' o where
  linked := h'.linked
  grows := h.grows.trans h'.grows
  new := h.new
  self := h'.grows _ _ h.self
  object := (h'.kept h.self).trans h.object
  kept hab := (h'.kept (h.grows _ _ hab)).trans (h.kept hab)
  copied {x y} hne hno hso := by
    cases hx : φ' x with
    | none => exact h'.copied hx hso
    | some z =>
      cases (h'.grows x z hx).symm.trans hso
      obtain ⟨o,sh,o',ho,hsh,ho',hc⟩ := h.copied hne hno hx
      exact ⟨o,sh,o',ho,hsh,(h'.kept hx).trans ho',hc.mono h'.grows⟩

theorem atFile (rest : List Byte) : Filling roots r φ a b d { r' with file := rest } φ' o :=
  ⟨h.linked.atFile rest,h.grows,h.new,h.self,h.object,h.kept,h.copied⟩

theorem modify (f : RawObject → RawObject) : Filling roots r φ a b d (r'.modify b f) φ' (f o) where
  linked := h.linked.modify b f
  grows := h.grows
  new := h.new
  self := h.self
  object := by
    change update r'.memory b _ b = _
    rw [update_self,h.object]
    rfl
  kept {x y} hxy := by
    have hne : y ≠ b := by
      rintro rfl
      cases h.linked.injective (h.grows _ _ hxy) h.self
      exact absurd (h.new.symm.trans hxy) nofun
    exact (update_of_ne hne ..).trans (h.kept hxy)
  copied {x y} hne hno hso := by
    have hyb : y ≠ b := by
      rintro rfl
      exact hne (h.linked.injective hso h.self)
    obtain ⟨o,sh,o',ho,hsh,ho',hc⟩ := h.copied hne hno hso
    exact ⟨o,sh,o',ho,hsh,(update_of_ne hyb ..).trans ho',hc⟩

theorem finish {original : RawObject} {shape : InstanceShape}
    (ho : m.object a = some original) (hsh : shapeOf m.object original = some shape)
    (hc : Copied φ' shape original o) : Reads roots d r r' φ φ' where
  linked := h.linked
  grows := h.grows
  kept := h.kept
  copied {x y} hno hso := by
    by_cases hxa : x = a
    · cases hxa
      cases h.self.symm.trans hso
      exact ⟨original,shape,o,ho,hsh,h.object,hc⟩
    · exact h.copied hxa hno hso

end

end Filling

variable {rest : List Byte} {r : Input}

theorem readInt64_append (h : r.file = wordBytes w ++ rest) : r.readInt64 = some (w,{ r with file := rest }) := by
  rw [Input.readInt64,h,readWord_append]
  rfl

theorem Formed.rawObjectSize (h : Formed o shape) : shape.rawObjectSize o = o.size := by
  rw [InstanceShape.rawObjectSize]
  split
  · rfl
  · next hi => exact (h.size (not_not.mp hi)).symm

def sizeBytes (shape : InstanceShape) (o : RawObject) : List Byte :=
  if shape.isIndexed ≠ 0 then wordBytes o.size else []

def begunObject (shape : InstanceShape) (o : RawObject) : RawObject :=
  storeHeader (snapshotEncodeObjectHeader o.hash o.payloadSize o.varsSize) o.size (blank shape o.size)

def begun (r : Input) (b id : Word) (shape : InstanceShape) (o : RawObject) (rest : List Byte) : Input where
  file := rest
  dict := r.dict.atPut id (tagPtr b)
  memory := update r.memory b (some (begunObject shape o))
  free := r.free.tail

theorem readSize (h : Formed o shape) (hf : r.file = sizeBytes shape o ++ rest) :
    (if shape.isIndexed ≠ 0 then r.readInt64 else some (0,r)) = some (o.size,{ r with file := rest }) := by
  rw [sizeBytes] at hf
  split at hf
  · next hi => rw [if_pos hi,readInt64_append hf]
  · next hi =>
    rw [nil_append] at hf
    rw [if_neg hi,h.size (not_not.mp hi),← hf]

variable {b : Word}

theorem readObject_begun {field : Word} {o : RawObject}
    (hm : field &&& objectFieldMask = objectInline) (hfor : Formed o shape) (hf : r.free = b :: free)
    (hfi : r.file = wordBytes (snapshotEncodeShape shape) ++ (wordBytes (snapshotEncodeObjectHeader o.hash
      o.payloadSize o.varsSize) ++ (sizeBytes shape o ++ rest))) :
    readObject (depth+1) field r =
      (readField (readObject depth) (begun r b (field.sshiftRight 3) shape o rest)).bind fun (cls,s) =>
        if isPointer cls ∧ asObject cls ≠ 0 then
          (readFields (readObject depth) b 0 (shape.fields o.size)
            (s.modify b fun object => { object with cls := asObject cls })).bind fun s =>
              (readObjectEnd s b shape o.size).map fun s => (tagPtr b,s)
        else none := by
  rw [readObject,if_pos hm,readInt64_append hfi,bind_some]
  dsimp only
  rw [readInt64_append rfl,bind_some]
  rw [decodeShape_encodeShape,readSize hfor rfl,bind_some]
  rw [Input.allocate]
  rw [hf]
  rw [bind_some]
  have hb : (Input.modify (Input.atPut ⟨rest,r.dict,update r.memory b (some (blank shape o.size)),free⟩
      (field.sshiftRight 3) (tagPtr b)) b
      (storeHeader (snapshotEncodeObjectHeader o.hash o.payloadSize o.varsSize) o.size)) =
      begun r b (field.sshiftRight 3) shape o rest := by
    rw [begun,hf,Input.modify,Input.atPut]
    dsimp only
    rw [update_self,update_idem]
    rfl
  rw [hb]

variable {φ : Images} {a : Word}

theorem Linked.begun (h : Linked roots d r φ) (hd : Numbered roots d) (ha : Reaches roots a)
    (hw : ¬ d.Written a) (hf : r.free = b :: free) (shape : InstanceShape) (o : RawObject) (rest : List Byte) :
    Filling roots r φ a b (d.register a true) (Snapshot.begun r b (d.id a true) shape o rest)
      (update φ a (some b)) (begunObject shape o) := by
  have hno : φ a = none := by
    cases hφ : φ a with
    | none => rfl
    | some => exact absurd ((h.written a).mp (by rw [hφ]; rfl)) hw
  have hb : b ∈ r.free := by
    rw [hf]
    exact mem_cons_self
  have ho : ∀ {x y}, φ x = some y → x ≠ a ∧ y ≠ b := by
    intro x y hxy
    refine ⟨?_,?_⟩
    · rintro rfl
      exact absurd (hno.symm.trans hxy) nofun
    · rintro rfl
      exact h.taken hxy hb
  -- an image is the new one or an old one
  have hca : ∀ {x y}, update φ a (some b) x = some y → x = a ∧ y = b ∨ φ x = some y := by
    intro x y hxy
    rcases eq_or_ne x a with rfl | hne
    · rw [update_self] at hxy
      exact .inl ⟨rfl,(Option.some.inj hxy).symm⟩
    · rw [update_of_ne hne] at hxy
      exact .inr hxy
  have hg : Extends φ (update φ a (some b)) := fun x y hxy => (update_of_ne (ho hxy).1 ..).trans hxy
  have hdis := h.distinct
  rw [hf,nodup_cons] at hdis
  have ht : (Snapshot.begun r b (d.id a true) shape o rest).free = free := by
    rw [Snapshot.begun,hf]
    rfl
  have hl : Linked roots (d.register a true) (Snapshot.begun r b (d.id a true) shape o rest)
      (update φ a (some b)) := by
    constructor
    case written =>
      intro x
      rcases eq_or_ne x a with rfl | hne
      · rw [update_self]
        exact iff_of_true rfl (written_register x)
      · rw [update_of_ne hne,h.written x]
        exact ⟨(grows_register a true).written,fun hx => written_of_register hx hne⟩
    case found =>
      intro x y id hxy hid
      obtain ⟨w,hput⟩ := r.dict.at?_atPut (d.id a true) (tagPtr b)
      change ∃ w, (r.dict.atPut (d.id a true) (tagPtr b)).at? id = some (tagPtr y,w)
      rw [hput]
      rcases hca hxy with ⟨rfl,rfl⟩ | hold
      · cases (at?_register_self x).symm.trans hid
        exact ⟨w,if_pos rfl⟩
      · have hne : id ≠ d.id a true := by
          rintro rfl
          exact (ho hold).1 ((hd.register ha true).injective hid (at?_register_self a))
        rw [if_neg hne]
        obtain ⟨before,-,hat⟩ := d.register_spec a true
        rw [hat,if_neg (ho hold).1] at hid
        exact h.found hold hid
    case injective =>
      intro x x' y hx hx'
      rcases hca hx with ⟨rfl,rfl⟩ | hold <;> rcases hca hx' with ⟨rfl,hy⟩ | hold'
      · rfl
      · exact absurd rfl (ho hold').2
      · exact absurd hy (ho hold).2
      · exact h.injective hold hold'
    case taken =>
      intro x y hxy
      rw [ht]
      rcases hca hxy with ⟨rfl,rfl⟩ | hold
      · exact hdis.1
      · intro hmem
        refine h.taken hold ?_
        rw [hf]
        exact mem_cons_of_mem _ hmem
    case address =>
      intro x y hxy
      rcases hca hxy with ⟨rfl,rfl⟩ | hold
      · exact h.fresh y hb
      · exact h.address hold
    case loaded =>
      intro c
      change (update r.memory b _ c).isSome ↔ _
      rcases eq_or_ne c b with rfl | hne
      · rw [update_self]
        exact iff_of_true rfl ⟨a,update_self ..⟩
      · rw [update_of_ne hne,h.loaded c]
        refine exists_congr fun x => ⟨hg x c,fun hx => ?_⟩
        exact (hca hx).resolve_left fun heq => hne heq.2
    case distinct =>
      rw [ht]
      exact hdis.2
    case fresh =>
      intro c hc
      rw [ht] at hc
      refine h.fresh c ?_
      rw [hf]
      exact mem_cons_of_mem _ hc
    case room =>
      have hlt := (unwritten_register ha hw).trans_le h.room
      rw [hf,length_cons] at hlt
      rw [ht]
      exact Nat.le_of_lt_succ hlt
  refine ⟨hl,hg,hno,update_self ..,update_self ..,?_,?_⟩
  · intro x y hxy
    exact update_of_ne (ho hxy).2 ..
  · intro x y hne hold hnew
    rcases hca hnew with ⟨rfl,-⟩ | hnew
    · exact absurd rfl hne
    · exact absurd (hold.symm.trans hnew) nofun

structure Emits (roots : Roots m) (s s' : Output) (bytes : List Byte) : Prop where
  file : s'.file = s.file ++ bytes
  numbered : Numbered roots s'.dict
  grows : Grows s.dict s'.dict

variable {s : Output}

theorem Emits.trans (h : Emits roots s s' bytes)
    (h' : Emits roots s' s'' bytes') : Emits roots s s'' (bytes ++ bytes') where
  file := by rw [h'.file,h.file,append_assoc]
  numbered := h'.numbered
  grows := h.grows.trans h'.grows

theorem emits_write (h : Numbered roots s.dict) (bytes : List Byte) : Emits roots s (s.write bytes) bytes :=
  ⟨rfl,h,Grows.refl _⟩

theorem emits_ite (h : Numbered roots s.dict) (c : Prop) [Decidable c] (bytes : List Byte) :
    Emits roots s (if c then s.write bytes else s) (if c then bytes else []) := by
  split
  · exact emits_write h bytes
  · exact ⟨(append_nil _).symm,h,Grows.refl _⟩

/-- An object that has not been written can be written, with at most so many calls open, and is read back. -/
def ObjectTransfer (roots : Roots m) (n : ℕ) : Prop :=
  ∀ s a, Reaches roots a → ¬ s.dict.Written a → Numbered roots s.dict → (unwritten roots s.dict).ncard ≤ n →
    ∃ s' field bytes, writeObject m.object n s a = some s' ∧ Emits roots s s' (wordBytes field ++ bytes) ∧
      s'.dict.Written a ∧ field &&& objectFieldMask = objectInline ∧
      ∀ depth r φ rest, bytes.length < depth → Linked roots s.dict r φ → r.file = bytes ++ rest →
        ∃ r' φ' b, readObject depth field r = some (tagPtr b,r') ∧ r'.file = rest ∧ φ' a = some b ∧
          Reads roots s'.dict r r' φ φ'

section Transfer
section
variable (hobject : ObjectTransfer roots n) (hs : Numbered roots s.dict)
  (hn : (unwritten roots s.dict).ncard ≤ n)
include hobject hs hn

theorem ObjectTransfer.fieldObject (ha : Reaches roots a) : ∃ s' bytes,
      writeFieldObject (writeObject m.object n) s a = some s' ∧ Emits roots s s' bytes ∧ ∀ depth r φ rest,
      bytes.length ≤ depth → Linked roots s.dict r φ → r.file = bytes ++ rest → ∃ r' φ' b,
      readField (readObject depth) r = some (tagPtr b,r') ∧ r'.file = rest ∧ φ' a = some b ∧
      Reads roots s'.dict r r' φ φ' := by
  by_cases hw : s.dict.Written a
  · obtain ⟨id,hid⟩ := hw
    have hlt := hs.id_lt hid
    have hm : (id <<< 3 ||| objectPointer) &&& objectFieldMask = objectPointer := mark_and_mask hlt (by decide)
    refine ⟨s.writeInt64 (id <<< 3 ||| objectPointer),_,by rw [writeFieldObject,hid],emits_write hs _,?_⟩
    intro depth r φ rest _ hl hf
    obtain ⟨b,hb⟩ := isSome_iff_exists.mp ((hl.written a).mpr ⟨id,hid⟩)
    obtain ⟨w,hfo⟩ := hl.found hb hid
    refine ⟨{ r with file := rest },φ,b,?_,rfl,hb,hl.reads rest⟩
    rw [readField,readInt64_append hf,bind_some]
    dsimp only
    rw [hm,if_neg (by decide),if_pos rfl,mark_sshiftRight hlt (by decide),hfo]
    rfl
  · obtain ⟨s',field,bytes,hwr,he,-,hma,hre⟩ := hobject s a ha hw hs hn
    refine ⟨s',wordBytes field ++ bytes,?_,he,?_⟩
    · rw [writeFieldObject]
      split
      · next id hid => exact absurd ⟨id,hid⟩ hw
      · exact hwr
    · intro depth r φ rest hd hl hf
      rw [length_append,length_wordBytes] at hd
      rw [append_assoc] at hf
      obtain ⟨r',φ',b,hrun,hres,hb,hr⟩ := hre depth { r with file := bytes ++ rest } φ rest (by omega)
        (hl.atFile _) rfl
      refine ⟨r',φ',b,?_,hres,hb,⟨hr.linked,hr.grows,hr.kept,hr.copied⟩⟩
      rw [readField,readInt64_append hf,bind_some]
      dsimp only
      rw [if_pos hma,hrun]

theorem ObjectTransfer.field (hv : isPointer v → Reaches roots (asObject v)) : ∃ s' bytes,
      writeField (writeObject m.object n) s v = some s' ∧ Emits roots s s' bytes ∧ ∀ depth r φ rest,
      bytes.length ≤ depth → Linked roots s.dict r φ → r.file = bytes ++ rest → ∃ r' φ' v',
      readField (readObject depth) r = some (v',r') ∧ r'.file = rest ∧ FieldImage φ' v v' ∧
      Reads roots s'.dict r r' φ φ' := by
  by_cases hp : isPointer v
  · obtain ⟨s',bytes,hw,he,hre⟩ := hobject.fieldObject hs hn (hv hp)
    refine ⟨s',bytes,by rw [writeField,if_pos hp,hw],he,?_⟩
    intro depth r φ rest hd hl hf
    obtain ⟨r',φ',b,hrun,hres,hb,hr⟩ := hre depth r φ rest hd hl hf
    refine ⟨r',φ',tagPtr b,hrun,hres,?_,hr⟩
    rw [FieldImage,if_pos hp]
    exact ⟨b,hb,rfl⟩
  · have hm := mask_ne_of_not_isPointer (Bool.eq_false_iff.mpr hp)
    refine ⟨s.writeInt64 v,_,by rw [writeField,if_neg hp],emits_write hs _,?_⟩
    intro depth r φ rest _ hl hf
    refine ⟨{ r with file := rest },φ,v,?_,rfl,?_,hl.reads rest⟩
    · rw [readField,readInt64_append hf,bind_some]
      dsimp only
      rw [if_neg hm.1,if_neg hm.2]
    · rw [FieldImage,if_neg hp]

theorem ObjectTransfer.fields (hv : ∀ v ∈ vs, isPointer v → Reaches roots (asObject v)) : ∃ s' bytes,
      writeFields (writeObject m.object n) s vs = some s' ∧ Emits roots s s' bytes ∧
      ∀ depth r0 φ0 a b r φ o rest done, bytes.length ≤ depth → Filling roots r0 φ0 a b s.dict r φ o → r.file =
      bytes ++ rest → o.vars = done ++ replicate vs.length 0 → ∃ r' φ' vs',
      readFields (readObject depth) b done.length vs.length r = some r' ∧ r'.file = rest ∧ Extends φ φ' ∧
      Forall₂ (FieldImage φ') vs vs' ∧ Filling roots r0 φ0 a b s'.dict r' φ' { o with vars := done ++ vs' } := by
  induction vs generalizing s with
  | nil =>
    refine ⟨s,[],rfl,⟨(append_nil _).symm,hs,Grows.refl _⟩,?_⟩
    intro depth r0 φ0 a b r φ o rest done _ hf hfi hvar
    refine ⟨r,φ,[],rfl,hfi,fun _ _ h => h,.nil,?_⟩
    rw [length_nil,replicate_zero] at hvar
    rwa [← hvar]
  | cons v vs ih =>
    obtain ⟨s1,b1,hwr1,he1,hr1⟩ := hobject.field hs hn (hv v mem_cons_self)
    obtain ⟨s2,b2,hwr2,he2,hr2⟩ := ih he1.numbered ((unwritten_mono he1.grows).trans hn)
      fun w hw => hv w (mem_cons_of_mem v hw)
    refine ⟨s2,b1 ++ b2,by rw [writeFields,hwr1,bind_some,hwr2],he1.trans he2,?_⟩
    intro depth r0 φ0 a b r φ o rest done hd hf hfi hvar
    rw [length_append] at hd
    rw [append_assoc] at hfi
    obtain ⟨r1,φ1,v',hrun1,hres1,him,hr⟩ := hr1 depth r φ _ (by omega) hf.linked hfi
    have hset : o.vars.set done.length v' = (done ++ [v']) ++ replicate vs.length 0 := by
      rw [hvar,length_cons,replicate_succ,set_append_right _ _ le_rfl,Nat.sub_self,
        set_cons_zero,append_assoc,singleton_append]
    obtain ⟨r2,φ2,vs',hrun2,hres2,he,hi,hf2⟩ := hr2 depth r0 φ0 a b _ φ1 _ rest (done ++ [v'])
      (by omega) ((hf.reads hr).modify fun object => { object with vars := object.vars.set done.length v' })
      hres1 hset
    refine ⟨r2,φ2,v' :: vs',?_,hres2,hr.grows.trans he,.cons (him.mono he) hi,?_⟩
    · rw [length_cons,readFields,hrun1,bind_some]
      rw [length_append,length_singleton] at hrun2
      exact hrun2
    · rw [append_assoc,singleton_append] at hf2
      exact hf2

end

end Transfer

def endBytes (shape : InstanceShape) (o : RawObject) : List Byte :=
  (if shape.hasBytes then o.bytes else []) ++
    if shape.isFloatShape then wordBytes (o.payload.headD 0) else []

theorem emits_end (h : Numbered roots s.dict) (hf : Formed o shape) :
    Emits roots s (writeObjectEnd s shape o) (endBytes shape o) := by
  have ht : o.bytes.take (shape.rawObjectSize o).toNat = o.bytes := by
    refine take_of_length_le ?_
    rw [hf.rawObjectSize,hf.bytes]
    split
    · exact le_rfl
    · exact Nat.zero_le _
  rw [writeObjectEnd,ht]
  have hb := emits_ite h (shape.hasBytes = true) o.bytes
  exact hb.trans (emits_ite hb.numbered (shape.isFloatShape = true) (wordBytes (o.payload.headD 0)))

theorem emits_start (h : Numbered roots s.dict) (ha : Reaches roots a)
    (hfor : Formed o shape) : Emits roots s (writeObjectStart s a shape o)
      (wordBytes (s.dict.id a true <<< 3 ||| objectInline) ++ (wordBytes (snapshotEncodeShape shape) ++
        (wordBytes (snapshotEncodeObjectHeader o.hash o.payloadSize o.varsSize) ++ sizeBytes shape o))) := by
  have hr : Emits roots s { s with dict := s.dict.register a true } [] :=
    ⟨(append_nil _).symm,h.register ha true,grows_register a true⟩
  have hf := emits_write hr.numbered (wordBytes (s.dict.id a true <<< 3 ||| objectInline))
  have hsh := emits_write hf.numbered (wordBytes (snapshotEncodeShape shape))
  have hh := emits_write hsh.numbered (wordBytes (snapshotEncodeObjectHeader o.hash o.payloadSize o.varsSize))
  have hsi := emits_ite hh.numbered (shape.isIndexed ≠ 0) (wordBytes o.size)
  rw [writeObjectStart,hfor.rawObjectSize]
  exact hr.trans (hf.trans (hsh.trans (hh.trans hsi)))

theorem dict_start (s : Output) (a : Word) (shape : InstanceShape) (o : RawObject) :
    (writeObjectStart s a shape o).dict = s.dict.register a true := by
  rw [writeObjectStart]
  split <;> rfl

theorem dict_end (s : Output) (shape : InstanceShape) (o : RawObject) : (writeObjectEnd s shape o).dict = s.dict := by
  rw [writeObjectEnd]
  split <;> split <;> rfl

theorem Filling.readBytes (h : Filling roots r0 φ0 a b d r φ p) (hfor : Formed o shape)
    (hf : r.file = (if shape.hasBytes then o.bytes else []) ++ rest)
    (hb : p.bytes = replicate (if shape.hasBytes then o.size.toNat else 0) 0) :
    let r' := if shape.hasBytes then r.readBytes b o.size.toNat else r
    r'.file = rest ∧ Filling roots r0 φ0 a b d r' φ { p with bytes := o.bytes } := by
  have hl := hfor.bytes
  split at hf
  · next hhas =>
    rw [if_pos hhas] at hl hb
    rw [if_pos hhas]
    have ht : r.file.take o.size.toNat = o.bytes := by rw [hf,take_left' hl]
    refine ⟨?_,?_⟩
    · change r.file.drop o.size.toNat = rest
      rw [hf,drop_left' hl]
    · have hm := (h.atFile (r.file.drop o.size.toNat)).modify fun object =>
        { object with
          bytes := r.file.take o.size.toNat ++ object.bytes.drop (r.file.take o.size.toNat).length }
      have hd : r.file.take o.size.toNat ++ p.bytes.drop (r.file.take o.size.toNat).length = o.bytes := by
        rw [ht,hb,drop_replicate,hl,Nat.sub_self,replicate_zero,append_nil]
      rw [hd] at hm
      exact hm
  · next hhas =>
    rw [if_neg hhas] at hl hb
    rw [if_neg hhas]
    have hnil : p.bytes = o.bytes := by rw [hb,replicate_zero,length_eq_zero_iff.mp hl]
    refine ⟨hf,?_⟩
    rw [← hnil]
    exact h

theorem Filling.readEnd
    (h : Filling roots r0 φ0 a b d r φ p) (hfor : Formed o shape) (hf : r.file = endBytes shape o ++ rest)
    (hb : p.bytes = replicate (if shape.hasBytes then o.size.toNat else 0) 0)
    (hp : p.payload = replicate shape.payloadSize.toNat 0) :
    ∃ r', readObjectEnd r b shape o.size = some r' ∧ r'.file = rest ∧ Filling roots r0 φ0 a b d r' φ
      { p with
        bytes := o.bytes
        payload := if shape.isFloatShape then o.payload else replicate o.payload.length 0 } := by
  rw [endBytes,append_assoc] at hf
  obtain ⟨hf1,hfi⟩ := h.readBytes hfor hf hb
  rw [readObjectEnd]
  generalize (if shape.hasBytes then r.readBytes b o.size.toNat else r) = r1 at hf1 hfi ⊢
  split
  · next hfl =>
    rw [if_pos hfl] at hf1
    rw [readInt64_append hf1]
    refine ⟨_,rfl,rfl,?_⟩
    have hsi : shape.payloadSize = 1 := by
      rw [InstanceShape.isFloatShape,Bool.and_eq_true,Bool.and_eq_true,decide_eq_true_iff] at hfl
      exact hfl.1.1
    have hone := hfor.payload
    rw [hsi] at hone hp
    obtain ⟨bits,hbi⟩ := length_eq_one_iff.mp hone
    have hset : p.payload.set 0 (o.payload.headD 0) = o.payload := by
      rw [hp,hbi]
      rfl
    have hm := (hfi.atFile rest).modify fun object =>
      { object with payload := object.payload.set 0 (o.payload.headD 0) }
    rw [hset] at hm
    exact hm
  · next hfl =>
    rw [if_neg hfl,nil_append] at hf1
    refine ⟨r1,rfl,hf1,?_⟩
    rw [hfor.payload,← hp]
    exact hfi

theorem copied_of_stored
    (hcls : φ o.cls = some cls) (hv : Forall₂ (FieldImage φ) o.vars vars) :
    Copied φ shape o { begunObject shape o with
      cls := cls
      vars := vars
      bytes := o.bytes
      payload := if shape.isFloatShape then o.payload else replicate o.payload.length 0 } := by
  have hh := decodeObjectHeader_encodeObjectHeader o.hash o.payloadSize o.varsSize
  have hb : begunObject shape o = { blank shape o.size with
      size := o.size, hash := o.hash, payloadSize := o.payloadSize, varsSize := o.varsSize } := by
    rw [begunObject,storeHeader,hh]
    rfl
  rw [hb]
  exact ⟨hcls,rfl,rfl,rfl,rfl,rfl,rfl,rfl,hv,rfl⟩

theorem objectTransfer (roots : Roots m) (n : ℕ) : ObjectTransfer roots n := by
  induction n with
  | zero =>
    intro s a ha hw _ hn
    have hem := (Set.ncard_eq_zero (Set.toFinite _)).mp (Nat.le_zero.mp hn)
    exact absurd (show a ∈ unwritten roots s.dict from ⟨ha,hw⟩) (by rw [hem]; exact Set.notMem_empty a)
  | succ n ih =>
    intro s a ha hw hs hn
    obtain ⟨o,ho⟩ := isSome_iff_exists.mp ha.isSome
    obtain ⟨sh,hsh,hf⟩ := m.formed ho
    have hst := emits_start hs ha hf
    have hle : (unwritten roots (writeObjectStart s a sh o).dict).ncard ≤ n := by
      rw [dict_start]
      exact Nat.le_of_lt_succ ((unwritten_register ha hw).trans_le hn)
    obtain ⟨s1,b1,hwr1,he1,hr1⟩ := ih.fieldObject hst.numbered hle (.cls ha ho)
    obtain ⟨s2,b2,hwr2,he2,hr2⟩ := ih.fields he1.numbered
      ((unwritten_mono he1.grows).trans hle) fun v hv hp => .field ha ho hv hp
    have hend := emits_end he2.numbered hf
    have hid : (s.dict.id a true).toNat < 1152921504606846976 := (hs.register ha true).id_lt (at?_register_self a)
    have hm : (s.dict.id a true <<< 3 ||| objectInline) &&& objectFieldMask = objectInline :=
      mark_and_mask hid (by decide)
    have ht : o.vars.take (sh.fields (sh.rawObjectSize o)) = o.vars := by rw [hf.rawObjectSize,← hf.vars,take_length]
    have he := hst.trans (he1.trans (he2.trans hend))
    rw [append_assoc] at he
    refine ⟨writeObjectEnd s2 sh o,_,_,?_,he,?_,hm,?_⟩
    · rw [writeObject,ho,bind_some,hsh,bind_some,hwr1,bind_some,ht,hwr2]
      rfl
    · refine (he1.grows.trans (he2.grows.trans hend.grows)).written ?_
      rw [dict_start]
      exact written_register a
    · intro depth r φ rest hd hl hfile
      simp only [append_assoc] at hfile
      simp only [length_append] at hd
      obtain ⟨depth,rfl⟩ := Nat.exists_eq_succ_of_ne_zero (Nat.ne_zero_of_lt hd)
      -- there is room for one more object
      obtain ⟨b,free,hfr⟩ : ∃ b free, r.free = b :: free := by
        refine exists_cons_of_ne_nil fun hnil => ?_
        have hr := (unwritten_register ha hw).trans_le hl.room
        rw [hnil] at hr
        exact Nat.not_lt_zero _ hr
      have hb := hl.begun hs ha hw hfr sh o (b1 ++ (b2 ++ (endBytes sh o ++ rest)))
      have hb' := hb.linked
      rw [← dict_start s a sh o] at hb'
      obtain ⟨r1,φ1,cls,hrun1,hfile1,hcls,hre1⟩ := hr1 depth _ _ _ (by omega) hb' rfl
      obtain ⟨hc,hclsNe⟩ := hre1.linked.address hcls
      have hfi1 := (hb.reads hre1).modify fun object => { object with cls := cls }
      obtain ⟨r2,φ2,vars,hrun2,hfile2,hex2,hvar,hfi2⟩ := hr2 depth r φ a b _ φ1 _
        (endBytes sh o ++ rest) [] (by omega) hfi1 hfile1 (by rw [hf.vars]; rfl)
      obtain ⟨r3,hrun3,hfile3,hfi3⟩ := hfi2.readEnd hf hfile2 rfl rfl
      rw [dict_end]
      refine ⟨r3,φ2,b,?_,hfile3,hfi3.self,hfi3.finish ho hsh ?_⟩
      · rw [readObject_begun hm hf hfr hfile,mark_sshiftRight hid (by decide),hrun1,bind_some]
        dsimp only
        rw [asObject_tagPtr,if_pos ⟨isPointer_tagPtr hc,hclsNe⟩,← hf.vars]
        rw [length_nil] at hrun2
        rw [hrun2,bind_some,hrun3]
        rfl
      · exact copied_of_stored (hex2 _ _ hcls) hvar

end SmalltalkJit.Snapshot
