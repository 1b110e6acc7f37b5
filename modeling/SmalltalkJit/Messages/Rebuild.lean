import SmalltalkJit.Messages.Transfer

/-! # Reading a message back

A message along a good walk is read back: symbols and classes as themselves, and
every other object as a copy that is complete when its call returns. The induction
is on how deep the objects of the message are inside one another, and within an
object along its fields.
-/
namespace SmalltalkJit.Messages
open ByteStream Snapshot Function List Option

variable {heap : MessageHeap} {s s' : Visit} {r r' : Reader} {φ φ' : Word → Word} {a b v : Word}
  {o : RawObject} {shape : Snapshot.InstanceShape} {text : List Byte}

theorem nameText_length (h : nameText memory a = some text) : text.length < 4294967296 := by
  obtain ⟨object,-,h⟩ := bind_eq_some_iff.mp h
  obtain ⟨shape,-,h⟩ := bind_eq_some_iff.mp h
  dsimp only at h
  split at h
  · next hle =>
    cases h
    rw [length_take_of_le hle]
    exact BitVec.isLt _
  · cases h

theorem nameText_symbol (ho : heap.memory.object a = some o) (hcls : o.cls = heap.handles.Symbol)
    (h : nameText heap.memory.object a = some text) :
    text = o.bytes.take (o.size.toNat % 4294967296) ∧ o.bytes.length = o.size.toNat := by
  obtain ⟨shape,hsh,hformed⟩ := heap.memory.formed ho
  have hl := hformed.bytes
  rw [if_pos (heap.text ho hcls hsh)] at hl
  rw [nameText,ho,bind_some,hsh,bind_some,hformed.rawObjectSize] at h
  dsimp only at h
  split at h
  · cases h
    exact ⟨by rw [BitVec.toNat_setWidth],hl⟩
  · cases h

section Fine

section
variable (h : heap.Fine a) (ho : heap.memory.object a = some o)
include h ho

theorem fine_symbol (hcls : o.cls = heap.handles.Symbol) : o.size.toNat < 4294967296 := by
  cases h with
  | symbol ho' _ hsi =>
    cases ho.symm.trans ho'
    exact hsi
  | cls ho' hne | object ho' hne =>
    cases ho.symm.trans ho'
    exact absurd hcls hne

theorem fine_cls (hcls : o.cls ≠ heap.handles.Symbol) (hc : heap.isClassObject o) (hn : className o = some name)
    (ht : nameText heap.memory.object name = some text) : text.length < nameSize ∧ heap.classNamed text = a := by
  cases h with
  | symbol ho' hsy =>
    cases ho.symm.trans ho'
    exact absurd hsy hcls
  | cls ho' _ _ hn' ht' hsh hf =>
    cases ho.symm.trans ho'
    cases hn.symm.trans hn'
    cases ht.symm.trans ht'
    exact ⟨hsh,hf⟩
  | object ho' _ hnot =>
    cases ho.symm.trans ho'
    exact absurd hc hnot

theorem fine_object (hcls : o.cls ≠ heap.handles.Symbol) (hcl : ¬ heap.isClassObject o)
    (hc : heap.memory.object o.cls = some cls)
    (hsh : cls.instanceShape = some shape) (hn : className cls = some name)
    (ht : nameText heap.memory.object name = some text) :
    text.length < nameSize ∧ heap.classNamed text = o.cls ∧ o.size.toNat < 4294967296 ∧
      (shape.hasBytes → ∀ v ∈ o.vars, v = tagPtr heap.handles.nil) := by
  cases h with
  | symbol ho' hsy =>
    cases ho.symm.trans ho'
    exact absurd hsy hcls
  | cls ho' _ hyes =>
    cases ho.symm.trans ho'
    exact absurd hyes hcl
  | object ho' _ _ hc' hsh' hn' ht' hsho hf hsi hvars =>
    cases ho.symm.trans ho'
    cases hc.symm.trans hc'
    cases hsh.symm.trans hsh'
    cases hn.symm.trans hn'
    cases ht.symm.trans ht'
    exact ⟨hsho,hf,hsi,hvars⟩

end

end Fine

variable {free : List Word}

section Header
variable {handles : Handles} {globals : Word → Option Word} {readValue : Reader → Option (Word × Reader)}
  {r1 : Reader} {cls : Word} {rest : List Byte}

def begun (handles : Handles) (r : Reader) (b cls : Word) (shape : Snapshot.InstanceShape) (hash : BitVec 32) (size : Word)
    (rest : List Byte) : Reader where
  data := rest
  registry := r.registry ++ [b]
  memory := update r.memory b (some { newRawObject handles cls shape size b with hash := hash })
  symbols := r.symbols
  free := r.free.tail

def sizeBytes (shape : Snapshot.InstanceShape) (o : RawObject) (rest : List Byte) : List Byte :=
  wordBytes (o.hash.setWidth 64) ++ (idBytes ((shape.rawObjectSize o).setWidth 32) ++ rest)

def sentSize (shape : Snapshot.InstanceShape) (o : RawObject) : Id := (shape.rawObjectSize o).setWidth 32

theorem header_append (text : List Byte) (shape : Snapshot.InstanceShape) (o : RawObject) (rest : List Byte) :
    headerBytes text shape o ++ rest = nameBytes text ++ sizeBytes shape o rest := by
  rw [headerBytes,sizeBytes,append_assoc,append_assoc]

theorem begun_eq (hf : r1.free = b :: free) (shape' : Snapshot.InstanceShape) (size : Word) (hash : BitVec 32) :
    (Reader.regNew (Reader.modify ⟨rest,r1.registry,
      update r1.memory b (some (newRawObject handles cls shape' size b)),r1.symbols,free⟩ b
        fun object => { object with hash := (hash.setWidth 64).setWidth 32 }) b) =
      begun handles r1 b cls shape' hash size rest := by
  have hh : (hash.setWidth 64).setWidth 32 = hash := by
    rw [BitVec.setWidth_setWidth_of_le _ (by decide),BitVec.setWidth_eq]
  rw [begun,hf,Reader.regNew,Reader.modify]
  dsimp only
  rw [update_self,update_idem,hh]
  rfl

theorem readObject_eq (hlt : text.length < 4294967296)
    (hd : r.data = headerBytes text shape o ++ rest) (hsh : text.length < nameSize)
    (hc : getClass handles globals { r with data := sizeBytes shape o rest } text = some (cls,r1))
    (hsha : (r1.memory cls).bind RawObject.instanceShape = some shape') (hf : r1.free = b :: free) :
    readObject handles globals readValue r = (readBody readValue
      (begun handles r1 b cls shape' o.hash ((sentSize shape o).setWidth 64) rest) b shape'
        (sentSize shape o).toNat).map fun r => (tagPtr b,r) := by
  rw [header_append] at hd
  have hd1 : r1.data = sizeBytes shape o rest := (getClass_allocates hc).1.data
  rw [readObject,curName_append hlt hd,bind_some]
  dsimp only
  rw [if_pos hsh,hc,bind_some]
  rw [curI64_append hd1,bind_some]
  rw [curU32_append rfl,bind_some]
  rw [allocateObject]
  rw [hsha,bind_some,Reader.place]
  rw [hf]
  rw [map_some,bind_some]
  rw [begun_eq hf]
  rfl

theorem readObject_inv (hlt : text.length < 4294967296) (hd : r.data = headerBytes text shape o ++ rest)
    (h : readObject handles globals readValue r = some (v,r')) : text.length < nameSize ∧
      ∃ cls r1 shape' b free, getClass handles globals { r with data := sizeBytes shape o rest } text = some (cls,r1) ∧
        (r1.memory cls).bind RawObject.instanceShape = some shape' ∧ r1.free = b :: free := by
  have hd' := hd
  rw [header_append] at hd'
  rw [readObject,curName_append hlt hd',bind_some] at h
  dsimp only at h
  split at h
  · next hsh =>
    obtain ⟨⟨cls,r1⟩,hc,h⟩ := bind_eq_some_iff.mp h
    have hd1 : r1.data = sizeBytes shape o rest := (getClass_allocates hc).1.data
    rw [curI64_append hd1,bind_some] at h
    rw [curU32_append rfl,bind_some] at h
    obtain ⟨⟨b,shape',r2⟩,ha,-⟩ := bind_eq_some_iff.mp h
    obtain ⟨sh'',hsha,hpl⟩ := bind_eq_some_iff.mp ha
    obtain ⟨⟨b',r3⟩,hpl,-⟩ := map_eq_some_iff.mp hpl
    exact ⟨hsh,cls,r1,sh'',b',r3.free,hc,hsha,(place_eq hpl).1⟩
  · cases h

end Header

section Filling

theorem Linked.modify (h : Linked heap s r φ) (hb : heap.memory.object b = none) (f : RawObject → RawObject) :
    Linked heap s (r.modify b f) φ := by
  refine ⟨h.grounded.frame (Frame.modify r b f) ?_,h.registry,h.nodup,h.object,h.injective,h.single,h.shared,h.copied,h.room⟩
  rintro c rfl
  exact hb

theorem Reads.mono (h : Reads heap ∅ s s' r r' φ φ') : Reads heap {b} s s' r r' φ φ' :=
  ⟨h.linked,h.agree,h.complete,h.frame.mono,h.grows⟩

theorem Reads.modify (h : Reads heap {b} s s' r r' φ φ') (ha : a ∈ s.met) (hcopy : ¬ heap.Shared a) (hb : φ a = b)
    (f : RawObject → RawObject) : Reads heap {b} s s' r (r'.modify b f) φ φ' := by
  have ha' : a ∈ s'.met := h.grows.met.subset ha
  have hb' : φ' a = b := (h.agree a ha).trans hb
  have hn := (h.linked.copied ha' hcopy).1
  rw [hb'] at hn
  refine ⟨h.linked.modify hn f,h.agree,fun x hx hnew hx' => ?_,h.frame.trans (Frame.modify r' b f),h.grows⟩
  refine (h.complete x hx hnew hx').mono (Grows.refl s') (fun _ _ => rfl) (.inl hx) (update_of_ne ?_ ..)
  rw [← hb']
  exact fun heq => hnew (h.linked.injective hx ha' heq ▸ ha)

theorem memory_modify (h : r.memory b = some p) (f : RawObject → RawObject) :
    (r.modify b f).memory b = some (f p) := by
  change update r.memory b _ b = _
  rw [update_self,h]
  rfl

end Filling

def Sends (heap : MessageHeap) (s : Visit) (v : Word) (bytes : List Byte) (s' : Visit) : Prop :=
  ∀ depth r φ rest, bytes.length ≤ depth → Linked heap s r φ → r.data = bytes ++ rest →
    ∃ r' φ', readValue heap.handles heap.globals depth r = some (imageOf φ' v,r') ∧ r'.data = rest ∧
      Reads heap ∅ s s' r r' φ φ' ∧ (isPointer v → Known heap s' (asObject v))

/-- What a reading delivers when the value is read as its image. -/
def Delivers (heap : MessageHeap) (s : Visit) (r : Reader) (φ : Word → Word) (v : Word) (rest : List Byte) (s' : Visit)
    (result : Option (Word × Reader)) : Prop :=
  ∃ r' φ', result = some (imageOf φ' v,r') ∧ r'.data = rest ∧ Reads heap ∅ s s' r r' φ φ' ∧
    (isPointer v → Known heap s' (asObject v))

theorem sends_of_tag
    (h : ∀ depth r φ rest, bytes.length ≤ depth → Linked heap s r φ → r.data = bytes ++ rest →
      Delivers heap s r φ v rest s'
        (readTagged heap.handles heap.globals (readValue heap.handles heap.globals depth) r tag)) :
    Sends heap s v (tag.byte :: bytes) s' := by
  intro depth r φ rest hde hlinked hd
  rw [length_cons] at hde
  obtain ⟨depth,rfl⟩ := Nat.exists_eq_add_one_of_ne_zero (show depth ≠ 0 by omega)
  obtain ⟨r',φ',hrun,hd',hr,hk⟩ := h depth { r with data := bytes ++ rest } φ rest (by omega) (hlinked.move _) rfl
  exact ⟨r',φ',(readValue_tag hd).trans hrun,hd',{ hr with frame := (Frame.data _ r _).trans hr.frame },hk⟩

variable {rest : List Byte}

section Contents
variable (ih : ∀ s v bytes s', Message heap n s v bytes s' → heap.Good s' → Sends heap s v bytes s')
include ih

theorem fields_send (hc : Chain (Message heap n) s vs bytes s') (hgood : heap.Good s') (hde : bytes.length ≤ depth)
    (hlinked : Linked heap s r φ) (ha : a ∈ s.met) (hcopy : ¬ heap.Shared a) (hb : φ a = b) (hp : r.memory b = some p)
    (hvars : p.vars = done ++ fill) (hf : fill.length = vs.length) (hd : r.data = bytes ++ rest) : ∃ r' φ',
      readFields (readValue heap.handles heap.globals depth) b done.length vs.length r = some r' ∧ r'.data = rest ∧
      Reads heap {b} s s' r r' φ φ' ∧ r'.memory b = some { p with vars := done ++ vs.map (imageOf φ') } ∧ ∀ v ∈ vs,
      isPointer v → Known heap s' (asObject v) := by
  induction hc generalizing r φ p done fill with
  | nil =>
    refine ⟨r,φ,rfl,hd,(hlinked.reads r.data).mono,?_,nofun⟩
    rw [length_eq_zero_iff.mp hf] at hvars
    rw [hp,map_nil,← hvars]
  | cons head tail ihc =>
    rename_i s s1 s2 v vs b1 b2
    rw [length_append] at hde
    rw [append_assoc] at hd
    have ht : Grows s1 s2 := tail.grows fun _ _ _ _ => Message.grows
    obtain ⟨r1,φ1,hrun1,hd1,hr1,hk1⟩ := ih s v b1 s1 head (ht.good hgood) depth r φ (b2 ++ rest) (by omega) hlinked hd
    have hp1 : r1.memory b = some p := by
      rw [hr1.frame.memory b (hb ▸ (hlinked.copied ha hcopy).2.2) (Set.notMem_empty b),hp]
    obtain ⟨f,fill',rfl⟩ : ∃ f fill', fill = f :: fill' := exists_cons_of_length_eq_add_one (by rw [hf,length_cons])
    have hset : p.vars.set done.length (imageOf φ1 v) = (done ++ [imageOf φ1 v]) ++ fill' := by
      rw [hvars,set_append_right _ _ le_rfl,Nat.sub_self,set_cons_zero,append_assoc,singleton_append]
    let store := fun object : RawObject => { object with vars := object.vars.set done.length (imageOf φ1 v) }
    have hst := hr1.mono.modify ha hcopy hb store
    have ha1 : a ∈ s1.met := hr1.grows.met.subset ha
    obtain ⟨r2,φ2,hrun2,hd2,hr2,hp2,hk2⟩ := ihc hgood (by omega) hst.linked ha1
      ((hr1.agree a ha).trans hb) (memory_modify hp1 store) hset (Nat.succ.inj hf) hd1
    have hi : imageOf φ2 v = imageOf φ1 v := imageOf_congr fun hpo =>
      hr1.linked.known_agree hr2.linked hr2.agree (hk1 hpo)
    refine ⟨r2,φ2,?_,hd2,hst.trans hr2 ?_,?_,?_⟩
    · rw [length_cons,readFields,hrun1,bind_some]
      rw [length_append,length_singleton] at hrun2
      exact hrun2
    · rintro c rfl
      exact ⟨a,ha,hb⟩
    · rw [hp2,map_cons,hi,append_assoc,singleton_append]
    · intro u hu hpo
      rcases mem_cons.mp hu with rfl | hu
      · exact ht.known (hk1 hpo)
      · exact hk2 u hu hpo

end Contents

section Sizes

theorem sentSize_eq (hformed : Formed o shape) (hsi : o.size.toNat < 4294967296) :
    (sentSize shape o).toNat = o.size.toNat ∧ (sentSize shape o).setWidth 64 = o.size := by
  have hnat : (sentSize shape o).toNat = o.size.toNat := by
    rw [sentSize,hformed.rawObjectSize,BitVec.toNat_setWidth]
    exact Nat.mod_eq_of_lt hsi
  refine ⟨hnat,BitVec.eq_of_toNat_eq ?_⟩
  rw [BitVec.toNat_setWidth,hnat]
  exact Nat.mod_eq_of_lt o.size.isLt

theorem hasBytes_iff : shape.hasBytes = true ↔ shape.isIndexed ≠ 0 ∧ shape.isBytes ≠ 0 := by
  rw [Snapshot.InstanceShape.hasBytes,Bool.and_eq_true,decide_eq_true_iff,decide_eq_true_iff]

variable (hformed : Formed o shape)
include hformed

theorem new_vars_length (handles : Handles) (cls : Word) :
    (newRawObject handles cls shape o.size b).vars = List.replicate o.vars.length (tagPtr handles.nil) := by
  have hc : (if shape.isBytes ≠ 0 then 0 else o.size.toNat) =
      if shape.isIndexed ≠ 0 ∧ shape.isBytes = 0 then o.size.toNat else 0 := by
    by_cases hby : shape.isBytes = 0
    · by_cases hi : shape.isIndexed = 0
      · rw [if_neg (not_not.mpr hby),if_neg (fun h => h.1 hi),hformed.size hi]
        rfl
      · rw [if_neg (not_not.mpr hby),if_pos ⟨hi,hby⟩]
    · rw [if_pos hby,if_neg (fun h => hby h.2)]
  change List.replicate (shape.varsSize.toNat + if shape.isBytes ≠ 0 then 0 else o.size.toNat) _ = _
  rw [hc,hformed.vars]
  rfl

theorem nfields_length (hby : ¬ shape.hasBytes) : nfields shape o.size.toNat = o.vars.length := by
  rw [nfields,hformed.vars,Snapshot.InstanceShape.fields]
  congr 1
  rw [hasBytes_iff] at hby
  by_cases hi : shape.isIndexed = 0
  · rw [if_neg (not_not.mpr hi),if_neg (fun h => h.1 hi)]
  · have hz : shape.isBytes = 0 := not_not.mp fun h => hby ⟨hi,h⟩
    rw [if_pos hi,if_pos ⟨hi,hz⟩]

theorem new_bytes (hby : ¬ shape.hasBytes) (handles : Handles) (cls : Word) :
    (newRawObject handles cls shape o.size b).bytes = o.bytes := by
  have hl := hformed.bytes
  rw [if_neg hby] at hl
  rw [length_eq_zero_iff.mp hl,newRawObject]
  dsimp only
  rw [hasBytes_iff] at hby
  split
  · next hne =>
    have hi : shape.isIndexed = 0 := not_not.mp fun h => hby ⟨h,hne⟩
    rw [hformed.size hi]
    rfl
  · rfl

theorem new_size (handles : Handles) (cls : Word) : (newRawObject handles cls shape o.size b).size = o.size := by
  rw [newRawObject]
  split
  · rfl
  · next hi => exact (hformed.size (not_not.mp hi)).symm

end Sizes

theorem begun_frame {hash : BitVec 32} (hf : r.free = b :: free) :
    Frame ∅ r (begun handles r b cls shape hash size rest) := by
  refine ⟨tail_suffix _,fun c hc _ => update_of_ne ?_ ..,prefix_append _ _,id,.inl⟩
  rintro rfl
  exact hc (hf ▸ mem_cons_self)

theorem not_shared (hs : heap.isSingleton a = false) (ho : heap.memory.object a = some o)
    (hcls : o.cls ≠ heap.handles.Symbol) (hc : ¬ heap.isClassObject o) : ¬ heap.Shared a := by
  rintro (hsi | ⟨o',ho',hca⟩)
  · rw [hs] at hsi
    exact absurd hsi Bool.false_ne_true
  · cases ho.symm.trans ho'
    exact hca.elim hcls hc

theorem begun_linked (shape : Snapshot.InstanceShape) (hash : BitVec 32) (size : Word) (rest : List Byte)
    (hlinked : Linked heap s r φ) (hso : (heap.memory.object a).isSome)
    (hnew : a ∉ s.met) (hs : heap.isSingleton a = false) (hcopy : ¬ heap.Shared a)
    (hget : getClass heap.handles heap.globals { r with data := data } text = some (cls,r1))
    (hf : r1.free = b :: free) : let r2 := begun heap.handles r1 b cls shape hash size rest
    Linked heap (s.meet a) r2 (update φ a b) ∧ Frame ∅ r r2 ∧ b ∈ r.free ∧ b ∉ r2.free := by
  intro r2
  have ha := (getClass_allocates hget).1
  have hfr1 : Frame ∅ r r1 := (Frame.data _ r data).trans ha.toFrame
  have hfr2 : Frame ∅ r r2 := hfr1.trans (begun_frame hf)
  have hb : b ∈ r.free := hfr1.free.subset (hf ▸ mem_cons_self)
  have hd := (hlinked.grounded.frame_empty hfr1).distinct
  rw [hf,nodup_cons] at hd
  have hf2 : r2.free = free := by
    change r1.free.tail = free
    rw [hf]
    rfl
  have hr1 : r.free.length ≤ r1.free.length+2 := ha.room
  rw [hf,length_cons] at hr1
  refine ⟨hlinked.meet hso hnew hs hfr2 ?_ ?_ (.inr ⟨hcopy,hb,hf2 ▸ hd.1⟩),hfr2,hb, hf2 ▸ hd.1⟩
  · change r1.registry ++ [b] = _
    rw [ha.numbers]
  · rw [hf2]
    omega

def begunObject (heap : MessageHeap) (shape : Snapshot.InstanceShape) (o : RawObject) (b : Word) : RawObject :=
  { newRawObject heap.handles o.cls shape o.size b with hash := o.hash }

section Objects
variable (ih : ∀ s v bytes s', Message heap n s v bytes s' → heap.Good s' → Sends heap s v bytes s')
include ih

section
variable (hgood : heap.Good s') (hformed : Formed o shape) (hcopy : ¬ heap.Shared a)
  (hcontents : if shape.hasBytes then contents = o.bytes ∧ s' = s.meet a else Chain (Message heap n) (s.meet a) o.vars contents s')
  (hvars : shape.hasBytes → ∀ v ∈ o.vars, v = tagPtr heap.handles.nil) (hlinked : Linked heap (s.meet a) r φ)
  (hb : φ a = b) (hp : r.memory b = some (begunObject heap shape o b))
include hgood hformed hcopy hcontents hvars hlinked hb hp

theorem contents_send (hd : r.data = contents ++ rest) (hde : contents.length ≤ depth) :
    ∃ r' φ', (if shape.hasBytes then (r.curBytes o.size.toNat).map fun (bytes,r) =>
          r.modify b fun object => { object with bytes := bytes }
        else readFields (readValue heap.handles heap.globals depth) b 0 (nfields shape o.size.toNat) r) = some r' ∧
      r'.data = rest ∧ Reads heap {b} (s.meet a) s' r r' φ φ' ∧
      r'.memory b = some { begunObject heap shape o b with vars := o.vars.map (imageOf φ'), bytes := o.bytes } ∧
      ∀ v ∈ o.vars, isPointer v → Known heap s' (asObject v) := by
  have ha := mem_meet_self s a
  have hnew : (begunObject heap shape o b).vars = List.replicate o.vars.length (tagPtr heap.handles.nil) :=
    new_vars_length (b := b) hformed heap.handles o.cls
  by_cases hby : shape.hasBytes
  · rw [if_pos hby] at hcontents ⊢
    obtain ⟨rfl,rfl⟩ := hcontents
    have hl := hformed.bytes
    rw [if_pos hby] at hl
    have hsi : heap.isSingleton heap.handles.nil := by simp [MessageHeap.isSingleton]
    have hi : o.vars.map (imageOf φ) = List.replicate o.vars.length (tagPtr heap.handles.nil) := by
      refine eq_replicate_iff.mpr ⟨length_map _,fun v hv => ?_⟩
      obtain ⟨u,hu,rfl⟩ := mem_map.mp hv
      rw [hvars hby u hu,imageOf_tagPtr φ (heap.aligned heap.nil),hlinked.single hsi]
    rw [curBytes_append hd hl,map_some]
    refine ⟨_,φ,rfl,rfl,(hlinked.reads rest).mono.modify ha hcopy hb _,?_,?_⟩
    · refine (memory_modify hp _).trans ?_
      rw [hi,← hnew]
    · intro v hv _
      rw [hvars hby v hv,asObject_tagPtr]
      exact .inr hsi
  · rw [if_neg hby] at hcontents ⊢
    obtain ⟨r',φ',hrun,hd',hr,hp',hk⟩ := fields_send ih hcontents hgood hde hlinked ha hcopy hb hp
      (hnew.trans (nil_append _).symm) length_replicate hd
    refine ⟨r',φ',?_,hd',hr,?_,hk⟩
    · rw [nfields_length hformed hby]
      exact hrun
    · have hn : (begunObject heap shape o b).bytes = o.bytes := new_bytes (b := b) hformed hby heap.handles o.cls
      rw [hp',nil_append,← hn]

theorem body_send (hd : r.data = contents ++ (floatBytes shape o ++ rest)) (hde : contents.length ≤ depth) :
    ∃ r' φ' o', readBody (readValue heap.handles heap.globals depth) r b shape o.size.toNat = some r' ∧
      r'.data = rest ∧ Reads heap {b} (s.meet a) s' r r' φ φ' ∧ r'.memory b = some o' ∧ CopyOf φ' shape o o' ∧
      ∀ v ∈ o.vars, isPointer v → Known heap s' (asObject v) := by
  have ha := mem_meet_self s a
  obtain ⟨r1,φ1,hrun,hd1,hr,hp1,hk⟩ := contents_send ih hgood hformed hcopy hcontents hvars hlinked hb hp hd hde
  have hc : ∀ payload, (shape.isFloatShape → payload = o.payload) → CopyOf φ1 shape o
      { begunObject heap shape o b with vars := o.vars.map (imageOf φ1), bytes := o.bytes, payload := payload } :=
    fun payload hpa => ⟨rfl,rfl,new_size (b := b) hformed heap.handles o.cls,rfl,rfl,hpa⟩
  rw [readBody,hrun,bind_some]
  rw [floatBytes] at hd1
  split at hd1
  · next hf =>
    rw [if_pos hf,curI64_append hd1,map_some]
    have hone := hformed.payload
    have hsi : shape.payloadSize = 1 := by
      rw [Snapshot.InstanceShape.isFloatShape,Bool.and_eq_true,Bool.and_eq_true,decide_eq_true_iff] at hf
      exact hf.1.1
    rw [hsi] at hone
    obtain ⟨bits,hbi⟩ := length_eq_one_iff.mp hone
    have hset : (begunObject heap shape o b).payload.set 0 (o.payload.headD 0) = o.payload := by
      change (List.replicate shape.payloadSize.toNat 0).set 0 _ = _
      rw [hsi,hbi]
      rfl
    refine ⟨_,φ1,_,rfl,rfl,?_,memory_modify hp1 _,hc _ fun _ => hset,hk⟩
    have hm : Reads heap {b} (s.meet a) s' r { r1 with data := rest } φ φ1 :=
      ⟨hr.linked.move rest,hr.agree,hr.complete,hr.frame.trans (Frame.data _ r1 rest),hr.grows⟩
    exact hm.modify ha hcopy hb _
  · next hf =>
    rw [if_neg hf]
    exact ⟨r1,φ1,_,rfl,hd1,hr,hp1,hc _ fun h => absurd h hf,hk⟩

end

theorem object_send (hs : heap.isSingleton a = false) (hnew : a ∉ s.met)
    (ho : heap.memory.object a = some o) (hcls : o.cls ≠ heap.handles.Symbol) (hcl : ¬ heap.isClassObject o)
    (hc : heap.memory.object o.cls = some cls) (hshape : cls.instanceShape = some shape)
    (hn : className cls = some name) (ht : nameText heap.memory.object name = some text)
    (hcontents : if shape.hasBytes then contents = o.bytes ∧ s' = s.meet a else Chain (Message heap n)
      (s.meet a) o.vars contents s')
    (hgood : heap.Good s') :
    Sends heap s (tagPtr a)
      (Tag.object.byte :: (headerBytes text shape o ++ (contents ++ floatBytes shape o))) s' := by
  refine sends_of_tag fun d r φ rest hde hlinked hd => ?_
  simp only [length_append] at hde
  simp only [append_assoc] at hd
  have hso := isSome_of_eq_some ho
  have hg : Grows (s.meet a) s' := by
    split at hcontents
    · exact hcontents.2 ▸ Grows.refl _
    · exact hcontents.grows fun _ _ _ _ => Message.grows
  have ha := mem_meet_self s a
  have ha' : a ∈ s'.met := hg.met.subset ha
  have hcopy := not_shared hs ho hcls hcl
  obtain ⟨sh',hsh,hformed⟩ := heap.memory.formed ho
  have hsh' := hsh
  rw [shapeOf,hc,bind_some] at hsh'
  cases hshape.symm.trans hsh'
  obtain ⟨hsho,hfo,hsi,hvars⟩ := fine_object (hgood.fine a ha') ho hcls hcl hc hshape hn ht
  obtain ⟨hse,hse64⟩ := sentSize_eq hformed hsi
  have hlt := nameText_length ht
  have hro := hlinked.free ho hnew
  let r0 : Reader := { r with data := sizeBytes shape o (contents ++ (floatBytes shape o ++ rest)) }
  have hf0 : Frame ∅ r r0 := Frame.data _ r _
  obtain ⟨r1,hget⟩ := (hlinked.grounded.frame_empty hf0).getClass_isSome text (show 2 ≤ r.free.length by omega)
  rw [hfo] at hget
  have hall := (getClass_allocates hget).1
  have hf1 : Frame ∅ r r1 := hf0.trans hall.toFrame
  have hgr1 := hlinked.grounded.frame_empty hf1
  have hro1 : r.free.length ≤ r1.free.length+2 := hall.room
  obtain ⟨b,free,hf⟩ := exists_cons_of_length_pos (show 0 < r1.free.length by omega)
  have hm : (r1.memory o.cls).bind RawObject.instanceShape = some shape := by rw [hgr1.kept hc,bind_some,hshape]
  obtain ⟨hl2,hf2,hb,-⟩ := begun_linked shape o.hash o.size (contents ++ (floatBytes shape o ++ rest))
    hlinked hso hnew hs hcopy hget hf
  obtain ⟨r3,φ3,o',hrun,hd3,hr,ho',hco,hk⟩ := body_send ih hgood hformed hcopy hcontents hvars hl2
    (update_self ..) (update_self ..) rfl (show contents.length ≤ d by omega)
  have hφ : φ3 a = b := (hr.agree a ha).trans (update_self ..)
  refine ⟨r3,φ3,?_,hd3,⟨hr.linked,fun x hx => ?_,fun x hx hxn hxc => ?_,hf2.fill hb hr.frame,
    (grows_meet s a).trans hg⟩,fun _ => ?_⟩
  · rw [imageOf_tagPtr φ3 (heap.aligned hso),hφ]
    refine (readObject_eq hlt hd hsho hget hm hf).trans ?_
    rw [hse,hse64,hrun]
    rfl
  · rw [hr.agree x ((grows_meet s a).met.subset hx),update_of_ne (ne_of_mem_of_not_mem hx hnew)]
  · by_cases hxa : x = a
    · subst hxa
      exact ⟨o,shape,o',ho,hsh,by rw [hφ,ho'],hco,hk⟩
    · exact hr.complete x hx (fun hmem => (mem_meet.mp hmem).elim hxn hxa) hxc
  · rw [asObject_tagPtr]
    exact .inl ha'

end Objects

section Names

theorem shared_reads (hlinked : Linked heap s r φ) (hso : (heap.memory.object a).isSome) (hnew : a ∉ s.met)
    (hs : heap.isSingleton a = false) (hsh : heap.Shared a) (hf : Frame ∅ r r')
    (hr : r'.registry = r.registry ++ [a]) (hro : r.free.length ≤ r'.free.length+3) :
    Reads heap ∅ s (s.meet a) r r' φ (update φ a a) where
  linked := hlinked.meet hso hnew hs hf hr hro (.inl ⟨hsh,rfl⟩)
  agree x hx := update_of_ne (ne_of_mem_of_not_mem hx hnew) ..
  complete x hx hxn hcopy := by
    cases (mem_meet.mp hx).resolve_left hxn
    exact absurd hsh hcopy
  frame := hf
  grows := grows_meet s a

section
variable (hs : heap.isSingleton a = false) (hnew : a ∉ s.met) (ho : heap.memory.object a = some o)
include hs hnew ho

theorem shared_delivers (hsh : o.cls = heap.handles.Symbol ∨ heap.isClassObject o)
    (hlinked : Linked heap s r φ) (ha : Allocates 2 { r with data := rest } r1) :
    Delivers heap s r φ (tagPtr a) rest (s.meet a) (some (tagPtr a,r1.regNew a)) := by
  have hso := isSome_of_eq_some ho
  refine ⟨r1.regNew a,update φ a a,?_,ha.data,shared_reads hlinked hso hnew hs (.inr ⟨o,ho,hsh⟩)
    ((Frame.data _ r rest).trans (ha.toFrame.trans (Frame.regNew _ _ a))) ?_
    (ha.room.trans (Nat.le_succ _)),fun _ => .inl (by rw [asObject_tagPtr]; exact mem_meet_self s a)⟩
  · rw [imageOf_tagPtr _ (heap.aligned hso),update_self]
  · change r1.registry ++ [a] = _
    rw [ha.numbers]

theorem symbol_send (hcls : o.cls = heap.handles.Symbol) (ht : nameText heap.memory.object a = some text)
    (hgood : heap.Good (s.meet a)) : Sends heap s (tagPtr a) (Tag.symbol.byte :: nameBytes text) (s.meet a) := by
  refine sends_of_tag fun d r φ rest _ hlinked hd => ?_
  obtain ⟨hta,hl⟩ := nameText_symbol ho hcls ht
  have hsi := fine_symbol (hgood.fine a (mem_meet_self s a)) ho hcls
  have hall : text = o.bytes := by rw [hta,Nat.mod_eq_of_lt hsi,← hl,take_length]
  obtain ⟨symbol,r1,hrun⟩ := (hlinked.move rest).grounded.asSymbol_isSome text (Nat.le_of_succ_le (hlinked.free ho hnew))
  obtain ⟨ha,hsy⟩ := asSymbol_allocates hrun
  have hk : r1.symbols text = some a := by
    rw [hall]
    exact ha.symbols (hlinked.grounded.known (heap.interned ho hcls))
  cases hsy.symm.trans hk
  rw [readTagged,readSymbol,curName_append (nameText_length ht) hd,bind_some]
  dsimp only
  rw [hrun]
  exact shared_delivers hs hnew ho (.inl hcls) hlinked ha

theorem cls_send (hcls : o.cls ≠ heap.handles.Symbol) (hc : heap.isClassObject o) (hn : className o = some name)
    (ht : nameText heap.memory.object name = some text) (hgood : heap.Good (s.meet a)) :
    Sends heap s (tagPtr a) (Tag.cls.byte :: nameBytes text) (s.meet a) := by
  refine sends_of_tag fun d r φ rest _ hlinked hd => ?_
  obtain ⟨hsh,hf⟩ := fine_cls (hgood.fine a (mem_meet_self s a)) ho hcls hc hn ht
  obtain ⟨r1,hrun⟩ := (hlinked.move rest).grounded.getClass_isSome text (Nat.le_of_succ_le (hlinked.free ho hnew))
  rw [hf] at hrun
  rw [readTagged,readClass,curName_append (nameText_length ht) hd,bind_some]
  dsimp only
  rw [if_pos hsh,hrun]
  exact shared_delivers hs hnew ho (.inr hc) hlinked (getClass_allocates hrun).1

end

theorem again_send (hi : s.met[i]? = some a) (hgood : heap.Good { s with again := s.again ++ [i] }) :
    Sends heap s (tagPtr a) (Tag.backref.byte :: idBytes (BitVec.ofNat 32 i)) { s with again := s.again ++ [i] } := by
  refine sends_of_tag fun d r φ rest _ hlinked hd => ?_
  have ha : a ∈ s.met := mem_of_getElem? hi
  have hlt : i < 4294967296 := hgood.numbered i (mem_append_right _ (mem_singleton_self i))
  have hid : (BitVec.ofNat 32 i).toNat = i := by exact Nat.mod_eq_of_lt hlt
  have hr := hlinked.reads rest
  refine ⟨{ r with data := rest },φ,?_,rfl,{ hr with linked := { hr.linked with }, grows := ?_ },
    fun _ => .inl (by rw [asObject_tagPtr]; exact ha)⟩
  · rw [imageOf_tagPtr φ (heap.aligned (hlinked.object ha)),readTagged,readBackref,curU32_append hd,bind_some]
    dsimp only
    rw [hid,hlinked.registry,List.getElem?_map,hi]
    rfl
  · exact ⟨prefix_rfl,prefix_append _ _⟩

end Names

theorem isSome_of_singleton (h : heap.isSingleton a) : (heap.memory.object a).isSome := by
  simp only [MessageHeap.isSingleton,Bool.or_eq_true,decide_eq_true_iff] at h
  rcases h with (rfl | rfl) | rfl
  · exact heap.nil
  · exact heap.true
  · exact heap.false

theorem message_sends (n : ℕ) :
    ∀ s v bytes s', Message heap n s v bytes s' → heap.Good s' → Sends heap s v bytes s' := by
  induction n with
  | zero => exact fun _ _ _ _ h => h.elim
  | succ _ ih =>
    intro s v bytes s' h hgood
    cases h with
    | int hp =>
      refine sends_of_tag fun d r φ rest _ hlinked hd => ?_
      refine ⟨{ r with data := rest },φ,?_,rfl,hlinked.reads rest,fun h => absurd (hp.symm.trans h) nofun⟩
      rw [imageOf,hp,if_neg Bool.false_ne_true]
      exact curI64_append hd
    | @single a tag hs htag =>
      refine sends_of_tag fun d r φ rest _ hlinked hd => ?_
      refine ⟨r,φ,?_,hd,hlinked.reads r.data,fun _ => .inr (by rw [asObject_tagPtr]; exact hs)⟩
      rw [htag,imageOf_tagPtr φ (heap.aligned (isSome_of_singleton hs)),hlinked.single hs]
    | again hi => exact again_send hi hgood
    | symbol hs hnew ho hcls ht => exact symbol_send hs hnew ho hcls ht hgood
    | cls hs hnew ho hcls hcl hn ht => exact cls_send hs hnew ho hcls hcl hn ht hgood
    | object hs hnew ho hcls hcl hc hsh hn ht hcontents =>
      exact object_send ih hs hnew ho hcls hcl hc hsh hn ht hcontents hgood

end SmalltalkJit.Messages
