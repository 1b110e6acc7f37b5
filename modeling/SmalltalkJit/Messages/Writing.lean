import SmalltalkJit.Messages.Graph

/-! # What a message looks like

The format of messages as a relation between a value and its bytes, along the walk
of the graph. While a graph is written, the table of numbers holds exactly the
objects that the walk has met, under their positions, and what is written is a
message of that format.
-/
namespace SmalltalkJit.Messages
open ByteStream Snapshot List Option

def headerBytes (text : List Byte) (shape : Snapshot.InstanceShape) (o : RawObject) : List Byte :=
  nameBytes text ++ (wordBytes (o.hash.setWidth 64) ++ idBytes ((shape.rawObjectSize o).setWidth 32))

def floatBytes (shape : Snapshot.InstanceShape) (o : RawObject) : List Byte :=
  if shape.isFloatShape then wordBytes (o.payload.headD 0) else []

def Visit.meet (s : Visit) (a : Word) : Visit := { s with met := s.met ++ [a] }

inductive Chain (R : Visit → Word → List Byte → Visit → Prop) : Visit → List Word → List Byte → Visit → Prop
  | nil (s) : Chain R s [] [] s
  | cons {s s1 s2 v vs bytes1 bytes2} (head : R s v bytes1 s1) (tail : Chain R s1 vs bytes2 s2) :
    Chain R s (v :: vs) (bytes1 ++ bytes2) s2

inductive Form (heap : MessageHeap) (R : Visit → Word → List Byte → Visit → Prop) (s : Visit) :
    Word → List Byte → Visit → Prop
  | int {v} (hp : isPointer v = false) : Form heap R s v (Tag.int.byte :: wordBytes v) s
  | single {a} {tag : Tag} (hs : heap.isSingleton a)
    (htag : ∀ readValue r, readTagged heap.handles heap.globals readValue r tag = some (tagPtr a,r)) :
    Form heap R s (tagPtr a) [tag.byte] s
  | again {a i} (hi : s.met[i]? = some a) : Form heap R s (tagPtr a)
    (Tag.backref.byte :: idBytes (BitVec.ofNat 32 i)) { s with again := s.again ++ [i] }
  | symbol {a o text} (hs : heap.isSingleton a = false) (hnew : a ∉ s.met) (ho : heap.memory.object a = some o)
    (hcls : o.cls = heap.handles.Symbol) (htext : nameText heap.memory.object a = some text) :
    Form heap R s (tagPtr a) (Tag.symbol.byte :: nameBytes text) (s.meet a)
  | cls {a o name text} (hs : heap.isSingleton a = false) (hnew : a ∉ s.met) (ho : heap.memory.object a = some o)
    (hcls : o.cls ≠ heap.handles.Symbol) (hclass : heap.isClassObject o) (hname : className o = some name)
    (htext : nameText heap.memory.object name = some text) :
    Form heap R s (tagPtr a) (Tag.cls.byte :: nameBytes text) (s.meet a)
  | object {a o cls shape name text contents s'} (hs : heap.isSingleton a = false) (hnew : a ∉ s.met)
    (ho : heap.memory.object a = some o) (hcls : o.cls ≠ heap.handles.Symbol) (hclass : ¬ heap.isClassObject o)
    (hc : heap.memory.object o.cls = some cls) (hshape : cls.instanceShape = some shape)
    (hname : className cls = some name) (htext : nameText heap.memory.object name = some text)
    (hcontents : if shape.hasBytes then contents = o.bytes ∧ s' = s.meet a
      else Chain R (s.meet a) o.vars contents s') :
    Form heap R s (tagPtr a)
      (Tag.object.byte :: (headerBytes text shape o ++ (contents ++ floatBytes shape o))) s'

/-- The bytes of a value, with at most so many objects inside one another. -/
def Message (heap : MessageHeap) : ℕ → Visit → Word → List Byte → Visit → Prop
  | 0 => fun _ _ _ _ => False
  | n+1 => Form heap (Message heap n)

variable {heap : MessageHeap} {w w' : Writer} {s : Visit} {a : Word}

/-- The table holds what the walk has met. Numbers have 32 bits and wrap around. -/
structure Numbered (heap : MessageHeap) (w : Writer) (s : Visit) : Prop where
  at? : ∀ {i a}, s.met[i]? = some a → w.map.at? a = some (BitVec.ofNat 32 i)
  new : ∀ {a}, a ∉ s.met → w.map.at? a = none
  next : w.nextId = BitVec.ofNat 32 s.met.length
  nodup : s.met.Nodup
  object : ∀ {a}, a ∈ s.met → (heap.memory.object a).isSome
  single : ∀ {a}, a ∈ s.met → heap.isSingleton a = false

@[simp] theorem mem_meet : b ∈ (s.meet a).met ↔ b ∈ s.met ∨ b = a := by rw [Visit.meet,mem_append,mem_singleton]

theorem mem_meet_self (s : Visit) (a : Word) : a ∈ (s.meet a).met := mem_meet.mpr (.inr rfl)

theorem numbered_init (heap : MessageHeap) : Numbered heap ⟨[],.init,0⟩ ⟨[],[]⟩ where
  at? h := absurd h (by simp)
  new _ := IdMap.at?_init _
  next := rfl
  nodup := nodup_nil
  object h := absurd h not_mem_nil
  single h := absurd h not_mem_nil

namespace Numbered

theorem put (h : Numbered heap w s) (bytes : List Byte) : Numbered heap (w.put bytes) s :=
  ⟨h.at?,h.new,h.next,h.nodup,h.object,h.single⟩

theorem again (h : Numbered heap w s) (ha : a ∈ s.met) (i : ℕ) :
    Numbered heap { w with map := w.map.getOrPut a w.nextId } { s with again := s.again ++ [i] } := by
  obtain ⟨j,hj⟩ := List.getElem?_of_mem ha
  have hat := (IdMap.getOrPut_of_some w.nextId (h.at? hj)).2
  exact ⟨fun hi => (hat _).trans (h.at? hi),fun hb => (hat _).trans (h.new hb),h.next,h.nodup,h.object,h.single⟩

theorem meet (h : Numbered heap w s) (ha : a ∉ s.met) (ho : (heap.memory.object a).isSome)
    (hs : heap.isSingleton a = false) :
    Numbered heap { w with map := w.map.getOrPut a w.nextId, nextId := w.nextId+1 }
      { s with met := s.met ++ [a] } := by
  have hat := (IdMap.getOrPut_of_none w.nextId (h.new ha)).2
  constructor
  case at? =>
    intro i b hb
    refine (hat b).trans ?_
    rw [List.getElem?_append] at hb
    split at hb
    · rw [if_neg (ne_of_mem_of_not_mem (mem_of_getElem? hb) ha),h.at? hb]
    · next hle =>
      obtain ⟨hlt,rfl⟩ := List.getElem?_eq_some_iff.mp hb
      rw [length_singleton] at hlt
      have hi : i = s.met.length := by omega
      rw [if_pos (getElem_singleton hlt),h.next,hi]
  case new =>
    intro b hb
    rw [mem_append,mem_singleton,not_or] at hb
    refine (hat b).trans ?_
    rw [if_neg hb.2,h.new hb.1]
  case next =>
    change w.nextId+1 = _
    rw [length_append,length_singleton,BitVec.ofNat_add,h.next]
    rfl
  case nodup =>
    rw [← concat_eq_append]
    exact List.Nodup.concat ha h.nodup
  case object =>
    intro b hb
    rcases mem_meet.mp hb with hb | rfl
    · exact h.object hb
    · exact ho
  case single =>
    intro b hb
    rcases mem_meet.mp hb with hb | rfl
    · exact h.single hb
    · exact hs

end Numbered

theorem put_put (w : Writer) (b c : List Byte) : (w.put b).put c = w.put (b ++ c) := by
  rw [Writer.put,Writer.put,Writer.put,append_assoc]

theorem put_nil (w : Writer) : w.put [] = w := by rw [Writer.put,append_nil]

theorem tagPtr_asObject (v : Word) : tagPtr (asObject v) = v := BitVec.sub_add_cancel v 1

theorem nfields_eq (hf : Formed o shape) : o.vars.take (nfields shape (shape.rawObjectSize o).toNat) = o.vars := by
  refine take_of_length_le ?_
  rw [hf.vars,hf.rawObjectSize,Snapshot.InstanceShape.fields,nfields]
  split
  · next h => rw [if_pos h.1]
  · omega

theorem bytes_eq (hf : Formed o shape) : o.bytes.take (shape.rawObjectSize o).toNat = o.bytes := by
  refine take_of_length_le ?_
  rw [hf.rawObjectSize,hf.bytes]
  split
  · exact le_rfl
  · exact Nat.zero_le _

structure Writes (heap : MessageHeap) (n : ℕ) (w w' : Writer) (s : Visit) (v : Word) (s' : Visit) : Prop where
  numbered : Numbered heap w' s'
  message : ∃ bytes, w'.buf = w.buf ++ bytes ∧ Message heap n s v bytes s'

section Values
variable (hobject : ∀ w w' s a, Numbered heap w s → (heap.memory.object a).isSome →
  writeObjectRef heap.handles heap.memory.object n w a = some w' →
    Writes heap (n+1) w w' s (tagPtr a) (heap.visit n s a))
include hobject

theorem writeValue_writes (hw : Numbered heap w s) (hv : isPointer v → (heap.memory.object (asObject v)).isSome)
    (h : writeValue (writeObjectRef heap.handles heap.memory.object n) w v = some w') :
    Writes heap (n+1) w w' s v (visitValues (heap.visit n) s [v]) := by
  rw [writeValue] at h
  rw [visitValues,foldl_cons,foldl_nil]
  split at h
  · next hp =>
    rw [if_pos hp]
    have hwr := hobject w w' s (asObject v) hw (hv hp) h
    rwa [tagPtr_asObject] at hwr
  · next hp =>
    cases h
    rw [if_neg hp]
    exact ⟨hw.put _,_,rfl,Form.int (Bool.eq_false_iff.mpr hp)⟩

theorem writeValues_writes (hw : Numbered heap w s)
    (hv : ∀ v ∈ vs, isPointer v → (heap.memory.object (asObject v)).isSome)
    (h : writeValues (writeObjectRef heap.handles heap.memory.object n) w vs = some w') :
    Numbered heap w' (visitValues (heap.visit n) s vs) ∧ ∃ bytes, w'.buf = w.buf ++ bytes ∧
      Chain (Message heap (n+1)) s vs bytes (visitValues (heap.visit n) s vs) := by
  induction vs generalizing w s with
  | nil =>
    cases h
    exact ⟨hw,[],(append_nil _).symm,.nil s⟩
  | cons v _ ih =>
    obtain ⟨w1,h1,h⟩ := bind_eq_some_iff.mp h
    obtain ⟨hw1,b1,hbuf1,hm⟩ := writeValue_writes hobject hw (hv v mem_cons_self) h1
    obtain ⟨hw2,b2,hbuf2,hc⟩ := ih hw1 (fun u hu => hv u (mem_cons_of_mem v hu)) h
    exact ⟨hw2,b1 ++ b2,by rw [hbuf2,hbuf1,append_assoc],.cons hm hc⟩

theorem writeFirst_writes (hw : Numbered heap w (s.meet a)) (hs : heap.isSingleton a = false) (hnew : a ∉ s.met)
    (ho : heap.memory.object a = some o)
    (h : writeFirst heap.handles heap.memory.object (writeObjectRef heap.handles heap.memory.object n) w a = some w') :
    Writes heap (n+2) w w' s (tagPtr a) (visitValues (heap.visit n) (s.meet a) (heap.followed a)) := by
  rw [MessageHeap.followed,ho]
  dsimp only
  rw [writeFirst,ho,bind_some] at h
  split at h
  · next hcls =>
    obtain ⟨t,ht,rfl⟩ := map_eq_some_iff.mp h
    rw [if_pos (.inl hcls),put_put]
    exact ⟨hw.put _,_,rfl,Form.symbol hs hnew ho hcls ht⟩
  next hcls =>
  obtain ⟨cls,hc,h⟩ := bind_eq_some_iff.mp h
  have hcl : heap.isClassObject o = decide (cls.cls = heap.handles.MetaClass) := by
    rw [MessageHeap.isClassObject,hc]
    rfl
  split at h
  · next hm =>
    have hcl : heap.isClassObject o = true := by rw [hcl,decide_eq_true hm]
    obtain ⟨name,hn,h⟩ := bind_eq_some_iff.mp h
    obtain ⟨t,ht,rfl⟩ := map_eq_some_iff.mp h
    rw [if_pos (.inr hcl),put_put]
    exact ⟨hw.put _,_,rfl,Form.cls hs hnew ho hcls hcl hn ht⟩
  next hm =>
  have hcl : ¬ heap.isClassObject o := by
    rw [hcl,decide_eq_true_iff]
    exact hm
  split at h
  · cases h
  obtain ⟨shape,hsh,h⟩ := bind_eq_some_iff.mp h
  obtain ⟨name,hn,h⟩ := bind_eq_some_iff.mp h
  obtain ⟨w0,h0,h⟩ := bind_eq_some_iff.mp h
  obtain ⟨t,ht,rfl⟩ := map_eq_some_iff.mp h0
  obtain ⟨w1,hbo,rfl⟩ := map_eq_some_iff.mp h
  have hshapeOf : shapeOf heap.memory.object o = some shape := by rw [shapeOf,hc,bind_some,hsh]
  obtain ⟨sh',hsh',hf⟩ := heap.memory.formed ho
  cases hshapeOf.symm.trans hsh'
  have hh : (((w.put [Tag.object.byte]).put (nameBytes t)).put (wordBytes (o.hash.setWidth 64))).put
      (idBytes ((shape.rawObjectSize o).setWidth 32)) = w.put (Tag.object.byte :: headerBytes t shape o) := by
    rw [put_put,put_put,put_put,headerBytes]
    rfl
  have hfl : (if shape.isFloatShape then w1.put (wordBytes (o.payload.headD 0)) else w1) =
      w1.put (floatBytes shape o) := by
    rw [floatBytes]
    split
    · rfl
    · exact (put_nil w1).symm
  rw [hh] at hbo
  rw [hfl,if_neg (not_or.mpr ⟨hcls,hcl⟩),hshapeOf]
  dsimp only
  split at hbo
  · next hb =>
    cases hbo
    rw [if_pos hb,bytes_eq hf,put_put,put_put]
    refine ⟨hw.put _,_,rfl,?_⟩
    rw [cons_append]
    exact Form.object hs hnew ho hcls hcl hc hsh hn ht (by rw [if_pos hb]; exact ⟨rfl,rfl⟩)
  · next hb =>
    rw [nfields_eq hf] at hbo
    rw [if_neg hb]
    obtain ⟨hw1,c,hbuf,hch⟩ := writeValues_writes hobject (hw.put _)
      (fun v hv hp => heap.memory.closed ho v hv hp) hbo
    refine ⟨hw1.put _,_,?_,Form.object hs hnew ho hcls hcl hc hsh hn ht (by rw [if_neg hb]; exact hch)⟩
    rw [Writer.put,hbuf,Writer.put,append_assoc,append_assoc,cons_append]

end Values

theorem writeObjectRef_writes (n : ℕ) : ∀ w w' s a, Numbered heap w s → (heap.memory.object a).isSome →
    writeObjectRef heap.handles heap.memory.object n w a = some w' →
      Writes heap (n+1) w w' s (tagPtr a) (heap.visit n s a) := by
  induction n with
  | zero => exact fun _ _ _ _ _ _ h => absurd h nofun
  | succ _ ih =>
    intro w w' s a hw hso h
    obtain ⟨o,ho⟩ := isSome_iff_exists.mp hso
    rw [writeObjectRef] at h
    rw [MessageHeap.visit]
    by_cases hs : heap.isSingleton a
    · rw [if_pos hs]
      -- each singleton has its own tag
      obtain ⟨tag,hput,htag⟩ : ∃ tag : Tag, w' = w.put [tag.byte] ∧
          ∀ readValue r, readTagged heap.handles heap.globals readValue r tag = some (tagPtr a,r) := by
        split at h
        · next heq => exact ⟨.nil,(Option.some.inj h).symm,fun _ _ => by rw [heq]; rfl⟩
        split at h
        · next heq => exact ⟨.true,(Option.some.inj h).symm,fun _ _ => by rw [heq]; rfl⟩
        split at h
        · next heq => exact ⟨.false,(Option.some.inj h).symm,fun _ _ => by rw [heq]; rfl⟩
        next h1 h2 h3 => exact absurd hs (by simp [MessageHeap.isSingleton,h1,h2,h3])
      exact ⟨hput ▸ hw.put _,_,by rw [hput]; rfl,Form.single hs htag⟩
    · have hsi := Bool.eq_false_iff.mpr hs
      simp only [MessageHeap.isSingleton,Bool.or_eq_true,decide_eq_true_iff,not_or] at hs
      rw [if_neg hs.1.1,if_neg hs.1.2,if_neg hs.2] at h
      rw [if_neg (by rw [hsi]; exact Bool.false_ne_true)]
      by_cases hmet : a ∈ s.met
      · have hlt : s.met.idxOf a < s.met.length := idxOf_lt_length_iff.mpr hmet
        have hi : s.met[s.met.idxOf a]? = some a := List.getElem?_eq_some_iff.mpr ⟨hlt,getElem_idxOf hlt⟩
        rw [(IdMap.getOrPut_of_some w.nextId (hw.at? hi)).1,if_pos rfl] at h
        cases h
        rw [if_pos hmet]
        exact ⟨(hw.again hmet _).put _,_,rfl,Form.again hi⟩
      · rw [(IdMap.getOrPut_of_none w.nextId (hw.new hmet)).1,if_neg Bool.false_ne_true] at h
        rw [if_neg hmet]
        obtain ⟨hn,b,hbuf,hm⟩ := writeFirst_writes ih (hw.meet hmet hso hsi) hsi hmet ho h
        exact ⟨hn,b,hbuf,hm⟩

theorem messageSerialize_message (hr : isPointer root → (heap.memory.object (asObject root)).isSome)
    (h : messageSerialize heap.handles heap.memory.object root = some bytes) :
    Message heap (maxDepth+1) ⟨[],[]⟩ root bytes (heap.walk root) := by
  obtain ⟨w,hw,rfl⟩ := map_eq_some_iff.mp h
  obtain ⟨-,bytes,hbuf,hm⟩ := writeValue_writes (writeObjectRef_writes maxDepth) (numbered_init heap) hr hw
  rw [hbuf,nil_append]
  exact hm

end SmalltalkJit.Messages
