import SmalltalkJit.Messages.Frame
import SmalltalkJit.Messages.Writing

/-! # Rebuilding a graph

The reader meets the objects of a message in the order of the walk and numbers
them in the same way. As long as what it meets is fine, the value that it reads is
the image of the value that was written, under a map from the objects that have
been met to their copies; the map grows with every object.
-/
namespace SmalltalkJit.Messages
open ByteStream Snapshot Function List Option

variable {heap : MessageHeap} {s s' s'' : Visit} {r r' r'' : Reader} {φ φ' φ'' : Word → Word} {a b v : Word}
  {o : RawObject} {filled : Set Word}

/-- What is known about the heap of the reader whatever has been read. -/
structure Grounded (heap : MessageHeap) (r : Reader) : Prop where
  kept : ∀ {a o}, heap.memory.object a = some o → r.memory a = some o
  known : ∀ {bytes a}, heap.symbols bytes = some a → r.symbols bytes = some a
  interned : ∀ {bytes a}, r.symbols bytes = some a →
    heap.symbols bytes = some a ∨ heap.symbols bytes = none ∧ heap.memory.object a = none
  distinct : r.free.Nodup
  fresh : ∀ {b}, b ∈ r.free → heap.memory.object b = none ∧ b.toNat % 4 = 0

namespace Grounded

theorem place_isSome (object : Word → RawObject) (hr : 1 ≤ r.free.length) : ∃ a r', r.place object = some (a,r') := by
  obtain ⟨a,free,hf⟩ := exists_cons_of_length_pos hr
  exact ⟨a,_,by rw [Reader.place,hf]⟩

variable (h : Grounded heap r)
include h

theorem frame (hf : Frame filled r r') (hfi : ∀ b ∈ filled, heap.memory.object b = none) : Grounded heap r' where
  kept {a o} ho := by
    have hfr : a ∉ r.free := fun ha => absurd ((h.fresh ha).1.symm.trans ho) nofun
    have hnot : a ∉ filled := fun ha => absurd ((hfi a ha).symm.trans ho) nofun
    rw [hf.memory a hfr hnot,h.kept ho]
  known hs := hf.symbols (h.known hs)
  interned {bytes a} hs := by
    rcases hf.interned hs with hs | ⟨hn,ha⟩
    · exact h.interned hs
    · refine .inr ⟨?_,(h.fresh ha).1⟩
      cases hold : heap.symbols bytes with
      | none => rfl
      | some => exact absurd ((h.known hold).symm.trans hn) nofun
  distinct := h.distinct.sublist hf.free.sublist
  fresh hb := h.fresh (hf.free.subset hb)

theorem frame_empty (hf : Frame ∅ r r') : Grounded heap r' :=
  h.frame hf fun b hb => absurd hb (Set.notMem_empty b)

theorem asSymbol_eq (hrun : asSymbol heap.handles r bytes = some (a,r'))
    (ha : (heap.memory.object a).isSome) : heap.symbols bytes = some a := by
  obtain ⟨hall,hs⟩ := asSymbol_allocates hrun
  rcases (h.frame_empty hall.toFrame).interned hs with hold | ⟨-,hn⟩
  · exact hold
  · exact absurd hn (isSome_iff_ne_none.mp ha)

theorem getClass_eq
    (hrun : getClass heap.handles heap.globals r name = some (cls,r')) : cls = heap.classNamed name := by
  obtain ⟨ha,y,hs,rfl⟩ := getClass_allocates hrun
  rw [MessageHeap.classNamed]
  rcases (h.frame_empty ha.toFrame).interned hs with hold | ⟨hn,hf⟩
  · rw [hold,bind_some]
  · have hg : heap.globals y = none := by
      cases hv : heap.globals y with
      | none => rfl
      | some => exact absurd hf (isSome_iff_ne_none.mp (heap.key hv))
    rw [hn,hg,bind_none]

theorem asSymbol_isSome (bytes : List Byte) (hr : 2 ≤ r.free.length) :
    ∃ a r', asSymbol heap.handles r bytes = some (a,r') := by
  obtain ⟨sh,hsh⟩ := isSome_iff_exists.mp heap.string
  obtain ⟨cls,hcls,hi⟩ := bind_eq_some_iff.mp hsh
  obtain ⟨a,q,hq⟩ := place_isSome (newRawObject heap.handles heap.handles.String sh
    (BitVec.ofNat 64 bytes.length)) (Nat.le_of_succ_le hr)
  have hs : newString heap.handles r bytes = some (a,q.modify a fun object => { object with bytes := bytes }) := by
    rw [newString,allocateObject,h.kept hcls,bind_some,hi,bind_some,hq]
    rfl
  rw [asSymbol,hs,bind_some]
  dsimp only
  split
  · exact ⟨_,_,rfl⟩
  · have hf := (newString_allocates hs).room
    have hm : ((q.modify a fun object => { object with bytes := bytes }).memory a).isSome := by
      rw [(place_eq hq).2]
      simp [Reader.modify]
    obtain ⟨object,ho⟩ := isSome_iff_exists.mp hm
    obtain ⟨y,q',hq'⟩ := place_isSome (fun _ => { object with cls := heap.handles.Symbol })
      (r := q.modify a fun object => { object with bytes := bytes }) (by omega)
    rw [ho,bind_some,hq']
    exact ⟨_,_,rfl⟩

theorem getClass_isSome (name : List Byte) (hr : 2 ≤ r.free.length) :
    ∃ r', getClass heap.handles heap.globals r name = some (heap.classNamed name,r') := by
  obtain ⟨y,q,hq⟩ := h.asSymbol_isSome (cString name) hr
  have hrun : getClass heap.handles heap.globals r name =
      some (((heap.globals y).map asObject).getD heap.handles.nil,q) := by
    rw [getClass,hq]
    rfl
  exact ⟨q,by rw [← h.getClass_eq hrun]; exact hrun⟩

end Grounded

def Known (heap : MessageHeap) (s : Visit) (a : Word) : Prop := a ∈ s.met ∨ heap.isSingleton a

def unmet (heap : MessageHeap) (s : Visit) : Set Word := {a | (heap.memory.object a).isSome ∧ a ∉ s.met}

structure Grows (s s' : Visit) : Prop where
  met : s.met <+: s'.met
  again : s.again <+: s'.again

theorem Grows.refl (s : Visit) : Grows s s := ⟨prefix_rfl,prefix_rfl⟩

theorem Grows.trans (h : Grows s s') (h' : Grows s' s'') : Grows s s'' := ⟨h.met.trans h'.met,h.again.trans h'.again⟩

theorem Grows.good (h : Grows s s') (hs : heap.Good s') : heap.Good s :=
  ⟨fun a ha => hs.fine a (h.met.subset ha),fun i hi => hs.numbered i (h.again.subset hi)⟩

theorem Grows.known (h : Grows s s') (ha : Known heap s a) : Known heap s' a := ha.imp_left fun hm => h.met.subset hm

theorem grows_meet (s : Visit) (a : Word) : Grows s (s.meet a) := ⟨prefix_append _ _,prefix_rfl⟩

theorem Chain.grows (hR : ∀ s v bytes s', R s v bytes s' → Grows s s') (h : Chain R s vs bytes s') : Grows s s' := by
  induction h with
  | nil s => exact Grows.refl s
  | cons head _ ih => exact (hR _ _ _ _ head).trans ih

theorem Message.grows (h : Message heap n s v bytes s') : Grows s s' := by
  induction n generalizing s v bytes s' with
  | zero => exact h.elim
  | succ _ ih =>
    cases h with
    | int | single => exact Grows.refl s
    | again => exact ⟨prefix_rfl,prefix_append _ _⟩
    | symbol | cls => exact grows_meet s _
    | object _ _ _ _ _ _ _ _ _ hc =>
      split at hc
      · exact hc.2 ▸ grows_meet s _
      · exact (grows_meet s _).trans (hc.grows fun _ _ _ _ => ih)

structure Linked (heap : MessageHeap) (s : Visit) (r : Reader) (φ : Word → Word) : Prop where
  grounded : Grounded heap r
  registry : r.registry = s.met.map φ
  nodup : s.met.Nodup
  object : ∀ {a}, a ∈ s.met → (heap.memory.object a).isSome
  injective : ∀ {a b}, a ∈ s.met → b ∈ s.met → φ a = φ b → a = b
  single : ∀ {a}, heap.isSingleton a → φ a = a
  shared : ∀ {a}, a ∈ s.met → heap.Shared a → φ a = a
  copied : ∀ {a}, a ∈ s.met → ¬ heap.Shared a →
    heap.memory.object (φ a) = none ∧ (φ a).toNat % 4 = 0 ∧ φ a ∉ r.free
  room : 3*(unmet heap s).ncard ≤ r.free.length

def Complete (heap : MessageHeap) (s : Visit) (φ : Word → Word) (memory : Memory) (a : Word) : Prop :=
  ∃ o shape o', heap.memory.object a = some o ∧ shapeOf heap.memory.object o = some shape ∧
    memory (φ a) = some o' ∧ CopyOf φ shape o o' ∧ ∀ v ∈ o.vars, isPointer v → Known heap s (asObject v)

/-- Between two states of the reader the copies of what the walk has met have been completed. -/
structure Reads (heap : MessageHeap) (filled : Set Word) (s s' : Visit) (r r' : Reader) (φ φ' : Word → Word) :
    Prop where
  linked : Linked heap s' r' φ'
  agree : ∀ a ∈ s.met, φ' a = φ a
  complete : ∀ a ∈ s'.met, a ∉ s.met → ¬ heap.Shared a → Complete heap s' φ' r'.memory a
  frame : Frame filled r r'
  grows : Grows s s'

theorem imageOf_tagPtr (φ : Word → Word) (ha : a.toNat % 4 = 0) : imageOf φ (tagPtr a) = tagPtr (φ a) := by
  rw [imageOf,if_pos (isPointer_tagPtr ha),asObject_tagPtr]

theorem imageOf_congr (h : isPointer v → φ' (asObject v) = φ (asObject v)) : imageOf φ' v = imageOf φ v := by
  rw [imageOf,imageOf]
  split
  · next hp => rw [h hp]
  · rfl

section Linking

theorem Linked.known_agree (h : Linked heap s r φ) (h' : Linked heap s' r' φ') (hag : ∀ a ∈ s.met, φ' a = φ a)
    (ha : Known heap s a) : φ' a = φ a := by
  rcases ha with ha | ha
  · exact hag a ha
  · rw [h.single ha,h'.single ha]

theorem Complete.mono (h : Complete heap s φ memory a) (hg : Grows s s') (hag : ∀ x, Known heap s x → φ' x = φ x)
    (ha : Known heap s a) (hm : memory' (φ a) = memory (φ a)) : Complete heap s' φ' memory' a := by
  obtain ⟨o,sh,o',ho,hs,ho',hc,hk⟩ := h
  refine ⟨o,sh,o',ho,hs,by rw [hag a ha,hm,ho'],{ hc with vars := ?_ },fun v hv hp => hg.known (hk v hv hp)⟩
  rw [hc.vars]
  exact map_congr_left fun v hv => (imageOf_congr fun hp => hag _ (hk v hv hp)).symm

theorem Reads.trans (h : Reads heap filled s s' r r' φ φ') (h' : Reads heap filled s' s'' r' r'' φ' φ'')
    (hf : ∀ c ∈ filled, ∃ x ∈ s.met, φ x = c) : Reads heap filled s s'' r r'' φ φ'' where
  linked := h'.linked
  agree a ha := (h'.agree a (h.grows.met.subset ha)).trans (h.agree a ha)
  complete a ha hnew hs := by
    by_cases hmet : a ∈ s'.met
    · refine (h.complete a hmet hnew hs).mono h'.grows
        (fun x hx => h.linked.known_agree h'.linked h'.agree hx) (.inl hmet) ?_
      refine h'.frame.memory _ (h.linked.copied hmet hs).2.2 fun hc => ?_
      obtain ⟨x,hx,heq⟩ := hf _ hc
      rw [← h.agree x hx] at heq
      exact hnew (h.linked.injective (h.grows.met.subset hx) hmet heq ▸ hx)
    · exact h'.complete a ha hmet hs
  frame := h.frame.trans h'.frame
  grows := h.grows.trans h'.grows

theorem Linked.move (h : Linked heap s r φ) (rest : List Byte) : Linked heap s { r with data := rest } φ :=
  ⟨h.grounded.frame_empty (Frame.data _ r rest),h.registry,h.nodup,h.object,h.injective,h.single,h.shared,h.copied,h.room⟩

theorem Linked.reads (h : Linked heap s r φ) (rest : List Byte) : Reads heap ∅ s s r { r with data := rest } φ φ where
  linked := h.move rest
  agree _ _ := rfl
  complete _ ha hnew := absurd ha hnew
  frame := Frame.data _ r rest
  grows := Grows.refl s

theorem unmet_meet (ha : (heap.memory.object a).isSome) (hnew : a ∉ s.met) :
    (unmet heap (s.meet a)).ncard < (unmet heap s).ncard := by
  refine Set.ncard_lt_ncard ⟨fun x hx => ⟨hx.1,fun hm => hx.2 (mem_meet.mpr (.inl hm))⟩,fun hsub => ?_⟩
    (Set.toFinite _)
  exact (hsub ⟨ha,hnew⟩).2 (mem_meet_self s a)

theorem Linked.free (h : Linked heap s r φ) (ho : heap.memory.object a = some o) (hnew : a ∉ s.met) :
    3 ≤ r.free.length := by
  have hr := h.room
  have hl := unmet_meet (isSome_of_eq_some ho) hnew
  omega

theorem Linked.meet (h : Linked heap s r φ) (ha : (heap.memory.object a).isSome) (hnew : a ∉ s.met)
    (hs : heap.isSingleton a = false) (hfr : Frame ∅ r r') (hr : r'.registry = r.registry ++ [b])
    (hro : r.free.length ≤ r'.free.length+3)
    (hb : heap.Shared a ∧ b = a ∨ ¬ heap.Shared a ∧ b ∈ r.free ∧ b ∉ r'.free) :
    Linked heap (s.meet a) r' (Function.update φ a b) := by
  have hold : ∀ {x}, x ∈ s.met → Function.update φ a b x = φ x := fun hx =>
    update_of_ne (ne_of_mem_of_not_mem hx hnew) ..
  -- no object that was met before has its image there
  have hap : ∀ {x}, x ∈ s.met → φ x ≠ b := by
    intro x hx heq
    by_cases hx' : heap.Shared x
    · rw [h.shared hx hx'] at heq
      rcases hb with ⟨-,rfl⟩ | ⟨-,hf,-⟩
      · exact hnew (heq ▸ hx)
      · exact absurd (h.grounded.fresh hf).1 (isSome_iff_ne_none.mp (heq ▸ h.object hx))
    · obtain ⟨hn,-,ht⟩ := h.copied hx hx'
      rw [heq] at hn ht
      rcases hb with ⟨-,rfl⟩ | ⟨-,hf,-⟩
      · exact absurd hn (isSome_iff_ne_none.mp ha)
      · exact ht hf
  constructor
  case grounded => exact h.grounded.frame_empty hfr
  case registry =>
    rw [hr,h.registry,Visit.meet,map_append,map_singleton,update_self]
    congr 1
    exact map_congr_left fun x hx => (hold hx).symm
  case nodup =>
    rw [Visit.meet,← concat_eq_append]
    exact List.Nodup.concat hnew h.nodup
  case object =>
    intro x hx
    rcases mem_meet.mp hx with hx | rfl
    · exact h.object hx
    · exact ha
  case injective =>
    intro x y hx hy heq
    rcases mem_meet.mp hx with hx' | hx' <;> rcases mem_meet.mp hy with hy' | hy'
    · rw [hold hx',hold hy'] at heq
      exact h.injective hx' hy' heq
    · rw [hold hx',hy',update_self] at heq
      exact absurd heq (hap hx')
    · rw [hold hy',hx',update_self] at heq
      exact absurd heq.symm (hap hy')
    · rw [hx',hy']
  case single =>
    intro x hx
    have hne : x ≠ a := by
      rintro rfl
      rw [hs] at hx
      exact absurd hx Bool.false_ne_true
    rw [update_of_ne hne,h.single hx]
  case shared =>
    intro x hx hsh
    rcases mem_meet.mp hx with hx | rfl
    · rw [hold hx,h.shared hx hsh]
    · rw [update_self]
      rcases hb with ⟨-,rfl⟩ | ⟨hc,-⟩
      · rfl
      · exact absurd hsh hc
  case copied =>
    intro x hx hc
    rcases mem_meet.mp hx with hx | rfl
    · rw [hold hx]
      obtain ⟨hn,hal,ht⟩ := h.copied hx hc
      exact ⟨hn,hal,fun hmem => ht (hfr.free.subset hmem)⟩
    · rw [update_self]
      rcases hb with ⟨hsh,-⟩ | ⟨-,hf,ht⟩
      · exact absurd hsh hc
      · exact ⟨(h.grounded.fresh hf).1,(h.grounded.fresh hf).2,ht⟩
  case room =>
    have hlt := unmet_meet ha hnew
    have hle := h.room
    omega

end Linking

end SmalltalkJit.Messages
