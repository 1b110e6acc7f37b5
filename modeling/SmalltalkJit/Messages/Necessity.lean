import SmalltalkJit.Messages.Rebuild

/-! # What a copy shows about its graph

If the memory after the reading holds a copy of the graph, then everything that
the walk has met was fine. The copy is followed along the walk: what the reader
has stored into an object stays there, so that each value that it read is the
image of the value that was written. The bytes after something that is not fine
need not make sense, and nothing is said about what the reader does with them.
-/
namespace SmalltalkJit.Messages
open ByteStream Snapshot Function List Option

variable {heap : MessageHeap} {s s' : Visit} {r r' : Reader} {φ ψ : Word → Word} {a b v root root' : Word}
  {o p : RawObject} {shape : Snapshot.InstanceShape} {text : List Byte} {memory : Memory}

section Bodies
variable {readValue : Reader → Option (Word × Reader)} (hread : ∀ {r v r'}, readValue r = some (v,r') → Frame ∅ r r')
include hread

theorem readFields_keeps {i count : ℕ} (hp : r.memory b = some p) (hb : b ∉ r.free)
    (h : readFields readValue b i count r = some r') : ∃ vars, r'.memory b = some { p with vars := vars } ∧
      vars.length = p.vars.length ∧ ∀ j < i, vars[j]? = p.vars[j]? := by
  induction count generalizing i r p with
  | zero =>
    cases h
    exact ⟨p.vars,hp,rfl,fun _ _ => rfl⟩
  | succ _ ih =>
    obtain ⟨⟨v,q⟩,hq,h⟩ := bind_eq_some_iff.mp h
    have hf := hread hq
    have hp' : q.memory b = some p := by rw [hf.memory b hb (Set.notMem_empty b),hp]
    obtain ⟨vars,hv,hl,hk⟩ := ih (memory_modify hp' fun object => { object with vars := object.vars.set i v })
      (fun hmem => hb (hf.free.subset hmem)) h
    refine ⟨vars,hv,hl.trans length_set,fun j hj => (hk j (Nat.lt_succ_of_lt hj)).trans ?_⟩
    exact getElem?_set_ne (Nat.ne_of_gt hj)

omit hread in
theorem readFloat_keeps (hp : r.memory b = some p) (h : (if shape.isFloatShape then r.curI64.map fun (bits,r) =>
      r.modify b fun object => { object with payload := object.payload.set 0 bits } else some r) = some r') :
    (∃ payload, r'.memory b = some { p with payload := payload }) ∧ r'.registry = r.registry ∧ r'.free = r.free ∧
      ∀ c ≠ b, r'.memory c = r.memory c := by
  split at h
  · obtain ⟨⟨bits,q⟩,hq,rfl⟩ := map_eq_some_iff.mp h
    obtain ⟨⟨bytes,q'⟩,hq',heq⟩ := map_eq_some_iff.mp hq
    cases heq
    cases curBytes_eq_some hq'
    exact ⟨⟨_,memory_modify hp _⟩,rfl,rfl,fun c hcb => update_of_ne hcb ..⟩
  · cases h
    exact ⟨⟨_,hp⟩,rfl,rfl,fun _ _ => rfl⟩

theorem readBody_keeps (hp : r.memory b = some p) (hb : b ∉ r.free)
    (h : readBody readValue r b shape indexed = some r') : ∃ p', r'.memory b = some p' ∧ p'.cls = p.cls ∧
      p'.size = p.size ∧ (shape.hasBytes → p'.vars = p.vars ∧ r'.registry = r.registry) := by
  obtain ⟨q,hq,h⟩ := bind_eq_some_iff.mp h
  have hf : ∃ p', q.memory b = some p' ∧ p'.cls = p.cls ∧ p'.size = p.size ∧
      (shape.hasBytes → p'.vars = p.vars ∧ q.registry = r.registry) := by
    split at hq
    · obtain ⟨⟨bytes,q'⟩,hq',rfl⟩ := map_eq_some_iff.mp hq
      cases curBytes_eq_some hq'
      exact ⟨_,memory_modify hp _,rfl,rfl,fun _ => ⟨rfl,rfl⟩⟩
    · next hby =>
      obtain ⟨vars,hv,-,-⟩ := readFields_keeps hread hp hb hq
      exact ⟨_,hv,rfl,rfl,fun h => absurd h hby⟩
  obtain ⟨p',hp',hcls,hs,hv⟩ := hf
  obtain ⟨⟨payload,hpa⟩,hr,-⟩ := readFloat_keeps hp' h
  exact ⟨_,hpa,hcls,hs,fun hby => (hv hby).imp_right hr.trans⟩

end Bodies

/-- The numbers lead to the images of what has been met, which is part of the graph. -/
structure Agrees (heap : MessageHeap) (root : Word) (ψ : Word → Word) (s : Visit) (r : Reader) : Prop where
  registry : r.registry = s.met.map ψ
  part : ∀ x ∈ s.met, heap.Part root x

theorem Agrees.meet (h : Agrees heap root ψ s r) (ha : heap.Part root a)
    (hr : r'.registry = r.registry ++ [ψ a]) : Agrees heap root ψ (s.meet a) r' where
  registry := by
    rw [hr,h.registry,Visit.meet,map_append]
    rfl
  part x hx := by
    rw [Visit.meet,mem_append,mem_singleton] at hx
    rcases hx with hx | rfl
    · exact h.part x hx
    · exact ha

theorem good_meet (h : heap.Good s) (ha : heap.Fine a) : heap.Good (s.meet a) where
  fine x hx := by
    rw [Visit.meet,mem_append,mem_singleton] at hx
    rcases hx with hx | rfl
    · exact h.fine x hx
    · exact ha
  numbered := h.numbered

/-- A value that is read as its image shows that what the walk has met is fine. The memory at the end
holds what this reading has allocated. -/
def Needs (heap : MessageHeap) (s : Visit) (v : Word) (bytes : List Byte) (s' : Visit) : Prop :=
  ∀ depth r φ rest v' r' memory ψ root root', bytes.length ≤ depth → Linked heap s r φ → heap.Good s →
    r.data = bytes ++ rest → readValue heap.handles heap.globals depth r = some (v',r') →
    Isomorphic heap root root' memory ψ → (isPointer v → heap.Part root (asObject v)) → v' = imageOf ψ v →
    Agrees heap root ψ s r → (∀ c ∈ r.free, c ∉ r'.free → memory c = r'.memory c) →
      heap.Good s' ∧ Agrees heap root ψ s' r'

/-- What is known of a reader that goes along with the walk. -/
structure Follows (heap : MessageHeap) (s : Visit) (v v' : Word) (r r' : Reader) (φ ψ : Word → Word) (memory : Memory)
    (root root' : Word) : Prop where
  linked : Linked heap s r φ
  good : heap.Good s
  iso : Isomorphic heap root root' memory ψ
  part : isPointer v → heap.Part root (asObject v)
  image : v' = imageOf ψ v
  agrees : Agrees heap root ψ s r
  memory : ∀ c ∈ r.free, c ∉ r'.free → memory c = r'.memory c

theorem needs_of_tag
    (h : ∀ depth r φ rest v' r' memory ψ root root', bytes.length ≤ depth →
      readTagged heap.handles heap.globals (readValue heap.handles heap.globals depth)
        { r with data := bytes ++ rest } tag = some (v',r') →
      Follows heap s v v' r r' φ ψ memory root root' → heap.Good s' ∧ Agrees heap root ψ s' r') :
    Needs heap s v (tag.byte :: bytes) s' := by
  intro depth r φ rest v' r' memory ψ root root' hd hl hg hda hrun hiso hp hv ha hm
  rw [length_cons] at hd
  obtain ⟨depth,rfl⟩ := Nat.exists_eq_add_one_of_ne_zero (show depth ≠ 0 by omega)
  rw [readValue_tag hda] at hrun
  exact h depth r φ rest v' r' memory ψ root root' (by omega) hrun ⟨hl,hg,hiso,hp,hv,ha,hm⟩

theorem tagPtr_injective (h : tagPtr a = tagPtr b) : a = b := by rw [← asObject_tagPtr a,h,asObject_tagPtr]

theorem eq_nil_of_image (hiso : Isomorphic heap root root' memory ψ)
    (hpar : isPointer v → heap.Part root (asObject v)) (hso : isPointer v → (heap.memory.object (asObject v)).isSome)
    (h : imageOf ψ v = tagPtr heap.handles.nil) : v = tagPtr heap.handles.nil := by
  rw [imageOf] at h
  split at h
  · next hp =>
    have hnil := tagPtr_injective h
    by_cases hs : heap.Shared (asObject v)
    · rw [hiso.shared (hpar hp) hs] at hnil
      rw [← hnil,tagPtr_asObject]
    · obtain ⟨o,ho⟩ := isSome_iff_exists.mp (hso hp)
      have hn := (hiso.copied (hpar hp) hs ho).1
      have hobj := heap.nil
      rw [hnil] at hn
      rw [hn] at hobj
      exact absurd hobj Bool.false_ne_true
  · exact h

theorem Follows.pointer (h : Follows heap s (tagPtr a) (tagPtr b) r r' φ ψ memory root root')
    (hs : (heap.memory.object a).isSome) : heap.Part root a ∧ b = ψ a := by
  have ha := h.part (isPointer_tagPtr (heap.aligned hs))
  have hv := h.image
  rw [asObject_tagPtr] at ha
  rw [imageOf_tagPtr ψ (heap.aligned hs)] at hv
  exact ⟨ha,tagPtr_injective hv⟩

section Names

theorem symbol_needs (ho : heap.memory.object a = some o) (hcls : o.cls = heap.handles.Symbol) (ht : nameText heap.memory.object a = some text) :
    Needs heap s (tagPtr a) (Tag.symbol.byte :: nameBytes text) (s.meet a) := by
  refine needs_of_tag fun d r φ l v' r' memory ψ root root' _ hrun h => ?_
  have hso := isSome_of_eq_some ho
  rw [readTagged,readSymbol,curName_append (nameText_length ht) rfl,bind_some] at hrun
  obtain ⟨⟨symbol,r1⟩,hs,heq⟩ := map_eq_some_iff.mp hrun
  cases heq
  obtain ⟨ha,hi⟩ := h.pointer hso
  have hsel := h.iso.shared ha (.inr ⟨o,ho,.inl hcls⟩)
  rw [hsel] at hi
  subst hi
  have hf := (h.linked.move l).grounded.asSymbol_eq hs hso
  obtain ⟨o',ho',-,hb⟩ := heap.symbol hf
  cases ho.symm.trans ho'
  obtain ⟨hta,hl⟩ := nameText_symbol ho hcls ht
  have hsi : o.size.toNat < 4294967296 := by
    have hcut := congrArg length (hb.trans hta)
    rw [length_take,hl] at hcut
    omega
  refine ⟨good_meet h.good (.symbol ho hcls hsi),h.agrees.meet ha ?_⟩
  change r1.registry ++ [symbol] = _
  rw [(asSymbol_allocates hs).1.numbers,hsel]

theorem cls_needs (ho : heap.memory.object a = some o) (hcls : o.cls ≠ heap.handles.Symbol)
    (hc : heap.isClassObject o) (hn : className o = some name) (ht : nameText heap.memory.object name = some text) :
    Needs heap s (tagPtr a) (Tag.cls.byte :: nameBytes text) (s.meet a) := by
  refine needs_of_tag fun d r φ l v' r' memory ψ root root' _ hrun h => ?_
  rw [readTagged,readClass,curName_append (nameText_length ht) rfl,bind_some] at hrun
  dsimp only at hrun
  split at hrun
  · next hsh =>
    obtain ⟨⟨cls,r1⟩,hget,heq⟩ := map_eq_some_iff.mp hrun
    cases heq
    obtain ⟨ha,hi⟩ := h.pointer (isSome_of_eq_some ho)
    have hs := h.iso.shared ha (.inr ⟨o,ho,.inr hc⟩)
    rw [hs] at hi
    subst hi
    have hf := (h.linked.move l).grounded.getClass_eq hget
    refine ⟨good_meet h.good (.cls ho hcls hc hn ht hsh hf.symm),h.agrees.meet ha ?_⟩
    change r1.registry ++ [cls] = _
    rw [(getClass_allocates hget).1.numbers,hs]
  · cases hrun

theorem again_needs (hi : s.met[i]? = some a) :
    Needs heap s (tagPtr a) (Tag.backref.byte :: idBytes (BitVec.ofNat 32 i)) { s with again := s.again ++ [i] } := by
  refine needs_of_tag fun d r φ l v' r' memory ψ root root' _ hrun h => ?_
  rw [readTagged,readBackref,curU32_append rfl,bind_some] at hrun
  obtain ⟨x,hx,heq⟩ := map_eq_some_iff.mp hrun
  cases heq
  obtain ⟨ha,rfl⟩ := h.pointer (h.linked.object (mem_of_getElem? hi))
  rw [h.agrees.registry,getElem?_map] at hx
  obtain ⟨y,hy,hψ⟩ := map_eq_some_iff.mp hx
  have hya : y = a := h.iso.injective (h.agrees.part y (mem_of_getElem? hy)) ha hψ
  subst hya
  have hin : (BitVec.ofNat 32 i).toNat = i :=
    (List.getElem?_inj (List.getElem?_eq_some_iff.mp hy).1 h.linked.nodup).mp (hy.trans hi.symm)
  refine ⟨⟨h.good.fine,fun j hj => ?_⟩,⟨h.agrees.registry,h.agrees.part⟩⟩
  rcases mem_append.mp hj with hj | hj
  · exact h.good.numbered j hj
  · rw [mem_singleton.mp hj,← hin]
    exact BitVec.isLt _

end Names

section Contents
variable {n : ℕ} (ih : ∀ s v bytes s', Message heap n s v bytes s' → Needs heap s v bytes s')
include ih

theorem fields_need (hch : Chain (Message heap n) s vs bytes s') (hde : bytes.length ≤ depth)
    (hl : Linked heap s r φ) (hg : heap.Good s) (hd : r.data = bytes ++ rest)
    (hrun : readFields (readValue heap.handles heap.globals depth) b i vs.length r = some r')
    (hn : heap.memory.object b = none) (hb : b ∉ r.free) (hp : r.memory b = some p)
    (hlen : i + vs.length ≤ p.vars.length) (hp' : r'.memory b = some p')
    (hi : ∀ k v, vs[k]? = some v → p'.vars[i + k]? = some (imageOf ψ v)) (hiso : Isomorphic heap root root' memory ψ)
    (hpar : ∀ v ∈ vs, isPointer v → heap.Part root (asObject v)) (ha : Agrees heap root ψ s r)
    (hm : ∀ c ∈ r.free, c ∉ r'.free → memory c = r'.memory c) : heap.Good s' ∧ Agrees heap root ψ s' r' := by
  induction hch generalizing r φ p i with
  | nil s =>
    cases hrun
    exact ⟨hg,ha⟩
  | cons head tail ihc =>
    rename_i s s1 s2 v vs b1 b2
    rw [length_append] at hde
    rw [append_assoc] at hd
    rw [length_cons] at hrun hlen
    obtain ⟨⟨v',q⟩,hq,hrun⟩ := bind_eq_some_iff.mp hrun
    have hf : Frame ∅ r q := readValue_frame hq
    have hbq : b ∉ q.free := fun hmem => hb (hf.free.subset hmem)
    have hpq : q.memory b = some p := by rw [hf.memory b hb (Set.notMem_empty b),hp]
    let store := fun object : RawObject => { object with vars := object.vars.set i v' }
    have hs := memory_modify hpq store
    have hr : Frame {b} (q.modify b store) r' := readFields_frame readValue_frame hrun
    -- the fields that follow leave this one alone
    obtain ⟨vars,hvar,-,hk⟩ := readFields_keeps readValue_frame hs hbq hrun
    cases hp'.symm.trans hvar
    have hv : v' = imageOf ψ v := by
      have hfi := hi 0 v rfl
      have hset : (p.vars.set i v')[i]? = some v' := by rw [getElem?_set_self (by omega)]
      have hst : vars[i]? = some v' := (hk i (Nat.lt_succ_self i)).trans hset
      exact Option.some.inj (hst.symm.trans hfi)
    obtain ⟨hg1,ha1⟩ := ih s v b1 s1 head depth r φ (b2 ++ rest) v' q memory ψ root root' (by omega)
      hl hg hd hq hiso (hpar v mem_cons_self) hv ha fun c hc hcq => by
        have hcb : c ≠ b := by
          rintro rfl
          exact hb hc
        rw [hm c hc fun hmem => hcq (hr.free.subset hmem),hr.memory c hcq hcb]
        exact update_of_ne hcb ..
    -- what has been read so far was fine, so that the reader is where the walk is
    obtain ⟨q',φ1,hq',hd1,hre,-⟩ := message_sends n s v b1 s1 head hg1 depth r φ (b2 ++ rest) (by omega) hl hd
    cases hq.symm.trans hq'
    refine ihc (by omega) (hre.linked.modify hn store) hg1 hd1 hrun hbq hs ?_ ?_
      (fun u hu => hpar u (mem_cons_of_mem v hu)) ⟨ha1.registry,ha1.part⟩ ?_
    · change i+1 + vs.length ≤ (p.vars.set i _).length
      rw [length_set]
      omega
    · intro k u hu
      have hne := hi (k+1) u hu
      rwa [← Nat.add_assoc,Nat.add_right_comm] at hne
    · exact fun c hc => hm c (hf.free.subset hc)

theorem object_needs (hs : heap.isSingleton a = false)
    (hnew : a ∉ s.met) (ho : heap.memory.object a = some o) (hcls : o.cls ≠ heap.handles.Symbol)
    (hcl : ¬ heap.isClassObject o) (hc : heap.memory.object o.cls = some cls)
    (hshape : cls.instanceShape = some shape) (hname : className cls = some name)
    (ht : nameText heap.memory.object name = some text)
    (hcon : if shape.hasBytes then contents = o.bytes ∧ s' = s.meet a
      else Chain (Message heap n) (s.meet a) o.vars contents s') :
    Needs heap s (tagPtr a)
      (Tag.object.byte :: (headerBytes text shape o ++ (contents ++ floatBytes shape o))) s' := by
  refine needs_of_tag fun d r φ l v' r' memory ψ root root' hd hrun h => ?_
  rw [length_append,length_append] at hd
  rw [append_assoc,append_assoc] at hrun
  have hso := isSome_of_eq_some ho
  have hcopy := not_shared hs ho hcls hcl
  obtain ⟨sh',hsh,hf⟩ := heap.memory.formed ho
  have hsh' := hsh
  rw [shapeOf,hc,bind_some] at hsh'
  cases hshape.symm.trans hsh'
  have hlt := nameText_length ht
  rw [readTagged] at hrun
  obtain ⟨hsho,found,r1,sh1,b,free,hget,hmem,hfr⟩ := readObject_inv hlt rfl hrun
  rw [readObject_eq hlt rfl hsho hget hmem hfr] at hrun
  obtain ⟨r3,hbo,heq⟩ := map_eq_some_iff.mp hrun
  cases heq
  obtain ⟨ha,rfl⟩ := h.pointer hso
  let r2 := begun heap.handles r1 (ψ a) found sh1 o.hash ((sentSize shape o).setWidth 64)
    (contents ++ (floatBytes shape o ++ l))
  obtain ⟨hl2,hfra2,hb,hb2⟩ := begun_linked sh1 o.hash ((sentSize shape o).setWidth 64)
    (contents ++ (floatBytes shape o ++ l)) h.linked hso hnew hs hcopy hget hfr
  have hfra3 : Frame {ψ a} r2 r' := readBody_frame readValue_frame hbo
  have hb3 : ψ a ∉ r'.free := fun h => hb2 (hfra3.free.subset h)
  -- the copy at the end is what the reader has made of the object
  obtain ⟨hno,sh'',o',hshape'',ho',hco⟩ := h.iso.copied ha hcopy ho
  cases hsh.symm.trans hshape''
  rw [h.memory _ hb hb3] at ho'
  obtain ⟨p',hp',hpc,hps,hpb⟩ := readBody_keeps readValue_frame (update_self ..) hb2 hbo
  cases ho'.symm.trans hp'
  have hfo : found = o.cls := hpc.symm.trans hco.cls
  have hg := (h.linked.move (sizeBytes shape o (contents ++ (floatBytes shape o ++ l)))).grounded
  have hna : heap.classNamed text = o.cls := (hg.getClass_eq hget).symm.trans hfo
  subst hfo
  have hg1 := hg.frame_empty (getClass_allocates hget).1.toFrame
  rw [hg1.kept hc,bind_some,hshape] at hmem
  cases hmem
  have hsi : o.size.toNat < 4294967296 := by
    by_cases hi : shape.isIndexed = 0
    · rw [hf.size hi]
      decide
    · have hse : (sentSize shape o).setWidth 64 = o.size := by
        rw [← hco.size,hps]
        exact (if_pos hi).symm
      rw [← hse,BitVec.toNat_setWidth,Nat.mod_eq_of_lt ((BitVec.isLt _).trans (by decide))]
      exact BitVec.isLt _
  obtain ⟨hse,hse64⟩ := sentSize_eq hf hsi
  have hbe : r2.memory (ψ a) = some (begunObject heap shape o (ψ a)) := by
    change Function.update r1.memory (ψ a) _ (ψ a) = _
    rw [update_self,hse64]
    rfl
  have hn : (begunObject heap shape o (ψ a)).vars = replicate o.vars.length (tagPtr heap.handles.nil) :=
    new_vars_length (b := ψ a) hf heap.handles o.cls
  have hpar : ∀ v ∈ o.vars, isPointer v → heap.Part root (asObject v) := fun v hv hp => .field ha hcopy ho hv hp
  have hvar : shape.hasBytes → ∀ v ∈ o.vars, v = tagPtr heap.handles.nil := by
    intro hby v hv
    have hk : o'.vars = replicate o.vars.length (tagPtr heap.handles.nil) := by
      rw [(hpb hby).1,← hn,begunObject,hse64]
    have hm : imageOf ψ v ∈ o'.vars := by
      rw [hco.vars]
      exact mem_map_of_mem hv
    rw [hk] at hm
    exact eq_nil_of_image h.iso (hpar v hv) (fun hp => heap.memory.closed ho v hv hp) (eq_of_mem_replicate hm)
  have hfin : heap.Fine a := .object ho hcls hcl hc hshape hname ht hsho hna hsi hvar
  have hgo2 := good_meet h.good hfin
  have hag2 : Agrees heap root ψ (s.meet a) r2 := by
    refine h.agrees.meet ha ?_
    change r1.registry ++ [ψ a] = _
    rw [(getClass_allocates hget).1.numbers]
  by_cases hby : shape.hasBytes
  · rw [if_pos hby] at hcon
    rw [hcon.2]
    exact ⟨hgo2,⟨(hpb hby).2.trans hag2.registry,hag2.part⟩⟩
  · rw [if_neg hby] at hcon
    rw [readBody,if_neg hby,hse,nfields_length hf hby] at hbo
    obtain ⟨r3,hfi,hfl⟩ := bind_eq_some_iff.mp hbo
    obtain ⟨vars,hvar3,-⟩ := readFields_keeps readValue_frame hbe hb2 hfi
    obtain ⟨⟨payload,hpa⟩,hr,hfr3,hot⟩ := readFloat_keeps hvar3 hfl
    cases hp'.symm.trans hpa
    obtain ⟨hgo3,hag3⟩ := fields_need ih hcon (show contents.length ≤ d by omega) hl2 hgo2 rfl
      hfi hno hb2 hbe (by rw [hn,length_replicate,Nat.zero_add]) hvar3
      (fun k u hu => by
        rw [Nat.zero_add,show vars = _ from hco.vars,getElem?_map,hu]
        rfl) h.iso hpar hag2 fun c hc hcf => by
          have hcb : c ≠ ψ a := by
            rintro rfl
            exact hb2 hc
          rw [h.memory c (hfra2.free.subset hc) (hfr3 ▸ hcf),hot c hcb]
    exact ⟨hgo3,⟨hr.trans hag3.registry,hag3.part⟩⟩

end Contents

theorem message_needs (n : ℕ) : ∀ s v bytes s', Message heap n s v bytes s' → Needs heap s v bytes s' := by
  induction n with
  | zero => exact fun _ _ _ _ h => h.elim
  | succ _ ih =>
    intro s v bytes s' h
    cases h with
    | int =>
      refine needs_of_tag fun d r φ l v' r' memory ψ root root' _ hrun h => ?_
      cases hrun.symm.trans (curI64_append rfl)
      exact ⟨h.good,h.agrees.registry,h.agrees.part⟩
    | @single a tag hs htag =>
      refine needs_of_tag fun d r φ l v' r' memory ψ root root' _ hrun h => ?_
      rw [htag] at hrun
      cases hrun
      exact ⟨h.good,h.agrees.registry,h.agrees.part⟩
    | again hi => exact again_needs hi
    | symbol _ _ ho hcls ht => exact symbol_needs ho hcls ht
    | cls _ _ ho hcls hcl hn ht => exact cls_needs ho hcls hcl hn ht
    | object hs hnew ho hcls hcl hc hsh hn ht hcon => exact object_needs ih hs hnew ho hcls hcl hc hsh hn ht hcon

end SmalltalkJit.Messages
