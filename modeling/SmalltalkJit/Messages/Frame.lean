import SmalltalkJit.Messages.Serializer

/-! # What reading leaves alone

Whatever the bytes are, reading changes the memory only where it allocates, hands
out numbers in order, and interns new symbols at new addresses. An object that is
being filled is the one exception, and only for as long as it is filled. What was
written is taken from the front of the data.
-/
namespace SmalltalkJit.Messages
open ByteStream Snapshot Function List Option Reader

/-- Between two states of the reader only new objects, and those of a set, have changed. -/
structure Frame (filled : Set Word) (r r' : Reader) : Prop where
  free : r'.free <:+ r.free
  memory : ∀ b ∉ r.free, b ∉ filled → r'.memory b = r.memory b
  registry : r.registry <+: r'.registry
  symbols : ∀ {bytes a}, r.symbols bytes = some a → r'.symbols bytes = some a
  interned : ∀ {bytes a}, r'.symbols bytes = some a →
    r.symbols bytes = some a ∨ r.symbols bytes = none ∧ a ∈ r.free

variable {a : Word}

namespace Frame
variable {r r' r'' : Reader}

theorem refl (filled : Set Word) (r : Reader) : Frame filled r r := ⟨suffix_rfl,fun _ _ _ => rfl,prefix_rfl,id,.inl⟩

theorem trans (h : Frame filled r r') (h' : Frame filled r' r'') : Frame filled r r'' where
  free := h'.free.trans h.free
  memory b hb hf := (h'.memory b (fun hb' => hb (h.free.subset hb')) hf).trans (h.memory b hb hf)
  registry := h.registry.trans h'.registry
  symbols hs := h'.symbols (h.symbols hs)
  interned {bytes a} hs := by
    rcases h'.interned hs with hs | ⟨hn,ha⟩
    · exact h.interned hs
    · cases hold : r.symbols bytes with
      | none => exact .inr ⟨rfl,h.free.subset ha⟩
      | some => exact absurd ((h.symbols hold).symm.trans hn) nofun

theorem mono (h : Frame ∅ r r') : Frame {a} r r' :=
  { h with memory := fun b hb _ => h.memory b hb (Set.notMem_empty b) }

theorem fill (h : Frame ∅ r r') (ha : a ∈ r.free) (h' : Frame {a} r' r'') : Frame ∅ r r'' := by
  have hall : Frame {a} r r'' := h.mono.trans h'
  refine { hall with memory := fun b hb _ => hall.memory b hb ?_ }
  rintro rfl
  exact hb ha

theorem data (filled : Set Word) (r : Reader) (rest : List Byte) : Frame filled r { r with data := rest } :=
  ⟨suffix_rfl,fun _ _ _ => rfl,prefix_rfl,id,.inl⟩

theorem regNew (filled : Set Word) (r : Reader) (a : Word) : Frame filled r (r.regNew a) :=
  ⟨suffix_rfl,fun _ _ _ => rfl,prefix_append _ _,id,.inl⟩

theorem modify (r : Reader) (a : Word) (f : RawObject → RawObject) : Frame {a} r (r.modify a f) :=
  ⟨suffix_rfl,fun _ _ hb => update_of_ne hb ..,prefix_rfl,id,.inl⟩

end Frame

/-- At most so many objects are allocated, and nothing is read or numbered. -/
structure Allocates (k : ℕ) (r r' : Reader) : Prop extends Frame ∅ r r' where
  data : r'.data = r.data
  numbers : r'.registry = r.registry
  room : r.free.length ≤ r'.free.length + k

variable {r' r : Reader}

theorem Allocates.trans (h : Allocates j r r') (h' : Allocates k r' r'') : Allocates (j + k) r r'' := by
  have hr := h.room
  have hr' := h'.room
  exact ⟨h.toFrame.trans h'.toFrame,h'.data.trans h.data,h'.numbers.trans h.numbers,by omega⟩

variable {bytes : List Byte}

section Cursor
variable {r r' : Reader}

theorem curBytes_eq_some (h : r.curBytes n = some (bytes,r')) : r' = { r with data := r.data.drop n } := by
  rw [curBytes] at h
  split at h
  · cases h
    rfl
  · cases h

theorem curBytes_frame (h : r.curBytes n = some (bytes,r')) : Frame ∅ r r' := curBytes_eq_some h ▸ Frame.data ∅ r _

theorem curU8_frame (h : r.curU8 = some (b,r')) : Frame ∅ r r' := by
  obtain ⟨⟨bytes,q⟩,hq,heq⟩ := map_eq_some_iff.mp h
  cases heq
  exact curBytes_frame hq

theorem curU32_frame {id : Id} (h : r.curU32 = some (id,r')) : Frame ∅ r r' := by
  obtain ⟨⟨bytes,q⟩,hq,heq⟩ := map_eq_some_iff.mp h
  cases heq
  exact curBytes_frame hq

theorem curI64_frame (h : r.curI64 = some (w,r')) : Frame ∅ r r' := by
  obtain ⟨⟨bytes,q⟩,hq,heq⟩ := map_eq_some_iff.mp h
  cases heq
  exact curBytes_frame hq

theorem curName_frame (h : r.curName = some (name,r')) : Frame ∅ r r' := by
  obtain ⟨⟨len,q⟩,hq,h⟩ := bind_eq_some_iff.mp h
  exact (curU32_frame hq).trans (curBytes_frame h)

end Cursor

section Allocation
variable {handles : Handles} {globals : Word → Option Word} {r r' : Reader} {a : Word}

theorem place_eq (h : r.place object = some (a,r')) : r.free = a :: r'.free ∧
      r' = { r with memory := Function.update r.memory a (some (object a)), free := r'.free } := by
  rw [place] at h
  split at h
  · cases h
  · next b free hf =>
    cases h
    exact ⟨hf,rfl⟩

theorem place_allocates (h : r.place object = some (a,r')) : a ∈ r.free ∧ Allocates 1 r r' := by
  obtain ⟨hf,heq⟩ := place_eq h
  have ha : a ∈ r.free := by
    rw [hf]
    exact mem_cons_self
  refine ⟨ha,?_⟩
  rw [heq]
  refine ⟨⟨?_,fun b hb _ => update_of_ne ?_ ..,prefix_rfl,id,.inl⟩,rfl,rfl,?_⟩
  · rw [hf]
    exact suffix_cons a _
  · rintro rfl
    exact hb ha
  · rw [hf]
    exact le_rfl

theorem allocateObject_allocates
    (h : allocateObject handles r cls size = some (a,shape,r')) : a ∈ r.free ∧ Allocates 1 r r' := by
  obtain ⟨s,-,h⟩ := bind_eq_some_iff.mp h
  obtain ⟨⟨b,q⟩,hq,heq⟩ := map_eq_some_iff.mp h
  cases heq
  exact place_allocates hq

theorem newString_allocates (h : newString handles r bytes = some (a,r')) : Allocates 1 r r' := by
  obtain ⟨⟨b,sh,q⟩,hq,heq⟩ := map_eq_some_iff.mp h
  cases heq
  obtain ⟨ha,hq⟩ := allocateObject_allocates hq
  exact ⟨hq.toFrame.fill ha (Frame.modify q _ _),hq.data,hq.numbers,hq.room⟩

theorem asSymbol_allocates (h : asSymbol handles r bytes = some (a,r')) :
    Allocates 2 r r' ∧ r'.symbols bytes = some a := by
  obtain ⟨⟨string,q⟩,hq,h⟩ := bind_eq_some_iff.mp h
  have hs := newString_allocates hq
  dsimp only at h
  split at h
  · next y hsy =>
    cases h
    exact ⟨{ hs with room := hs.room.trans (Nat.le_succ _) },hsy⟩
  · next hn =>
    obtain ⟨o,-,h⟩ := bind_eq_some_iff.mp h
    obtain ⟨⟨y,q'⟩,hq',heq⟩ := map_eq_some_iff.mp h
    cases heq
    obtain ⟨ha,hp⟩ := place_allocates hq'
    have hsa : q'.symbols = q.symbols := by rw [(place_eq hq').2]
    have hi : Allocates 1 q { q' with symbols := Function.update q'.symbols bytes (some y) } := by
      refine ⟨⟨hp.free,hp.memory,hp.registry,fun {x b} hb => ?_,fun {x b} hb => ?_⟩,hp.data, hp.numbers,hp.room⟩
      · have hne : x ≠ bytes := by
          rintro rfl
          exact absurd (hn.symm.trans hb) nofun
        change Function.update q'.symbols bytes (some y) x = some b
        rw [update_of_ne hne,hsa]
        exact hb
      · change Function.update q'.symbols bytes (some y) x = some b at hb
        rcases eq_or_ne x bytes with rfl | hne
        · rw [update_self] at hb
          cases hb
          exact .inr ⟨hn,ha⟩
        · rw [update_of_ne hne,hsa] at hb
          exact .inl hb
    exact ⟨hs.trans hi,update_self ..⟩

theorem getClass_allocates (h : getClass handles globals r name = some (cls,r')) : Allocates 2 r r' ∧ ∃ symbol,
      r'.symbols (cString name) = some symbol ∧ cls = ((globals symbol).map asObject).getD handles.nil := by
  obtain ⟨⟨symbol,q⟩,hq,heq⟩ := map_eq_some_iff.mp h
  cases heq
  obtain ⟨ha,hs⟩ := asSymbol_allocates hq
  exact ⟨ha,symbol,hs,rfl⟩

end Allocation

section Values
variable {handles : Handles} {globals : Word → Option Word} {readValue : Reader → Option (Word × Reader)}
  (hread : ∀ {r v r'}, readValue r = some (v,r') → Frame ∅ r r')
include hread

theorem readFields_frame {i count : ℕ} (h : readFields readValue a i count r = some r') : Frame {a} r r' := by
  induction count generalizing i r with
  | zero =>
    cases h
    exact Frame.refl _ _
  | succ _ ih =>
    obtain ⟨⟨v,q⟩,hq,h⟩ := bind_eq_some_iff.mp h
    exact (hread hq).mono.trans ((Frame.modify q a _).trans (ih h))

theorem readBody_frame (h : readBody readValue r a shape indexed = some r') : Frame {a} r r' := by
  obtain ⟨q,hq,h⟩ := bind_eq_some_iff.mp h
  have hf : Frame {a} r q := by
    split at hq
    · obtain ⟨⟨bytes,p⟩,hp,heq⟩ := map_eq_some_iff.mp hq
      cases heq
      exact (curBytes_frame hp).mono.trans (Frame.modify p a _)
    · exact readFields_frame hread hq
  refine hf.trans ?_
  split at h
  · obtain ⟨⟨b,p⟩,hp,heq⟩ := map_eq_some_iff.mp h
    cases heq
    exact (curI64_frame hp).mono.trans (Frame.modify p a _)
  · cases h
    exact Frame.refl _ _

theorem readObject_frame {v : Word} (h : readObject handles globals readValue r = some (v,r')) : Frame ∅ r r' := by
  obtain ⟨⟨n,r1⟩,h1,h⟩ := bind_eq_some_iff.mp h
  dsimp only at h
  split at h
  · obtain ⟨⟨cls,r2⟩,h2,h⟩ := bind_eq_some_iff.mp h
    obtain ⟨⟨hash,r3⟩,h3,h⟩ := bind_eq_some_iff.mp h
    obtain ⟨⟨indexed,r4⟩,h4,h⟩ := bind_eq_some_iff.mp h
    obtain ⟨⟨a,sh,r5⟩,h5,h⟩ := bind_eq_some_iff.mp h
    obtain ⟨r6,h6,heq⟩ := map_eq_some_iff.mp h
    cases heq
    have hh := (curName_frame h1).trans ((getClass_allocates h2).1.toFrame.trans ((curI64_frame h3).trans (curU32_frame h4)))
    obtain ⟨ha,hp⟩ := allocateObject_allocates h5
    refine hh.trans (hp.toFrame.fill ha ?_)
    exact (Frame.modify r5 a _).trans ((Frame.regNew _ _ a).trans (readBody_frame hread h6))
  · cases h

end Values

section Reading
variable {handles : Handles} {globals : Word → Option Word} {r r' : Reader} {v : Word}

theorem readValue_frame (h : readValue handles globals depth r = some (v,r')) : Frame ∅ r r' := by
  induction depth generalizing r v r' with
  | zero => cases h
  | succ _ ih =>
    obtain ⟨⟨byte,r1⟩,h1,h⟩ := bind_eq_some_iff.mp h
    obtain ⟨tag,-,h⟩ := bind_eq_some_iff.mp h
    refine (curU8_frame h1).trans ?_
    cases tag with
    | int => exact curI64_frame h
    | nil | true | false =>
      cases h
      exact Frame.refl _ _
    | backref =>
      obtain ⟨⟨id,r2⟩,h2,h⟩ := bind_eq_some_iff.mp h
      obtain ⟨a,-,heq⟩ := map_eq_some_iff.mp h
      cases heq
      exact curU32_frame h2
    | symbol =>
      obtain ⟨⟨bytes,r2⟩,h2,h⟩ := bind_eq_some_iff.mp h
      obtain ⟨⟨symbol,r3⟩,h3,heq⟩ := map_eq_some_iff.mp h
      cases heq
      exact (curName_frame h2).trans ((asSymbol_allocates h3).1.toFrame.trans (Frame.regNew _ _ _))
    | cls =>
      obtain ⟨⟨n,r2⟩,h2,h⟩ := bind_eq_some_iff.mp h
      dsimp only at h
      split at h
      · obtain ⟨⟨cls,r3⟩,h3,heq⟩ := map_eq_some_iff.mp h
        cases heq
        exact (curName_frame h2).trans ((getClass_allocates h3).1.toFrame.trans (Frame.regNew _ _ _))
      · cases h
    | object => exact readObject_frame ih h

end Reading

section Written
variable {r : Reader} {rest : List Byte}

theorem curBytes_append (h : r.data = bytes ++ rest) (hn : bytes.length = n) :
    r.curBytes n = some (bytes,{ r with data := rest }) := by
  rw [curBytes,h,if_pos (by rw [length_append]; omega),take_left' hn,drop_left' hn]

theorem curU8_cons (h : r.data = b :: rest) : r.curU8 = some (b,{ r with data := rest }) := by
  have hb : r.curBytes 1 = some ([b],{ r with data := rest }) := curBytes_append h rfl
  rw [curU8,hb]
  rfl

theorem curU32_append {id : Id} (h : r.data = idBytes id ++ rest) : r.curU32 = some (id,{ r with data := rest }) := by
  have hlt : id.toNat % 256^4 = id.toNat := Nat.mod_eq_of_lt id.isLt
  rw [curU32,curBytes_append h (length_idBytes id),map_some]
  dsimp only
  rw [idBytes,combine_split,hlt,BitVec.ofNat_toNat,BitVec.setWidth_eq]

theorem curI64_append (h : r.data = wordBytes w ++ rest) : r.curI64 = some (w,{ r with data := rest }) := by
  have hlt : w.toNat % 256^8 = w.toNat := Nat.mod_eq_of_lt w.isLt
  rw [curI64,curBytes_append h (length_wordBytes w),map_some]
  dsimp only
  rw [wordBytes,combine_split,hlt,BitVec.ofNat_toNat,BitVec.setWidth_eq]

theorem curName_append (hlt : text.length < 4294967296) (h : r.data = nameBytes text ++ rest) :
    r.curName = some (text,{ r with data := rest }) := by
  rw [nameBytes,append_assoc] at h
  have hlen : text.length = (BitVec.ofNat 32 text.length).toNat := by
    rw [BitVec.toNat_ofNat]
    exact (Nat.mod_eq_of_lt hlt).symm
  rw [curName,curU32_append h,bind_some]
  exact curBytes_append rfl hlen

theorem readValue_tag (h : r.data = tag.byte :: rest) : readValue handles globals (depth+1) r =
      readTagged handles globals (readValue handles globals depth) { r with data := rest } tag := by
  rw [readValue,curU8_cons h,bind_some]
  dsimp only
  rw [Tag.ofByte_byte,bind_some]

end Written

end SmalltalkJit.Messages
