import SmalltalkJit.Jit.BodyWalk

/-! # Every path through the emitted code reads the right values

The assertion of a block says that the flags the generator had there are right.
A path that falls through carries them over, a path that jumps needs nothing but
the frame slots, and the prologue establishes them.
-/
namespace SmalltalkJit.Jit
open Assembly Emission List Option Instr

section Assertions
variable {V : Type} (nil : V) (gen : CodeGenerator)

def readsOf (i : Instr ℤ) (index : ℕ) : Prop := index ∈ readTemps i ∨ index = selfIndex

def Between (pre : Bytecodes) : Bytecodes → MachineState V → Prop
  | i :: _, t => Tracks nil gen.alloc (liveAt gen.alloc pre.length) (readsOf i)
      (entered gen pre).flags t
  | [], t => returnsAtEnd gen.code.bytecodes = false →
      Tracks nil gen.alloc (fun v => v = .tmp selfIndex) (fun index => index = selfIndex)
        (stateAt gen pre).flags t

abbrev After (pre : Bytecodes) (i : Instr ℤ) (t : MachineState V) : Prop :=
  Tracks nil gen.alloc (liveAt gen.alloc pre.length) (readsOf i) (instrAt gen pre i).1.flags t

def Homed (t : MachineState V) : Prop := ∀ index, 1 ≤ index → gen.alloc.Defines (.tmp index) →
  t.slots .rbp (gen.alloc.frameOffset (.tmp index)) = t.vars index

def BlockAt : Option ℕ → MachineState V → Prop
  | none, t => Entry nil gen t
  | some offset, t => ∀ pre rest, gen.code.bytecodes = pre ++ rest → bytecodesSize pre = offset →
      Between nil gen pre rest t

end Assertions

variable {index : ℕ}

section Edges
variable {V : Type} {nil : V} {gen : CodeGenerator} {pre post : Bytecodes} {i : Instr ℤ}
variable {t : MachineState V} {source : Option ℕ}

theorem unset_of_mayEnter (hcode : gen.code.bytecodes = pre ++ i :: post)
    (hmay : MayEnter nil gen source (some (bytecodesSize pre)) t) (hpos : 1 ≤ index) (hr : readsOf i index)
    (hs : (entered gen pre).flags.onStack (.tmp index) = false) : t.vars index = nil := by
  have hf : ¬(stateAt gen pre).flags.onStack (.tmp index) = true := by
    intro hset
    cases ((@enterOffset_grows gen _ _ []).onStack _ hset).symm.trans hs
  have hl : gen.alloc.argsSize+1 < index := by
    by_contra hle
    exact hf (stateAt_args hpos (Nat.not_lt.mp hle))
  have hmem : index ∈ readTemps i := by
    rcases hr with hmem | rfl
    · exact hmem
    · simp only [selfIndex] at hl
      omega
  have hfe : fetch size gen.code.bytecodes (bytecodesSize pre) = some i := by
    rw [hcode]
    exact fetch_append size_pos pre i post
  rcases hmay.temps _ i rfl hfe index hmem hl with ⟨a,j,b,hsp,hlt,hw⟩ | hnil
  · exact absurd (stateAt_written (mem_of_size_lt (hsp ▸ hcode) hlt) hw) hf
  · exact hnil

variable {live : Var → Prop} {reads reads' : ℕ → Prop} {flags : Flags}

theorem Tracks.rereads (h : Tracks nil gen.alloc live reads flags t)
    (hu : ∀ index, 1 ≤ index → reads' index → flags.onStack (.tmp index) = false →
      t.vars index = nil) : Tracks nil gen.alloc live reads' flags t :=
  { h with unset := hu }

theorem Tracks.enter (hcompilable : Compilable gen) {rest : Bytecodes} (hcode : gen.code.bytecodes = pre ++ rest)
    (h : Tracks nil gen.alloc live reads (stateAt gen pre).flags t) :
    Tracks nil gen.alloc live reads (entered gen pre).flags t := by
  cases hf : gen.alloc.frameLess with
  | true => rwa [entered,enterOffset_straight (fun i hi => (hcompilable.straight hf i hi).1) hcode]
  | false =>
    unfold entered enterOffset
    split
    · refine ⟨?_,h.homed,?_,h.unset,h.self⟩
      · intro index r _ _ hin
        simp [dropFilled,variableType] at hin
      · simp [hf]
    · exact h

theorem tracks_of_homed (hf : gen.alloc.frameLess = false) (hh : Homed gen t)
    (he : ∀ index, 1 ≤ index → live (.tmp index) → flags.inReg (.tmp index) = false)
    (hs : flags.onStack (.tmp selfIndex) = true)
    (hu : ∀ index, 1 ≤ index → reads index → flags.onStack (.tmp index) = false →
      t.vars index = nil) : Tracks nil gen.alloc live reads flags t := by
  refine ⟨?_,fun _ => hh,?_,hu,hs⟩
  · intro index r hpos hl hin
    cases hin.symm.trans (he index hpos hl)
  · simp [hf]

theorem stateAt_self : (stateAt gen pre).flags.onStack (.tmp selfIndex) = true :=
  stateAt_args (Nat.le_refl 1) (Nat.le_add_left 1 _)

theorem self_unset (hi : index = selfIndex) (hs : (stateAt gen pre).flags.onStack (.tmp index) = false) :
    t.vars index = nil := by
  subst hi
  cases stateAt_self.symm.trans hs

theorem stateAt_inReg {more : Bytecodes} {index : ℕ} (hpos : 1 ≤ index)
    (h : (stateAt gen (pre ++ more)).flags.inReg (.tmp index) = true) : (stateAt gen pre).flags.inReg (.tmp index) =
      true ∨ ∃ j ∈ more, ∃ operand ∈ operandsOf j, .tmp index ∈ examined operand := by
  induction more using List.reverseRecOn with
  | nil => exact Or.inl (by simpa using h)
  | append_singleton more j ih =>
    rw [← append_assoc] at h
    rcases (stateAt_snoc_grows (pre ++ more) j).inReg index hpos h with h | hmem
    · refine (ih h).imp id ?_
      rintro ⟨k,hk,ho⟩
      exact ⟨k,mem_append_left _ hk,ho⟩
    · obtain ⟨operand,ho,hi⟩ := mem_flatMap.mp hmem
      exact Or.inr ⟨j,by simp,operand,ho,hi⟩

theorem stateAt_send (hs : isSend i = true) (hpos : 1 ≤ index)
    (h : (stateAt gen (pre ++ [i])).flags.inReg (.tmp index) = true) :
    ∃ operand ∈ resultOperands i, .tmp index ∈ examined operand := by
  rw [stateAt_snoc] at h
  cases i with
  | send => cases h
  | sendWithStore _ _ _ res =>
    rcases (@movToOperand_grows gen.alloc .rax res _).inReg index hpos h with hin | hmem
    · cases hin
    · exact ⟨res,mem_cons_self,hmem⟩
  | _ => cases hs

theorem SelfUnmentioned.inReg (h : SelfUnmentioned gen.code.bytecodes) :
    (stateAt gen gen.code.bytecodes).flags.inReg (.tmp selfIndex) = false := by
  refine Bool.eq_false_iff.mpr fun hin => ?_
  rcases h with hn | ⟨pre,i,post,hcode,hse,hr,hn⟩
  · rcases @stateAt_inReg gen [] gen.code.bytecodes selfIndex (Nat.le_refl 1) hin with
      hin | ⟨j,hj,operand,ho,hs⟩
    · cases hin.symm.trans (initialFlags_inReg (Nat.le_refl 1))
    · exact hn j hj operand ho hs
  · rw [show gen.code.bytecodes = (pre ++ [i]) ++ post by simp [hcode]] at hin
    rcases stateAt_inReg (Nat.le_refl 1) hin with hin | ⟨j,hj,operand,ho,hs⟩
    · obtain ⟨operand,ho,hs⟩ := stateAt_send hse (Nat.le_refl 1) hin
      exact hr operand ho hs
    · exact hn j hj operand ho hs

theorem blockAt_next (hcompilable : Compilable gen) (hcode : gen.code.bytecodes = pre ++ i :: post)
    (h : Tracks nil gen.alloc (liveAt gen.alloc pre.length) reads (instrAt gen pre i).1.flags t)
    (hmay : MayEnter nil gen source (some (bytecodesSize pre + i.size)) t) :
    BlockAt nil gen (some (bytecodesSize pre + i.size)) t := by
  intro pre' r' hc' hsi
  have hs : gen.code.bytecodes = (pre ++ [i]) ++ post := by simp [hcode]
  obtain ⟨rfl,rfl⟩ := append_inj_of_size (hc'.symm.trans hs) (by rw [hsi,bytecodesSize_snoc])
  rw [← stateAt_snoc] at h
  cases r' with
  | cons =>
    have hl : ∀ index, 1 ≤ index → liveAt gen.alloc (pre ++ [i]).length (.tmp index) →
        liveAt gen.alloc pre.length (.tmp index) := by
      rintro index - ⟨k,hk,hvar,hst⟩
      rw [length_append,length_singleton] at hst
      exact ⟨k,hk,hvar,by omega⟩
    have hmay' : MayEnter nil gen source (some (bytecodesSize (pre ++ [i]))) t := by rwa [bytecodesSize_snoc]
    exact ((h.mono hl).enter hcompilable hs).rereads
      fun index hpos hr hsta => unset_of_mayEnter hs hmay' hpos hr hsta
  | nil =>
    intro hret
    have hw : gen.code.bytecodes = pre ++ [i] := by simpa using hs
    have hsel : Tracks nil gen.alloc (fun v => v = .tmp selfIndex) reads (stateAt gen (pre ++ [i])).flags t := by
      rcases hmay.last (by rw [hw,bytecodesSize_snoc]) hret with hu | ⟨hn,-⟩
      · refine { h with cached := ?_ }
        intro index r _ hv hin
        rw [hv,← hw,hu.inReg] at hin
        cases hin
      · obtain ⟨k,hk,hvar,hst⟩ := gen.sound.last hn
        refine h.mono ?_
        rintro index - hv
        rw [hv]
        refine ⟨k,hk,hvar,?_⟩
        rw [hw,length_append,length_singleton] at hst
        omega
    exact hsel.rereads fun index _ hi hsta => self_unset hi hsta

theorem blockAt_jump (hcompilable : Compilable gen) (hcode : gen.code.bytecodes = pre ++ i :: post)
    (hj : isJump i = true) (hfor : Forgets gen offset) (hh : Homed gen t)
    (hmay : MayEnter nil gen (some (bytecodesSize pre)) (some offset) t) : BlockAt nil gen (some offset) t := by
  have hf := hcompilable.framed_of_jump (by simp [hcode]) hj
  rintro pre' r' hc' rfl
  cases r' with
  | cons =>
    refine tracks_of_homed hf hh (fun index hpos _ => hfor.inReg hc' hpos) ?_
      fun index hpos hr hst => unset_of_mayEnter hc' hmay hpos hr hst
    exact (@enterOffset_grows gen (stateAt gen pre') (bytecodesSize pre') []).onStack _ stateAt_self
  | nil =>
    intro hret
    rw [append_nil] at hc'
    refine tracks_of_homed hf hh ?_ stateAt_self fun index _ hi hst => self_unset hi hst
    rcases hmay.last (by rw [hc']) hret with hu | ⟨-,hs | ⟨pre'',i'',hc'',hnot,hs⟩⟩
    · intro index _ hv
      rw [hv,← hc']
      exact hu.inReg
    · cases hs
    · injection hs with hsi
      have hsa := append_inj_of_size (hcode.symm.trans hc'') hsi
      obtain rfl : i = i'' := (List.cons.inj hsa.2).1
      rw [hnot] at hj
      cases hj

end Edges

variable {operand : Operand}

section Blocks
variable {V : Type} {nil : V} {gen : CodeGenerator} {pre post : Bytecodes} {i : Instr ℤ}
variable {s : MachineState V}

theorem tempOperand_of_examined (hpos : 1 ≤ index) (h : .tmp index ∈ examined operand) :
    index ∈ tempOperand operand ∨ index = selfIndex := by
  have hz : index ≠ contextIndex := Nat.one_le_iff_ne_zero.mp hpos
  cases operand with
  | tempVar | argVar | instVarOf => exact Or.inl (by simpa [examined,tempOperand] using h)
  | super | instVar => exact Or.inr (by simpa [examined] using h)
  | contextVar => exact absurd (mem_singleton.mp h).symm (contextVar_ne_tmp hpos)
  | assoc => simp [examined] at h
  | block => exact Or.inr (by simpa [examined,hz] using h)
  | _ => cases h

def readOperands : Instr ℤ → List Operand
  | .copy source _ => [source]
  | .send _ receiver args | .sendWithStore _ receiver args _ => receiver :: args
  | .ret operand | .outerReturn operand | .jumpNotMemberOf _ operand _ => [operand]
  | .jump _ => []

theorem readsOf_operand {operand : Operand} (hmem : operand ∈ readOperands i) {index : ℕ}
    (hpos : 1 ≤ index) (h : .tmp index ∈ examined operand) : readsOf i index := by
  refine (tempOperand_of_examined hpos h).imp ?_ id
  intro ht
  cases i with
  | copy _ d =>
    obtain rfl := mem_singleton.mp hmem
    cases d <;> simp [readTemps,ht]
  | send => exact mem_flatMap.mpr ⟨operand,hmem,ht⟩
  | sendWithStore _ _ _ res =>
    have hf := mem_flatMap.mpr ⟨operand,hmem,ht⟩
    cases res <;> first | exact hf | exact mem_append_left _ hf
  | jump => cases hmem
  | ret | outerReturn | jumpNotMemberOf => exact mem_singleton.mp hmem ▸ ht

theorem readsOf_holder {dest : Operand} (hd : (∃ source, i = .copy source dest) ∨ ∃ selector receiver args,
      i = .sendWithStore selector receiver args dest) {index : ℕ} (h : index ∈ holders dest) :
    readsOf i index := by
  cases dest with
  | instVar => exact Or.inr (mem_singleton.mp h)
  | instVarOf =>
    rw [mem_singleton.mp h]
    rcases hd with ⟨source,rfl⟩ | ⟨selector,receiver,args,rfl⟩ <;>
      exact Or.inl (mem_append_right _ mem_cons_self)
  | _ => cases h

theorem entered_started (hcode : gen.code.bytecodes = pre ++ i :: post) :
    Started gen.alloc pre.length (entered gen pre).flags :=
  (stateAt_started hcode).grows (@enterOffset_grows gen _ _ []) fun v hv => by cases hv

variable (hcompilable : Compilable gen) (hcode : gen.code.bytecodes = pre ++ i :: post)
  (h : Between nil gen pre (i :: post) s)
include hcompilable hcode h

theorem copy_safe (hi : i = .copy source dest) : Runs nil (instrAt gen pre i).2.1 (After nil gen pre i) s := by
  have hu := hcompilable.inUse hcode
  have hr := fun index => @readsOf_operand i source (by simp [hi,readOperands]) index
  have hh := fun index => @readsOf_holder i dest (Or.inl ⟨source,hi⟩) index
  subst hi
  exact generateCopy_safe gen.sound h (entered_started hcode) (hu source (by simp)) (hu dest (by simp)) hr hh

theorem sendCode_safe (hc : calls i = true)
    (hu : usedOperands i = receiver :: args) (hr : readOperands i = receiver :: args) :
    Keeps nil gen.alloc (liveAt gen.alloc pre.length) (readsOf i) (generateSendCode gen.alloc receiver args)
      (entered gen pre).flags s := by
  have hi : i ∈ gen.code.bytecodes := by simp [hcode]
  refine generateSendCode_safe gen.sound h (entered_started hcode) (gen.sound.framed i hi (Or.inl hc)) ?_ ?_
  · intro operand hmem
    exact hcompilable.inUse hcode operand (hu ▸ hmem)
  · intro operand hmem index hpos hin
    exact readsOf_operand (hr ▸ hmem) hpos hin

theorem sendWithStore_safe (hi : i = .sendWithStore selector receiver args result) :
    Runs nil (instrAt gen pre i).2.1 (After nil gen pre i) s := by
  have hs := sendCode_safe hcompilable hcode h (by rw [hi]; rfl) (by rw [hi]; rfl) (by rw [hi]; rfl)
  have hh := fun index => @readsOf_holder i result (Or.inr ⟨selector,receiver,args,hi⟩) index
  have hf := hcompilable.fits (i := i) (by simp [hcode]) result (by simp [hi,resultOperands])
  have hr := gen.sound.results pre i post hcode result (by simp [hi,resultOperands])
  subst hi
  refine Safe.andThen (hs.mono fun t ht => ?_)
  refine movToOperand_safe gen.sound ht ⟨?_,hf.assoc,hf.frame⟩ hh .rax
  intro v hv
  exact usable_of_empty (hr v hv).liveAt (hr v hv).defines fun _ _ => rfl

theorem ret_safe (hi : i = .ret operand ∨ i = .outerReturn operand) :
    Keeps nil gen.alloc (liveAt gen.alloc pre.length) (readsOf i) (movOperand gen.alloc .rax operand)
      (entered gen pre).flags s := by
  have hu : InUse gen.alloc pre.length operand :=
    hcompilable.inUse hcode operand (by rcases hi with rfl | rfl <;> simp)
  refine (movOperand_safe gen.sound h (hu.ready gen.sound (entered_started hcode)) ?_ .rax).mono
    fun t ht => ht.unclobber gen.sound (by decide)
  intro index hpos hin
  exact readsOf_operand (by rcases hi with rfl | rfl <;> simp [readOperands]) hpos hin

theorem outerReturn_safe (hi : i = .outerReturn operand) : Runs nil (instrAt gen pre i).2.1 (fun _ => True) s := by
  have hret := ret_safe hcompilable hcode h (Or.inr hi)
  subst hi
  refine Safe.andThen (hret.mono fun t ht => ?_)
  refine Safe.andThen ((fillContextVar_safe gen.sound ht).mono fun t' _ => ?_)
  simp only [emit,safe_load]
  exact fun _ _ _ => safe_call fun _ => trivial

theorem check_safe (hi : i = .jumpNotMemberOf classLiteral operand displacement) :
    Runs nil (instrAt gen pre i).2.1 (fun t => After nil gen pre i t) s := by
  have hf := hcompilable.framed_of_jump (i := i) (by simp [hcode]) (by rw [hi]; rfl)
  have hu := hcompilable.inUse hcode operand (by simp [hi])
  have hr := fun index => @readsOf_operand i operand (by simp [hi,readOperands]) index
  have hc := generateClassCheck_safe gen.sound h (hu.ready gen.sound (entered_started hcode)) hr hf
  subst hi
  simp only [After,instrAt,generateInstr,generateCheck]
  split
  · exact h
  · split <;> exact hc

end Blocks

section Successors
variable {gen : CodeGenerator} {pre post : Bytecodes} {i : Instr ℤ}

theorem fusedTarget_eq {next : ℕ} (h : fusedTarget gen number next cls operand displacement = some notBool) :
    0 < displacement ∧
      ∃ pre' i' post', gen.code.bytecodes = pre' ++ i' :: post' ∧ jumpTarget next displacement =
      (bytecodesSize pre' : ℕ) ∧ notBool ∈ targetsOf (bytecodesSize pre' + i'.size) i' := by
  simp only [fusedTarget,ite_none_right_eq_some,Bool.and_eq_true,decide_eq_true_eq] at h
  obtain ⟨hc,hs⟩ := h
  refine ⟨hc.1.1.1.2,?_⟩
  unfold secondCheckAt at hs
  split at hs
  · rename_i cl op' d' hf
    obtain ⟨⟨-,-,hge,-,-⟩,heq⟩ := ite_none_right_eq_some.mp hs
    obtain ⟨pre',post',hcode,hsi⟩ := fetch_eq_some hf
    have ht : jumpTarget next displacement = (bytecodesSize pre' : ℕ) := by
      rw [show bytecodesSize pre' = (jumpTarget next displacement).toNat from hsi,Int.toNat_of_nonneg hge]
    refine ⟨pre',_,post',hcode,ht,?_⟩
    cases heq
    rw [ht]
    simp [targetsOf,jumpTarget,size]
  · cases hs

theorem instrAt_succs (hcode : gen.code.bytecodes = pre ++ i :: post) (hm : m ∈ (instrAt gen pre i).2.2) :
    (m = bytecodesSize pre + i.size ∧ ∀ displacement, i ≠ .jump displacement) ∨
      (isJump i = true ∧ Forgets gen m) := by
  have hone : m ∈ [bytecodesSize pre + i.size] → m = bytecodesSize pre + i.size := mem_singleton.mp
  cases i with
  | copy | send | sendWithStore
  | outerReturn => exact Or.inl ⟨hone hm,by simp⟩
  | ret => cases hm
  | jump displacement =>
    refine Or.inr ⟨rfl,?_⟩
    have ht := forgets_of_target hcode displacement mem_cons_self (by
      intro hge
      simp only [instrAt,generateInstr,generateJump,if_neg (Int.not_lt.mpr hge)]
      exact mem_cons_self)
    simp only [instrAt,generateInstr,generateJump] at hm
    split at hm <;> exact mem_singleton.mp hm ▸ ht
  | jumpNotMemberOf cl operand displacement =>
    have hi : instrAt gen pre (.jumpNotMemberOf cl operand displacement) =
        generateCheck gen (enterOffset gen (stateAt gen pre) (bytecodesSize pre)) pre.length
          (bytecodesSize pre)
          (bytecodesSize pre + (jumpNotMemberOf cl operand displacement).size)
          cl operand displacement := rfl
    generalize hn : bytecodesSize pre + (jumpNotMemberOf cl operand displacement).size = next at hi ⊢
    have ht := forgets_of_target hcode displacement mem_cons_self
    rw [hi,hn] at ht
    rw [hi] at hm
    unfold generateCheck at hm ht
    split at hm
    · exact Or.inl ⟨mem_singleton.mp hm,by simp⟩
    · rename_i hfu
      simp only [hfu,Bool.false_eq_true,↓reduceIte] at ht
      cases hf : fusedTarget gen pre.length next (gen.code.literalAt cl) operand displacement with
      | none =>
        simp only [hf,mem_cons,not_mem_nil,or_false] at hm ht
        rcases hm with rfl | rfl
        · exact Or.inl ⟨rfl,by simp⟩
        · refine Or.inr ⟨rfl,ht fun hge => ?_⟩
          rw [if_neg (Int.not_lt.mpr hge)]
          exact mem_cons_self
      | some notBool =>
        obtain ⟨hpos,pre',i',q',hc',hat,hmem⟩ := fusedTarget_eq hf
        have hl : (instrAt gen pre (.jumpNotMemberOf cl operand displacement)).1.labels =
            jumpTarget next displacement :: notBool ::
              (entered gen pre).labels := by
          rw [hi]
          simp only [generateCheck,hfu,Bool.false_eq_true,↓reduceIte,hf]
          rfl
        simp only [hf,mem_cons,not_mem_nil,or_false] at hm
        rcases hm with rfl | rfl | rfl
        · exact Or.inl ⟨rfl,by simp⟩
        · refine Or.inr ⟨rfl,forgets_of_label hcode (by rw [hl]; simp) ?_⟩
          unfold jumpTarget
          omega
        · -- the second check jumps there itself, unless that is further down than this one
          refine Or.inr ⟨rfl,?_⟩
          by_cases hlt : notBool < ((bytecodesSize pre' + i'.size : ℕ) : ℤ)
          · exact forgets_of_backward hc' hmem hlt
          · refine forgets_of_label hcode (by rw [hl]; simp) ?_
            unfold jumpTarget at hat
            omega

end Successors

section Whole
variable {V : Type} {nil : V} {gen : CodeGenerator} {pre post : Bytecodes} {i : Instr ℤ}
variable {s : MachineState V}

theorem instr_block (hcompilable : Compilable gen) (hcode : gen.code.bytecodes = pre ++ i :: post)
    (h : Between nil gen pre (i :: post) s) :
    Runs nil (instrAt gen pre i).2.1 (fun t => ∀ m ∈ (instrAt gen pre i).2.2,
      MayEnter nil gen (some (bytecodesSize pre)) (some m) t → BlockAt nil gen (some m) t) s := by
  have hi : i ∈ gen.code.bytecodes := by simp [hcode]
  -- flags that hold after the code serve the next bytecode, the slots every other one
  have hc : ∀ t, After nil gen pre i t → ∀ m ∈ (instrAt gen pre i).2.2,
      MayEnter nil gen (some (bytecodesSize pre)) (some m) t → BlockAt nil gen (some m) t := by
    intro t ht m hm hmay
    rcases instrAt_succs hcode hm with ⟨rfl,-⟩ | ⟨hj,hf⟩
    · exact blockAt_next hcompilable hcode ht hmay
    · exact blockAt_jump hcompilable hcode hj hf (ht.homed (hcompilable.framed_of_jump hi hj)) hmay
  cases hk : i with
  | copy => exact hk ▸ (copy_safe hcompilable hcode h hk).mono hc
  | send =>
    have hse := sendCode_safe hcompilable hcode h (by rw [hk]; rfl) (by rw [hk]; rfl) (by rw [hk]; rfl)
    subst hk
    exact hse.mono hc
  | sendWithStore => exact hk ▸ (sendWithStore_safe hcompilable hcode h hk).mono hc
  | ret =>
    have hret := ret_safe hcompilable hcode h (Or.inl hk)
    exact hret.mono fun t _ m hm => by cases hm
  | outerReturn operand =>
    have hret := outerReturn_safe hcompilable hcode h hk
    subst hk
    refine hret.mono fun t _ m _ hmay => ?_
    have hfe : fetch size gen.code.bytecodes (bytecodesSize pre) = some (.outerReturn operand) := by
      rw [hcode]
      exact fetch_append size_pos pre _ post
    exact absurd hfe (hmay.live _ operand rfl)
  | jump d =>
    have hj : isJump i = true := by
      rw [hk]
      rfl
    have hh := h.homed (hcompilable.framed_of_jump hi hj)
    have hl : ∀ t : MachineState V, t.slots = s.slots → t.vars = s.vars →
        ∀ m ∈ (instrAt gen pre i).2.2, MayEnter nil gen (some (bytecodesSize pre)) (some m) t →
          BlockAt nil gen (some m) t := by
      intro t hs hv m hm hmay
      rcases instrAt_succs hcode hm with ⟨-,hnot⟩ | ⟨-,hf⟩
      · exact absurd hk (hnot d)
      · refine blockAt_jump hcompilable hcode hj hf ?_ hmay
        rw [Homed,hs,hv]
        exact hh
    subst hk
    have hops : (instrAt gen pre (.jump d)).2.1 = if d < 0 then [.call] else [] := by
      simp only [instrAt,generateInstr,generateJump]
      split <;> rfl
    rw [hops]
    split
    · exact safe_call fun regs => hl _ rfl rfl
    · exact hl s rfl rfl
  | jumpNotMemberOf => exact hk ▸ (check_safe hcompilable hcode h hk).mono hc

theorem end_block (h : Between nil gen gen.code.bytecodes [] s)
    (hp : ∀ t, Post t) : Runs nil (if returnsAtEnd gen.code.bytecodes then []
      else (movVar gen.alloc (.tmp selfIndex) .rax (stateAt gen gen.code.bytecodes).flags).2) Post s := by
  cases hr : returnsAtEnd gen.code.bytecodes with
  | true => exact hp s
  | false =>
    refine (movVar_safe gen.sound (h hr) ⟨fun _ _ _ => rfl,?_,?_⟩ ?_ .rax).mono fun t _ => hp t
    · intro r index _ _ hne hl
      exact absurd hl hne
    · exact (gen.sound.args selfIndex (Nat.le_refl 1) (Nat.le_add_left 1 _)).1
    · intro index _ hv
      injection hv with hi
      exact hi.symm

variable {t : MachineState V}

theorem Homed.setSlot (h : Homed gen t) (ho : offset = -1 ∨ offset = -2) (x : V) :
    Homed gen (t.setSlot offset x) := by
  intro index hpos hd
  have hne : gen.alloc.frameOffset (.tmp index) ≠ offset := by
    by_cases hle : index ≤ gen.alloc.argsSize+1
    · have := (gen.sound.args index hpos hle).2
      omega
    · have := (gen.sound.temps index (Nat.not_le.mp hle) hd).2
      omega
  simpa [hne] using h index hpos hd

theorem spills_safe {offsets : List ℤ} (htmp : t.regs .tmp = nil) :
    Runs nil (offsets.map (Op.spill .tmp)) (fun u => u.vars = t.vars ∧
      (∀ o ∈ offsets, u.slots .rbp o = nil) ∧ ∀ o, o ∉ offsets → u.slots .rbp o = t.slots .rbp o) t := by
  induction offsets generalizing t with
  | nil => exact ⟨rfl,by simp,fun _ _ => rfl⟩
  | cons offset r ih =>
    rw [map_cons,safe_spill]
    have hs : ∀ o, (t.setSlot offset (t.regs .tmp)).slots .rbp o =
        if o = offset then nil else t.slots .rbp o := by
      intro o
      by_cases ho : o = offset <;> simp [ho,htmp]
    refine (ih (t := t.setSlot offset (t.regs .tmp)) htmp).mono ?_
    rintro u ⟨hv,hc,hk⟩
    refine ⟨hv,?_,?_⟩
    · intro o ho
      by_cases hr : o ∈ r
      · exact hc o hr
      · obtain rfl := (mem_cons.mp ho).resolve_right hr
        rw [hk o hr,hs,if_pos rfl]
    · intro o ho
      have hne : o ≠ offset := fun h => ho (by simp [h])
      rw [hk o fun h => ho (mem_cons_of_mem offset h),hs,if_neg hne]

theorem prologue_homed (hf : gen.alloc.frameLess = false) (he : Entry nil gen s) :
    Runs nil (generatePrologue gen) (fun t => Homed gen t ∧ t.vars = s.vars) s := by
  rw [generatePrologue,safe_loadNil]
  refine (spills_safe (by simp)).mono ?_
  rintro t ⟨hv,hc,hk⟩
  refine ⟨?_,hv⟩
  intro index hpos hd
  rw [hv]
  by_cases hle : index ≤ gen.alloc.argsSize+1
  · have ho := (gen.sound.args index hpos hle).2
    rw [hk]
    · have harg := he.args index hpos hle
      simpa [RegsAlloc.base,hf] using harg
    · intro hmem
      obtain ⟨i,-,hi⟩ := mem_filterMap.mp hmem
      unfold clearedSlot at hi
      split at hi
      · cases hi
      · injection hi with hi
        omega
  · obtain ⟨hlow,hh⟩ := gen.sound.temps index (Nat.not_le.mp hle) hd
    rw [hc]
    · exact (he.temps index (Nat.not_le.mp hle)).symm
    · have hde : deadContextSlot gen = 0 ∨ deadContextSlot gen = -2 := by
        unfold deadContextSlot
        split
        · exact Or.inl rfl
        · exact Or.inr gen.sound.context.2
      refine mem_filterMap.mpr ⟨(-gen.alloc.frameOffset (.tmp index)-1).toNat,?_,?_⟩
      · rw [mem_range]
        omega
      · have heq : -(((-gen.alloc.frameOffset (.tmp index)-1).toNat : ℤ)+1) =
            gen.alloc.frameOffset (.tmp index) := by omega
        rw [clearedSlot,heq,if_neg (by omega)]

theorem contextDefinition_homed (h : Homed gen s) : Runs nil (generateContextDefinition gen)
      (fun t => Homed gen t ∧ t.vars = s.vars) s := by
  have ho : gen.alloc.frameOffset (.tmp contextIndex) = -2 := gen.sound.context.2
  rw [generateContextDefinition,safe_spill,ho]
  have hf := h.setSlot (Or.inl rfl) (s.regs .r11)
  split
  · rw [safe_spill]
    exact ⟨hf.setSlot (Or.inr rfl) _,rfl⟩
  · split
    · refine safe_call fun _ => ?_
      rw [safe_spill]
      exact ⟨Homed.setSlot hf (Or.inr rfl) _,rfl⟩
    · rw [safe_load]
      intro x
      rw [safe_spill]
      exact ⟨hf.setSlot (Or.inr rfl) _,rfl⟩

theorem entry_block (hcompilable : Compilable gen) (he : Entry nil gen s) : Runs nil (generateEntry gen) (fun t =>
      MayEnter nil gen none (some 0) t → BlockAt nil gen (some 0) t) s := by
  have hst : ∀ t, Tracks nil gen.alloc (fun _ => True) (fun _ => False) (stateAt gen []).flags t →
      MayEnter nil gen none (some 0) t → BlockAt nil gen (some 0) t := by
    intro t ht hmay pre l hcode hsi
    obtain rfl := eq_nil_of_size hsi
    cases l with
    | cons =>
      refine ((ht.mono fun _ _ _ => trivial).enter hcompilable hcode).rereads ?_
      exact fun index hpos hr hs => unset_of_mayEnter hcode hmay hpos hr hs
    | nil =>
      intro _
      exact (ht.mono fun _ _ _ => trivial).rereads fun index _ hi hs => self_unset hi hs
  have hem : ∀ index, 1 ≤ index → (stateAt gen []).flags.inReg (.tmp index) = false :=
    fun index hpos => initialFlags_inReg hpos
  unfold generateEntry
  cases hf : gen.alloc.frameLess with
  | true =>
    refine hst s ⟨?_,?_,?_,fun _ _ hr => hr.elim,stateAt_self⟩
    · intro index r hpos _ hin
      cases hin.symm.trans (hem index hpos)
    · simp [hf]
    · intro _ index hpos hs _
      have hle : index ≤ gen.alloc.argsSize+1 := by
        have hne : index ≠ contextIndex := Nat.one_le_iff_ne_zero.mp hpos
        simpa [stateAt,stateAfter,initialFlags,hne] using hs
      simpa [RegsAlloc.base,hf] using he.args index hpos hle
  | false =>
    have hre : ∀ t : MachineState V, Homed gen t → MayEnter nil gen none (some 0) t → BlockAt nil gen (some 0) t := by
      intro t ht
      exact hst t (tracks_of_homed hf ht (fun index hpos _ => hem index hpos) stateAt_self
        fun _ _ hr => hr.elim)
    simp only [Bool.false_eq_true,↓reduceIte,append_assoc]
    refine (prologue_homed hf he).append ?_
    rintro t ⟨ht,-⟩
    refine (contextDefinition_homed ht).append ?_
    rintro u ⟨hu,-⟩
    split
    · exact hre u hu
    · exact safe_call fun regs => safe_call fun regs' => hre _ hu

end Whole

section Main
variable {V : Type} {nil : V} {gen : CodeGenerator}

theorem generateCode_floyd (hcompilable : Compilable gen) :
    Floyd (machine nil) SafeChoice (generateCode gen) (MayEnter nil gen) (BlockAt nil gen) := by
  constructor
  intro k ops succs s hb hat
  cases k with
  | none =>
    cases hb
    refine (entry_block hcompilable hat).mono ?_
    intro t ht m hm hmay
    obtain rfl := mem_singleton.mp hm
    exact ht hmay
  | some offset =>
    obtain ⟨b,hf,heq⟩ := map_eq_some_iff.mp hb
    cases heq
    have hmem := mem_of_find?_eq_some hf
    have hoff : b.offset = offset := by simpa using List.find?_some hf
    rcases mem_generateFrom hmem with ⟨pre,i,post,hcode,hpre,hi⟩ | ⟨hend,hs,hops⟩
    · simp only [Nat.zero_add] at hpre hi
      rw [hoff] at hpre
      subst hpre
      obtain ⟨hops,hs⟩ := Prod.mk.inj (show (b.ops,b.succs) = (instrAt gen pre i).2 from hi)
      rw [hops,hs]
      refine (instr_block hcompilable hcode (hat pre (i :: post) hcode rfl)).mono ?_
      intro t ht m hm hmay
      obtain ⟨o,ho,rfl⟩ := mem_map.mp hm
      exact ht o ho hmay
    · rw [Nat.zero_add,hoff] at hend
      rw [hops]
      refine end_block (hat gen.code.bytecodes [] (by simp) hend.symm) ?_
      intro t m hm
      rw [hs] at hm
      cases hm

/-- On every path through the code of a compilable method that calls well-behaved methods and
enters its blocks as they allow, each use of a variable gets the value last written to it. -/
theorem generateCode_reads (hcompilable : Compilable gen) {s : MachineState V} (hentry : Entry nil gen s)
    {c : Config (Option ℕ) Op (MachineState V)} (hrun : Relation.ReflTransGen
      (Step (machine nil) SafeChoice (generateCode gen) (MayEnter nil gen)) ⟨none,generateEntry gen,s⟩ c)
    {index : ℕ} {source : Source} {rest : List Op} (hc : c.rest = .read index source :: rest) :
    sourceValue nil c.state source = c.state.vars index :=
  (@generateCode_floyd V nil gen hcompilable).demands rfl (show BlockAt nil gen none s from hentry) hrun hc

end Main

section Loops

def oneTemp (bytecodes : Bytecodes) : CodeGenerator where
  image := Image.uniform []
  code := { isBlock := false, header := ⟨0,1,false,0,0,0⟩, literals := [0], ownerClass := 10,
            bytecodes := bytecodes }
  regsLimit := 0
  fuseBooleanEnabled := true
  isSpecGuard := fun _ => false

/-- The machine before any variable has been given a value, with 0 for nil. -/
def blankState : MachineState ℕ := ⟨fun _ => 0,fun _ _ => 0,fun _ => 0⟩

theorem entry_blankState (gen : CodeGenerator) : Entry 0 gen blankState := ⟨fun _ _ _ => rfl,fun _ _ => rfl⟩

def plainCall : Choice ℕ ⊕ Option ℕ := .inl (.call none (fun _ => 0) fun _ => 0)

def silently : Choice ℕ ⊕ Option ℕ := .inl .silent

def enterPath : List (Choice ℕ ⊕ Option ℕ) :=
  [silently,silently,silently,.inl (.value 0),silently,plainCall,plainCall,.inr (some 0)]

theorem safeChoice_of_plain {path : List (Choice ℕ ⊕ Option ℕ)}
    (h : ∀ callee regs slots, .inl (.call (some callee) regs slots) ∉ path) : ∀ l, .inl l ∈ path → SafeChoice l := by
  intro l hl
  cases l with
  | call callee regs slots =>
    cases callee with
    | none => trivial
    | some callee => exact absurd hl (h callee regs slots)
  | _ => trivial

def useLoop : Bytecodes := [.copy (.value 5) (.tempVar 2),.send 0 (.tempVar 2) [],.jump (-12)]

def useLoopPath : List (Choice ℕ ⊕ Option ℕ) := enterPath ++
  [.inl (.value 5),silently,silently,.inr (some 13),silently,silently,silently,plainCall,.inr (some 20),plainCall,
    .inr (some 13),silently]

theorem compilable_of_framed (hf : (oneTemp bytecodes).alloc.frameLess = false)
    (h : ∀ i ∈ bytecodes, ∀ operand ∈ operandsOf i, ∀ index, operand ≠ .assoc index) :
    Compilable (oneTemp bytecodes) :=
  ⟨fun i hi index hin => absurd rfl (h i hi _ hin index),by simp [hf]⟩

theorem useLoop_compilable : Compilable (oneTemp useLoop) :=
  compilable_of_framed (by decide +kernel) (by simp [useLoop,resultOperands])

theorem useLoop_mayEnter {target : Option ℕ} (ht : target ≠ some 25) (source : Option ℕ)
    (t : MachineState ℕ) : MayEnter 0 (oneTemp useLoop) source target t := by
  have hc : ∀ k i, fetch size useLoop k = some i →
      (∀ operand, i ≠ .outerReturn operand) ∧ (readTemps i = [] ∨ readTemps i = [2] ∧ 0 < k) := by
    intro k i hf
    obtain ⟨pre,post,hcode,rfl⟩ := fetch_eq_some hf
    rcases pre with _ | ⟨a,_ | ⟨b,_ | ⟨c,pre⟩⟩⟩
    · cases hcode
      exact ⟨by simp,Or.inl rfl⟩
    · cases hcode
      exact ⟨by simp,Or.inr ⟨rfl,by decide⟩⟩
    · cases hcode
      exact ⟨by simp,Or.inl rfl⟩
    · simp [useLoop] at hcode
  refine ⟨?_,?_,fun hl => absurd hl ht⟩
  · intro k operand _ hf
    exact (hc k _ hf).1 operand rfl
  · intro k i _ hf index hmem _
    rcases (hc k i hf).2 with hn | ⟨htwo,hpos⟩
    · rw [hn] at hmem
      cases hmem
    · rw [htwo] at hmem
      obtain rfl := mem_singleton.mp hmem
      exact Or.inl ⟨[],_,_,rfl,hpos,rfl⟩

/-- The second turn of a loop reads what was assigned before the first. -/
theorem generateCode_reads_useLoop : ∃ c : Config (Option ℕ) Op (MachineState ℕ), c.rest.head? =
      some (.read 2 (.reg .r13)) ∧ sourceValue 0 c.state (.reg .r13) = c.state.vars 2 ∧ c.state.vars 2 = 5 := by
  have hend : (follow (fun o l s => execOp 0 s o l) (generateCode (oneTemp useLoop)) useLoopPath
      ⟨none,generateEntry (oneTemp useLoop),blankState⟩).map (fun c => (c.rest,c.state.vars 2)) =
      some ([.read 2 (.reg .r13),.move .r13 .r10,.call],5) := by
    decide +kernel
  obtain ⟨c,hc,heq⟩ := map_eq_some_iff.mp hend
  obtain ⟨hr,hvar⟩ := Prod.mk.inj heq
  refine ⟨c,by rw [hr]; rfl,?_,hvar⟩
  refine generateCode_reads useLoop_compilable (entry_blankState _) (follow_run hc ?_ ?_) hr
  · exact safeChoice_of_plain (by simp [useLoopPath,enterPath,silently,plainCall])
  · intro m hm
    exact useLoop_mayEnter (by rintro rfl; simp [useLoopPath,enterPath,silently,plainCall] at hm)

/-- A loop that uses a temporary before it assigns it. -/
def assignLoop : Bytecodes := [.send 0 (.tempVar 2) [],.copy (.value 5) (.tempVar 2),.jump (-25)]

def assignLoopPath : List (Choice ℕ ⊕ Option ℕ) := enterPath ++
  [silently,silently,plainCall,.inr (some 7),.inl (.value 5),silently,silently,.inr (some 20),plainCall,.inr (some 0),
    silently]

/-- The second turn gets nil though the first has assigned 5. -/
theorem generateCode_misses_write :
    ∃ (s : MachineState ℕ) (c : Config (Option ℕ) Op (MachineState ℕ)) (index : ℕ) (source : Source)
      (rest : List Op), Entry 0 (oneTemp assignLoop) s ∧
      Relation.ReflTransGen (Step (machine 0) SafeChoice (generateCode (oneTemp assignLoop))
        fun _ _ _ => True) ⟨none,generateEntry (oneTemp assignLoop),s⟩ c ∧
      c.rest = .read index source :: rest ∧ sourceValue 0 c.state source ≠ c.state.vars index := by
  have hend : (follow (fun o l s => execOp 0 s o l) (generateCode (oneTemp assignLoop)) assignLoopPath
      ⟨none,generateEntry (oneTemp assignLoop),blankState⟩).map
        (fun c => (c.rest,c.state.regs .r10,c.state.vars 2)) =
      some ([.read 2 (.reg .r10),.call],0,5) := by
    decide +kernel
  obtain ⟨c,hc,heq⟩ := map_eq_some_iff.mp hend
  simp only [Prod.mk.injEq] at heq
  obtain ⟨hr,hreg,hvar⟩ := heq
  refine ⟨blankState,c,2,.reg .r10,[.call],entry_blankState _,follow_run hc ?_ ?_,hr,?_⟩
  · exact safeChoice_of_plain (by simp [assignLoopPath,enterPath,silently,plainCall])
  · exact fun _ _ _ _ => trivial
  · rw [sourceValue,hreg,hvar]
    decide

end Loops

end SmalltalkJit.Jit
