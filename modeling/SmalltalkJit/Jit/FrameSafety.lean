import SmalltalkJit.Jit.Machine

/-! # Methods without a frame

The spills of a method without a frame land in the frame of its caller. Only the
stores to temporaries and to the context spill, and code that needs a context has
a frame.
-/
namespace SmalltalkJit.Jit
open Assembly Emission List

section Emitters
variable {alloc : RegsAlloc}

abbrev SpillFree (e : Emitter Flags Op) : Prop := e.Emits fun o => spillOffset o = none

theorem useVar_spills (source : Source) (v : Var) : ∀ o ∈ useVar source v, spillOffset o = none := by
  intro o ho
  unfold useVar at ho
  cases v with
  | tmp =>
    simp only at ho
    split at ho
    · cases ho
    · rw [mem_singleton.mp ho]
      rfl
  | context | assoc => cases ho

theorem emit_spills (h : ∀ o ∈ ops, spillOffset o = none) : SpillFree (emit ops) := fun _ => h

theorem skip_spills : SpillFree skip := fun _ _ ho => by cases ho

theorem fillVar_spills (v : Var) : SpillFree (fillVar alloc v) := by
  intro fl o ho
  unfold fillVar at ho
  split at ho
  · cases ho
  · split at ho
    · rw [mem_singleton.mp ho]
      rfl
    · cases ho

theorem movVar_spills (v : Var) (dest : Reg) : SpillFree (movVar alloc v dest) := by
  have huse : ∀ o' r, spillOffset o' = none → ∀ o ∈ o' :: useVar (.reg r) v, spillOffset o = none := by
    intro o' r ho' o ho
    rcases mem_cons.mp ho with rfl | ho
    · exact ho'
    · exact useVar_spills _ v o ho
  intro fl
  unfold movVar
  split
  · split
    · exact huse _ _ rfl
    · exact huse _ _ rfl
  · split
    · refine (fillVar_spills v).andThen (emit_spills ?_) fl
      intro o ho
      rcases mem_append.mp ho with ho | ho
      · exact useVar_spills _ v o ho
      · rw [mem_singleton.mp ho]
        rfl
    · exact huse _ _ rfl

theorem fillVarToReg_spills (v : Var) (scratch : Reg) : SpillFree (fillVarToReg alloc v scratch) := by
  unfold fillVarToReg
  split
  · exact movVar_spills v scratch
  · exact (fillVar_spills v).andThen (emit_spills (useVar_spills _ v))

theorem fillAssoc_spills (index : ℕ) : SpillFree (fillAssoc alloc index) := by
  intro fl o ho
  unfold fillAssoc at ho
  split at ho
  · cases ho
  · split at ho
    · rw [mem_singleton.mp ho]
      rfl
    · cases ho

theorem load_spills (r : Reg) : SpillFree (emit [.load r]) := emit_spills (by simp [spillOffset])

theorem movOperand_spills (dest : Reg) (h : needsFrame operand = false) :
    SpillFree (movOperand alloc dest operand) := by
  cases operand with
  | thisContext | tempVar | argVar | super => exact movVar_spills _ dest
  | instVar | instVarOf => exact (fillVarToReg_spills _ _).andThen (load_spills dest)
  | assoc i =>
    refine Emitter.Emits.andThen ?_ (load_spills dest)
    split
    · exact fillAssoc_spills i
    · exact load_spills dest
  | contextVar | block => cases h
  | _ => exact load_spills dest

theorem movToOperand_spills (source : Reg) (h : needsFrame dest = false)
    (ht : ∀ index, dest ≠ .tempVar index) : SpillFree (movToOperand alloc source dest) := by
  cases dest with
  | tempVar index => exact absurd rfl (ht index)
  | instVar | instVarOf => exact fillVarToReg_spills _ _
  | assoc index =>
    simp only [movToOperand]
    split
    · exact fillAssoc_spills index
    · exact load_spills _
  | contextVar => cases h
  | _ => exact skip_spills

theorem copySource_spills (v : Var) : SpillFree (copySource alloc v) := by
  intro fl
  unfold copySource
  split
  · exact movVar_spills v .rax fl
  · split
    · exact (fillVar_spills v).andThen (emit_spills (useVar_spills _ v)) fl
    · intro o ho
      rcases mem_cons.mp ho with rfl | ho
      · rfl
      · exact useVar_spills _ v o ho

theorem generateCopy_spills (hs : needsFrame source = false) (hd : needsFrame dest = false)
    (ht : ∀ index, dest ≠ .tempVar index) : SpillFree (generateCopy alloc source dest) := by
  have ho : SpillFree ((movOperand alloc .rax source).andThen (movToOperand alloc .rax dest)) :=
    (movOperand_spills .rax hs).andThen (movToOperand_spills .rax hd ht)
  have hvar : ∀ index, SpillFree ((copySource alloc (.tmp index)).andThen
      (movToOperand alloc (alloc.regOr (.tmp index) .rax) dest)) :=
    fun index => (copySource_spills _).andThen (movToOperand_spills _ hd ht)
  unfold generateCopy
  split
  · exact hvar _
  · exact hvar _
  · split
    · exact absurd rfl (ht _)
    · exact ho

theorem generateClassCheck_spills {operand : Operand} (h : needsFrame operand = false) :
    SpillFree (generateClassCheck alloc operand) := by
  cases operand with
  | tempVar | argVar => exact fillVarToReg_spills _ _
  | instVar | instVarOf => exact (fillVarToReg_spills _ _).andThen (load_spills _)
  | assoc => exact load_spills _
  | contextVar => cases h
  | _ => exact skip_spills

end Emitters

section Body
variable {gen : CodeGenerator}

theorem generateInstr_spills (hc : calls i = false) (ho : ∀ operand ∈ usedOperands i, needsFrame operand = false)
    (ht : writtenTemp i = none) (state : BodyState) (number offset next : ℕ) :
    ∀ o ∈ (generateInstr gen state number offset next i).2.1, spillOffset o = none := by
  cases i with
  | copy src d =>
    refine generateCopy_spills (ho src (by simp)) (ho d (by simp)) ?_ state.flags
    rintro k rfl
    cases ht
  | send | sendWithStore | outerReturn => cases hc
  | ret operand => exact movOperand_spills .rax (ho operand (by simp)) state.flags
  | jump =>
    simp only [generateInstr,generateJump]
    split <;> simp [spillOffset]
  | jumpNotMemberOf _ operand =>
    have hch := @generateClassCheck_spills gen.alloc operand (ho operand (by simp)) state.flags
    simp only [generateInstr,generateCheck]
    split
    · simp
    · split <;> exact hch

theorem generateFrom_spills {code : Bytecodes}
    (h : ∀ i ∈ code, calls i = false ∧ (∀ operand ∈ usedOperands i, needsFrame operand = false) ∧
      writtenTemp i = none) (state : BodyState) (number offset : ℕ) :
    ∀ block ∈ generateFrom gen state number offset code, ∀ o ∈ block.ops, spillOffset o = none := by
  induction code generalizing state number offset with
  | nil =>
    intro block hb o ho
    rw [mem_singleton.mp hb] at ho
    simp only at ho
    split at ho
    · cases ho
    · exact movVar_spills _ .rax state.flags o ho
  | cons i _ ih =>
    obtain ⟨hc,hop,ht⟩ := h i mem_cons_self
    intro block hb
    rcases mem_cons.mp hb with rfl | hb
    · exact generateInstr_spills hc hop ht _ _ _ _
    · exact ih (fun j hj => h j (mem_cons_of_mem i hj)) _ _ _ block hb

theorem clobberedSlots_of_frameSafe (h : FrameSafe gen) : clobberedSlots gen = [] := by
  have hs := computeRegsAlloc_sound gen.code (take_sublist (availableRegsSize gen.regsLimit) _)
  unfold clobberedSlots
  cases hf : gen.alloc.frameLess with
  | false => rfl
  | true =>
    have ht : ∀ i ∈ gen.code.bytecodes, writtenTemp i = none := by
      rcases h with h | h
      · cases h.symm.trans hf
      · exact h
    have hn : ∀ i ∈ gen.code.bytecodes, ¬(calls i = true ∨
        ∃ op ∈ usedOperands i ++ resultOperands i, needsFrame op = true) := by
      intro i hi hn
      cases (hs.framed i hi hn).symm.trans hf
    have hb := @generateFrom_spills gen gen.code.bytecodes (by
      intro i hi
      refine ⟨?_,?_,ht i hi⟩
      · exact Bool.eq_false_iff.mpr fun hc => hn i hi (Or.inl hc)
      · intro op hmem
        exact Bool.eq_false_iff.mpr fun hc => hn i hi (Or.inr ⟨op,mem_append_left _ hmem,hc⟩))
      ⟨initialFlags gen,[],[]⟩ 0 0
    simp only [↓reduceIte,flatMap_eq_nil_iff,filterMap_eq_nil_iff]
    exact hb

end Body

end SmalltalkJit.Jit
