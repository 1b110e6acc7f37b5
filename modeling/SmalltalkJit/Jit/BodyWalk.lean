import Mathlib.Data.List.Induction
import SmalltalkJit.Jit.Instructions

/-! # The state of the generator at every bytecode

`generateBody` walks the stream once. Its flags at a bytecode depend on the
bytecodes above it only: whatever is written above is on the stack, what is in a
register has begun to live, and every offset that a jump may lead to forgets the
registers.
-/
namespace SmalltalkJit.Jit
open Assembly Emission List

variable {code : Bytecodes}

section States
variable (gen : CodeGenerator)

def stateAfter (state : BodyState) : ℕ → ℕ → Bytecodes → BodyState
  | _, _, [] => state
  | number, offset, i :: rest =>
    stateAfter (generateInstr gen (enterOffset gen state offset) number offset (offset + i.size) i).1
      (number+1) (offset + i.size) rest

def stateAt (pre : Bytecodes) : BodyState := stateAfter gen ⟨initialFlags gen,[],[]⟩ 0 0 pre

abbrev entered (pre : Bytecodes) : BodyState := enterOffset gen (stateAt gen pre) (bytecodesSize pre)

def instrAt (pre : Bytecodes) (i : Instr ℤ) : BodyState × List Op × List ℕ :=
  generateInstr gen (enterOffset gen (stateAt gen pre) (bytecodesSize pre)) pre.length
    (bytecodesSize pre) (bytecodesSize pre + i.size) i

variable {gen}

theorem stateAfter_append (state : BodyState) (number offset : ℕ) (pre rest : Bytecodes) :
    stateAfter gen state number offset (pre ++ rest) =
      stateAfter gen (stateAfter gen state number offset pre) (number + pre.length)
        (offset + bytecodesSize pre) rest := by
  induction pre generalizing state number offset with
  | nil => rfl
  | cons _ _ ih =>
    rw [cons_append,stateAfter,ih,bytecodesSize_cons,length_cons,Nat.add_assoc,Nat.add_assoc,Nat.add_comm 1]
    rfl

theorem stateAt_snoc (pre : Bytecodes) (i : Instr ℤ) : stateAt gen (pre ++ [i]) = (instrAt gen pre i).1 := by
  unfold stateAt instrAt
  rw [stateAfter_append]
  simp only [stateAfter,Nat.zero_add]
  rfl

theorem mem_generateFrom
    (h : block ∈ generateFrom gen state number offset code) :
    (∃ pre i post, code = pre ++ i :: post ∧ block.offset = offset + bytecodesSize pre ∧
      (block.ops,block.succs) = (generateInstr gen
        (enterOffset gen (stateAfter gen state number offset pre) (offset + bytecodesSize pre))
        (number + pre.length) (offset + bytecodesSize pre) (offset + bytecodesSize pre + i.size) i).2) ∨
    (block.offset = offset + bytecodesSize code ∧ block.succs = [] ∧
      block.ops = if returnsAtEnd gen.code.bytecodes then []
        else (movVar gen.alloc (.tmp selfIndex) .rax (stateAfter gen state number offset code).flags).2) := by
  induction code generalizing state number offset with
  | nil =>
    rw [mem_singleton.mp h]
    exact Or.inr ⟨rfl,rfl,rfl⟩
  | cons i rest ih =>
    rcases mem_cons.mp h with rfl | h
    · exact Or.inl ⟨[],i,rest,rfl,rfl,rfl⟩
    · rcases ih h with ⟨pre,j,post,rfl,ho,hb⟩ | ⟨ho,hsu,hops⟩
      · have hs : offset + bytecodesSize (i :: pre) = offset + i.size + bytecodesSize pre := by
          rw [bytecodesSize_cons,Nat.add_assoc]
        have hl : number + (i :: pre).length = number+1 + pre.length := by
          rw [length_cons,Nat.add_assoc,Nat.add_comm 1]
        refine Or.inl ⟨i :: pre,j,post,rfl,hs ▸ ho,?_⟩
        rw [hs,hl]
        exact hb
      · refine Or.inr ⟨?_,hsu,hops⟩
        rw [ho,bytecodesSize_cons,Nat.add_assoc]

end States

section Offsets

theorem eq_nil_of_size (h : bytecodesSize a = 0) : a = [] := by
  cases a with
  | nil => rfl
  | cons i =>
    have hpos := i.size_pos
    rw [bytecodesSize_cons] at h
    omega

theorem prefix_of_size_le (h : a ++ b = c ++ d) (hs : bytecodesSize a ≤ bytecodesSize c) : ∃ e, c = a ++ e := by
  rcases append_eq_append_iff.mp h with ⟨e,rfl,rfl⟩ | ⟨e,rfl,rfl⟩
  · exact ⟨e,rfl⟩
  · rw [bytecodesSize_append] at hs
    exact ⟨[],by simp [eq_nil_of_size (a := e) (by omega)]⟩

theorem append_inj_of_size (h : a ++ b = c ++ d) (hs : bytecodesSize a = bytecodesSize c) : a = c ∧ b = d := by
  obtain ⟨e,rfl⟩ := prefix_of_size_le h (Nat.le_of_eq hs)
  rw [bytecodesSize_append] at hs
  obtain rfl := eq_nil_of_size (a := e) (by omega)
  simpa using h

theorem mem_of_size_lt (h : a ++ j :: b = c ++ d) (hlt : bytecodesSize a < bytecodesSize c) : j ∈ c := by
  rcases append_eq_append_iff.mp h with ⟨e,rfl,he⟩ | ⟨e,rfl,-⟩
  · cases e with
    | nil => simp at hlt
    | cons k =>
      obtain rfl : j = k := (List.cons.inj he).1
      simp
  · rw [bytecodesSize_append] at hlt
    omega

theorem mem_backwardTargetsFrom (offset : ℕ) (hmem : target ∈ targetsOf (offset + bytecodesSize pre + i.size) i)
    (hlt : target < ((offset + bytecodesSize pre + i.size : ℕ) : ℤ)) :
    target ∈ backwardTargetsFrom offset (pre ++ i :: post) := by
  induction pre generalizing offset with
  | nil => exact mem_append_left _ (mem_filter.mpr ⟨hmem,by simpa using hlt⟩)
  | cons _ _ ih =>
    rw [bytecodesSize_cons,← Nat.add_assoc] at hmem hlt
    exact mem_append_right _ (ih _ hmem hlt)

theorem isBackwardTarget_of (hc : code = pre ++ i :: post) (hmem : target ∈ targetsOf (bytecodesSize pre + i.size) i)
    (hlt : target < ((bytecodesSize pre + i.size : ℕ) : ℤ)) : isBackwardTarget code target = true := by
  rw [isBackwardTarget,contains_iff_mem,hc]
  exact mem_backwardTargetsFrom 0 (by simpa using hmem) (by simpa using hlt)

end Offsets

section Flow
variable {gen : CodeGenerator}

theorem enterOffset_target {offset : ℕ}
    (h : isBackwardTarget gen.code.bytecodes offset = true ∨ (offset : ℤ) ∈ state.labels) (v : Var) :
    (enterOffset gen state offset).flags.inReg v = false := by
  have hc : (isBackwardTarget gen.code.bytecodes offset || state.labels.contains (offset : ℤ)) = true := by
    rcases h with h | h
    · rw [h,Bool.true_or]
    · rw [contains_iff_mem.mpr h,Bool.or_true]
  rw [enterOffset,if_pos hc]
  simp [dropFilled,variableType]

variable (state : BodyState) (number offset next : ℕ)

theorem enterOffset_grows {vs : List Var} :
    Grows vs state.flags (enterOffset gen state offset).flags := by
  unfold enterOffset
  split
  · exact grows_dropFilled
  · exact Grows.refl _

theorem enterOffset_labels : (enterOffset gen state offset).labels = state.labels := by
  unfold enterOffset
  split <;> rfl

theorem generateCheck_flags (classLiteral : ℕ) (operand : Operand) (displacement : ℤ) :
    (generateCheck gen state number offset next classLiteral operand displacement).1.flags = state.flags ∨
    (generateCheck gen state number offset next classLiteral operand displacement).1.flags =
      (generateClassCheck gen.alloc operand state.flags).1 := by
  simp only [generateCheck]
  split
  · exact Or.inl rfl
  · right
    split <;> rfl

theorem generateInstr_grows (i : Instr ℤ) :
    Grows ((operandsOf i).flatMap examined) state.flags (generateInstr gen state number offset next i).1.flags := by
  cases i with
  | copy src d =>
    refine (@generateCopy_grows gen.alloc src d state.flags).subset ?_
    simp [resultOperands]
  | send _ rec args => exact (@generateSendCode_grows gen.alloc rec args state.flags).subset (by simp)
  | sendWithStore _ rec args res =>
    have hs := @generateSendCode_grows gen.alloc rec args state.flags
    have hr := @movToOperand_grows gen.alloc .rax res (generateSendCode gen.alloc rec args state.flags).1
    refine Grows.trans _ _ _ (hs.subset (by simp)) (hr.subset ?_)
    intro v hv
    exact mem_flatMap.mpr ⟨res,by simp [resultOperands],hv⟩
  | ret op => exact (@movOperand_grows gen.alloc .rax op state.flags).subset (by simp [resultOperands])
  | outerReturn op =>
    have hmov : (movOperand gen.alloc .rax op).Moves (Grows (examined op)) := movOperand_grows .rax op
    refine (andThen_grows hmov (andThen_grows (fillVar_grows listed_own) emit_grows) state.flags).subset ?_
    simp [resultOperands]
  | jump =>
    simp only [generateInstr,generateJump]
    split <;> exact Grows.refl _
  | jumpNotMemberOf cl op displacement =>
    rcases @generateCheck_flags gen state number offset next cl op displacement with h | h
    · rw [generateInstr,h]
      exact Grows.refl _
    · rw [generateInstr,h]
      exact (@generateClassCheck_grows gen.alloc op state.flags).subset (by simp [resultOperands])

theorem generateInstr_labels (i : Instr ℤ) :
    ∀ label ∈ state.labels, label ∈ (generateInstr gen state number offset next i).1.labels := by
  intro label hl
  cases i with
  | jump =>
    simp only [generateInstr,generateJump]
    split
    · exact hl
    · exact mem_cons_of_mem _ hl
  | jumpNotMemberOf =>
    simp only [generateInstr,generateCheck]
    split
    · exact hl
    · split
      · exact mem_cons_of_mem _ (mem_cons_of_mem _ hl)
      · simp only
        split
        · exact hl
        · exact mem_cons_of_mem _ hl
  | _ => exact hl

theorem generateInstr_onStack (h : writtenTemp i = some index) :
    (generateInstr gen state number offset next i).1.flags.onStack (.tmp index) = true := by
  have hset : ∀ flags : Flags, (flags.setOnStack (.tmp index)).onStack (.tmp index) = true :=
    fun flags => Function.update_self _ _ _
  have hs : ∀ (r : Reg) (flags : Flags), gen.alloc.reg (.tmp index) = some r →
      (spillVar gen.alloc (.tmp index) flags).1.onStack (.tmp index) = true := by
    intro r flags hreg
    rw [spillVar,hreg]
    exact hset flags
  have hmov : ∀ (r : Reg) (flags : Flags), (movToVar gen.alloc r index flags).1.onStack (.tmp index) = true := by
    intro r flags
    unfold movToVar
    cases hreg : gen.alloc.reg (.tmp index) with
    | none => exact hset flags
    | some q => exact hs q _ hreg
  have hc : ∀ (src : Operand) (flags : Flags),
      (copyToVar gen.alloc src index flags).1.onStack (.tmp index) = true := by
    intro src flags
    unfold copyToVar
    cases hreg : gen.alloc.reg (.tmp index) with
    | none => exact hset _
    | some q => exact hs q _ hreg
  cases i with
  | copy src d =>
    cases d with
    | tempVar j =>
      obtain rfl : j = index := by simpa [writtenTemp] using h
      show (generateCopy gen.alloc src (.tempVar j) state.flags).1.onStack (.tmp j) = true
      unfold generateCopy
      split
      · exact hmov _ _
      · exact hmov _ _
      · exact hc _ _
    | _ => cases h
  | sendWithStore _ _ _ res =>
    cases res with
    | tempVar j =>
      obtain rfl : j = index := by simpa [writtenTemp] using h
      exact hmov _ _
    | _ => cases h
  | _ => cases h

end Flow

section Positions
variable {gen : CodeGenerator} {pre rest post : Bytecodes} {i : Instr ℤ}

theorem initialFlags_inReg (hpos : 1 ≤ index) : (initialFlags gen).inReg (.tmp index) = false := by
  have hne : index ≠ contextIndex := Nat.one_le_iff_ne_zero.mp hpos
  simp [initialFlags,hne]

theorem stateAt_snoc_grows (pre : Bytecodes) (i : Instr ℤ) :
    Grows ((operandsOf i).flatMap examined) (stateAt gen pre).flags (stateAt gen (pre ++ [i])).flags := by
  rw [stateAt_snoc]
  exact Grows.trans _ _ _ (enterOffset_grows _ _) (generateInstr_grows _ _ _ _ i)

theorem stateAt_onStack_mono (more : Bytecodes) {v : Var} (h : (stateAt gen pre).flags.onStack v = true) :
    (stateAt gen (pre ++ more)).flags.onStack v = true := by
  induction more using List.reverseRecOn with
  | nil => simpa using h
  | append_singleton more i ih =>
    rw [← append_assoc]
    exact (stateAt_snoc_grows (pre ++ more) i).onStack v ih

theorem stateAt_labels_mono (more : Bytecodes) (h : label ∈ (stateAt gen pre).labels) :
    label ∈ (stateAt gen (pre ++ more)).labels := by
  induction more using List.reverseRecOn with
  | nil => simpa using h
  | append_singleton _ i =>
    rw [← append_assoc,stateAt_snoc]
    exact generateInstr_labels _ _ _ _ i label (by rwa [enterOffset_labels])

theorem stateAt_args (hpos : 1 ≤ index) (hle : index ≤ gen.alloc.argsSize+1) :
    (stateAt gen pre).flags.onStack (.tmp index) = true := by
  have hne : index ≠ contextIndex := Nat.one_le_iff_ne_zero.mp hpos
  have hi : (stateAt gen []).flags.onStack (.tmp index) = true := by
    simpa [stateAt,stateAfter,initialFlags,hne] using hle
  exact @stateAt_onStack_mono gen [] pre _ hi

theorem stateAt_written (hi : i ∈ pre) (h : writtenTemp i = some index) :
    (stateAt gen pre).flags.onStack (.tmp index) = true := by
  obtain ⟨a,b,rfl⟩ := append_of_mem hi
  have hat : (stateAt gen (a ++ [i])).flags.onStack (.tmp index) = true := by
    rw [stateAt_snoc]
    exact generateInstr_onStack _ _ _ _ h
  simpa using stateAt_onStack_mono b hat

theorem stateAt_started (hc : gen.code.bytecodes = pre ++ rest) :
    Started gen.alloc pre.length (stateAt gen pre).flags := by
  induction pre using List.reverseRecOn generalizing rest with
  | nil =>
    intro k hpos hin
    cases hin.symm.trans (initialFlags_inReg hpos)
  | append_singleton pre i ih =>
    have hat : gen.code.bytecodes = pre ++ i :: rest := by simpa using hc
    have hs := (ih hat).mono (Nat.le_succ pre.length)
    rw [length_append]
    refine hs.grows (stateAt_snoc_grows pre i) ?_
    intro v hv
    obtain ⟨op,hmem,hv⟩ := mem_flatMap.mp hv
    rcases mem_append.mp hmem with hmem | hmem
    · obtain ⟨j,hj,hvar,hst⟩ := (gen.sound.used pre i rest hat op hmem v hv).started
      exact ⟨j,hj,hvar,Nat.le_succ_of_le hst⟩
    · exact (gen.sound.results pre i rest hat op hmem v hv).started

def Forgets (gen : CodeGenerator) (offset : ℕ) : Prop :=
  offset = 0 ∨ isBackwardTarget gen.code.bytecodes offset = true ∨
    ∀ pre rest, gen.code.bytecodes = pre ++ rest → bytecodesSize pre = offset →
      (offset : ℤ) ∈ (stateAt gen pre).labels

theorem Forgets.inReg (h : Forgets gen (bytecodesSize pre)) (hc : gen.code.bytecodes = pre ++ rest)
    (hpos : 1 ≤ index) : (entered gen pre).flags.inReg (.tmp index) = false := by
  rcases h with hz | hb | hl
  · have hi : (stateAt gen pre).flags.inReg (.tmp index) = false := by
      rw [eq_nil_of_size hz]
      exact initialFlags_inReg hpos
    refine Bool.eq_false_iff.mpr fun hin => ?_
    rcases (@enterOffset_grows gen (stateAt gen pre) (bytecodesSize pre) []).inReg index hpos hin with hin | hmem
    · cases hin.symm.trans hi
    · cases hmem
  · exact enterOffset_target (Or.inl hb) _
  · exact enterOffset_target (Or.inr (hl pre rest hc rfl)) _

theorem forgets_of_label (hc : gen.code.bytecodes = pre ++ i :: post) (hl : label ∈ (instrAt gen pre i).1.labels)
    (hle : ((bytecodesSize pre + i.size : ℕ) : ℤ) ≤ label) : Forgets gen label.toNat := by
  refine Or.inr (Or.inr ?_)
  intro pre' rest' hc' hsi
  have hs : (pre ++ [i]) ++ post = pre' ++ rest' := by
    rw [← hc',hc,append_assoc]
    rfl
  obtain ⟨more,rfl⟩ := prefix_of_size_le hs (by rw [hsi,bytecodesSize_snoc]; omega)
  rw [Int.toNat_of_nonneg (by omega)]
  exact stateAt_labels_mono more (by rwa [stateAt_snoc])

theorem forgets_of_backward (hc : gen.code.bytecodes = pre ++ i :: post)
    (hmem : target ∈ targetsOf (bytecodesSize pre + i.size) i)
      (hlt : target < ((bytecodesSize pre + i.size : ℕ) : ℤ)) :
    Forgets gen target.toNat := by
  by_cases hneg : target < 0
  · exact Or.inl (Int.toNat_of_nonpos (by omega))
  · refine Or.inr (Or.inl ?_)
    rw [Int.toNat_of_nonneg (Int.not_lt.mp hneg)]
    exact isBackwardTarget_of hc hmem hlt

theorem forgets_of_target (hc : gen.code.bytecodes = pre ++ i :: post) (d : ℤ)
    (hmem : jumpTarget (bytecodesSize pre + i.size) d ∈ targetsOf (bytecodesSize pre + i.size) i)
    (hl : 0 ≤ d → jumpTarget (bytecodesSize pre + i.size) d ∈ (instrAt gen pre i).1.labels) :
    Forgets gen (jumpTarget (bytecodesSize pre + i.size) d).toNat := by
  by_cases hneg : d < 0
  · exact forgets_of_backward hc hmem (by unfold jumpTarget; omega)
  · exact forgets_of_label hc (hl (Int.not_lt.mp hneg)) (by unfold jumpTarget; omega)

section Straight

theorem backwardTargetsFrom_straight (h : ∀ i ∈ code, isJump i = false) (offset : ℕ) :
    backwardTargetsFrom offset code = [] := by
  induction code generalizing offset with
  | nil => rfl
  | cons i _ ih =>
    have hi : targetsOf (offset + i.size) i = [] := by
      have hju := h i mem_cons_self
      cases i <;> first | rfl | cases hju
    rw [backwardTargetsFrom,hi,ih (fun j hj => h j (mem_cons_of_mem i hj))]
    rfl

theorem stateAt_labels_straight (h : ∀ i ∈ pre, isJump i = false) : (stateAt gen pre).labels = [] := by
  induction pre using List.reverseRecOn with
  | nil => rfl
  | append_singleton pre i ih =>
    have hi := h i (by simp)
    have hpre := ih fun j hj => h j (mem_append_left _ hj)
    rw [← @enterOffset_labels gen _ (bytecodesSize pre)] at hpre
    rw [stateAt_snoc,instrAt]
    cases i <;> first | exact hpre | cases hi

theorem enterOffset_straight (h : ∀ i ∈ gen.code.bytecodes, isJump i = false) (hc : gen.code.bytecodes = pre ++ rest)
    (offset : ℕ) : enterOffset gen (stateAt gen pre) offset = stateAt gen pre := by
  have hl : (stateAt gen pre).labels = [] := stateAt_labels_straight fun i hi => h i (hc ▸ mem_append_left _ hi)
  have hb : isBackwardTarget gen.code.bytecodes offset = false := by
    rw [isBackwardTarget,backwardTargetsFrom_straight h]
    rfl
  simp [enterOffset,hb,hl]

end Straight

end Positions

end SmalltalkJit.Jit
