import SmalltalkJit.Optimizer.Inliner

/-! # Where the inliner puts things

Facts about the emitted text that do not mention execution: the merged literal
frame only grows, every callee operand is translated into the caller's frame,
each original instruction stands between the labels of its own offset and of
the next one, and no label is bound twice.
-/
namespace SmalltalkJit.Inlining
open Assembly List

section Body
variable (image : Image) (ctx : InlineContext)

/-- The translation of a callee operand, relative to the finished literal frame. -/
def Adjusted (final : List Oop) : Operand → Operand → Prop
  | .tempVar index, operand' => operand' = .tempVar (ctx.base+1 + ctx.calleeArgs + (index-2 - ctx.calleeArgs))
  | .argVar index, operand' => operand' = .tempVar (if index = selfIndex then ctx.base else ctx.base+1 + (index-2))
  | .instVar index, operand' => operand' = .instVarOf (ctx.shape.slot index) (.tempVar ctx.base)
  | .literal index, operand' => ∃ index', operand' = .literal index' ∧
      Interned image final (ctx.calleeLiterals.getD index 0) index'
  | .assoc index, operand' => ∃ index', operand' = .assoc index' ∧
      Interned image final (ctx.calleeLiterals.getD index 0) index'
  | operand, operand' => operand' = operand

variable {image ctx}

theorem adjustOperand_grows : literals <+: (adjustOperand image ctx literals operand).2 := by
  cases operand with
  | literal | assoc => exact ordCollAdd_grows
  | _ => exact prefix_refl _

theorem adjustOperand_adjusted (h : (adjustOperand image ctx literals operand).2 <+: final) :
    Adjusted image ctx final operand (adjustOperand image ctx literals operand).1 := by
  cases operand with
  | literal | assoc => exact ⟨_,rfl,ordCollAdd_interned h⟩
  | _ => rfl

theorem adjustOperands_grows : literals <+: (adjustOperands image ctx literals operands).2 := by
  induction operands generalizing literals with
  | nil => exact prefix_refl _
  | cons _ _ ih => exact adjustOperand_grows.trans ih

theorem adjustOperands_adjusted
    (h : (adjustOperands image ctx literals operands).2 <+: final) : List.Forall₂ (Adjusted image ctx final) operands
      (adjustOperands image ctx literals operands).1 := by
  induction operands generalizing literals with
  | nil => exact .nil
  | cons _ _ ih =>
    have hr := ih h
    have hf := adjustOperand_adjusted (adjustOperands_grows.trans h)
    exact .cons hf hr

variable (image ctx) in
inductive BodyInstr (final : List Oop) (site next : ℕ) : Instr ℤ → Instr Label → Prop
  | copy {source dest source' dest' : Operand} :
      Adjusted image ctx final source source' → Adjusted image ctx final dest dest' →
      BodyInstr final site next (.copy source dest) (.copy source' dest')
  | send {selector selector' : ℕ} {receiver receiver' : Operand} {args args' : List Operand} :
      Interned image final (ctx.calleeLiterals.getD selector 0) selector' →
      Adjusted image ctx final receiver receiver' →
      List.Forall₂ (Adjusted image ctx final) args args' →
      BodyInstr final site next (.send selector receiver args) (.send selector' receiver' args')
  | sendWithStore {selector selector' : ℕ} {receiver receiver' dest dest' : Operand}
      {args args' : List Operand} :
      Interned image final (ctx.calleeLiterals.getD selector 0) selector' →
      Adjusted image ctx final receiver receiver' →
      List.Forall₂ (Adjusted image ctx final) args args' →
      Adjusted image ctx final dest dest' →
      BodyInstr final site next (.sendWithStore selector receiver args dest)
        (.sendWithStore selector' receiver' args' dest')
  | jump {displacement : ℤ} : BodyInstr final site next (.jump displacement)
      (.jump (.callee site (jumpTarget next displacement)))
  | jumpNotMemberOf {classLiteral classLiteral' : ℕ} {operand operand' : Operand}
      {displacement : ℤ} :
      Interned image final (ctx.calleeLiterals.getD classLiteral 0) classLiteral' →
      Adjusted image ctx final operand operand' →
      BodyInstr final site next (.jumpNotMemberOf classLiteral operand displacement)
        (.jumpNotMemberOf classLiteral' operand' (.callee site (jumpTarget next displacement)))

variable {site next : ℕ} {hasNext selfCopy : Bool} {result : Option Operand}

theorem emitInlinedInstr_grows :
    literals <+: (emitInlinedInstr image ctx site next hasNext selfCopy result literals i).2 := by
  cases i with
  | copy => exact adjustOperand_grows.trans adjustOperand_grows
  | send =>
    exact (adjustOperand_grows.trans adjustOperands_grows).trans ordCollAdd_grows
  | sendWithStore =>
    exact ((adjustOperand_grows.trans adjustOperands_grows).trans ordCollAdd_grows).trans adjustOperand_grows
  | ret =>
    cases result with
    | none => exact prefix_refl _
    | some => exact adjustOperand_grows
  | outerReturn | jump => exact prefix_refl _
  | jumpNotMemberOf => exact adjustOperand_grows.trans ordCollAdd_grows

def copyResult (value' : Operand) : Option Operand → Text
  | some dest => [.instr (.copy value' dest)]
  | none => []

theorem emitInlinedInstr_ret
    (h : (emitInlinedInstr image ctx site next hasNext selfCopy result literals (.ret value)).2 <+: final) : ∃ value',
      (result.isSome = true → Adjusted image ctx final value value') ∧
      (emitInlinedInstr image ctx site next hasNext selfCopy result literals (.ret value)).1 =
      copyResult value' result ++ if hasNext || selfCopy then [.instr (.jump (.exit site))] else [] := by
  cases result with
  | none => exact ⟨value,by simp,rfl⟩
  | some => exact ⟨_,fun _ => adjustOperand_adjusted h,rfl⟩

theorem emitInlinedInstr_body (hret : ∀ value, i ≠ .ret value) (ho : ∀ value, i ≠ .outerReturn value)
    (h : (emitInlinedInstr image ctx site next hasNext selfCopy result literals i).2 <+: final) :
    ∃ i', (emitInlinedInstr image ctx site next hasNext selfCopy result literals i).1 = [.instr i'] ∧
      BodyInstr image ctx final site next i i' := by
  cases i with
  | ret value => exact absurd rfl (hret value)
  | outerReturn value => exact absurd rfl (ho value)
  | copy src d =>
    exact ⟨_,rfl,.copy (adjustOperand_adjusted (adjustOperand_grows.trans h))
      (adjustOperand_adjusted h)⟩
  | send _ rec args =>
    have h2 := ordCollAdd_grows.trans h
    exact ⟨_,rfl,.send (ordCollAdd_interned h)
      (adjustOperand_adjusted (adjustOperands_grows.trans h2))
      (adjustOperands_adjusted h2)⟩
  | sendWithStore _ rec args d =>
    have h3 := adjustOperand_grows.trans h
    have h2 := ordCollAdd_grows.trans h3
    exact ⟨_,rfl,.sendWithStore (ordCollAdd_interned h3)
      (adjustOperand_adjusted (adjustOperands_grows.trans h2))
      (adjustOperands_adjusted h2) (adjustOperand_adjusted h)⟩
  | jump => exact ⟨_,rfl,.jump⟩
  | jumpNotMemberOf _ op =>
    exact ⟨_,rfl,.jumpNotMemberOf (ordCollAdd_interned h)
      (adjustOperand_adjusted (ordCollAdd_grows.trans h))⟩

theorem labels_emitInlinedInstr :
    labels (emitInlinedInstr image ctx site next hasNext selfCopy result literals i).1 = [] := by
  cases i with
  | ret => cases result <;> simp only [emitInlinedInstr] <;> split <;> rfl
  | _ => rfl

theorem emitInlinedFrom_grows :
    literals <+: (emitInlinedFrom image ctx site selfCopy result offset code literals).2 := by
  induction code generalizing offset literals with
  | nil => exact prefix_refl _
  | cons _ _ ih => exact emitInlinedInstr_grows.trans ih

variable (image ctx site selfCopy result)

theorem emitInlinedFrom_head (offset : ℕ) (code : Bytecodes) (literals : List Oop) :
    ∃ items, (emitInlinedFrom image ctx site selfCopy result offset code literals).1 =
      .label (.callee site offset) :: items := by
  cases code with
  | nil => exact ⟨[],rfl⟩
  | cons => exact ⟨_,rfl⟩

theorem emitInlinedFrom_last (offset : ℕ) (code : Bytecodes) (literals : List Oop) :
    ∃ items, (emitInlinedFrom image ctx site selfCopy result offset code literals).1 =
      items ++ [.label (.callee site ((offset + bytecodesSize code : ℕ) : ℤ))] := by
  induction code generalizing offset literals with
  | nil => exact ⟨[],rfl⟩
  | cons i r ih =>
    obtain ⟨items,hi⟩ := ih (offset + i.size)
      (emitInlinedInstr image ctx site (offset + i.size) (!r.isEmpty) selfCopy result literals i).2
    refine ⟨.label (.callee site offset) :: (emitInlinedInstr image ctx site (offset + i.size)
      (!r.isEmpty) selfCopy result literals i).1 ++ items,?_⟩
    rw [emitInlinedFrom]
    simp only [hi,streamSize_cons,← Nat.add_assoc,append_assoc]

theorem emitInlinedFrom_place (offset : ℕ) (pre : Bytecodes) (i : Instr ℤ) (post : Bytecodes)
    (literals : List Oop) : ∃ before after literals',
      (emitInlinedFrom image ctx site selfCopy result offset (pre ++ i :: post) literals).1 =
        before ++ (.label (.callee site ((offset + bytecodesSize pre : ℕ) : ℤ)) ::
          (emitInlinedInstr image ctx site (offset + bytecodesSize pre + i.size) (!post.isEmpty)
            selfCopy result literals' i).1 ++
          .label (.callee site ((offset + bytecodesSize pre + i.size : ℕ) : ℤ)) :: after) ∧
      (emitInlinedInstr image ctx site (offset + bytecodesSize pre + i.size) (!post.isEmpty)
        selfCopy result literals' i).2 <+:
        (emitInlinedFrom image ctx site selfCopy result offset (pre ++ i :: post) literals).2 := by
  induction pre generalizing offset literals with
  | nil =>
    obtain ⟨after,ha⟩ := emitInlinedFrom_head image ctx site selfCopy result (offset + i.size) post
      (emitInlinedInstr image ctx site (offset + i.size) (!post.isEmpty) selfCopy result literals i).2
    refine ⟨[],after,literals,?_,?_⟩
    · rw [nil_append,emitInlinedFrom]
      simp [ha]
    · exact emitInlinedFrom_grows
  | cons j pre ih =>
    obtain ⟨before,after,literals',ht,hg⟩ := ih (offset + j.size)
      (emitInlinedInstr image ctx site (offset + j.size) (!(pre ++ i :: post).isEmpty) selfCopy result
        literals j).2
    refine ⟨.label (.callee site offset) :: (emitInlinedInstr image ctx site (offset + j.size)
      (!(pre ++ i :: post).isEmpty) selfCopy result literals j).1 ++ before,after,literals',?_,?_⟩
    · rw [cons_append,emitInlinedFrom]
      simp only [ht,streamSize_cons,← Nat.add_assoc,append_assoc,cons_append]
    · rw [cons_append,emitInlinedFrom]
      simpa only [streamSize_cons,← Nat.add_assoc] using hg

theorem labels_emitInlinedFrom (offset : ℕ) (code : Bytecodes) (literals : List Oop) :
    labels (emitInlinedFrom image ctx site selfCopy result offset code literals).1 =
      (starts offset code ++ [offset + bytecodesSize code]).map fun o : ℕ => Label.callee site o := by
  induction code generalizing offset literals with
  | nil => rfl
  | cons _ _ ih =>
    rw [emitInlinedFrom]
    simp [labels,labels_emitInlinedInstr,ih,starts,Nat.add_assoc]

theorem labels_emitInlinedBody (callee : CompiledCode) (literals : List Oop) :
    labels (emitInlinedBody image ctx site callee result literals).1 =
      ((starts 0 callee.bytecodes ++ [bytecodesSize callee.bytecodes]).map
        fun o : ℕ => Label.callee site o) ++ [.exit site] := by
  have hs : ∀ selfCopy, labels (answerSelf ctx.base selfCopy result) = [] := by
    intro selfCopy
    cases result <;> cases selfCopy <;> rfl
  simp only [emitInlinedBody,labels_append,labels_emitInlinedFrom,hs,Nat.zero_add,append_nil]
  rfl

end Body

theorem starts_bounds (h : o ∈ starts offset code) : offset ≤ o ∧ o < offset + bytecodesSize code := by
  induction code generalizing offset with
  | nil => simp [starts] at h
  | cons i rest ih =>
    have hi := i.size_pos
    have hs : bytecodesSize (i :: rest) = i.size + bytecodesSize rest := streamSize_cons i rest
    rcases mem_cons.mp h with rfl | h
    · omega
    · have hr := ih h
      omega

theorem starts_nodup (offset : ℕ) (code : Bytecodes) :
    (starts offset code ++ [offset + bytecodesSize code]).Nodup := by
  induction code generalizing offset with
  | nil => simp [starts]
  | cons i _ ih =>
    have hi := i.size_pos
    have hr := ih (offset + i.size)
    rw [starts,cons_append,nodup_cons]
    refine ⟨?_,by simpa [Nat.add_assoc] using hr⟩
    intro hmem
    rcases mem_append.mp hmem with hmem | hmem
    · have hb := starts_bounds hmem
      omega
    · simp only [mem_singleton,streamSize_cons] at hmem
      omega

theorem mem_starts {code pre : Bytecodes} {i : Instr ℤ} {post : Bytecodes} {offset : ℕ}
    (h : code = pre ++ i :: post) : offset + bytecodesSize pre ∈ starts offset code := by
  subst h
  induction pre generalizing offset with
  | nil => simp [starts]
  | cons j _ ih =>
    have hj := @ih (offset + j.size)
    simp [starts,← Nat.add_assoc,hj]

theorem exists_of_mem_starts (h : o ∈ starts offset code) :
    ∃ pre i post, code = pre ++ i :: post ∧ o = offset + bytecodesSize pre := by
  induction code generalizing offset with
  | nil => simp [starts] at h
  | cons j r ih =>
    rcases mem_cons.mp h with rfl | h
    · exact ⟨[],j,r,rfl,rfl⟩
    · obtain ⟨pre,i,post,rfl,rfl⟩ := ih h
      exact ⟨j :: pre,i,post,rfl,by simp [Nat.add_assoc]⟩

end SmalltalkJit.Inlining
