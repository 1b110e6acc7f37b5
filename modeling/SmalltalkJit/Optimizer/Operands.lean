import SmalltalkJit.Optimizer.Splice
import SmalltalkJit.Optimizer.Activation

/-! # Operands keep their meaning

An operand of the caller reads and writes the same in the rewritten method, and
a translated operand of a callee reads and writes in the widened frame what the
original one does in the callee's own frame. Callee variable number `i` lives
`i - 1` words into the inline area, whatever its kind.
-/
namespace SmalltalkJit.Inlining
open Assembly Machine Function List CompiledCode

variable (input : Input)

/-- A method that a cell can make the inliner splice in. -/
def Candidate (guardClass : Oop) (callee : CompiledCode) : Prop :=
  IcState.mono guardClass ∈ input.oldCells ∧
  (∃ selector ∈ input.code.literals,
    lookupSelector (input.image.classAt guardClass) selector = some callee) ∧
  inlineEligible (input.image.classAt guardClass).instanceShape input.tierInlineMax callee = true

/-- Objects that can enter the merged literal frame. -/
def MergedLiteral (object : Oop) : Prop :=
  object ∈ input.code.literals ∨
  ∃ guardClass callee, Candidate input guardClass callee ∧
    (object = guardClass ∨ object ∈ callee.literals)

/-- What the compiler promises about the methods involved, and the two conditions under which
translated operands mean the same: a class keeps its instance variables where the class that owns
the callee has them, and no two literals are distinct Strings with equal contents. -/
structure Compatible : Prop where
  caller : WellFormed input.code
  callees : ∀ guardClass callee, Candidate input guardClass callee → WellFormed callee
  shapes : ∀ guardClass callee, Candidate input guardClass callee → ∀ index,
    (input.image.classAt callee.ownerClass).instanceShape.slot index =
      (input.image.classAt guardClass).instanceShape.slot index
  literals : ∀ object value, MergedLiteral input object → MergedLiteral input value →
    compareValues input.image object value = true → object = value

variable {input} {literals : List Oop} {operands : List Operand} {operand : Operand}

section MergedFrame
variable {image : Image} {P : Oop → Prop}

theorem ordCollAdd_all (hl : ∀ x ∈ literals, P x) (ho : P object) :
    ∀ x ∈ (ordCollAddObjectIfNotExists image literals object).2, P x := by
  intro x hx
  rcases mem_ordCollAdd hx with hx | rfl
  · exact hl x hx
  · exact ho

variable {guardClass : Oop} {callee : CompiledCode}

theorem getD_mem (h : index < literals.length) : literals.getD index 0 ∈ literals := by
  rw [getD_eq_getElem?_getD,List.getElem?_eq_getElem h]
  exact getElem_mem h

section
variable (hc : ∀ x ∈ callee.literals, P x) (hl : ∀ x ∈ literals, P x)
include hc hl

theorem adjustOperand_all (hok : OperandOk callee operand) :
    ∀ x ∈ (adjustOperand image (inlineContext input guardClass callee) literals operand).2, P x := by
  cases operand with
  | literal | assoc => exact ordCollAdd_all hl (hc _ (getD_mem hok))
  | _ => exact hl

theorem adjustOperands_all (hok : ∀ operand ∈ operands, OperandOk callee operand) :
    ∀ x ∈ (adjustOperands image (inlineContext input guardClass callee) literals operands).2, P x := by
  induction operands generalizing literals with
  | nil => exact hl
  | cons operand _ ih =>
    exact ih (adjustOperand_all hc hl (hok operand mem_cons_self))
      fun o ho => hok o (mem_cons_of_mem _ ho)

theorem emitInlinedInstr_all {next : ℕ} (hok : InstrOk callee i) :
    ∀ x ∈ (emitInlinedInstr image (inlineContext input guardClass callee) site next hasNext selfCopy
      result literals i).2, P x := by
  cases i with
  | copy => exact adjustOperand_all hc (adjustOperand_all hc hl hok.1) hok.2
  | send =>
    exact ordCollAdd_all (adjustOperands_all hc (adjustOperand_all hc hl hok.2.1) hok.2.2)
      (hc _ (getD_mem hok.1))
  | sendWithStore =>
    obtain ⟨hsel,hrec,ha,hd⟩ := hok
    exact adjustOperand_all hc (ordCollAdd_all
      (adjustOperands_all hc (adjustOperand_all hc hl hrec) ha) (hc _ (getD_mem hsel)))
      hd
  | ret =>
    cases result with
    | none => exact hl
    | some => exact adjustOperand_all hc hl hok
  | outerReturn | jump => exact hl
  | jumpNotMemberOf => exact ordCollAdd_all (adjustOperand_all hc hl hok.2) (hc _ (getD_mem hok.1))

theorem emitInlinedFrom_all (hok : ∀ i ∈ code, InstrOk callee i) :
    ∀ x ∈ (emitInlinedFrom image (inlineContext input guardClass callee) site selfCopy result offset
      code literals).2, P x := by
  induction code generalizing offset literals with
  | nil => exact hl
  | cons i _ ih =>
    exact ih (emitInlinedInstr_all hc hl (hok i mem_cons_self)) fun j hj => hok j (mem_cons_of_mem _ hj)

end

end MergedFrame

variable {result : Option Operand} {args : List Operand} {receiver : Operand} {selector : ℕ}

theorem inlineTarget_some
    (h : inlineTarget input size cell selector receiver args result = some (guardClass,callee)) :
    IcState.mono guardClass ∈ input.oldCells ∧
    lookupSelector (input.image.classAt guardClass) (input.code.literalAt selector) = some callee ∧
    inlineEligible (input.image.classAt guardClass).instanceShape input.tierInlineMax callee = true ∧
    callee.header.argsSize = args.length := by
  unfold inlineTarget at h
  split at h
  · split at h
    · rename_i cls hce
      split at h
      · rename_i m hlo
        split at h
        · rename_i hcon
          simp only [Bool.and_eq_true,decide_eq_true_eq] at hcon
          obtain ⟨rfl,rfl⟩ := h
          exact ⟨mem_of_getElem? hce,hlo,hcon.1.1.2,hcon.1.1.1⟩
        · cases h
      · cases h
    · cases h
  · cases h

theorem candidate_of_inlineTarget
    (h : inlineTarget input size cell selector receiver args result = some (guardClass,callee))
    (hsel : selector < input.code.literals.length) : Candidate input guardClass callee := by
  obtain ⟨hce,hlo,he,-⟩ := inlineTarget_some h
  exact ⟨hce,⟨_,getD_mem hsel,hlo⟩,he⟩

theorem instrOk_emitSend (h : InstrOk code (emitSend selector receiver args result)) :
    selector < code.literals.length ∧ OperandOk code receiver ∧
      (∀ arg ∈ args, OperandOk code arg) ∧ ∀ dest, result = some dest → OperandOk code dest := by
  cases result with
  | none => exact ⟨h.1,h.2.1,h.2.2,by simp⟩
  | some =>
    refine ⟨h.1,h.2.1,h.2.2.1,?_⟩
    rintro _ ⟨⟩
    exact h.2.2.2

theorem optimizeFrom_merged (hwf : ∀ guardClass callee, Candidate input guardClass callee →
    WellFormed callee) (opt : Optimizer) (offset : ℕ) (code : Bytecodes)
    (hok : ∀ i ∈ code, InstrOk input.code i) (hl : ∀ x ∈ opt.literals, MergedLiteral input x) :
    ∀ x ∈ (optimizeFrom input opt offset code).literals, MergedLiteral input x := by
  induction code generalizing opt offset with
  | nil => exact hl
  | cons i _ ih =>
    refine ih _ _ (fun j hj => hok j (mem_cons_of_mem _ hj)) ?_
    have hi := hok i mem_cons_self
    cases optimizeInstr_chunk input opt offset i with
    | raw _ hlit => rw [hlit]; exact hl
    | inlined hs ht _ hlit =>
      subst hs
      rw [hlit]
      have hcan := candidate_of_inlineTarget ht (instrOk_emitSend hi).1
      exact emitInlinedFrom_all (fun x hx => Or.inr ⟨_,_,hcan,Or.inr hx⟩)
        (ordCollAdd_all hl (Or.inr ⟨_,_,hcan,Or.inl rfl⟩)) (hwf _ _ hcan).instrs

theorem optimizer_merged (hc : Compatible input) : ∀ x ∈ (optimizer input).literals, MergedLiteral input x :=
  optimizeFrom_merged hc.callees _ _ _ hc.caller.instrs fun _ hx => Or.inl hx

theorem Interned.literalAt (hc : Compatible input) (ho : MergedLiteral input object)
    (h : Interned input.image (optimizer input).literals object index) :
    (optimizedCode input).literalAt index = object := by
  obtain ⟨v,hv,hcmp⟩ := h
  have hmem := optimizer_merged hc v (mem_of_getElem? hv)
  have heq := hc.literals object v ho hmem hcmp
  simp [CompiledCode.literalAt,optimizedCode,getD_eq_getElem?_getD,hv,heq]

section Caller
variable {V W : Type} {rt : Runtime V W} {world : W} {vars vars' : Frame V}

theorem literalAt_optimized (h : index < input.code.literals.length) :
    (optimizedCode input).literalAt index = input.code.literalAt index := by
  obtain ⟨rest,hr⟩ := optimizeFrom_literals input (initial input) 0 input.code.bytecodes
  have hlit : (optimizedCode input).literals = input.code.literals ++ rest := hr.symm
  simp only [literalAt,hlit,getD_eq_getElem?_getD]
  rw [List.getElem?_append_left h]

theorem readOperand_caller (hok : OperandOk input.code operand) (hv : Agree input.code.tempsEnd vars' vars) :
    newRead input rt world vars' operand = readOperand input.image rt input.code world vars operand := by
  have hs : vars' selfIndex = vars selfIndex := hv _ (selfIndex_lt_tempsEnd _)
  have hctx : vars' contextIndex = vars contextIndex := hv _ (contextIndex_lt_tempsEnd _)
  induction operand with
  | tempVar index => exact hv index hok.2
  | argVar index => exact hv index (Nat.lt_of_lt_of_le hok.2 (by simp [tempsEnd]))
  | literal | assoc => simp only [readOperand,literalAt_optimized hok]
  | block => simp only [readOperand,literalAt_optimized hok,hs,hctx]
  | instVar => simp only [readOperand,hs]; rfl
  | instVarOf _ _ ih => simp only [readOperand,ih hok]
  | contextVar => simp only [readOperand,hctx]
  | thisContext => exact hctx
  | super => exact hs
  | _ => rfl

theorem map_readOperand_caller (hok : ∀ operand ∈ operands, OperandOk input.code operand)
    (hv : Agree input.code.tempsEnd vars' vars) : operands.map (newRead input rt world vars') =
      operands.map (readOperand input.image rt input.code world vars) := by
  refine map_congr_left ?_
  intro operand hmem
  exact readOperand_caller (hok operand hmem) hv

/-- Two stores that both fail, or do the same to the world and leave frames in the relation `P`. -/
def WriteMatch (P : Frame V → Frame V → Prop) (x x' : Option (W × Frame V × List (Event V))) : Prop :=
  (x = none ∧ x' = none) ∨ ∃ world vars vars' events,
    x = some (world,vars,events) ∧ x' = some (world,vars',events) ∧ P vars vars'

theorem writeOperand_caller (hok : OperandOk input.code dest) (hv : Agree input.code.tempsEnd vars' vars) (v : V) :
    WriteMatch (fun vars1 vars1' => Agree input.code.tempsEnd vars1' vars1 ∧
        ∀ index, input.code.tempsEnd ≤ index → vars1' index = vars' index)
      (writeOperand input.image rt input.code world vars v dest)
      (writeOperand input.image rt (optimizedCode input) world vars' v dest) := by
  have hs : vars' selfIndex = vars selfIndex := hv _ (selfIndex_lt_tempsEnd _)
  have hctx : vars' contextIndex = vars contextIndex := hv _ (contextIndex_lt_tempsEnd _)
  have hu : ∀ index < input.code.tempsEnd, Agree input.code.tempsEnd (update vars' index v) (update vars index v) ∧
      ∀ j, input.code.tempsEnd ≤ j → update vars' index v j = vars' j := by
    intro index hlt
    refine ⟨fun j hj => ?_,fun j hj => ?_⟩
    · rw [update_apply,update_apply,hv j hj]
    · rw [update_of_ne (by omega)]
  cases dest with
  | tempVar index =>
    obtain ⟨hb,ha⟩ := hu index hok.2
    exact Or.inr ⟨_,_,_,_,rfl,rfl,hb,ha⟩
  | argVar index =>
    obtain ⟨hb,ha⟩ := hu index (Nat.lt_of_lt_of_le hok.2 (by simp [tempsEnd]))
    exact Or.inr ⟨_,_,_,_,rfl,rfl,hb,ha⟩
  | contextVar => exact Or.inr ⟨_,_,vars',_,rfl,by simp only [writeOperand,hctx],hv,fun _ _ => rfl⟩
  | instVar =>
    refine Or.inr ⟨_,_,vars',_,rfl,?_,hv,fun _ _ => rfl⟩
    simp only [writeOperand,hs]
    rfl
  | instVarOf _ inst =>
    have hi : newRead input rt world vars' inst =
        readOperand input.image rt input.code world vars inst := readOperand_caller hok hv
    exact Or.inr ⟨_,_,vars',_,rfl,by simp only [writeOperand,hi],hv,fun _ _ => rfl⟩
  | assoc =>
    exact Or.inr ⟨_,_,vars',_,rfl,by simp only [writeOperand,literalAt_optimized hok],hv,fun _ _ => rfl⟩
  | _ => exact Or.inl ⟨rfl,rfl⟩

end Caller

variable {operand' : Operand}

section Callee
variable {V W : Type} {rt : Runtime V W} {world : W} {vars vars' : Frame V}
variable {guardClass : Oop} {callee : CompiledCode} {written dirty : List ℕ}

variable (input) in
/-- The inline area holds what the callee's activation has written; what it has not written is
nil in its own frame, and a word no activation ever wrote is nil in the area. -/
structure BodyFrame (rt : Runtime V W) (callee : CompiledCode) (vars : Frame V)
    (written dirty : List ℕ) (vars' : Frame V) : Prop where
  stored : ∀ index ∈ written, vars' (input.code.tempsEnd + (index-1)) = vars index
  unwritten : ∀ index, index ∉ written → vars index = rt.nil
  params : ∀ index, 1 ≤ index → index < 2 + callee.header.argsSize → index ∈ written
  positive : ∀ index ∈ written, 1 ≤ index
  clean : ∀ index, 1 ≤ index → index ∉ dirty →
    vars' (input.code.tempsEnd + (index-1)) = rt.nil

variable {index : ℕ}

variable (input) in
/-- A callee operand that the inliner accepts, and its translation. -/
structure Translated (guardClass : Oop) (callee : CompiledCode) (operand operand' : Operand) : Prop where
  adjusted : Adjusted input.image (inlineContext input guardClass callee) (optimizer input).literals operand operand'
  eligible : operandEligible (input.image.classAt guardClass).instanceShape operand = true
  ok : OperandOk callee operand

theorem Translated.place (h : Translated input guardClass callee operand operand')
    (hv : operand = .tempVar index ∨ operand = .argVar index) :
    operand' = .tempVar (input.code.tempsEnd + (index-1)) := by
  rcases hv with rfl | rfl
  · have hle := h.ok.1
    refine h.adjusted.trans (congrArg Operand.tempVar ?_)
    dsimp only [inlineContext]
    omega
  · have hle := h.ok.1
    refine h.adjusted.trans (congrArg Operand.tempVar ?_)
    unfold selfIndex
    dsimp only [inlineContext]
    split <;> omega

theorem BodyFrame.self_eq
    (hf : BodyFrame input rt callee vars written dirty vars') : vars' input.code.tempsEnd = vars selfIndex := by
  have h := hf.stored selfIndex (hf.params selfIndex (Nat.le_refl 1) (by unfold selfIndex; omega))
  simpa [selfIndex] using h

section Translations
variable (hc : Compatible input) (hcan : Candidate input guardClass callee)
variable (hf : BodyFrame input rt callee vars written dirty vars')
include hc hcan

theorem literalAt_body (hlt : index < callee.literals.length)
    (h : Interned input.image (optimizer input).literals (callee.literals.getD index 0) i') :
    (optimizedCode input).literalAt i' = callee.literalAt index :=
  Interned.literalAt hc (Or.inr ⟨_,_,hcan,Or.inr (getD_mem hlt)⟩) h

include hf

/-- A translated operand reads in the widened frame what the callee's operand reads in its own,
unless it is a temporary left over from an earlier activation. -/
theorem readOperand_body (h : Translated input guardClass callee operand operand')
    (hfr : ∀ index, operand = .tempVar index → index ∈ written ∨ index ∉ dirty) :
    newRead input rt world vars' operand' = readOperand input.image rt callee world vars operand := by
  have ha := h.adjusted
  cases operand with
  | tempVar index =>
    rw [h.place (.inl rfl)]
    change vars' (input.code.tempsEnd + (index-1)) = vars index
    have hle := h.ok.1
    by_cases hw : index ∈ written
    · exact hf.stored index hw
    · have hcl := (hfr index rfl).resolve_left hw
      rw [hf.clean index (by omega) hcl,hf.unwritten index hw]
  | argVar index =>
    rw [h.place (.inr rfl)]
    exact hf.stored index (hf.params index h.ok.1 h.ok.2)
  | instVar index =>
    rw [show operand' = _ from ha]
    simp only [readOperand,inlineContext,hf.self_eq,hc.shapes guardClass callee hcan index]
  | literal | assoc =>
    obtain ⟨i',rfl,hint⟩ := ha
    simp only [readOperand,literalAt_body hc hcan h.ok hint]
  | value | nil | true | false => rw [show operand' = _ from ha]; rfl
  | _ => cases h.eligible

theorem map_readOperand_body (h : List.Forall₂ (Translated input guardClass callee) operands operands')
    (hfr : ∀ index, .tempVar index ∈ operands → index ∈ written ∨ index ∉ dirty) :
    operands'.map (newRead input rt world vars') =
      operands.map (readOperand input.image rt callee world vars) := by
  induction h with
  | nil => rfl
  | cons hfi _ ih =>
    rw [map_cons,map_cons,ih fun index hi => hfr index (mem_cons_of_mem _ hi),
      readOperand_body hc hcan hf hfi fun index hi => hfr index (hi ▸ mem_cons_self)]

end Translations

theorem BodyFrame.update (hf : BodyFrame input rt callee vars written dirty vars') (hpos : 1 ≤ index) (v : V) :
    BodyFrame input rt callee (update vars index v) (index :: written) (index :: dirty)
      (update vars' (input.code.tempsEnd + (index-1)) v) := by
  refine ⟨?_,?_,?_,?_,?_⟩
  · intro j hj
    by_cases hji : j = index
    · subst hji; simp
    · have hmem := (mem_cons.mp hj).resolve_left hji
      have hj1 := hf.positive j hmem
      rw [update_of_ne (by omega),update_of_ne hji,hf.stored j hmem]
  · intro j hj
    simp only [mem_cons,not_or] at hj
    rw [update_of_ne hj.1,hf.unwritten j hj.2]
  · intro j hj hlt
    exact mem_cons_of_mem _ (hf.params j hj hlt)
  · intro j hj
    rcases mem_cons.mp hj with rfl | hj
    · exact hpos
    · exact hf.positive j hj
  · intro j hj hd
    simp only [mem_cons,not_or] at hd
    rw [update_of_ne (by omega),hf.clean j hj hd.2]

theorem writeOperand_body (hc : Compatible input) (hcan : Candidate input guardClass callee)
    (h : Translated input guardClass callee dest dest') (harg : isArgVar dest = false)
    (hf : BodyFrame input rt callee vars written dirty vars') (v : V) :
    WriteMatch (fun vars1 vars1' =>
        BodyFrame input rt callee vars1 (tempOf dest ++ written) (tempOf dest ++ dirty) vars1' ∧
          Agree input.code.tempsEnd vars1' vars')
      (writeOperand input.image rt callee world vars v dest)
      (writeOperand input.image rt (optimizedCode input) world vars' v dest') := by
  have ha := h.adjusted
  cases dest with
  | tempVar =>
    have hle := h.ok.1
    rw [h.place (.inl rfl)]
    refine Or.inr ⟨_,_,_,_,rfl,rfl,hf.update (by omega) v,?_⟩
    intro j hj
    rw [update_of_ne (by omega)]
  | argVar => simp [isArgVar] at harg
  | instVar index =>
    rw [show dest' = _ from ha]
    refine Or.inr ⟨_,_,vars',_,rfl,?_,hf,fun _ _ => rfl⟩
    simp only [writeOperand,readOperand,inlineContext,hf.self_eq,hc.shapes guardClass callee hcan index]
  | assoc =>
    obtain ⟨i',rfl,hint⟩ := ha
    refine Or.inr ⟨_,_,vars',_,rfl,?_,hf,fun _ _ => rfl⟩
    simp only [writeOperand,literalAt_body hc hcan h.ok hint]
  | literal =>
    obtain ⟨i',rfl,-⟩ := ha
    exact Or.inl ⟨rfl,rfl⟩
  | value | nil | true | false => exact Or.inl ⟨rfl,by rw [show dest' = _ from ha]; rfl⟩
  | _ => cases h.eligible

end Callee

end SmalltalkJit.Inlining
