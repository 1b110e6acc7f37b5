import SmalltalkJit.Optimizer.CallerSteps

/-! # Steps of an inlined body

Inside an inlined body every callee instruction other than a return is matched
by its translation, with the program counter moved to the label of the callee's
offset. Control reaches the end of the body only where the inliner expected it.
-/
namespace SmalltalkJit.Inlining
open Assembly Machine List

variable {input : Input}

section FallThrough
variable {callee : CompiledCode}

theorem canFallThrough_of_jump (hmem : target ∈ jumpTargets 0 callee.bytecodes)
    (ht : isStart callee.bytecodes target = true) (hend : target.toNat = bytecodesSize callee.bytecodes) :
    calleeCanFallThrough callee = true := by
  simp only [calleeCanFallThrough,Bool.or_eq_true,contains_eq_mem,decide_eq_true_eq]
  have h0 : 0 ≤ target := by rcases isStart_cases ht with rfl | ⟨_,_,_,-,rfl⟩ <;> exact Int.natCast_nonneg _
  exact Or.inl (hend ▸ (Int.toNat_of_nonneg h0).symm ▸ hmem)

theorem canFallThrough_of_next (hc : callee.bytecodes = pre ++ i :: post)
    (hret : ∀ operand, i ≠ .ret operand) (hju : ∀ displacement, i ≠ .jump displacement)
    (hend : bytecodesSize pre + i.size = bytecodesSize callee.bytecodes) : calleeCanFallThrough callee = true := by
  have hp : post = [] := by
    cases post with
    | nil => rfl
    | cons j =>
      have hj := j.size_pos
      simp [hc] at hend
      omega
  subst hp
  simp only [calleeCanFallThrough,hc,List.getLast?_append,List.getLast?_singleton,Bool.or_eq_true]
  right
  cases i with
  | ret operand => exact absurd rfl (hret operand)
  | jump displacement => exact absurd rfl (hju displacement)
  | _ => rfl

end FallThrough

section Steps
variable {V W : Type} {rt : Runtime V W} {site next selector : ℕ} {receiver : Operand}
variable {args : List Operand} {result : Option Operand} {guardClass : Oop} {callee : CompiledCode}

theorem Spliced.exists_labelAt (h : Spliced input site next selector receiver args result guardClass callee) (ht : isStart callee.bytecodes target = true) :
    ∃ o : ℕ, target = o ∧ ∃ k, LabelAt input (.callee site (o : ℤ)) k := by
  rcases isStart_cases ht with rfl | ⟨pre,i,q,hc,rfl⟩
  · obtain ⟨k,hat⟩ := h.tail
    exact ⟨_,rfl,_,labelAt_of_at hat⟩
  · obtain ⟨k,lits',hat,-⟩ := h.body hc
    exact ⟨_,rfl,_,labelAt_of_at hat⟩

variable (input) in
inductive BodyMatch (rt : Runtime V W) (site : ℕ) (callee : CompiledCode) (written dirty : List ℕ)
    (vars' : Frame V) : Outcome (Activation V W) (Event V) (Result V) →
    Outcome (Activation V W) (Event V) (Result V) → Prop
  | halt (r : Result V) : BodyMatch rt site callee written dirty vars' (.halt r) (.halt r)
  | next {world : W} {pc pc' : ℕ} {vars1 vars1' : Frame V} {events : List (Event V)} :
      BodyFrame input rt callee vars1 written dirty vars1' →
      Agree input.code.tempsEnd vars1' vars' →
      isStart callee.bytecodes pc = true →
      (pc = bytecodesSize callee.bytecodes → calleeCanFallThrough callee = true) →
      LabelAt input (.callee site (pc : ℤ)) pc' →
      BodyMatch rt site callee written dirty vars' (.next ⟨world,pc,vars1⟩ events)
        (.next ⟨world,pc',vars1'⟩ events)

variable {vars vars' : Frame V} {world : W} {written dirty : List ℕ} {pc pc' : ℕ}

theorem eligible_instr
    (h : inlineEligible shape limit callee = true) : (∀ i ∈ callee.bytecodes, instrEligible shape i = true) ∧
    (∀ target ∈ jumpTargets 0 callee.bytecodes, isStart callee.bytecodes target = true) ∧
    bytecodesSize callee.bytecodes ≠ 0 := by
  simp only [inlineEligible,Bool.and_eq_true,decide_eq_true_eq,all_eq_true] at h
  exact ⟨h.1.2,h.2,h.1.1.1.1.2⟩

theorem superOf_eligible (h : operandEligible shape operand = true) : superOf code operand = none := by
  cases operand <;> first | rfl | simp [operandEligible] at h

theorem Translated.superOf_eq (h : Translated input guardClass callee operand operand') :
    superOf code operand' = none := by
  have ha := h.adjusted
  cases operand with
  | literal | assoc => obtain ⟨i',rfl,-⟩ := ha; rfl
  | tempVar | argVar | instVar | value | nil | true | false => rw [show operand' = _ from ha]; rfl
  | _ => cases h.eligible

theorem translated_all (hel : ∀ operand ∈ operands,
      operandEligible (input.image.classAt guardClass).instanceShape operand = true)
    (hok : ∀ operand ∈ operands, OperandOk callee operand)
    (h : List.Forall₂ (Adjusted input.image (inlineContext input guardClass callee)
      (optimizer input).literals) operands operands') :
    List.Forall₂ (Translated input guardClass callee) operands operands' := by
  have hall := (forall₂_and_left _ _).mpr ⟨hok,(forall₂_and_left _ _).mpr ⟨hel,h⟩⟩
  exact hall.imp fun _ _ h => ⟨h.2.2,h.2.1,h.1⟩

variable (hc : Compatible input) (hcan : Candidate input guardClass callee)
variable (hf : BodyFrame input rt callee vars written dirty vars')
include hc hcan hf

theorem storeAndGo_body (h : Translated input guardClass callee dest dest') (harg : isArgVar dest = false)
    (hs : isStart callee.bytecodes pc = true)
    (hend : pc = bytecodesSize callee.bytecodes → calleeCanFallThrough callee = true)
    (hl : LabelAt input (.callee site (pc : ℤ)) pc') (v : V) (events : List (Event V)) :
    BodyMatch input rt site callee (tempOf dest ++ written) (tempOf dest ++ dirty) vars'
      (storeAndGo input.image rt callee world vars v dest pc events)
      (storeAndGo input.image rt (optimizedCode input) world vars' v dest' pc' events) := by
  unfold storeAndGo
  rcases writeOperand_body hc hcan h harg hf v with ⟨h,h'⟩ | ⟨world1,vars1,vars1',stores,h,h',hfr,hk⟩
  · rw [h,h']
    exact .halt _
  · rw [h,h']
    exact .next hfr hk hs hend hl

variable (rt world) in
theorem performSend_body {rec rec' : Operand} (hsel : sel < callee.literals.length)
    (hint : Interned input.image (optimizer input).literals (callee.literals.getD sel 0) sel')
    (h : List.Forall₂ (Translated input guardClass callee) (rec :: ops) (rec' :: ops'))
    (hfr : ∀ index, .tempVar index ∈ rec :: ops → index ∈ written ∨ index ∉ dirty) :
    performSend input.image rt (optimizedCode input) world vars' sel' rec' ops' =
        performSend input.image rt callee world vars sel rec ops ∧
      sendEvent input.image rt (optimizedCode input) world vars' sel' rec' ops' =
        sendEvent input.image rt callee world vars sel rec ops := by
  refine performSend_congr (literalAt_body hc hcan hsel hint) ?_ (map_readOperand_body hc hcan hf h hfr)
  have hrec := (forall₂_cons.mp h).1
  rw [hrec.superOf_eq,superOf_eligible hrec.eligible]

theorem execInstr_body (hs : Spliced input site next selector receiver args result guardClass callee) {i : Instr ℤ}
    (hco : callee.bytecodes = pre ++ i :: post)
    (hi' : BodyInstr input.image (inlineContext input guardClass callee) (optimizer input).literals
      site (bytecodesSize pre + i.size) i i')
    (hfr : ∀ index, .tempVar index ∈ usedOperands result i → index ∈ written ∨ index ∉ dirty)
    (hn : LabelAt input (.callee site ((bytecodesSize pre + i.size : ℕ) : ℤ)) next') :
    BodyMatch input rt site callee (writtenBy i ++ written) (writtenBy i ++ dirty) vars'
      (execInstr input.image rt callee ⟨world,pc,vars⟩ (bytecodesSize pre + i.size) i)
      (execInstr input.image rt (optimizedCode input) ⟨world,k,vars'⟩ next'
        (patch (optimizer input).text next' i')) := by
  have hmem : i ∈ callee.bytecodes := by simp [hco]
  obtain ⟨hel,hta,-⟩ := eligible_instr hcan.2.2
  have hie := hel i hmem
  have hio := (hc.callees guardClass callee hcan).instrs i hmem
  have hsta := isStart_next hco
  have hpa : ((∀ operand, i ≠ .ret operand) ∧ ∀ displacement, i ≠ .jump displacement) →
      bytecodesSize pre + i.size = bytecodesSize callee.bytecodes →
      calleeCanFallThrough callee = true :=
    fun h => canFallThrough_of_next hco h.1 h.2
  have hj := fun d (hd : jumpTarget (bytecodesSize pre + i.size) d ∈ targetsOf (bytecodesSize pre + i.size) i) =>
    have hin : jumpTarget (bytecodesSize pre + i.size) d ∈ jumpTargets 0 callee.bytecodes :=
      hco ▸ mem_jumpTargets 0 (by simpa using hd)
    have ht := hta _ hin
    And.intro (canFallThrough_of_jump hin ht) (jump_lands next' ht (hs.exists_labelAt ht))
  cases hi' <;> simp only [patch,Instr.mapTarget,execInstr]
  case copy source d src' d' hso hde =>
    simp only [instrEligible,Bool.and_eq_true,Bool.not_eq_true'] at hie
    have hr : newRead input rt world vars' src' = readOperand input.image rt callee world vars source :=
      readOperand_body hc hcan hf ⟨hso,hie.1.1,hio.1⟩ fun index hi => hfr index (hi ▸ mem_cons_self)
    simp only [hr]
    exact storeAndGo_body hc hcan hf ⟨hde,hie.1.2,hio.2⟩ hie.2 hsta (hpa ⟨by simp,by simp⟩) hn _ _
  case send sel sel' rec rec' ops ops' hint hrec hops =>
    simp only [instrEligible,Bool.and_eq_true,all_eq_true] at hie
    obtain ⟨hp,he⟩ := performSend_body rt world hc hcan hf hio.1 hint
      (translated_all hie.2 (forall_mem_cons.mpr hio.2) (.cons hrec hops)) hfr
    rw [hp,he]
    cases performSend input.image rt callee world vars sel rec ops with
    | none => exact .halt _
    | some => exact .next hf (fun _ _ => rfl) hsta (hpa ⟨by simp,by simp⟩) hn
  case sendWithStore sel sel' rec rec' d d' ops ops' hint hrec hops hde =>
    simp only [instrEligible,Bool.and_eq_true,all_eq_true,Bool.not_eq_true'] at hie
    obtain ⟨hsel,hreco,hopso,hdesto⟩ := hio
    obtain ⟨hp,he⟩ := performSend_body rt world hc hcan hf hsel hint
      (translated_all hie.1.1.2 (forall_mem_cons.mpr ⟨hreco,hopso⟩) (.cons hrec hops)) hfr
    rw [hp,he]
    cases performSend input.image rt callee world vars sel rec ops with
    | none => exact .halt _
    | some => exact storeAndGo_body hc hcan hf ⟨hde,hie.1.2,hdesto⟩ hie.2 hsta (hpa ⟨by simp,by simp⟩) hn _ _
  case jump d =>
    obtain ⟨hend,hst,hl⟩ := hj d mem_cons_self
    exact .next hf (fun _ _ => rfl) hst hend hl
  case jumpNotMemberOf classLiteral cl' operand op' d hint hop =>
    obtain ⟨hend,hst,hl⟩ := hj d mem_cons_self
    have hr : newRead input rt world vars' op' = readOperand input.image rt callee world vars operand :=
      readOperand_body hc hcan hf ⟨hop,hie,hio.2⟩ fun index hi => hfr index (hi ▸ mem_cons_self)
    simp only [hr,literalAt_body hc hcan hio.1 hint]
    split
    · exact .next hf (fun _ _ => rfl) hsta (hpa ⟨by simp,by simp⟩) hn
    · exact .next hf (fun _ _ => rfl) hst hend hl

end Steps

end SmalltalkJit.Inlining
