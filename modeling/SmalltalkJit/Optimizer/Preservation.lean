import SmalltalkJit.Optimizer.Refinement

/-! # Inlining preserves behaviour

The rewritten method simulates the original one with its inlined sends followed
into their callees, as long as no followed activation uses a temporary that it
has not written itself and an earlier activation has: the inline area is shared
by all sites and never set back to nil.
-/
namespace SmalltalkJit.Inlining
open Assembly Machine List

variable {input : Input} {V W : Type} {rt : Runtime V W}

variable {s : CallState V W}

theorem matched_exec (hn : s.inner = none)
    (hc : ∀ index, 1 ≤ index → index ∉ s.dirty → t.vars (input.code.tempsEnd + (index-1)) = rt.nil)
    (hm : CallerMatch input t.vars o o') (hnew : newStep input rt t = o') : Matched input rt (resumeOuter s o) t := by
  cases hm with
  | halt => exact ⟨0,t,.refl t,hnew⟩
  | next hb ha hst hl =>
    refine ⟨0,_,Steps.one hnew,⟨rfl,hb,?_,.outer hn hst hl⟩⟩
    intro index hpos hd
    exact (ha _ (by omega)).trans (hc index hpos hd)

theorem enter_emitSend (guard : ℕ → Option Oop) :
    enter input.image rt input.code guard s (emitSend selector receiver args result) =
      activate input.image rt input.code guard s selector receiver args result := by
  cases result <;> rfl

theorem bodyFrame_spilled (callee : CompiledCode) (self : V) (values : List V) (ha : callee.header.argsSize = values.length) (hc : ∀ index, 1 ≤ index → index ∉ dirty →
      vars' (input.code.tempsEnd + (index-1)) = rt.nil) :
    BodyFrame input rt callee (calleeFrame rt self values) (List.range' 1 (values.length+1))
      (List.range' 1 (values.length+1) ++ dirty)
      (spilled (Function.update vars' input.code.tempsEnd self) (input.code.tempsEnd+1) values) := by
  refine ⟨?_,?_,?_,?_,?_⟩
  · intro index hmem
    rw [mem_range'_1] at hmem
    by_cases hs : index = 1
    · subst hs
      rw [Nat.sub_self,Nat.add_zero,spilled_below values (by omega)]
      simp [calleeFrame,selfIndex]
    · rw [show input.code.tempsEnd + (index-1) = input.code.tempsEnd+1 + (index-2) by omega,
        spilled_at values rt.nil (by omega)]
      simp [calleeFrame,selfIndex,hs,show 2 ≤ index by omega]
  · intro index hmem
    rw [mem_range'_1] at hmem
    by_cases hz : index = 0
    · simp [calleeFrame,selfIndex,hz]
    · rw [calleeFrame,if_neg (by unfold selfIndex; omega),if_pos (by omega),
        getD_eq_getElem?_getD,List.getElem?_eq_none (by omega),Option.getD_none]
  · intro index hpos hlt
    rw [mem_range'_1]
    omega
  · intro index hmem
    rw [mem_range'_1] at hmem
    omega
  · intro index hpos hmem
    simp only [mem_append,mem_range'_1,not_or] at hmem
    rw [spilled_above values (by omega),Function.update_of_ne (by omega),hc index hpos hmem.2]

section Guard
variable {t : Activation V W} {next selector : ℕ} {receiver : Operand} {args : List Operand} {result : Option Operand}
variable {guardClass : Oop} {callee : CompiledCode} (hc : Compatible input) (hrel : Related input rt s t)
variable (hs : Spliced input s.pc next selector receiver args result guardClass callee)
variable (hcan : Candidate input guardClass callee) (hl : LabelAt input (.orig s.pc) t.pc)
variable (hrec : OperandOk input.code receiver)
include hc hrel hs hcan hl hrec

theorem newStep_entry : ∃ m,
    TextAt input (t.pc + (7 + receiver.size)) (.instr (.copy receiver (.tempVar input.code.tempsEnd)) ::
      (spillArgs (input.code.tempsEnd+1) args.reverse ++ [.label (.callee s.pc (0 : ℕ))])) ∧
    TextAt input m [.label (.fallback s.pc),.instr (emitSend selector receiver args result),
      .label (.done s.pc),.label (.orig next)] ∧
    newStep input rt t =
      if rt.classOf s.world (readOperand input.image rt input.code s.world s.vars receiver) = guardClass then
        .next ⟨t.world,t.pc + (7 + receiver.size),t.vars⟩ []
      else .next ⟨t.world,m,t.vars⟩ [] := by
  obtain ⟨k,cl,hint,hat⟩ := hs.entry
  obtain rfl := (labelAt_of_at hat).unique hl
  obtain ⟨m,hf⟩ := hs.fallback
  refine ⟨m,hat.after_label.after_instr,hf,?_⟩
  rw [← Interned.literalAt hc (Or.inr ⟨_,_,hcan,Or.inl rfl⟩) hint,
    ← readOperand_caller hrec hrel.frame,← hrel.world]
  exact newStep_guard hat.after_label (labelAt_of_at hf)

theorem matched_enter (ha : callee.header.argsSize = args.length) (harg : ∀ arg ∈ args, OperandOk input.code arg)
    (hres : ∀ dest, result = some dest → OperandOk input.code dest) (hsta : isStart input.code.bytecodes next = true)
    (hcl : rt.classOf s.world (readOperand input.image rt input.code s.world s.vars receiver) = guardClass) :
    Matched input rt (.next
      { s with
        pc := next
        inner := some
          { site := s.pc
            callee := callee
            result := result
            pc := 0
            vars := calleeFrame rt (readOperand input.image rt input.code s.world s.vars receiver)
              (args.reverse.map (readOperand input.image rt input.code s.world s.vars))
            written := List.range' 1 (args.length+1) }
        dirty := List.range' 1 (args.length+1) ++ s.dirty } []) t := by
  obtain ⟨m,hco,-,hst1⟩ := newStep_entry hc hrel hs hcan hl hrec
  rw [if_pos hcl] at hst1
  have hsp := hco.after_instr
  let self := readOperand input.image rt input.code s.world s.vars receiver
  have hsel : newRead input rt t.world t.vars receiver = self := by
    rw [hrel.world]
    exact readOperand_caller hrec hrel.frame
  let vars1 : Frame V := Function.update t.vars input.code.tempsEnd self
  have hv1 : Agree input.code.tempsEnd vars1 s.vars := by
    intro index hlt
    simp only [vars1]
    rw [Function.update_of_ne (by omega),hrel.frame index hlt]
  have hst2 : newStep input rt ⟨t.world,t.pc + (7 + receiver.size),t.vars⟩ =
      .next ⟨t.world,t.pc + (7 + receiver.size) +
        (1 + receiver.size + (Operand.tempVar input.code.tempsEnd).size),vars1⟩ [] :=
    newStep_copy hco (by rw [hsel]; rfl)
  have hr : ∀ operand ∈ args.reverse, ∀ vs' : Frame V, Agree input.code.tempsEnd vs' s.vars →
      newRead input rt t.world vs' operand = readOperand input.image rt input.code s.world s.vars operand := by
    intro operand hmem vs' hv'
    rw [hrel.world]
    exact readOperand_caller (harg operand (mem_reverse.mp hmem)) hv'
  have hv : args.reverse.map (newRead input rt t.world vars1) =
      args.reverse.map (readOperand input.image rt input.code s.world s.vars) := by
    refine map_congr_left ?_
    intro operand hmem
    exact hr operand hmem vars1 hv1
  have hk : ∀ operand ∈ args.reverse, ∀ vs' : Frame V, Agree (input.code.tempsEnd+1) vs' vars1 →
      newRead input rt t.world vs' operand = newRead input rt t.world vars1 operand := by
    intro operand hmem vs' hv'
    rw [hr operand hmem vars1 hv1,hr operand hmem vs' ?_]
    intro index hlt
    rw [hv' index (by omega),hv1 index hlt]
  have hsteps := Steps.cons hst1 (Steps.cons hst2 (steps_spillArgs args.reverse hk hsp))
  rw [hv] at hsteps
  have hbo := bodyFrame_spilled callee self
    (args.reverse.map (readOperand input.image rt input.code s.world s.vars))
    (by simpa using ha) hrel.clean
  rw [length_map,length_reverse] at hbo
  refine ⟨_,_,hsteps,⟨hrel.world,?_,hbo.clean,.inner rfl hs hcan hsta hres ?_ ?_ ?_ hbo⟩⟩
  · intro index hlt
    exact (spilled_below _ (by omega)).trans (hv1 index hlt)
  · exact isStart_zero _
  · intro hz
    exact absurd hz.symm (eligible_instr hcan.2.2).2.2
  · exact labelAt_of_at hsp.right

theorem matched_fallback (hno : s.inner = none)
    (hco : input.code.bytecodes = pre ++ emitSend selector receiver args result :: post)
    (hne : next = bytecodesSize pre + (emitSend (T := ℤ) selector receiver args result).size)
    (hcl : rt.classOf s.world (readOperand input.image rt input.code s.world s.vars receiver) ≠ guardClass) :
    Matched input rt (resumeOuter s (execInstr input.image rt input.code ⟨s.world,s.pc,s.vars⟩ next
      (emitSend selector receiver args result))) t := by
  subst hne
  obtain ⟨m,-,hf,hg⟩ := newStep_entry hc hrel hs hcan hl hrec
  rw [if_neg hcl] at hg
  refine Matched.of_step hg ?_
  have hse := hf.after_label
  have hn := labelAt_of_at hse.after_instr.after_label
  refine matched_exec hno hrel.clean ?_ (newStep_of_at hse)
  rw [hrel.world]
  generalize m + (emitSend (T := Label) selector receiver args result).size = next' at hn
  rw [← passThrough_emitSend (bytecodesSize pre)]
  exact execInstr_caller hc.caller hco hrel.frame hn

end Guard

theorem activate_eq_none (h : guardAt input s.pc = none) :
    activate input.image rt input.code (guardAt input) s selector receiver args result = none := by
  rw [activate,h]

theorem enter_eq_none (h : guardAt input s.pc = none) (i : Instr ℤ) :
    enter input.image rt input.code (guardAt input) s i = none := by
  cases i with
  | send | sendWithStore => exact activate_eq_none h
  | _ => rfl

theorem matched_outer (hc : Compatible input) (hrel : Related input rt s t) (hn : s.inner = none) :
    Matched input rt (outerStep input.image rt input.code (guardAt input) s) t := by
  cases hrel.control with
  | inner ha => rw [hn] at ha; cases ha
  | outer _ hst hl =>
    rcases fetch_of_isStart hst with ⟨hf,hend⟩ | ⟨pre,i,q,hco,hpc,hf⟩
    · rw [outerStep,hf]
      simp only [hend,↓reduceIte]
      refine ⟨0,t,.refl t,?_⟩
      rw [← hrel.frame selfIndex (selfIndex_lt_tempsEnd _)]
      exact newStep_end (hend ▸ hl)
    · have hok := hc.caller.instrs i (by simp [hco])
      rw [outerStep,hf]
      cases hpc ▸ optimizer_placed input hco with
      | raw hat hsi =>
        have hg : guardAt input s.pc = none := by rw [guardAt,hsi]; rfl
        simp only [enter_eq_none hg]
        obtain rfl := (labelAt_of_at hat).unique hl
        have hins := hat.after_label
        have hne := labelAt_of_at hins.after_instr
        have hnew : newStep input rt t = execInstr input.image rt (optimizedCode input)
            ⟨s.world,t.pc,t.vars⟩ (t.pc + (passThrough s.pc i).size)
            (patch (optimizer input).text (t.pc + (passThrough s.pc i).size) (passThrough s.pc i)) := by
          rw [← hrel.world]
          exact newStep_of_at hins
        rw [hpc] at hnew hne
        refine matched_exec hn hrel.clean ?_ hnew
        rw [hpc]
        exact execInstr_caller hc.caller hco hrel.frame hne
      | @inlined lits sel rec args res c guardClass callee k hi ht hgr hat hsi =>
        subst hi
        obtain ⟨hsel,hrec,harg,hres⟩ := instrOk_emitSend hok
        have hcan := candidate_of_inlineTarget ht hsel
        obtain ⟨-,hlo,-,hsiz⟩ := inlineTarget_some ht
        have hg : guardAt input s.pc = some guardClass := by rw [guardAt,hsi]; rfl
        have hs : Spliced input s.pc _ sel rec args res guardClass callee := ⟨lits,k,hat,hgr⟩
        by_cases hcl : rt.classOf s.world
            (readOperand input.image rt input.code s.world s.vars rec) = guardClass
        · simp only [enter_emitSend,activate,hg,hcl,hlo,↓reduceIte]
          refine matched_enter hc hrel hs hcan hl hrec hsiz harg hres ?_ hcl
          rw [hpc]
          exact isStart_next hco
        · simp only [enter_emitSend,activate,hg,hcl,↓reduceIte]
          exact matched_fallback hc hrel hs hcan hl hrec hn hco (by rw [hpc]) hcl

theorem matched (hc : Compatible input) (hrel : Related input rt s t) (hf : FreshTemps s) :
    Matched input rt (oldStep input rt s) t := by
  unfold oldStep callStep
  cases ha : s.inner with
  | none => exact matched_outer hc hrel ha
  | some => exact matched_inner hc hrel ha hf

theorem simulation (hc : Compatible input) :
    Simulation (oldStep input rt) (newStep input rt) (Related input rt) FreshTemps where
  next hrel hf h := by
    have hm := matched hc hrel hf
    rw [h] at hm
    exact hm
  halt hrel hf h := by
    have hm := matched hc hrel hf
    rw [h] at hm
    exact hm

theorem related_start (world : W) (hnil : ∀ index, input.code.tempsEnd ≤ index → vars index = rt.nil) :
    Related input rt (callStart world vars) ⟨world,0,vars⟩ := by
  obtain ⟨r,hr⟩ := optimizeFrom_text input (initial input) 0 input.code.bytecodes
  have hat : TextAt input 0 (.label (.orig (0 : ℕ)) :: r) := ⟨[],[],by rw [optimizer,hr]; simp [initial],rfl⟩
  refine ⟨rfl,fun _ _ => rfl,?_,.outer rfl ?_ (labelAt_of_at hat)⟩
  · intro index hpos _
    exact hnil _ (by omega)
  · exact isStart_zero _

variable (input) in
/-- The rewritten method emits what the original method emits and returns what it returns, in
every run whose followed activations use fresh temporaries only. -/
theorem optimizeMethod_preserves {optimized : Optimized} (h : optimizeMethod input = some optimized)
    (hc : Compatible input) (world : W) {vars : Frame V}
    (hnil : ∀ index, input.code.tempsEnd ≤ index → vars index = rt.nil)
    (hfresh : ∀ s, Reaches (oldStep input rt) (callStart world vars) s → FreshTemps s) :
    SameBehaviour (oldStep input rt) (callStart world vars) (step input.image rt optimized.code) ⟨world,0,vars⟩ := by
  have hco : optimized.code = optimizedCode input := by
    unfold optimizeMethod at h
    split at h
    · cases h
    · split at h
      · cases h
      · cases h
        rfl
  rw [hco]
  exact (simulation hc).sameBehaviour (related_start world hnil) hfresh

section Runs

def quietRuntime : Runtime ℕ Unit :=
  { nil := 0
    true := 1
    false := 2
    ofValue := fun v => v.toNat
    ofLiteral := id
    newBlock := fun _ _ _ _ => 0
    classOf := fun _ _ => 10
    instVarAt := fun _ _ _ => 0
    instVarPut := fun _ _ _ _ => ()
    contextVarAt := fun _ _ _ _ => 0
    contextVarPut := fun _ _ _ _ _ => ()
    assocValue := fun _ _ => 0
    assocPut := fun _ _ _ => ()
    send := fun _ _ _ _ _ => none }

def oneTemp (bytecodes : Bytecodes) : CompiledCode :=
  { isBlock := false
    header := ⟨0,1,false,0,0,0⟩
    literals := [30]
    ownerClass := 10
    bytecodes := bytecodes }

def sendTwice (callee : CompiledCode) : Input :=
  { image := .uniform [(20,callee)]
    tierInlineMax := 64
    code :=
      { isBlock := false
        header := ⟨1,0,false,0,0,0⟩
        literals := [20]
        ownerClass := 10
        bytecodes := [.send 0 (.argVar 2) [],.send 0 (.argVar 2) []] }
    oldCells := [.mono 10,.mono 10] }

theorem compatible_sendTwice (h : WellFormed callee) : Compatible (sendTwice callee) where
  caller := by
    constructor
    · intro i hi
      simp only [sendTwice,mem_cons,not_mem_nil,or_false,or_self] at hi
      subst hi
      simp [InstrOk,OperandOk,sendTwice]
    · intro tgt ht
      simp [sendTwice,jumpTargets,targetsOf] at ht
  callees := by
    rintro guardClass callee' ⟨-,⟨sel,hs,hl⟩,-⟩
    obtain rfl : sel = 20 := mem_singleton.mp hs
    obtain rfl : callee = callee' := Option.some.inj hl
    exact h
  shapes _ _ _ _ := rfl
  literals object value _ _ hcmp := by simpa [compareValues,sendTwice,Image.uniform] using hcmp

def remember : CompiledCode := oneTemp [.copy (.tempVar 2) (.assoc 0),.copy (.value 5) (.tempVar 2)]

def store : CompiledCode := oneTemp [.copy (.value 5) (.tempVar 2),.copy (.tempVar 2) (.assoc 0)]

theorem wellFormed_remember : WellFormed remember := by
  constructor
  · intro i hi
    simp only [remember,oneTemp,mem_cons,not_mem_nil,or_false] at hi
    rcases hi with rfl | rfl <;> simp [InstrOk,OperandOk,remember,oneTemp,CompiledCode.tempsEnd]
  · decide

theorem wellFormed_store : WellFormed store := by
  constructor
  · intro i hi
    simp only [store,oneTemp,mem_cons,not_mem_nil,or_false] at hi
    rcases hi with rfl | rfl <;> simp [InstrOk,OperandOk,store,oneTemp,CompiledCode.tempsEnd]
  · decide

/-- The second activation of the inlined callee sees the temporary of the first. -/
theorem optimizeMethod_leaks_temporary : Compatible (sendTwice remember) ∧
    Halts (oldStep (sendTwice remember) quietRuntime) (callStart () fun _ => 0)
      [.storeAssoc 30 0,.storeAssoc 30 0] (.returned 0) ∧
    ∃ optimized, optimizeMethod (sendTwice remember) = some optimized ∧
      Halts (step (sendTwice remember).image quietRuntime optimized.code) ⟨(),0,fun _ => 0⟩
        [.storeAssoc 30 0,.storeAssoc 30 5] (.returned 0) ∧
      ¬SameBehaviour (oldStep (sendTwice remember) quietRuntime) (callStart () fun _ => 0)
        (step (sendTwice remember).image quietRuntime optimized.code) ⟨(),0,fun _ => 0⟩ := by
  have hold : Halts (oldStep (sendTwice remember) quietRuntime) (callStart () fun _ => 0)
      [.storeAssoc 30 0,.storeAssoc 30 0] (.returned 0) := halts_of_run 20 (by decide)
  have hnew : Halts (newStep (sendTwice remember) quietRuntime) ⟨(),0,fun _ => 0⟩
      [.storeAssoc 30 0,.storeAssoc 30 5] (.returned 0) := halts_of_run 20 (by decide)
  refine ⟨compatible_sendTwice wellFormed_remember,hold,_,rfl,hnew,?_⟩
  intro hs
  obtain ⟨he,-⟩ := ((hs.1 _ _).mp hold).unique hnew
  simp at he

theorem optimizeMethod_preserves_store : ∃ optimized, optimizeMethod (sendTwice store) = some optimized ∧
      SameBehaviour (oldStep (sendTwice store) quietRuntime) (callStart () fun _ => 0)
        (step (sendTwice store).image quietRuntime optimized.code) ⟨(),0,fun _ => 0⟩ := by
  have hf : allStates (oldStep (sendTwice store) quietRuntime) FreshTemps 20
      (callStart () fun _ => 0) = true := by decide
  refine ⟨_,rfl,optimizeMethod_preserves _ rfl (compatible_sendTwice wellFormed_store) () (fun _ _ => rfl) ?_⟩
  intro s hs
  exact hs.of_allStates 20 hf

end Runs

end SmalltalkJit.Inlining
