import SmalltalkJit.Jit.FlagGrowth

/-! # The code of one bytecode

At the bytecode of a number, the variables that are in use there have registers
of their own, so that the accessors may be combined. What is live at a number
may still be read by a later bytecode.
-/
namespace SmalltalkJit.Jit
open Assembly Emission List

section Live
variable (alloc : RegsAlloc)

def liveAt (number : ℕ) (v : Var) : Prop := ∃ i ∈ alloc.order, i.var = v ∧ number ≤ i.stop

def Started (number : ℕ) (flags : Flags) : Prop :=
  ∀ index, 1 ≤ index → flags.inReg (.tmp index) = true →
    ∃ i ∈ alloc.order, i.var = .tmp index ∧ i.start ≤ number

variable {alloc} {code : Bytecodes} {number : ℕ} {flags flags' : Flags}

theorem Spans.liveAt (h : Spans alloc.order v a b) : liveAt alloc a v := by
  obtain ⟨i,hi,hvar,-,hst⟩ := h
  exact ⟨i,hi,hvar,hst⟩

theorem Spans.defines (h : Spans alloc.order v a b) : alloc.Defines v := by
  obtain ⟨i,hi,hvar,-,-⟩ := h
  exact ⟨i,hi,hvar⟩

theorem clear_of_spans (hs : alloc.Sound code) (hstarted : Started alloc number flags)
    (hv : Spans alloc.order v number number) : Clear alloc (liveAt alloc number) flags v := by
  intro r k hreg hpos hne hl hin
  obtain ⟨i,hi,hvar,hst⟩ := hstarted k hpos hin
  obtain ⟨j,hj,hvar',hsto⟩ := hl
  obtain rfl := hs.unique i hi j hj (hvar.trans hvar'.symm)
  exact hs.apart v (.tmp k) number r hne.symm hv ⟨i,hi,hvar,hst,hsto⟩ hreg

theorem usable_of_spans (hs : alloc.Sound code) (hstarted : Started alloc number flags)
    (hv : Spans alloc.order v number number) : Usable alloc (liveAt alloc number) flags v :=
  ⟨fun _ _ _ => hv.liveAt,clear_of_spans hs hstarted hv,hv.defines⟩

theorem usable_of_empty (hl : live v) (hd : alloc.Defines v)
    (he : ∀ index, 1 ≤ index → flags.inReg (.tmp index) = false) : Usable alloc live flags v := by
  refine ⟨fun _ _ _ => hl,?_,hd⟩
  intro r index _ hpos _ _ hin
  rw [he index hpos] at hin
  cases hin

theorem Started.grows (h : Started alloc number flags) (hg : Grows vs flags flags')
    (hvs : ∀ v ∈ vs, ∃ i ∈ alloc.order, i.var = v ∧ i.start ≤ number) : Started alloc number flags' := by
  intro k hpos hin
  rcases hg.inReg k hpos hin with hin | hmem
  · exact h k hpos hin
  · exact hvs _ hmem

theorem Started.mono (h : Started alloc number flags) (hle : number ≤ number') : Started alloc number' flags := by
  intro k hpos hin
  obtain ⟨i,hi,hvar,hst⟩ := h k hpos hin
  exact ⟨i,hi,hvar,by omega⟩

theorem Spans.started (h : Spans alloc.order v a b) : ∃ i ∈ alloc.order, i.var = v ∧ i.start ≤ b := by
  obtain ⟨i,hi,hvar,hst,-⟩ := h
  exact ⟨i,hi,hvar,hst⟩

end Live

section Operands
variable {V : Type} {nil : V} {alloc : RegsAlloc} {code : Bytecodes} {number : ℕ} {reads : ℕ → Prop}
variable {flags : Flags} {s : MachineState V} {operand source dest : Operand}

structure Fits (alloc : RegsAlloc) (operand : Operand) : Prop where
  assoc : ∀ index, operand = .assoc index → index < 256
  frame : alloc.frameLess = false ∨ (needsFrame operand = false ∧ isInstVarOf operand = false)

structure InUse (alloc : RegsAlloc) (number : ℕ) (operand : Operand) : Prop extends Fits alloc operand where
  spans : ∀ v ∈ examined operand, Spans alloc.order v number number

theorem InUse.ready (h : InUse alloc number operand) (hs : alloc.Sound code)
    (hstarted : Started alloc number flags) : Ready alloc (liveAt alloc number) flags operand :=
  ⟨fun v hv => usable_of_spans hs hstarted (h.spans v hv),h.assoc,h.frame⟩

theorem InUse.started (h : InUse alloc number operand) (hstarted : Started alloc number flags)
    (hg : Grows (examined operand) flags flags') : Started alloc number flags' :=
  hstarted.grows hg fun v hv => (h.spans v hv).started

section
variable (hs : alloc.Sound code) (h : Tracks nil alloc (liveAt alloc number) reads flags s)
  (hstarted : Started alloc number flags)
include hs h hstarted

theorem copyToVar_safe (hso : InUse alloc number source)
    (hd : Spans alloc.order (.tmp index) number number) (hr : ∀ j, 1 ≤ j → .tmp j ∈ examined source → reads j) :
    Keeps nil alloc (liveAt alloc number) reads (copyToVar alloc source index) flags s := by
  have hmov := fun r => movOperand_safe hs h (hso.ready hs hstarted) hr r
  unfold Keeps copyToVar
  cases hreg : alloc.reg (.tmp index) with
  | none =>
    refine Safe.andThen ((hmov .rax).mono fun t ht => ?_)
    simp only [Emitter.andThen,emit,track,append_nil,safe_write,safe_spill,safe_nil]
    exact (ht.unclobber hs (by decide)).storeSlot hs hreg hd.defines
  | some r =>
    refine Safe.andThen ((hmov r).mono fun t ht => ?_)
    simp only [Emitter.andThen,emit,track,spillVar,hreg,singleton_append,nil_append,safe_write,safe_spill,safe_nil]
    have hc := clear_of_spans hs (hso.started hstarted (@movOperand_grows alloc r source flags)) hd
    have hst := ht.store (x := t.regs r) hs hreg hc hd.defines
    simpa [MachineState.setVar] using hst

theorem generateCopy_safe (hso : InUse alloc number source) (hd : InUse alloc number dest)
    (hr : ∀ j, 1 ≤ j → .tmp j ∈ examined source → reads j) (hr' : ∀ j ∈ holders dest, reads j) :
    Keeps nil alloc (liveAt alloc number) reads (generateCopy alloc source dest) flags s := by
  -- a variable is used in the register that stands for it, everything else is moved to `rax`
  have hvar : ∀ k, source = .tempVar k ∨ source = .argVar k → Keeps nil alloc (liveAt alloc number) reads
      ((copySource alloc (.tmp k)).andThen (movToOperand alloc (alloc.regOr (.tmp k) .rax) dest)) flags s := by
    intro k hi
    have he : examined source = [.tmp k] := by rcases hi with rfl | rfl <;> rfl
    have hmem : .tmp k ∈ examined source := by simp [he]
    refine Safe.andThen ((copySource_safe hs h (usable_of_spans hs hstarted (hso.spans _ hmem))
      (reads_of_examined hr hmem)).mono fun t ht => ?_)
    have hg := @copySource_grows alloc _ _ (Or.inl hmem) flags
    exact movToOperand_safe hs ht (hd.ready hs (hso.started hstarted hg)) hr' _
  have ho : Keeps nil alloc (liveAt alloc number) reads (((movOperand alloc .rax source).andThen (movToOperand alloc .rax dest))) flags s := by
    refine Safe.andThen ((movOperand_safe hs h (hso.ready hs hstarted) hr .rax).mono fun t ht => ?_)
    have hg := @movOperand_grows alloc .rax source flags
    exact movToOperand_safe hs (ht.unclobber hs (by decide)) (hd.ready hs (hso.started hstarted hg)) hr' _
  unfold Keeps generateCopy
  split
  · exact hvar _ (Or.inl rfl)
  · exact hvar _ (Or.inr rfl)
  · split
    · exact copyToVar_safe hs h hstarted hso (hd.spans _ mem_cons_self) hr
    · exact ho

theorem generateSendCode_safe (hf : alloc.frameLess = false)
    (hi : ∀ operand ∈ receiver :: args, InUse alloc number operand)
    (hr : ∀ operand ∈ receiver :: args, ∀ j, 1 ≤ j → .tmp j ∈ examined operand → reads j) :
    Keeps nil alloc (liveAt alloc number) reads (generateSendCode alloc receiver args) flags s := by
  have hp : Triple (machine nil) SafeChoice
      (fun flags s => Tracks nil alloc (liveAt alloc number) reads flags s ∧ Started alloc number flags)
      (emitAll (pushOperand alloc) args)
      (fun flags s => Tracks nil alloc (liveAt alloc number) reads flags s ∧ Started alloc number flags) := by
    refine Triple.emitAll ?_
    rintro arg harg flags s ⟨h,hstarted⟩
    have hmem := mem_cons_of_mem receiver harg
    refine (pushOperand_safe hs h ((hi arg hmem).ready hs hstarted) (hr arg hmem) hf).mono ?_
    exact fun t ht => ⟨ht,(hi arg hmem).started hstarted (pushOperand_grows arg flags)⟩
  refine Safe.andThen ((hp flags s ⟨h,hstarted⟩).mono ?_)
  rintro t ⟨ht,hst'⟩
  refine Safe.andThen ((movOperand_safe hs ht ((hi receiver mem_cons_self).ready hs hst')
    (hr receiver mem_cons_self) .tmp).mono fun t' ht' => ?_)
  refine safe_call fun regs => ?_
  exact (ht'.mono fun _ _ hl => hl.elim).forget hf regs

end

end Operands

section Instructions
variable {gen : CodeGenerator} {i : Instr ℤ}

theorem CodeGenerator.sound (gen : CodeGenerator) : gen.alloc.Sound gen.code.bytecodes :=
  computeRegsAlloc_sound _ (take_sublist _ _)

theorem Compilable.fits (h : Compilable gen) (hi : i ∈ gen.code.bytecodes) :
    ∀ operand ∈ operandsOf i, Fits gen.alloc operand := by
  intro operand hmem
  refine ⟨fun k heq => h.assocs i hi k (heq ▸ hmem),?_⟩
  cases hf : gen.alloc.frameLess with
  | false => exact Or.inl rfl
  | true =>
    refine Or.inr ⟨?_,(h.straight hf i hi).2 operand hmem⟩
    refine Bool.eq_false_iff.mpr fun hn => ?_
    have hfa := gen.sound.framed i hi (Or.inr ⟨operand,hmem,hn⟩)
    rw [hf] at hfa
    cases hfa

theorem Compilable.inUse (h : Compilable gen) (hc : gen.code.bytecodes = pre ++ i :: post) :
    ∀ operand ∈ usedOperands i, InUse gen.alloc pre.length operand := by
  intro operand hmem
  have hi : i ∈ gen.code.bytecodes := by simp [hc]
  exact ⟨h.fits hi operand (mem_append_left _ hmem),gen.sound.used pre i post hc operand hmem⟩

theorem Compilable.framed_of_jump (h : Compilable gen) (hi : i ∈ gen.code.bytecodes)
    (hj : isJump i = true) : gen.alloc.frameLess = false := by
  cases hf : gen.alloc.frameLess with
  | false => rfl
  | true =>
    rw [(h.straight hf i hi).1] at hj
    cases hj

end Instructions

end SmalltalkJit.Jit
