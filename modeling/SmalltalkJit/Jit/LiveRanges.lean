import SmalltalkJit.Jit.RegisterAllocator

/-! # What the allocator guarantees

The scan gives every variable one range, sorted by start, and one frame slot of
its own; what it has seen stays covered while it goes on. With the invariant of
linear scan this makes any two variables that are in use at one bytecode live in
different registers.
-/
namespace SmalltalkJit.Jit
open List LinearScan

def Spans (order : List Interval) (v : Var) (a b : ℕ) : Prop := ∃ i ∈ order, i.var = v ∧ i.start ≤ b ∧ a ≤ i.stop

def examined : Operand → List Var
  | .tempVar index | .argVar index => [.tmp index]
  | .super | .instVar _ => [.tmp selfIndex]
  | .contextVar _ level => [contextVar level]
  | .assoc index => [.assoc index]
  | .block _ => [.tmp selfIndex,.tmp contextIndex]
  | .instVarOf _ inst => [.tmp (instanceIndex inst)]
  | .value _ | .nil | .true | .false | .thisContext | .literal _ => []

def needsFrame : Operand → Bool
  | .contextVar _ _ | .block _ => true
  | _ => false

@[simp] def usedOperands : Instr ℤ → List Operand
  | .copy source dest => [source,dest]
  | .send _ receiver args | .sendWithStore _ receiver args _ => receiver :: args
  | .ret operand | .outerReturn operand | .jumpNotMemberOf _ operand _ => [operand]
  | .jump _ => []

def resultOperands : Instr ℤ → List Operand
  | .sendWithStore _ _ _ result => [result]
  | _ => []

def calls : Instr ℤ → Bool
  | .send _ _ _ | .sendWithStore _ _ _ _ | .outerReturn _ => true
  | _ => false

section WellFormed
variable {argsSize time offset : ℕ} {vars vars' vars'' : Vars} {v w : Var}

/-- One range and one slot for each variable, in the order of the starts. -/
structure Vars.Wf (argsSize time : ℕ) (vars : Vars) : Prop where
  nodup : (vars.order.map fun i => i.var).Nodup
  sorted : vars.order.Pairwise fun i j => i.start ≤ j.start
  started : ∀ i ∈ vars.order, i.start ≤ time
  slots : ∀ i ∈ vars.order, ∀ j ∈ vars.order, hasSlot i.var = true → hasSlot j.var = true →
    i.frameOffset = j.frameOffset → i.var = j.var
  below : ∀ i ∈ vars.order, hasSlot i.var = true → vars.frameSize < i.frameOffset
  room : vars.frameSize ≤ -3
  args : ∀ i ∈ vars.order, ∀ index, i.var = .tmp index → 1 ≤ index → index ≤ argsSize+1 →
    i.frameOffset = index-1
  context : ∀ i ∈ vars.order, i.var = .tmp contextIndex → i.frameOffset = -2
  temps : ∀ i ∈ vars.order, ∀ index, i.var = .tmp index → argsSize+1 < index → i.frameOffset ≤ -3
  defined : ∀ index ≤ argsSize+1, ∃ i ∈ vars.order, i.var = .tmp index

/-- What later mentions, from `time` on, leave of the ranges so far. -/
structure Vars.Extends (time : ℕ) (vars vars' : Vars) : Prop where
  kept : ∀ i ∈ vars.order, ∃ j ∈ vars'.order, j.var = i.var ∧ j.start = i.start ∧
    (j.stop = i.stop ∨ time ≤ j.stop)
  framed : vars.frameLess = false → vars'.frameLess = false

theorem Vars.Extends.refl : Vars.Extends time vars vars := ⟨fun i hi => ⟨i,hi,rfl,rfl,Or.inl rfl⟩,id⟩

theorem Vars.Extends.trans (h : Vars.Extends time vars vars') (h' : Vars.Extends offset vars' vars'')
    (hle : time ≤ offset) : Vars.Extends time vars vars'' := by
  refine ⟨?_,h'.framed ∘ h.framed⟩
  intro i hi
  obtain ⟨j,hj,hvar,hs,hst⟩ := h.kept i hi
  obtain ⟨k,hk,hvar',hs',hst'⟩ := h'.kept j hj
  refine ⟨k,hk,hvar'.trans hvar,hs'.trans hs,?_⟩
  omega

theorem Spans.extends (h : Spans vars.order v a b) (h' : Vars.Extends time vars vars')
    (hle : a ≤ time) : Spans vars'.order v a b := by
  obtain ⟨i,hi,hvar,hs,hst⟩ := h
  obtain ⟨j,hj,hvar',hs',hst'⟩ := h'.kept i hi
  exact ⟨j,hj,hvar'.trans hvar,by omega,by omega⟩

theorem Spans.mono (h : Spans order v a b) (ha : a' ≤ a) (hb : b ≤ b') : Spans order v a' b' := by
  obtain ⟨i,hi,hvar,hs,hst⟩ := h
  exact ⟨i,hi,hvar,by omega,by omega⟩

theorem Vars.find_none (h : vars.find v = none) : ∀ i ∈ vars.order, i.var ≠ v := by
  intro i hi heq
  have := List.find?_eq_none.mp h i hi
  simp [heq] at this

theorem Vars.find_some (h : vars.find v = some i) : i ∈ vars.order ∧ i.var = v :=
  ⟨mem_of_find?_eq_some h,by simpa using List.find?_some h⟩

theorem moveEnd_eq (v : Var) (offset : ℕ) (i : Interval) :
    (if i.var = v then { i with stop := offset } else i).var = i.var ∧
    (if i.var = v then { i with stop := offset } else i).start = i.start ∧
    (if i.var = v then { i with stop := offset } else i).frameOffset = i.frameOffset := by
  split <;> exact ⟨rfl,rfl,rfl⟩

theorem Vars.define_extends (hle : time ≤ offset) : Vars.Extends time vars (vars.define v offset) := by
  unfold Vars.define
  split
  · refine ⟨?_,id⟩
    intro i hi
    refine ⟨_,mem_map_of_mem hi,(moveEnd_eq v offset i).1,(moveEnd_eq v offset i).2.1,?_⟩
    split
    · exact Or.inr hle
    · exact Or.inl rfl
  · exact ⟨fun i hi => ⟨i,mem_append_left _ hi,rfl,rfl,Or.inl rfl⟩,id⟩

theorem Vars.define_frameLess : (vars.define v offset).frameLess = vars.frameLess := by
  unfold Vars.define
  split <;> rfl

section
variable (h : Vars.Wf argsSize time vars) (hle : time ≤ offset)
include h hle

theorem Vars.Wf.spans_define : Spans (vars.define v offset).order v offset offset := by
  unfold Vars.define
  cases hf : vars.find v with
  | some i =>
    obtain ⟨hi,hvar⟩ := Vars.find_some hf
    have hs := h.started i hi
    exact ⟨_,mem_map_of_mem hi,by simp [hvar],by simp [hvar]; omega,by simp [hvar]⟩
  | none => exact ⟨_,mem_append_right _ mem_cons_self,rfl,Nat.le_refl _,Nat.le_refl _⟩

theorem Vars.Wf.map (hf : ∀ i, (f i).var = i.var ∧ (f i).start = i.start ∧ (f i).frameOffset = i.frameOffset) :
    Vars.Wf argsSize offset { vars with order := vars.order.map f } := by
  have hvar : ∀ i, (f i).var = i.var := fun i => (hf i).1
  have hs : ∀ i, (f i).start = i.start := fun i => (hf i).2.1
  have ho : ∀ i, (f i).frameOffset = i.frameOffset := fun i => (hf i).2.2
  constructor
  · simpa [map_map,Function.comp_def,hvar] using h.nodup
  · simpa [pairwise_map,hs] using h.sorted
  · intro i hi
    obtain ⟨j,hj,rfl⟩ := mem_map.mp hi
    exact hs j ▸ Nat.le_trans (h.started j hj) hle
  · intro i hi j hj
    obtain ⟨i',hi',rfl⟩ := mem_map.mp hi
    obtain ⟨j',hj',rfl⟩ := mem_map.mp hj
    rw [hvar,hvar,ho,ho]
    exact h.slots i' hi' j' hj'
  · intro i hi
    obtain ⟨j,hj,rfl⟩ := mem_map.mp hi
    rw [hvar,ho]
    exact h.below j hj
  · exact h.room
  · intro i hi
    obtain ⟨j,hj,rfl⟩ := mem_map.mp hi
    rw [hvar,ho]
    exact h.args j hj
  · intro i hi
    obtain ⟨j,hj,rfl⟩ := mem_map.mp hi
    rw [hvar,ho]
    exact h.context j hj
  · intro i hi
    obtain ⟨j,hj,rfl⟩ := mem_map.mp hi
    rw [hvar,ho]
    exact h.temps j hj
  · intro k hin
    obtain ⟨i,hi,heq⟩ := h.defined k hin
    exact ⟨f i,mem_map_of_mem hi,(hvar i).trans heq⟩

theorem Vars.Wf.append (hnew : ∀ i ∈ vars.order, i.var ≠ v) : Vars.Wf argsSize offset
      { vars with
        order := vars.order ++ [⟨⟨v,offset,offset⟩,if hasSlot v then vars.frameSize else 0⟩]
        frameSize := if hasSlot v then vars.frameSize-1 else vars.frameSize } := by
  have hl : (if hasSlot v then vars.frameSize-1 else vars.frameSize) ≤ vars.frameSize := by split <;> omega
  have hr := h.room
  have hlo : ∀ index, v = .tmp index → argsSize+1 < index := by
    intro index hv
    by_contra hlt
    obtain ⟨i,hi,hvar⟩ := h.defined index (by omega)
    exact hnew i hi (hvar.trans hv.symm)
  constructor
  · rw [map_append,nodup_append]
    refine ⟨h.nodup,by simp,?_⟩
    intro a ha b hb
    obtain ⟨i,hi,rfl⟩ := mem_map.mp ha
    obtain rfl : b = v := by simpa using hb
    exact hnew i hi
  · refine pairwise_append.mpr ⟨h.sorted,by simp,?_⟩
    intro i hi j hj
    obtain rfl := mem_singleton.mp hj
    exact Nat.le_trans (h.started i hi) hle
  · refine forall_mem_append.mpr ⟨fun i hi => ?_,forall_mem_singleton.mpr (Nat.le_refl _)⟩
    exact Nat.le_trans (h.started i hi) hle
  · intro i hi j hj hsi hsj heq
    rcases mem_append.mp hi with hi | hi <;> rcases mem_append.mp hj with hj | hj
    · exact h.slots i hi j hj hsi hsj heq
    · obtain rfl := mem_singleton.mp hj
      have hlt := h.below i hi hsi
      rw [heq,if_pos hsj] at hlt
      exact absurd hlt (Int.lt_irrefl _)
    · obtain rfl := mem_singleton.mp hi
      have hlt := h.below j hj hsj
      rw [← heq,if_pos hsi] at hlt
      exact absurd hlt (Int.lt_irrefl _)
    · rw [mem_singleton.mp hi,mem_singleton.mp hj]
  · refine forall_mem_append.mpr ⟨fun i hi hs => ?_,forall_mem_singleton.mpr fun hs => ?_⟩
    · exact Int.lt_of_le_of_lt hl (h.below i hi hs)
    · simp only [show hasSlot v = true from hs,↓reduceIte]
      omega
  · exact Int.le_trans hl hr
  · refine forall_mem_append.mpr ⟨h.args,forall_mem_singleton.mpr fun index hvar hpos hin => ?_⟩
    exact absurd (hlo index hvar) (by omega)
  · refine forall_mem_append.mpr ⟨h.context,forall_mem_singleton.mpr fun hvar => ?_⟩
    exact absurd (hlo contextIndex hvar) (by simp [contextIndex])
  · refine forall_mem_append.mpr ⟨h.temps,forall_mem_singleton.mpr fun index hvar hin => ?_⟩
    obtain rfl : v = .tmp index := hvar
    simpa [hasSlot] using hr
  · intro index hin
    obtain ⟨i,hi,hvar⟩ := h.defined index hin
    exact ⟨i,mem_append_left _ hi,hvar⟩

theorem Vars.Wf.define : Vars.Wf argsSize offset (vars.define v offset) := by
  unfold Vars.define
  cases hf : vars.find v with
  | some => exact h.map hle (moveEnd_eq v offset)
  | none => exact h.append hle (Vars.find_none hf)

theorem Vars.Wf.mono : Vars.Wf argsSize offset vars :=
  { h with started := fun i hi => Nat.le_trans (h.started i hi) hle }

end

theorem Vars.Wf.needFrame (h : Vars.Wf argsSize time vars) :
    Vars.Wf argsSize time { vars with frameLess := false } := { h with }

theorem Vars.needFrame_extends : Vars.Extends time vars { vars with frameLess := false } :=
  ⟨fun i hi => ⟨i,hi,rfl,rfl,Or.inl rfl⟩,fun _ => rfl⟩

/-- What a part of the scan that stands at `offset` does with the variables `vs` it mentions. -/
structure Mentions (argsSize offset : ℕ) (vs : List Var) (vars vars' : Vars) : Prop where
  wf : Vars.Wf argsSize offset vars'
  keeps : Vars.Extends offset vars vars'
  spans : ∀ v ∈ vs, Spans vars'.order v offset offset

theorem Mentions.refl (h : Vars.Wf argsSize offset vars) : Mentions argsSize offset [] vars vars :=
  ⟨h,Vars.Extends.refl,by simp⟩

theorem Mentions.trans (h : Mentions argsSize offset vs vars vars')
    (h' : Mentions argsSize offset vs' vars' vars'') : Mentions argsSize offset (vs ++ vs') vars vars'' := by
  refine ⟨h'.wf,h.keeps.trans h'.keeps (Nat.le_refl _),?_⟩
  intro v hv
  rcases mem_append.mp hv with hv | hv
  · exact (h.spans v hv).extends h'.keeps (Nat.le_refl _)
  · exact h'.spans v hv

theorem Mentions.subset (h : Mentions argsSize offset vs vars vars')
    (hsub : ∀ v ∈ vs', v ∈ vs) : Mentions argsSize offset vs' vars vars' :=
  ⟨h.wf,h.keeps,fun v hv => h.spans v (hsub v hv)⟩

section
variable (h : Vars.Wf argsSize offset vars)
include h

theorem Mentions.needFrame : Mentions argsSize offset [] vars { vars with frameLess := false } :=
  ⟨h.needFrame,Vars.needFrame_extends,by simp⟩

theorem define_mentions (v : Var) : Mentions argsSize offset [v] vars (vars.define v offset) := by
  refine ⟨h.define (Nat.le_refl _),Vars.define_extends (Nat.le_refl _),?_⟩
  intro w hw
  obtain rfl := mem_singleton.mp hw
  exact h.spans_define (Nat.le_refl _)

theorem defineContext_mentions (level : ℕ) :
    Mentions argsSize offset [contextVar level] vars (defineContext vars level offset) := by
  unfold defineContext
  split
  · exact define_mentions h _
  · have hown := define_mentions h (.tmp contextIndex)
    exact (hown.trans (define_mentions hown.wf _)).subset (by simp)

theorem examineOperand_mentions (operand : Operand) :
    Mentions argsSize offset (examined operand) vars (examineOperand vars offset operand) := by
  cases operand with
  | tempVar | argVar | super | instVar | assoc | instVarOf => exact define_mentions h _
  | contextVar _ l =>
    have hf := Mentions.needFrame h
    exact hf.trans (defineContext_mentions hf.wf l)
  | block =>
    have hf := Mentions.needFrame h
    have hs := hf.trans (define_mentions hf.wf (.tmp selfIndex))
    exact hs.trans (defineContext_mentions hs.wf 0)
  | _ => exact Mentions.refl h

theorem examineOperands_mentions (operands : List Operand) :
    Mentions argsSize offset (operands.flatMap examined) vars (examineOperands vars offset operands) := by
  induction operands generalizing vars with
  | nil => exact Mentions.refl h
  | cons op _ ih =>
    have hf := examineOperand_mentions h op
    exact hf.trans (ih hf.wf)

end

theorem defineContext_frameLess (level : ℕ) : (defineContext vars level offset).frameLess = vars.frameLess := by
  unfold defineContext
  split <;> simp only [Vars.define_frameLess]

theorem examineOperand_framed (h : needsFrame operand = true) :
    (examineOperand vars offset operand).frameLess = false := by
  cases operand with
  | contextVar => rw [examineOperand,defineContext_frameLess]
  | block => rw [examineOperand,defineContext_frameLess,Vars.define_frameLess]
  | _ => cases h

theorem examineOperands_framed (h : Vars.Wf argsSize offset vars) (hmem : operand ∈ operands) (hn : needsFrame operand = true) :
    (examineOperands vars offset operands).frameLess = false := by
  induction operands generalizing vars with
  | nil => cases hmem
  | cons first r ih =>
    have hf := examineOperand_mentions h first
    rcases mem_cons.mp hmem with rfl | hmem
    · exact (examineOperands_mentions hf.wf r).keeps.framed (examineOperand_framed hn)
    · exact ih hf.wf hmem

end WellFormed

section Scan
variable {argsSize number : ℕ} {vars : Vars}

structure Scanned (argsSize number : ℕ) (vars vars' : Vars) (i : Instr ℤ) : Prop where
  wf : Vars.Wf argsSize (number+1) vars'
  keeps : Vars.Extends number vars vars'
  used : ∀ operand ∈ usedOperands i, ∀ v ∈ examined operand, Spans vars'.order v number number
  results : ∀ operand ∈ resultOperands i, ∀ v ∈ examined operand,
    Spans vars'.order v (number+1) (number+1)
  framed : (calls i = true ∨
    ∃ operand ∈ usedOperands i ++ resultOperands i, needsFrame operand = true) → vars'.frameLess = false

theorem Scanned.of_mentions (h : Mentions argsSize number ((usedOperands i).flatMap examined) vars vars')
    (hr : resultOperands i = []) (hca : calls i = true → vars'.frameLess = false)
    (ho : ∀ operand ∈ usedOperands i, needsFrame operand = true → vars'.frameLess = false) :
    Scanned argsSize number vars vars' i := by
  refine ⟨h.wf.mono (Nat.le_succ _),h.keeps,?_,by simp [hr],?_⟩
  · intro operand hmem v hv
    exact h.spans v (mem_flatMap.mpr ⟨operand,hmem,hv⟩)
  · rintro (hc | ⟨operand,hmem,hn⟩)
    · exact hca hc
    · rw [hr,append_nil] at hmem
      exact ho operand hmem hn

theorem examineOperands_scanned (h : Vars.Wf argsSize number vars) (i : Instr ℤ) (hr : resultOperands i = [])
    (hc : calls i = false) : Scanned argsSize number vars (examineOperands vars number (usedOperands i)) i :=
  .of_mentions (examineOperands_mentions h _) hr (by simp [hc])
    fun _ hmem hn => examineOperands_framed h hmem hn

theorem examineOperands_scanned_call (h : Vars.Wf argsSize number vars) (i : Instr ℤ) (hr : resultOperands i = []) :
    Scanned argsSize number vars (examineOperands { vars with frameLess := false } number (usedOperands i)) i := by
  have hf := Mentions.needFrame h
  have ho := examineOperands_mentions hf.wf (usedOperands i)
  exact .of_mentions (hf.trans ho) hr (fun _ => ho.keeps.framed rfl)
    fun _ _ _ => ho.keeps.framed rfl

theorem scanInstr_scanned (h : Vars.Wf argsSize number vars) (i : Instr ℤ) :
    Scanned argsSize number vars (scanInstr vars number i) i := by
  cases i with
  | copy src d => exact examineOperands_scanned h (.copy src d) rfl rfl
  | send sel rec args => exact examineOperands_scanned_call h (.send sel rec args) rfl
  | sendWithStore sel rec args res =>
    have hf := Mentions.needFrame h
    have hu := examineOperands_mentions hf.wf (rec :: args)
    have hr := examineOperand_mentions (hu.wf.mono (Nat.le_succ number)) res
    have hfr : (scanInstr vars number (.sendWithStore sel rec args res)).frameLess =
        false := hr.keeps.framed (hu.keeps.framed rfl)
    refine ⟨hr.wf,(hf.trans hu).keeps.trans hr.keeps (Nat.le_succ _),?_,?_,fun _ => hfr⟩
    · intro op hmem v hv
      exact (hu.spans v (mem_flatMap.mpr ⟨op,hmem,hv⟩)).extends hr.keeps (Nat.le_succ _)
    · intro op hmem v hv
      obtain rfl := mem_singleton.mp hmem
      exact hr.spans v hv
  | ret op => exact examineOperands_scanned h (.ret op) rfl rfl
  | outerReturn op => exact examineOperands_scanned_call h (.outerReturn op) rfl
  | jump displacement => exact examineOperands_scanned h (.jump displacement) rfl rfl
  | jumpNotMemberOf cl op displacement =>
    exact examineOperands_scanned h (.jumpNotMemberOf cl op displacement) rfl rfl

theorem scanFrom_append (pre rest : Bytecodes) : scanFrom vars number (pre ++ rest) =
      scanFrom (scanFrom vars number pre) (number + pre.length) rest := by
  induction pre generalizing vars number with
  | nil => rfl
  | cons i pre ih =>
    have hl : number + (i :: pre).length = number+1 + pre.length := by rw [length_cons]; omega
    rw [hl]
    exact ih

theorem scanFrom_scanned (h : Vars.Wf argsSize number vars) (code : Bytecodes) :
    Vars.Wf argsSize (number + code.length) (scanFrom vars number code) ∧
      Vars.Extends number vars (scanFrom vars number code) := by
  induction code generalizing vars number with
  | nil => exact ⟨h,Vars.Extends.refl⟩
  | cons i r ih =>
    have hi := scanInstr_scanned h i
    obtain ⟨hwf,hk⟩ := ih hi.wf
    have hl : number + (i :: r).length = number+1 + r.length := by rw [length_cons]; omega
    exact ⟨hl ▸ hwf,hi.keeps.trans hk (Nat.le_succ _)⟩

theorem scanCode_extends (code : Bytecodes) :
    Vars.Extends (code.length-1) (scanFrom vars 0 code) (scanCode vars code) := by
  unfold scanCode
  split
  · exact Vars.Extends.refl
  · exact Vars.define_extends (Nat.le_refl _)

theorem scanCode_wf (h : Vars.Wf argsSize 0 vars) (code : Bytecodes) :
    ∃ time, Vars.Wf argsSize time (scanCode vars code) := by
  have hwf := (scanFrom_scanned h code).1
  unfold scanCode
  split
  · exact ⟨_,hwf⟩
  · unfold Vars.define
    cases hf : (scanFrom vars 0 code).find (.tmp selfIndex) with
    | some => exact ⟨_,hwf.map (Nat.le_refl _) (moveEnd_eq _ _)⟩
    | none =>
      obtain ⟨i,hi,hvar⟩ := hwf.defined selfIndex (by simp [selfIndex])
      exact absurd hvar (Vars.find_none hf i hi)

theorem scanCode_scanned (h : Vars.Wf argsSize 0 vars)
    (hc : code = pre ++ i :: post) : (∀ operand ∈ usedOperands i, ∀ v ∈ examined operand,
      Spans (scanCode vars code).order v pre.length pre.length) ∧
    (∀ operand ∈ resultOperands i, ∀ v ∈ examined operand,
      Spans (scanCode vars code).order v pre.length (pre.length+1)) ∧
    ((calls i = true ∨ ∃ operand ∈ usedOperands i ++ resultOperands i, needsFrame operand = true) →
      (scanCode vars code).frameLess = false) := by
  have hpre := (scanFrom_scanned h pre).1
  rw [Nat.zero_add] at hpre
  have hi := scanInstr_scanned hpre i
  have hr : Vars.Extends (pre.length+1) (scanInstr (scanFrom vars 0 pre) pre.length i) (scanFrom vars 0 code) := by
    rw [hc,scanFrom_append,Nat.zero_add]
    exact (scanFrom_scanned hi.wf post).2
  have hla : Vars.Extends (code.length-1) (scanFrom vars 0 code) (scanCode vars code) := scanCode_extends code
  have hl : pre.length ≤ code.length-1 := by
    rw [hc,length_append,length_cons]
    omega
  refine ⟨?_,?_,fun hn => hla.framed (hr.framed (hi.framed hn))⟩
  · intro operand hmem v hv
    exact ((hi.used operand hmem v hv).extends hr (Nat.le_succ _)).extends hla hl
  · intro operand hmem v hv
    exact (((hi.results operand hmem v hv).extends hr (Nat.le_refl _)).mono (Nat.le_succ _)
      (Nat.le_refl _)).extends hla hl

theorem scanCode_spans_self (h : Vars.Wf argsSize 0 vars) (hr : code.any isReturn = false) :
    ∃ i ∈ (scanCode vars code).order, i.var = .tmp selfIndex ∧ code.length-1 ≤ i.stop := by
  have hwf := (scanFrom_scanned h code).1
  unfold scanCode
  rw [hr]
  obtain ⟨j,hj,hvar⟩ := hwf.defined selfIndex (by simp [selfIndex])
  unfold Vars.define
  cases hf : (scanFrom vars 0 code).find (.tmp selfIndex) with
  | none => exact absurd hvar (Vars.find_none hf j hj)
  | some => exact ⟨_,mem_map_of_mem hj,by simp [hvar],by simp [hvar]⟩

theorem mem_initialVars : i ∈ (initialVars argsSize).order ↔
      (∃ k ≤ argsSize, i = ⟨⟨.tmp (k+1),0,0⟩,(k : ℤ)⟩) ∨ i = ⟨⟨.tmp contextIndex,0,0⟩,-2⟩ := by
  simp only [initialVars,mem_append,mem_map,mem_reverse,mem_range,mem_singleton,Nat.lt_succ_iff]
  constructor
  · rintro (⟨k,hk,rfl⟩ | rfl)
    · exact Or.inl ⟨k,hk,rfl⟩
    · exact Or.inr rfl
  · rintro (⟨k,hk,rfl⟩ | rfl)
    · exact Or.inl ⟨k,hk,rfl⟩
    · exact Or.inr rfl

theorem initialVars_start (h : i ∈ (initialVars argsSize).order) : i.start = 0 := by
  rcases mem_initialVars.mp h with ⟨k,-,rfl⟩ | rfl <;> rfl

theorem initialVars_wf (argsSize : ℕ) : Vars.Wf argsSize 0 (initialVars argsSize) := by
  constructor
  · have hv : (initialVars argsSize).order.map (fun i => i.var) =
        ((List.range (argsSize+1)).reverse.map fun i => Var.tmp (i+1)) ++ [.tmp contextIndex] := by
      simp [initialVars,Function.comp_def]
    rw [hv,nodup_append]
    refine ⟨List.Nodup.map ?_ (nodup_reverse.mpr nodup_range),by simp,?_⟩
    · intro a b hab
      injection hab with hab
      omega
    · intro a ha b hb
      obtain ⟨k,-,rfl⟩ := mem_map.mp ha
      rw [mem_singleton.mp hb]
      simp [contextIndex]
  · refine List.Pairwise.imp_of_mem ?_ (pairwise_of_forall fun _ _ => trivial)
    intro i j hi hj _
    exact Nat.le_of_eq ((initialVars_start hi).trans (initialVars_start hj).symm)
  · intro i hi
    exact Nat.le_of_eq (initialVars_start hi)
  · intro i hi j hj _ _ heq
    rcases mem_initialVars.mp hi with ⟨k,-,rfl⟩ | rfl <;>
      rcases mem_initialVars.mp hj with ⟨m,-,rfl⟩ | rfl
    · obtain rfl : k = m := Int.natCast_inj.mp heq
      rfl
    · simp only at heq
      omega
    · simp only at heq
      omega
    · rfl
  · intro i hi _
    rcases mem_initialVars.mp hi with ⟨k,-,rfl⟩ | rfl
    · exact Int.lt_of_lt_of_le (by decide : (-3 : ℤ) < 0) (Int.natCast_nonneg k)
    · exact (by decide : (-3 : ℤ) < -2)
  · simp [initialVars]
  · intro i hi index hvar hpos hle
    rcases mem_initialVars.mp hi with ⟨k,-,rfl⟩ | rfl
    · obtain rfl : k+1 = index := by simpa using hvar
      simp
    · obtain rfl : 0 = index := by simpa [contextIndex] using hvar
      omega
  · intro i hi hvar
    rcases mem_initialVars.mp hi with ⟨k,-,rfl⟩ | rfl
    · simp [contextIndex] at hvar
    · rfl
  · intro i hi index hvar hlt
    rcases mem_initialVars.mp hi with ⟨k,hk,rfl⟩ | rfl
    · obtain rfl : k+1 = index := by simpa using hvar
      omega
    · obtain rfl : 0 = index := by simpa [contextIndex] using hvar
      omega
  · intro index hin
    cases index with
    | zero => exact ⟨_,mem_initialVars.mpr (Or.inr rfl),rfl⟩
    | succ k => exact ⟨_,mem_initialVars.mpr (Or.inl ⟨k,by omega,rfl⟩),rfl⟩

end Scan

section Sound

def RegsAlloc.Defines (alloc : RegsAlloc) (v : Var) : Prop := ∃ i ∈ alloc.order, i.var = v

/-- What the code generator relies on. -/
structure RegsAlloc.Sound (alloc : RegsAlloc) (code : Bytecodes) : Prop where
  pool : ∀ v r, alloc.reg v = some r →
    (v = .tmp contextIndex ∧ r = .ctx) ∨ (v ≠ .tmp contextIndex ∧ r ∈ availableRegs)
  apart : ∀ v w number r, v ≠ w → Spans alloc.order v number number →
    Spans alloc.order w number number → alloc.reg v = some r → alloc.reg w ≠ some r
  unique : ∀ i ∈ alloc.order, ∀ j ∈ alloc.order, i.var = j.var → i = j
  offsets : ∀ i j, alloc.Defines (.tmp i) → alloc.Defines (.tmp j) →
    alloc.frameOffset (.tmp i) = alloc.frameOffset (.tmp j) → i = j
  args : ∀ index, 1 ≤ index → index ≤ alloc.argsSize+1 →
    alloc.Defines (.tmp index) ∧ 1 ≤ alloc.frameOffset (.tmp index)
  context : alloc.Defines (.tmp contextIndex) ∧ alloc.frameOffset (.tmp contextIndex) = -2
  temps : ∀ index, alloc.argsSize+1 < index → alloc.Defines (.tmp index) →
    -(alloc.frameSize : ℤ) ≤ alloc.frameOffset (.tmp index) ∧ alloc.frameOffset (.tmp index) ≤ -3
  spilled : alloc.frameLess = true → ∀ v, alloc.Defines v → (alloc.reg v).isSome
  used : ∀ pre i post, code = pre ++ i :: post → ∀ operand ∈ usedOperands i, ∀ v ∈ examined operand,
    Spans alloc.order v pre.length pre.length
  results : ∀ pre i post, code = pre ++ i :: post → ∀ operand ∈ resultOperands i,
    ∀ v ∈ examined operand, Spans alloc.order v pre.length (pre.length+1)
  framed : ∀ i ∈ code, (calls i = true ∨
    ∃ operand ∈ usedOperands i ++ resultOperands i, needsFrame operand = true) → alloc.frameLess = false
  last : code.any isReturn = false → ∃ i ∈ alloc.order, i.var = .tmp selfIndex ∧ code.length-1 ≤ i.stop

theorem availableRegs_nodup : availableRegs.Nodup := by decide

def scanRanges (order : List Interval) : List (Range Var) :=
  (order.filter fun i => !(i.var = .tmp contextIndex)).map Interval.toRange

theorem mem_scanRanges (hi : i ∈ order) (hvar : i.var ≠ .tmp contextIndex) : i.toRange ∈ scanRanges order :=
  mem_map_of_mem (mem_filter.mpr ⟨hi,by simpa using hvar⟩)

section
variable (h : Vars.Wf argsSize time vars)
include h

theorem Vars.Wf.scanRanges_sorted : (scanRanges vars.order).Pairwise fun i j => i.start ≤ j.start :=
  pairwise_map.mpr (h.sorted.filter _)

theorem Vars.Wf.scanRanges_nodup : ((scanRanges vars.order).map Range.var).Nodup := by
  rw [scanRanges,map_map]
  exact h.nodup.sublist (filter_sublist.map _)

theorem scanRegisters_inv (hr : regs.Nodup) : ∃ time' pool, scanRegisters regs vars.order = pool.reg ∧
      Inv pinnedRegs regs (scanRanges vars.order) time' pool :=
  ⟨_,_,rfl,scan_inv hr h.scanRanges_sorted h.scanRanges_nodup⟩

theorem Vars.Wf.unique : ∀ i ∈ vars.order, ∀ j ∈ vars.order, i.var = j.var → i = j :=
  fun _ hi _ hj heq => inj_on_of_nodup_map h.nodup hi hj heq

end

section Allocation
variable (code : CompiledCode)

theorem computeRegsAlloc_wf (regs : List Reg) : ∃ time vars, Vars.Wf code.header.argsSize time vars ∧ vars =
      scanCode (initialVars code.header.argsSize) code.bytecodes ∧ (computeRegsAlloc regs code).order = vars.order ∧
      (computeRegsAlloc regs code).frameSize = (-vars.frameSize-1).toNat := by
  obtain ⟨time,hwf⟩ := scanCode_wf (initialVars_wf code.header.argsSize) code.bytecodes
  exact ⟨time,_,hwf,rfl,rfl,rfl⟩

theorem interval_eq (hi : i ∈ (computeRegsAlloc regs code).order) :
    (computeRegsAlloc regs code).interval i.var = some i := by
  obtain ⟨time,vars,hwf,-,ho,-⟩ := computeRegsAlloc_wf code regs
  cases hf : (computeRegsAlloc regs code).interval i.var with
  | none =>
    have := List.find?_eq_none.mp hf i hi
    simp at this
  | some j =>
    have hj := mem_of_find?_eq_some hf
    have hvar : j.var = i.var := by simpa using List.find?_some hf
    rw [hwf.unique j (ho ▸ hj) i (ho ▸ hi) hvar]

theorem frameOffset_eq (hi : i ∈ (computeRegsAlloc regs code).order) (hvar : i.var = .tmp index) :
    (computeRegsAlloc regs code).frameOffset (.tmp index) =
      if 1 ≤ index ∧ index ≤ code.header.argsSize+1 then
        i.frameOffset + (if (computeRegsAlloc regs code).frameLess then 1 else 2)
      else i.frameOffset := by
  have hint : (computeRegsAlloc regs code).interval (.tmp index) = some i := hvar ▸ interval_eq code hi
  rw [RegsAlloc.frameOffset,hint]
  rfl

theorem frameOffset_cases (h : (computeRegsAlloc regs code).Defines (.tmp index)) :
    (1 ≤ index ∧ index ≤ code.header.argsSize+1 ∧
      (computeRegsAlloc regs code).frameOffset (.tmp index) =
        index-1 + (if (computeRegsAlloc regs code).frameLess then 1 else 2)) ∨
    (index = contextIndex ∧ (computeRegsAlloc regs code).frameOffset (.tmp index) = -2) ∨
    (code.header.argsSize+1 < index ∧
      -((computeRegsAlloc regs code).frameSize : ℤ) ≤
        (computeRegsAlloc regs code).frameOffset (.tmp index) ∧
      (computeRegsAlloc regs code).frameOffset (.tmp index) ≤ -3) := by
  obtain ⟨time,vars,hwf,-,ho,hs⟩ := computeRegsAlloc_wf code regs
  obtain ⟨i,hi,hvar⟩ := h
  rw [frameOffset_eq code hi hvar]
  rw [ho] at hi
  by_cases harg : 1 ≤ index ∧ index ≤ code.header.argsSize+1
  · rw [if_pos harg,hwf.args i hi index hvar harg.1 harg.2]
    exact Or.inl ⟨harg.1,harg.2,rfl⟩
  · rw [if_neg harg]
    by_cases hz : index = contextIndex
    · subst hz
      exact Or.inr (Or.inl ⟨rfl,hwf.context i hi hvar⟩)
    · have hlt : code.header.argsSize+1 < index := by
        simp only [contextIndex] at hz
        omega
      have hb := hwf.below i hi (by rw [hvar]; rfl)
      have ht := hwf.temps i hi index hvar hlt
      exact Or.inr (Or.inr ⟨hlt,by omega,ht⟩)

theorem frameOffset_inj (h : (computeRegsAlloc regs code).Defines (.tmp index))
    (h' : (computeRegsAlloc regs code).Defines (.tmp index'))
    (heq : (computeRegsAlloc regs code).frameOffset (.tmp index) = (computeRegsAlloc regs code).frameOffset
      (.tmp index')) :
    index = index' := by
  obtain ⟨time,vars,hwf,-,ho,-⟩ := computeRegsAlloc_wf code regs
  have hc := frameOffset_cases code h
  have hc' := frameOffset_cases code h'
  obtain ⟨i,hi,hvar⟩ := h
  obtain ⟨j,hj,hvar'⟩ := h'
  -- arguments lie above the frame pointer and all others below it
  have hoff : i.frameOffset = j.frameOffset := by
    have hi' := frameOffset_eq code hi hvar
    have hj' := frameOffset_eq code hj hvar'
    split at hi' <;> split at hj' <;> split at hc <;> omega
  have hs : ∀ {k : Interval} {n : ℕ}, k.var = .tmp n → hasSlot k.var = true := by
    intro k n hk
    rw [hk]
    rfl
  have hsa := hwf.slots i (ho ▸ hi) j (ho ▸ hj) (hs hvar) (hs hvar') hoff
  rw [hvar,hvar'] at hsa
  injection hsa

theorem computeRegsAlloc_pool (hr : regs.Nodup) (h : (computeRegsAlloc regs code).reg v = some r) :
    (v = .tmp contextIndex ∧ r = .ctx) ∨ (v ≠ .tmp contextIndex ∧ r ∈ regs) := by
  obtain ⟨time,vars,hwf,hv,-,-⟩ := computeRegsAlloc_wf code regs
  obtain ⟨time',pool,hpo,hinv⟩ := scanRegisters_inv hwf hr
  have hreg : pool.reg v = some r := by
    rw [← hpo,hv]
    exact h
  by_cases hmem : ∃ i ∈ scanRanges vars.order, i.var = v
  · obtain ⟨i,hi,rfl⟩ := hmem
    refine Or.inr ⟨?_,hinv.used i hi r hreg⟩
    obtain ⟨j,hj,rfl⟩ := mem_map.mp hi
    simpa using (mem_filter.mp hj).2
  · have hp := hinv.kept v fun i hi heq => hmem ⟨i,hi,heq⟩
    rw [hp,pinnedRegs] at hreg
    split at hreg
    · cases hreg
      exact Or.inl ⟨‹_›,rfl⟩
    · cases hreg

theorem computeRegsAlloc_disjoint (hregs : regs.Nodup) (hctx : Reg.ctx ∉ regs)
    (hi : i ∈ (computeRegsAlloc regs code).order) (hj : j ∈ (computeRegsAlloc regs code).order) (hne : i.var ≠ j.var)
    (hri : (computeRegsAlloc regs code).reg i.var = some r) (hrj : (computeRegsAlloc regs code).reg j.var = some r) :
    Disjoint i.toRange j.toRange := by
  obtain ⟨time,vars,hwf,hv,ho,-⟩ := computeRegsAlloc_wf code regs
  obtain ⟨time',pool,hp,hinv⟩ := scanRegisters_inv hwf hregs
  have hreg : (computeRegsAlloc regs code).reg = pool.reg := by
    rw [← hp,hv]
    rfl
  rw [ho] at hi hj
  rcases computeRegsAlloc_pool code hregs hri with ⟨hi0,rfl⟩ | ⟨hi0,hmem⟩ <;>
    rcases computeRegsAlloc_pool code hregs hrj with ⟨hj0,hr⟩ | ⟨hj0,hmem'⟩
  · exact absurd (hi0.trans hj0.symm) hne
  · exact absurd hmem' hctx
  · exact absurd (hr ▸ hmem) hctx
  · rw [hreg] at hri hrj
    exact hinv.disjoint _ (mem_scanRanges hi hi0) _ (mem_scanRanges hj hj0) hne r hri hrj

variable (hregs : regs <+ availableRegs)
include hregs

theorem computeRegsAlloc_apart (hne : v ≠ w) (hv : Spans (computeRegsAlloc regs code).order v number number)
    (hw : Spans (computeRegsAlloc regs code).order w number number)
    (hrv : (computeRegsAlloc regs code).reg v = some r) : (computeRegsAlloc regs code).reg w ≠ some r := by
  intro hrw
  have hctx : Reg.ctx ∉ regs := fun h => absurd (hregs.subset h) (by decide)
  obtain ⟨i,hi,rfl,hs,hst⟩ := hv
  obtain ⟨j,hj,rfl,hs',hst'⟩ := hw
  rcases computeRegsAlloc_disjoint code (availableRegs_nodup.sublist hregs) hctx hi hj hne hrv hrw with
    hlt | hlt <;> omega

theorem computeRegsAlloc_sound : (computeRegsAlloc regs code).Sound code.bytecodes := by
  have hin := initialVars_wf code.header.argsSize
  obtain ⟨time,vars,hwf,hvars,ho,-⟩ := computeRegsAlloc_wf code regs
  have hd : ∀ index ≤ code.header.argsSize+1, (computeRegsAlloc regs code).Defines (.tmp index) := by
    intro index hle
    obtain ⟨i,hi,hvar⟩ := hwf.defined index hle
    exact ⟨i,ho ▸ hi,hvar⟩
  constructor
  · intro v r h
    exact (computeRegsAlloc_pool code (availableRegs_nodup.sublist hregs) h).imp_right (And.imp_right (hregs.subset ·))
  · intro v w number r hne hv hw hr
    exact computeRegsAlloc_apart code hregs hne hv hw hr
  · rw [ho]
    exact hwf.unique
  · intro i j hi hj heq
    exact frameOffset_inj code hi hj heq
  · intro index hpos hle
    replace hle : index ≤ code.header.argsSize+1 := hle
    refine ⟨hd index hle,?_⟩
    rcases frameOffset_cases code (hd index hle) with ⟨_,_,hoff⟩ | ⟨rfl,_⟩ | ⟨_,_,_⟩
    · rw [hoff]
      split <;> omega
    · cases hpos
    · omega
  · refine ⟨hd contextIndex (Nat.zero_le _),?_⟩
    rcases frameOffset_cases code (hd contextIndex (Nat.zero_le _)) with ⟨h,_⟩ | ⟨_,h⟩ | ⟨h,_⟩
    · cases h
    · exact h
    · cases h
  · intro index hlt hdef
    replace hlt : code.header.argsSize+1 < index := hlt
    rcases frameOffset_cases code hdef with ⟨_,hle,_⟩ | ⟨rfl,_⟩ | ⟨_,h⟩
    · omega
    · cases hlt
    · exact h
  · intro hf v hv
    obtain ⟨i,hi,rfl⟩ := hv
    simp only [computeRegsAlloc,Bool.and_eq_true,all_eq_true] at hf
    exact hf.2 i hi
  · intro pre i q hc
    exact (scanCode_scanned hin hc).1
  · intro pre i q hc
    exact (scanCode_scanned hin hc).2.1
  · intro i hi hn
    obtain ⟨pre,q,hc⟩ := append_of_mem hi
    have hfr := (scanCode_scanned hin hc).2.2 hn
    simp [computeRegsAlloc,hfr]
  · intro hret
    exact scanCode_spans_self hin hret

end Allocation

end Sound

end SmalltalkJit.Jit
