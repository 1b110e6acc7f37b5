import SmalltalkJit.Optimizer.BodySteps

/-! # The simulation relation and the steps of a followed callee

The caller's variables agree, control stands at the label of the original
offset, and during a callee the inline area holds its variables. From related
states one step of the callee, a return included, is matched by at least one
step of the rewritten method.
-/
namespace SmalltalkJit.Inlining
open Assembly Machine Instr Steps

variable (input : Input) {V W : Type} (rt : Runtime V W)

def guardAt (offset : ℕ) : Option Oop := ((optimizer input).siteAt offset).map InlinedSite.guardClass

abbrev oldStep : CallState V W → Outcome (CallState V W) (Event V) (Result V) :=
  callStep input.image rt input.code (guardAt input)

inductive Control (s : CallState V W) (t : Activation V W) : Prop
  | outer : s.inner = none → isStart input.code.bytecodes s.pc = true →
      LabelAt input (.orig (s.pc : ℤ)) t.pc → Control s t
  | inner {a : Inner V} {selector : ℕ} {receiver : Operand} {args : List Operand}
      {guardClass : Oop} :
      s.inner = some a →
      Spliced input a.site s.pc selector receiver args a.result guardClass a.callee →
      Candidate input guardClass a.callee → isStart input.code.bytecodes s.pc = true →
      (∀ dest, a.result = some dest → OperandOk input.code dest) →
      isStart a.callee.bytecodes a.pc = true →
      (a.pc = bytecodesSize a.callee.bytecodes → calleeCanFallThrough a.callee = true) →
      LabelAt input (.callee a.site (a.pc : ℤ)) t.pc →
      BodyFrame input rt a.callee a.vars a.written s.dirty t.vars → Control s t

/-- The widened frame holds the caller's variables, and nil wherever nothing was ever spilled. -/
structure Related (s : CallState V W) (t : Activation V W) : Prop where
  world : t.world = s.world
  frame : ∀ index < input.code.tempsEnd, t.vars index = s.vars index
  clean : ∀ index, 1 ≤ index → index ∉ s.dirty →
    t.vars (input.code.tempsEnd + (index-1)) = rt.nil
  control : Control input rt s t

variable {input rt}

theorem fetch_of_isStart {pc : ℕ} (h : isStart code pc = true) :
    (fetch size code pc = none ∧ pc = bytecodesSize code) ∨ ∃ pre i post, code = pre ++ i :: post ∧ pc =
      bytecodesSize pre ∧ fetch size code pc = some i := by
  rcases isStart_cases h with hend | ⟨pre,i,post,hc,hpc⟩
  · have hpc : pc = bytecodesSize code := by omega
    exact Or.inl ⟨hpc ▸ fetch_end size_pos code,hpc⟩
  · have hpc : pc = bytecodesSize pre := by omega
    refine Or.inr ⟨pre,i,post,hc,hpc,?_⟩
    rw [hc,hpc]
    exact fetch_append size_pos pre i post

variable {vars : Frame V}

theorem newStep_end (h : LabelAt input (.orig (bytecodesSize input.code.bytecodes)) k) :
    newStep input rt ⟨world,k,vars⟩ = .halt (.returned (vars selfIndex)) := by
  obtain ⟨l,ht,hl⟩ := optimizer_last input
  have hk : k = bytecodesSize (optimizedCode input).bytecodes := by
    have hs : bytecodesSize (optimizedCode input).bytecodes =
        byteSize size (optimizer input).text := streamSize_assembleFrom (size_patch _) _ 0
    rw [h.unique hl,hs,ht]
    simp
  subst hk
  simp only [newStep,step,fetch_end size_pos,↓reduceIte]

variable (input rt) in
def Matched (o : Outcome (CallState V W) (Event V) (Result V)) (t : Activation V W) : Prop :=
  match o with
  | .halt r => ∃ n t', Steps (newStep input rt) n t [] t' ∧ newStep input rt t' = .halt r
  | .next s' events => ∃ n t', Steps (newStep input rt) (n+1) t events t' ∧ Related input rt s' t'

variable {t : Activation V W}

theorem Matched.of_step (h : newStep input rt t = .next u []) (hu : Matched input rt o u) : Matched input rt o t := by
  cases o with
  | halt =>
    obtain ⟨n,t',hn,ht'⟩ := hu
    exact ⟨n+1,t',by simpa using cons h hn,ht'⟩
  | next =>
    obtain ⟨n,t',hn,hr⟩ := hu
    exact ⟨n+1,t',by simpa using cons h hn,hr⟩

variable (input) in
/-- Offsets from which control goes straight to the end of the inlined body. -/
def LeadsToExit (site k : ℕ) : Prop :=
  LabelAt input (.exit site) k ∨
    ∃ rest, TextAt input k (.instr (.jump (.exit site)) :: rest)

variable {args : List Operand} {receiver : Operand} {guardClass : Oop} {selector : ℕ}

theorem exit_related (hs : Spliced input site next selector receiver args result guardClass callee)
    (he : LeadsToExit input site t.pc) (hf : Agree input.code.tempsEnd t.vars vars)
    (hc : ∀ index, 1 ≤ index → index ∉ dirty → t.vars (input.code.tempsEnd + (index-1)) = rt.nil)
    (hst : isStart input.code.bytecodes next = true) :
    ∃ n t', Steps (newStep input rt) (n+1) t [] t' ∧ Related input rt ⟨t.world,next,vars,none,dirty⟩ t' := by
  obtain ⟨m,hat⟩ := hs.exit
  obtain ⟨d,hd,hn⟩ := hs.done
  have hl := labelAt_of_at hat
  have hj : newStep input rt ⟨t.world,m,t.vars⟩ = .next ⟨t.world,d,t.vars⟩ [] := newStep_jump hat.after_label hd
  have hrel : Related input rt ⟨t.world,next,vars,none,dirty⟩ ⟨t.world,d,t.vars⟩ := ⟨rfl,hf,hc,.outer rfl hst hn⟩
  rcases he with he | ⟨r,he⟩
  · obtain rfl := hl.unique he
    exact ⟨0,_,one hj,hrel⟩
  · have hfi : newStep input rt t = .next ⟨t.world,m,t.vars⟩ [] := newStep_jump he hl
    exact ⟨1,_,by simpa using cons hfi (one hj),hrel⟩

variable {s : CallState V W} {a : Inner V}

section Leaving
variable (hrel : Related input rt s t)
variable (hs : Spliced input a.site s.pc selector receiver args a.result guardClass a.callee)
variable (hres : ∀ dest, a.result = some dest → OperandOk input.code dest)
variable (hst : isStart input.code.bytecodes s.pc = true)
include hrel hs hres hst

theorem matched_leave (hat : TextAt input t.pc (copyResult value' a.result ++ rest))
    (he : LeadsToExit input a.site (t.pc + byteSize size (copyResult value' a.result)))
    (hv : a.result.isSome = true → newRead input rt t.world t.vars value' = v) :
    Matched input rt (leave input.image rt input.code s a.result v) t := by
  cases hr : a.result with
  | none =>
    rw [hr] at he
    obtain ⟨n,t',hn,hrel'⟩ := exit_related hs (by simpa [copyResult] using he) hrel.frame hrel.clean hst
    exact ⟨n,t',hn,hrel.world ▸ hrel'⟩
  | some dest =>
    rw [hr] at hat he hv
    have hat' : TextAt input t.pc (.instr (.copy value' dest) :: rest) := hat
    have hre := hv rfl
    simp only [leave]
    rcases writeOperand_caller (hres dest hr) hrel.frame v with ⟨h,h'⟩ | ⟨world1,vars1,vars1',stores,h,h',hb,ha⟩
    · rw [h]
      exact ⟨0,t,.refl t,newStep_copy_stuck hat' (by rw [hre,hrel.world]; exact h')⟩
    · rw [h]
      have hco : newStep input rt t = .next ⟨world1,t.pc + (1 + value'.size + dest.size),vars1'⟩ stores :=
        newStep_copy hat' (by rw [hre,hrel.world]; exact h')
      have hc' : ∀ index, 1 ≤ index → index ∉ s.dirty → vars1' (input.code.tempsEnd + (index-1)) = rt.nil := by
        intro index hpos hd
        rw [ha _ (by omega),hrel.clean index hpos hd]
      have he' : LeadsToExit input a.site (t.pc + (1 + value'.size + dest.size)) := by
        simpa [copyResult,size] using he
      obtain ⟨n,t',hn,hrel'⟩ := exit_related (t := ⟨world1,_,vars1'⟩) hs he' hb hc' hst
      exact ⟨n+1,t',by simpa using cons hco hn,hrel'⟩

theorem matched_fallOff (hfa : calleeCanFallThrough a.callee = true)
    (hl : LabelAt input (.callee a.site (bytecodesSize a.callee.bytecodes)) t.pc)
    (hf : BodyFrame input rt a.callee a.vars a.written s.dirty t.vars) :
    Matched input rt (leave input.image rt input.code s a.result (a.vars selfIndex)) t := by
  obtain ⟨k,hat⟩ := hs.tail
  obtain rfl := (labelAt_of_at hat).unique hl
  have ha : answerSelf input.code.tempsEnd (selfCopied a.result a.callee) a.result =
      copyResult (.tempVar input.code.tempsEnd) a.result := by
    cases hr : a.result with
    | none => rfl
    | some => simp [answerSelf,copyResult,selfCopied,hfa]
  have hat' := hat.after_label
  rw [afterBody,ha,List.append_assoc] at hat'
  refine matched_leave hrel hs hres hst hat' ?_ ?_
  · exact Or.inl (labelAt_of_at hat'.right)
  · intro _
    exact hf.self_eq

theorem matched_return (hc : Compatible input) {operand : Operand} (hcan : Candidate input guardClass a.callee)
    (hco : a.callee.bytecodes = pre ++ .ret operand :: post)
    (hl : LabelAt input (.callee a.site (bytecodesSize pre)) t.pc)
    (hf : BodyFrame input rt a.callee a.vars a.written s.dirty t.vars)
    (hfr : ∀ index, .tempVar index ∈ usedOperands a.result (.ret operand) → index ∈ a.written ∨ index ∉ s.dirty) :
    Matched input rt (leave input.image rt input.code s a.result
      (readOperand input.image rt a.callee s.world a.vars operand)) t := by
  obtain ⟨k,lits',hat,hg⟩ := hs.body hco
  obtain rfl := (labelAt_of_at hat).unique hl
  obtain ⟨v',hadj,hit⟩ := emitInlinedInstr_ret hg
  rw [hit,List.append_assoc] at hat
  have hmem : ret operand ∈ a.callee.bytecodes := by simp [hco]
  have hel := (eligible_instr hcan.2.2).1 _ hmem
  have hok := (hc.callees guardClass a.callee hcan).instrs _ hmem
  have hat' := hat.after_label
  refine matched_leave hrel hs hres hst hat' ?_ ?_
  · have hr := hat'.right
    by_cases hle : (!post.isEmpty || selfCopied a.result a.callee) = true
    · rw [if_pos hle] at hr
      exact Or.inr ⟨_,hr⟩
    · rw [if_neg hle] at hr
      simp only [Bool.or_eq_true,Bool.not_eq_true',not_or,Bool.not_eq_false,Bool.not_eq_true,List.isEmpty_iff] at hle
      obtain ⟨hp,hcop⟩ := hle
      obtain ⟨m,hend⟩ := hs.tail
      have hsi : bytecodesSize a.callee.bytecodes =
          bytecodesSize pre + (ret (T := ℤ) operand).size := by simp [hco,hp]
      have hm := labelAt_of_at hend
      rw [hsi] at hm
      obtain rfl := hm.unique (labelAt_of_at hr)
      have ha : answerSelf input.code.tempsEnd (selfCopied a.result a.callee) a.result = [] := by
        rw [hcop]
        cases a.result <;> rfl
      have he := hend.after_label
      rw [afterBody,ha] at he
      exact Or.inl (labelAt_of_at he)
  · intro hso
    rw [hrel.world]
    refine readOperand_body hc hcan hf ⟨hadj hso,hel,hok⟩ ?_
    intro index hi
    refine hfr index ?_
    simp [usedOperands,hso,hi]

theorem matched_body {o o' : Outcome (Activation V W) (Event V) (Result V)} (hc : Candidate input guardClass a.callee)
    (hm : BodyMatch input rt a.site a.callee (writtenBy i ++ a.written) (writtenBy i ++ s.dirty) t.vars o o')
    (hnew : newStep input rt t = o') : Matched input rt (resumeInner s a i o) t := by
  cases hm with
  | halt => exact ⟨0,t,.refl t,hnew⟩
  | next hf hk hst' hfa hl =>
    refine ⟨0,_,one hnew,⟨rfl,?_,hf.clean,.inner rfl hs hc hst hres hst' hfa hl hf⟩⟩
    intro k hlt
    exact (hk k hlt).trans (hrel.frame k hlt)

end Leaving

theorem innerStep_of_fetch (hf : fetch size a.callee.bytecodes a.pc = some i)
    (hret : ∀ operand, i ≠ .ret operand) : innerStep input.image rt input.code s a = resumeInner s a i
      (execInstr input.image rt a.callee ⟨s.world,a.pc,a.vars⟩ (a.pc + i.size) i) := by
  unfold innerStep
  rw [hf]
  cases i with
  | ret operand => exact absurd rfl (hret operand)
  | _ => rfl

theorem matched_inner (hc : Compatible input) (hrel : Related input rt s t) (ha : s.inner = some a)
    (hfr : FreshTemps s) : Matched input rt (innerStep input.image rt input.code s a) t := by
  cases hrel.control with
  | outer hn => rw [ha] at hn; cases hn
  | @inner b selector receiver args guardClass hb hs hcan hst hres hpc hend hl hf =>
    rw [ha] at hb
    cases hb
    rcases fetch_of_isStart hpc with ⟨hfe,heq⟩ | ⟨pre,i,q,hco,heq,hfe⟩
    · rw [innerStep,hfe]
      simp only [heq,↓reduceIte]
      exact matched_fallOff hrel hs hres hst (hend heq) (heq ▸ hl) hf
    · have hu := hfr a ha i hfe
      have hl' : LabelAt input (.callee a.site (bytecodesSize pre)) t.pc := heq ▸ hl
      have he := (eligible_instr hcan.2.2).1 i (by simp [hco])
      by_cases hret : ∃ operand, i = .ret operand
      · obtain ⟨operand,rfl⟩ := hret
        rw [innerStep,hfe]
        exact matched_return hrel hs hres hst hc hcan hco hl' hf hu
      · have hret' : ∀ operand, i ≠ .ret operand := fun operand h => hret ⟨operand,h⟩
        have ho : ∀ operand, i ≠ .outerReturn operand := by
          rintro operand rfl
          simp [instrEligible] at he
        obtain ⟨k,lits',hat,hg⟩ := hs.body hco
        obtain rfl := (labelAt_of_at hat).unique hl'
        obtain ⟨i',hi,hi'⟩ := emitInlinedInstr_body hret' ho hg
        rw [hi] at hat
        have hat' := hat.after_label
        have hne := labelAt_of_at hat'.after_instr
        have hste : newStep input rt t = execInstr input.image rt (optimizedCode input)
            ⟨s.world,t.pc,t.vars⟩ (t.pc + i'.size)
            (patch (optimizer input).text (t.pc + i'.size) i') := by
          rw [← hrel.world]
          exact newStep_of_at hat'
        have hm : BodyMatch input rt a.site a.callee (writtenBy i ++ a.written) (writtenBy i ++ s.dirty) t.vars
            (execInstr input.image rt a.callee ⟨s.world,a.pc,a.vars⟩ (a.pc + i.size) i)
            (newStep input rt t) := by
          rw [hste,heq]
          exact execInstr_body hc hcan hf hs hco hi' hu hne
        rw [innerStep_of_fetch hfe hret']
        exact matched_body hrel hs hres hst hcan hm rfl

end SmalltalkJit.Inlining
