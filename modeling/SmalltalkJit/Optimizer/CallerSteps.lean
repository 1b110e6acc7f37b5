import SmalltalkJit.Optimizer.Operands

/-! # Steps of the caller

Outside inlined bodies the rewritten method does what the original does, one
instruction for one, with the program counter moved to the label of the original
offset.
-/
namespace SmalltalkJit.Inlining
open Assembly Machine List Instr

section Sends
variable {V W : Type} {image : Image} {rt : Runtime V W} {code code' : CompiledCode} {world : W}
variable {vars vars' : Frame V}
theorem performSend_congr (hsel : code'.literalAt selector' = code.literalAt selector)
    (hs : superOf code' receiver' = superOf code receiver)
    (h : (receiver' :: args').map (readOperand image rt code' world vars') =
      (receiver :: args).map (readOperand image rt code world vars)) :
    performSend image rt code' world vars' selector' receiver' args' =
      performSend image rt code world vars selector receiver args ∧
      sendEvent image rt code' world vars' selector' receiver' args' =
      sendEvent image rt code world vars selector receiver args := by
  obtain ⟨hrec,ha⟩ := cons.inj h
  simp only [performSend,sendEvent,hsel,hs,hrec,map_reverse,ha,and_self]

end Sends

variable {input : Input}

theorem mem_jumpTargets (offset : ℕ) (h : target ∈ targetsOf (offset + bytecodesSize pre + i.size) i) :
    target ∈ jumpTargets offset (pre ++ i :: post) := by
  induction pre generalizing offset with
  | nil => exact mem_append_left _ h
  | cons j pre ih =>
    have hs : bytecodesSize (j :: pre) = j.size + bytecodesSize pre := streamSize_cons j pre
    rw [hs,← Nat.add_assoc] at h
    exact mem_append_right _ (ih _ h)

theorem isStart_cases (h : isStart code target = true) : target = bytecodesSize code ∨
    ∃ pre i post, code = pre ++ i :: post ∧ target = (bytecodesSize pre : ℕ) := by
  simp only [isStart,Bool.or_eq_true,decide_eq_true_eq,any_eq_true] at h
  rcases h with h | ⟨o,ho,h⟩
  · exact Or.inl h
  · obtain ⟨pre,i,post,hc,rfl⟩ := exists_of_mem_starts ho
    exact Or.inr ⟨pre,i,post,hc,by simpa using h⟩

theorem isStart_start (h : code = pre ++ i :: post) : isStart code (bytecodesSize pre : ℕ) = true := by
  have hmem := @mem_starts code pre i post 0 h
  simp only [isStart,Bool.or_eq_true,any_eq_true,decide_eq_true_eq]
  exact Or.inr ⟨_,hmem,by simp⟩

theorem isStart_end (code : Bytecodes) : isStart code (bytecodesSize code : ℕ) = true := by simp [isStart]

theorem isStart_zero (code : Bytecodes) : isStart code (0 : ℕ) = true := by
  cases code with
  | nil => exact isStart_end []
  | cons i post => exact isStart_start (show i :: post = [] ++ i :: post from rfl)

theorem isStart_next (h : code = pre ++ i :: post) : isStart code ((bytecodesSize pre + i.size : ℕ) : ℤ) = true := by
  cases post with
  | nil =>
    have hend := isStart_end code
    have hs : bytecodesSize code = bytecodesSize pre + i.size := by simp [h]
    rwa [hs] at hend
  | cons j post =>
    have hc : code = (pre ++ [i]) ++ j :: post := by simp [h]
    simpa using isStart_start hc

variable (input) in
theorem optimizer_last : ∃ l, (optimizer input).text = l ++ [.label (.orig (bytecodesSize input.code.bytecodes))] ∧
    LabelAt input (.orig (bytecodesSize input.code.bytecodes)) (byteSize size l) := by
  obtain ⟨l,hi⟩ := optimizeFrom_last input (initial input) 0 input.code.bytecodes
  have ht : (optimizer input).text = l ++ [.label (.orig (bytecodesSize input.code.bytecodes))] := by
    rw [optimizer,hi,Nat.zero_add]
  exact ⟨l,ht,labelAt_of_at ⟨l,[],by rw [ht,append_nil],rfl⟩⟩

theorem exists_labelAt (h : isStart input.code.bytecodes target = true) :
    ∃ o : ℕ, target = o ∧ ∃ k, LabelAt input (.orig (o : ℤ)) k := by
  rcases isStart_cases h with rfl | ⟨pre,i,q,hc,rfl⟩
  · obtain ⟨l,-,hl⟩ := optimizer_last input
    exact ⟨_,rfl,_,hl⟩
  · refine ⟨_,rfl,?_⟩
    cases optimizer_placed input hc with
    | raw hat | inlined _ _ _ hat => exact ⟨_,labelAt_of_at hat⟩

theorem jump_lands {label : ℤ → Label} (next' : ℕ) (ht : isStart code target = true)
    (h : ∃ o : ℕ, target = o ∧ ∃ k, LabelAt input (label o) k) : isStart code target.toNat = true ∧
    LabelAt input (label target.toNat)
      (jumpTarget next' (((offsetOf size (label target) (optimizer input).text).getD 0 : ℤ) - next')).toNat := by
  obtain ⟨o,rfl,m,hm⟩ := h
  rw [jumpTarget_offsetOf hm]
  exact ⟨by simpa using ht,by simpa using hm⟩

section Steps
variable {V W : Type} {rt : Runtime V W}

variable (input) in
/-- Matching outcomes of one caller instruction; `vars'` is the widened frame before it. -/
inductive CallerMatch (vars' : Frame V) : Outcome (Activation V W) (Event V) (Result V) →
    Outcome (Activation V W) (Event V) (Result V) → Prop
  | halt (r : Result V) : CallerMatch vars' (.halt r) (.halt r)
  | next {world : W} {pc pc' : ℕ} {vars1 vars1' : Frame V} {events : List (Event V)} :
      Agree input.code.tempsEnd vars1' vars1 →
      (∀ index, input.code.tempsEnd ≤ index → vars1' index = vars' index) →
      isStart input.code.bytecodes pc = true → LabelAt input (.orig (pc : ℤ)) pc' →
      CallerMatch vars' (.next ⟨world,pc,vars1⟩ events) (.next ⟨world,pc',vars1'⟩ events)

variable {vars vars' : Frame V} {world : W} {next next' : ℕ}

theorem storeAndGo_caller (hok : OperandOk input.code dest) (hv : Agree input.code.tempsEnd vars' vars)
    (hs : isStart input.code.bytecodes next = true) (hn : LabelAt input (.orig (next : ℤ)) next')
    (v : V) (events : List (Event V)) :
    CallerMatch input vars' (storeAndGo input.image rt input.code world vars v dest next events)
      (storeAndGo input.image rt (optimizedCode input) world vars' v dest next' events) := by
  unfold storeAndGo
  rcases writeOperand_caller hok hv v with ⟨h,h'⟩ | ⟨world1,vs1,vs1',stores,h,h',hb,ha⟩
  · rw [h,h']
    exact .halt _
  · rw [h,h']
    exact .next hb ha hs hn

variable (rt world) in
theorem performSend_caller (hsel : selector < input.code.literals.length)
    (h : ∀ operand ∈ receiver :: args, OperandOk input.code operand) (hv : Agree input.code.tempsEnd vars' vars) :
    performSend input.image rt (optimizedCode input) world vars' selector receiver args =
      performSend input.image rt input.code world vars selector receiver args ∧
      sendEvent input.image rt (optimizedCode input) world vars' selector receiver args =
      sendEvent input.image rt input.code world vars selector receiver args := by
  refine performSend_congr (literalAt_optimized hsel) ?_ (map_readOperand_caller h hv)
  cases receiver <;> rfl

theorem execInstr_caller (hwf : WellFormed input.code) (hc : input.code.bytecodes = pre ++ i :: post)
    (hv : Agree input.code.tempsEnd vars' vars)
    (hn : LabelAt input (.orig ((bytecodesSize pre + i.size : ℕ) : ℤ)) next') : CallerMatch input vars'
      (execInstr input.image rt input.code ⟨world,pc,vars⟩ (bytecodesSize pre + i.size) i)
      (execInstr input.image rt (optimizedCode input) ⟨world,k,vars'⟩ next'
        (patch (optimizer input).text next' (passThrough (bytecodesSize pre) i))) := by
  have hi : InstrOk input.code i := hwf.instrs i (by simp [hc])
  have hst := isStart_next hc
  have hj := fun d (hmem : jumpTarget (bytecodesSize pre + i.size) d ∈ targetsOf (bytecodesSize pre + i.size) i) =>
    have ht := hwf.targets _ (hc ▸ mem_jumpTargets 0 (by simpa using hmem))
    jump_lands next' ht (exists_labelAt ht)
  cases i <;> simp only [passThrough,patch,mapTarget,execInstr]
  case copy =>
    simp only [readOperand_caller hi.1 hv]
    exact storeAndGo_caller hi.2 hv hst hn _ _
  case send sel rec args =>
    obtain ⟨hp,he⟩ := performSend_caller rt world hi.1 (forall_mem_cons.mpr hi.2) hv
    rw [hp,he]
    cases performSend input.image rt input.code world vars sel rec args with
    | none => exact .halt _
    | some => exact .next hv (fun _ _ => rfl) hst hn
  case sendWithStore sel rec args _ =>
    obtain ⟨hsel,hrec,ha,hres⟩ := hi
    obtain ⟨hp,he⟩ := performSend_caller rt world hsel (forall_mem_cons.mpr ⟨hrec,ha⟩) hv
    rw [hp,he]
    cases performSend input.image rt input.code world vars sel rec args with
    | none => exact .halt _
    | some => exact storeAndGo_caller hres hv hst hn _ _
  case ret | outerReturn =>
    simp only [readOperand_caller hi hv]
    exact .halt _
  case jump d =>
    obtain ⟨hs,hl⟩ := hj d mem_cons_self
    exact .next hv (fun _ _ => rfl) hs hl
  case jumpNotMemberOf d =>
    obtain ⟨hs,hl⟩ := hj d mem_cons_self
    simp only [readOperand_caller hi.2 hv,literalAt_optimized hi.1]
    split
    · exact .next hv (fun _ _ => rfl) hst hn
    · exact .next hv (fun _ _ => rfl) hs hl

end Steps

end SmalltalkJit.Inlining
