import SmalltalkJit.Optimizer.Walk

/-! # Running the rewritten stream

The text around one inlined send, cut at the places where control enters or
leaves it, and single steps of the rewritten stream in terms of positions in
the text.
-/
namespace SmalltalkJit.Inlining
open Assembly Machine List Function Instr

variable (input : Input)

abbrev TextAt (k : ℕ) (items : Text) : Prop := At size (optimizer input).text k items

def LabelAt (l : Label) (k : ℕ) : Prop := offsetOf size l (optimizer input).text = some k

/-- A send replaced by guard, spills, body and fallback. -/
structure Spliced (site next selector : ℕ) (receiver : Operand) (args : List Operand)
    (result : Option Operand) (guardClass : Oop) (callee : CompiledCode) : Prop where
  exists_text : ∃ literals k,
    TextAt input k (.label (.orig site) ::
      (inlinedItems input literals site selector receiver args result guardClass callee).1 ++
      [.label (.orig (next : ℤ))]) ∧
    (inlinedItems input literals site selector receiver args result guardClass callee).2 <+:
      (optimizer input).literals

section Spliced
variable {input} {site next selector : ℕ} {receiver : Operand} {args : List Operand}
variable {result : Option Operand} {callee : CompiledCode}

theorem labelAt_of_at (h : TextAt input k (.label l :: rest)) : LabelAt input l k :=
  h.offsetOf_eq (optimizer_labels_nodup input)

theorem LabelAt.unique (hk : LabelAt input l k) (hm : LabelAt input l m) : k = m := by
  unfold LabelAt at hk hm
  rw [hk] at hm
  exact Option.some.inj hm

def selfCopied (result : Option Operand) (callee : CompiledCode) : Bool :=
  result.isSome && calleeCanFallThrough callee

variable (input site selector receiver args result guardClass callee) in
def afterBody : Text :=
  answerSelf input.code.tempsEnd (selfCopied result callee) result ++
    [.label (.exit site),.instr (.jump (.done site)),.label (.fallback site),
      .instr (emitSend selector receiver args result),.label (.done site)]

variable (input site receiver args) in
def beforeBody (classLiteral : ℕ) : Text :=
  .instr (.jumpNotMemberOf classLiteral receiver (.fallback site)) ::
    .instr (.copy receiver (.tempVar input.code.tempsEnd)) :: spillArgs (input.code.tempsEnd+1) args.reverse

variable (site selector receiver args result guardClass callee) in
theorem inlinedItems_fst (literals : List Oop) :
    (inlinedItems input literals site selector receiver args result guardClass callee).1 =
      beforeBody input site receiver args (ordCollAddObjectIfNotExists input.image literals guardClass).1 ++
        ((emitInlinedFrom input.image (inlineContext input guardClass callee) site
            (selfCopied result callee) result 0 callee.bytecodes
            (ordCollAddObjectIfNotExists input.image literals guardClass).2).1 ++
          afterBody input site selector receiver args result callee) := by
  simp only [inlinedItems,emitInlinedBody,beforeBody,afterBody,selfCopied,inlineContext,append_assoc,
    cons_append,nil_append]

section
variable (h : Spliced input site next selector receiver args result guardClass callee)
include h

theorem Spliced.entry : ∃ k classLiteral, Interned input.image (optimizer input).literals guardClass classLiteral ∧
      TextAt input k (.label (.orig site) ::
        (beforeBody input site receiver args classLiteral ++ [.label (.callee site (0 : ℕ))])) := by
  obtain ⟨literals,k,hat,hg⟩ := h.exists_text
  refine ⟨k,_,ordCollAdd_interned (emitInlinedFrom_grows.trans hg),?_⟩
  obtain ⟨l,hi⟩ := emitInlinedFrom_head input.image (inlineContext input guardClass callee)
    site (selfCopied result callee) result 0 callee.bytecodes
    (ordCollAddObjectIfNotExists input.image literals guardClass).2
  rw [inlinedItems_fst,hi] at hat
  have hs : TextAt input k ((.label (.orig site) :: (beforeBody input site receiver args
      (ordCollAddObjectIfNotExists input.image literals guardClass).1 ++ [.label (.callee site (0 : ℕ))])) ++
      (l ++ afterBody input site selector receiver args result callee ++
        [.label (.orig (next : ℤ))])) := by
    simpa only [cons_append,append_assoc,nil_append] using hat
  exact hs.left

theorem Spliced.body (hc : callee.bytecodes = pre ++ i :: post) : ∃ k literals', TextAt input k
      (.label (.callee site ((bytecodesSize pre : ℕ) : ℤ)) ::
        ((emitInlinedInstr input.image (inlineContext input guardClass callee) site
          (bytecodesSize pre + i.size) (!post.isEmpty) (selfCopied result callee) result literals' i).1 ++
        [.label (.callee site ((bytecodesSize pre + i.size : ℕ) : ℤ))])) ∧
      (emitInlinedInstr input.image (inlineContext input guardClass callee) site
        (bytecodesSize pre + i.size) (!post.isEmpty) (selfCopied result callee) result literals' i).2 <+:
        (optimizer input).literals := by
  obtain ⟨literals,k,hat,hg⟩ := h.exists_text
  obtain ⟨before,after,literals',hf,hg'⟩ := emitInlinedFrom_place input.image
    (inlineContext input guardClass callee) site (selfCopied result callee) result 0 pre i post
    (ordCollAddObjectIfNotExists input.image literals guardClass).2
  rw [inlinedItems_fst,hc,hf] at hat
  simp only [Nat.zero_add] at hat hg'
  have hs : TextAt input k ((.label (.orig site) :: (beforeBody input site receiver args
      (ordCollAddObjectIfNotExists input.image literals guardClass).1 ++ before)) ++
      ((.label (.callee site ((bytecodesSize pre : ℕ) : ℤ)) ::
        ((emitInlinedInstr input.image (inlineContext input guardClass callee) site
          (bytecodesSize pre + i.size) (!post.isEmpty) (selfCopied result callee) result literals' i).1 ++
        [.label (.callee site ((bytecodesSize pre + i.size : ℕ) : ℤ))])) ++
      (after ++ afterBody input site selector receiver args result callee ++
        [.label (.orig (next : ℤ))]))) := by
    simpa only [cons_append,append_assoc,nil_append] using hat
  refine ⟨_,literals',hs.inner,hg'.trans ?_⟩
  rw [← hc]
  exact hg

theorem Spliced.tail : ∃ k, TextAt input k
      (.label (.callee site ((bytecodesSize callee.bytecodes : ℕ) : ℤ)) ::
        (afterBody input site selector receiver args result callee ++
          [.label (.orig (next : ℤ))])) := by
  obtain ⟨lits,k,hat,-⟩ := h.exists_text
  obtain ⟨l,hi⟩ := emitInlinedFrom_last input.image (inlineContext input guardClass callee)
    site (selfCopied result callee) result 0 callee.bytecodes
    (ordCollAddObjectIfNotExists input.image lits guardClass).2
  rw [inlinedItems_fst,hi] at hat
  have hs : TextAt input k ((.label (.orig site) :: (beforeBody input site receiver args
      (ordCollAddObjectIfNotExists input.image lits guardClass).1 ++ l)) ++
      (.label (.callee site ((bytecodesSize callee.bytecodes : ℕ) : ℤ)) ::
        (afterBody input site selector receiver args result callee ++
          [.label (.orig (next : ℤ))]))) := by
    simpa only [Nat.zero_add,cons_append,append_assoc,nil_append] using hat
  exact ⟨_,hs.right⟩

theorem Spliced.exit : ∃ k, TextAt input k [.label (.exit site),.instr (.jump (.done site))] := by
  obtain ⟨k,hat⟩ := h.tail
  have hs : TextAt input k (([.label (.callee site ((bytecodesSize callee.bytecodes : ℕ) : ℤ))] ++
        answerSelf input.code.tempsEnd (selfCopied result callee) result) ++
      ([.label (.exit site),.instr (.jump (.done site))] ++
      ([.label (.fallback site),.instr (emitSend selector receiver args result),
        .label (.done site)] ++ [.label (.orig (next : ℤ))]))) := by
    simpa only [afterBody,cons_append,append_assoc,nil_append] using hat
  exact ⟨_,hs.inner⟩

theorem Spliced.fallback
    : ∃ k, TextAt input k [.label (.fallback site),
      .instr (emitSend selector receiver args result),.label (.done site),
      .label (.orig (next : ℤ))] := by
  obtain ⟨k,hat⟩ := h.tail
  have hs : TextAt input k (([.label (.callee site ((bytecodesSize callee.bytecodes : ℕ) : ℤ))] ++
        answerSelf input.code.tempsEnd (selfCopied result callee) result ++
      [.label (.exit site),.instr (.jump (.done site))]) ++
      [.label (.fallback site),.instr (emitSend selector receiver args result),
        .label (.done site),.label (.orig (next : ℤ))]) := by
    simpa only [afterBody,cons_append,append_assoc,nil_append] using hat
  exact ⟨_,hs.right⟩

theorem Spliced.done : ∃ k, LabelAt input (.done site) k ∧ LabelAt input (.orig (next : ℤ)) k := by
  obtain ⟨k,hat⟩ := h.fallback
  have hd := hat.after_label.after_instr
  exact ⟨_,labelAt_of_at hd,labelAt_of_at hd.after_label⟩

end

end Spliced

section Steps
variable {input} {V W : Type} {rt : Runtime V W} {vars : Frame V}

abbrev newStep (input : Input) (rt : Runtime V W) (s : Activation V W) :
    Outcome (Activation V W) (Event V) (Result V) :=
  step input.image rt (optimizedCode input) s

abbrev newRead (input : Input) (rt : Runtime V W) : W → Frame V → Operand → V :=
  readOperand input.image rt (optimizedCode input)

abbrev Agree (n : ℕ) (vars' vars : Frame V) : Prop := ∀ index < n, vars' index = vars index

theorem newStep_of_at (h : TextAt input k (.instr i :: rest)) :
    newStep input rt ⟨world,k,vars⟩ = execInstr input.image rt (optimizedCode input) ⟨world,k,vars⟩
      (k + i.size) (patch (optimizer input).text (k + i.size) i) := step_of_at rfl h

theorem newStep_jump (h : TextAt input k (.instr (.jump l) :: rest)) (hl : LabelAt input l m) :
    newStep input rt ⟨world,k,vars⟩ = .next ⟨world,m,vars⟩ [] := by
  rw [newStep_of_at h]
  simp only [patch,mapTarget,execInstr,jumpTarget_offsetOf hl]

theorem newStep_guard (h : TextAt input k
      (.instr (.jumpNotMemberOf classLiteral operand l) :: rest)) (hl : LabelAt input l m) :
    newStep input rt ⟨world,k,vars⟩ =
      if rt.classOf world (newRead input rt world vars operand) =
          (optimizedCode input).literalAt classLiteral then
        .next ⟨world,k + (7 + operand.size),vars⟩ []
      else .next ⟨world,m,vars⟩ [] := by
  rw [newStep_of_at h]
  simp only [patch,mapTarget,execInstr,jumpTarget_offsetOf hl,size]

theorem newStep_copy
    (h : TextAt input k (.instr (.copy source dest) :: rest))
    (hw : writeOperand input.image rt (optimizedCode input) world vars
      (newRead input rt world vars source) dest =
        some (world',vars',events)) :
    newStep input rt ⟨world,k,vars⟩ =
      .next ⟨world',k + (1 + source.size + dest.size),vars'⟩ events := by
  rw [newStep_of_at h]
  simp only [patch,mapTarget,execInstr,storeAndGo,hw,nil_append,size]

theorem newStep_copy_stuck (h : TextAt input k (.instr (.copy source dest) :: rest))
    (hw : writeOperand input.image rt (optimizedCode input) world vars
      (newRead input rt world vars source) dest = none) :
    newStep input rt ⟨world,k,vars⟩ = .halt .stuck := by
  rw [newStep_of_at h]
  simp only [patch,mapTarget,execInstr,storeAndGo,hw]

def spilled (vars : Frame V) : ℕ → List V → Frame V
  | _, [] => vars
  | dest, v :: values => spilled (update vars dest v) (dest+1) values

theorem spilled_below (values : List V) (h : index < dest) : spilled vars dest values index = vars index := by
  induction values generalizing vars dest with
  | nil => rfl
  | cons _ _ ih => rw [spilled,ih (by omega),update_of_ne (by omega)]

theorem spilled_above (values : List V) (h : dest + values.length ≤ index) :
    spilled vars dest values index = vars index := by
  induction values generalizing vars dest with
  | nil => rfl
  | cons _ _ ih =>
    simp only [length_cons] at h
    rw [spilled,ih (by omega),update_of_ne (by omega)]

theorem spilled_at (values : List V) (d : V) (h : j < values.length) :
    spilled vars dest values (dest + j) = values.getD j d := by
  induction values generalizing vars dest j with
  | nil => simp at h
  | cons _ _ ih =>
    cases j with
    | zero => rw [spilled,spilled_below _ (by omega)]; simp
    | succ j =>
      simp only [length_cons] at h
      rw [spilled,show dest + (j+1) = dest+1 + j by omega,ih (by omega)]
      simp

theorem steps_spillArgs (operands : List Operand)
    (hr : ∀ operand ∈ operands, ∀ vars' : Frame V, Agree dest vars' vars →
      newRead input rt world vars' operand =
        newRead input rt world vars operand)
    (h : TextAt input k (spillArgs dest operands ++ rest)) :
    Steps (newStep input rt) operands.length ⟨world,k,vars⟩ []
      ⟨world,k + byteSize size (spillArgs dest operands),spilled vars dest
        (operands.map (newRead input rt world vars))⟩ := by
  induction operands generalizing dest k vars with
  | nil => exact .refl _
  | cons operand operands ih =>
    let v := newRead input rt world vars operand
    have hc : newStep input rt ⟨world,k,vars⟩ =
        .next ⟨world,k + (1 + operand.size + (Operand.tempVar dest).size),update vars dest v⟩
          [] := newStep_copy h rfl
    have hk := fun o ho => hr o (mem_cons_of_mem _ ho)
    have hu : ∀ index < dest, update vars dest v index = vars index := by
      intro index hlt
      rw [update_of_ne (by omega)]
    have hmap : operands.map (newRead input rt world (update vars dest v)) =
        operands.map (newRead input rt world vars) := by
      refine map_congr_left ?_
      intro o ho
      exact hk o ho _ hu
    have hr' : ∀ o ∈ operands, ∀ vars' : Frame V, (∀ index < dest+1, vars' index = update vars dest v index) →
        newRead input rt world vars' o = newRead input rt world (update vars dest v) o := by
      intro o ho vars' hv'
      have hb : Agree dest vars' vars := by
        intro index hlt
        rw [hv' index (by omega),hu index hlt]
      rw [hk o ho vars' hb,hk o ho _ hu]
    have hs := Steps.cons hc (ih hr' h.after_instr)
    rw [hmap] at hs
    simpa [spillArgs,spilled,size,Nat.add_assoc] using hs

end Steps

end SmalltalkJit.Inlining
