import SmalltalkJit.Optimizer.Walk

/-! # Sends and their inline-cache cells

`generateSend` numbers the inline-cache sites of a method as it emits them, and
the optimizer numbers the dynamic sends of the same stream again to find their
cells. The two agree on every send but one whose receiver class is known while
the lookup of its selector fails: the code generator keeps a cell for it, the
optimizer does not count it.
-/
namespace SmalltalkJit.Inlining
open Assembly List Option

/-- How `generateSend` dispatches: no dispatch at all, a baked callee, or a cell. -/
inductive Dispatch
  | identity
  | devirtualized
  | ic
  deriving DecidableEq, Repr

def generateSend (image : Image) (code : CompiledCode) (selector : ℕ) (receiver : Operand)
    (argsSize : ℕ) : Dispatch :=
  if classifyIdentity image (code.literalAt selector) argsSize = .none then
    match resolveOperandClass image code receiver with
    | some cls =>
      if (lookupSelector (image.classAt cls) (code.literalAt selector)).isSome then .devirtualized
      else .ic
    | none => .ic
  else .identity

/-- A send of the original stream: its offset and the literal index of its selector. -/
structure SendSite where
  offset : ℕ
  selector : ℕ
  deriving DecidableEq, Repr

/-- The inline-cache site that an instruction at an offset becomes in tier 0. -/
def icSite (image : Image) (code : CompiledCode) (offset : ℕ) : Instr ℤ → Option SendSite
  | .send selector receiver args | .sendWithStore selector receiver args _ =>
    if generateSend image code selector receiver args.length = .ic then some ⟨offset,selector⟩
    else none
  | _ => none

/-- The sites that `site` finds along a stream. -/
def sitesFrom (site : ℕ → Instr ℤ → Option SendSite) : ℕ → Bytecodes → List SendSite
  | _, [] => []
  | offset, i :: rest => (site offset i).toList ++ sitesFrom site (offset + i.size) rest

variable (input : Input)

def icSites : List SendSite := sitesFrom (icSite input.image input.code) 0 input.code.bytecodes

/-- The site that the optimizer counts for an instruction. -/
def dynamicSite (offset : ℕ) : Instr ℤ → Option SendSite
  | .send selector receiver args | .sendWithStore selector receiver args _ =>
    if isDynamic input selector receiver args then some ⟨offset,selector⟩ else none
  | _ => none

def assignment (opt : Optimizer) (offset : ℕ) : Instr ℤ → Option (ℕ × SendSite)
  | .send selector receiver args | .sendWithStore selector receiver args _ =>
    (assignedCell input opt selector receiver args).map fun cell => (cell,⟨offset,selector⟩)
  | _ => none

def assignmentsFrom (opt : Optimizer) : ℕ → Bytecodes → List (ℕ × SendSite)
  | _, [] => []
  | offset, i :: rest => (assignment input opt offset i).toList ++
      assignmentsFrom (optimizeInstr input opt offset i) (offset + i.size) rest

def assignments : List (ℕ × SendSite) := assignmentsFrom input (initial input) 0 input.code.bytecodes

/-- A send the code generator cannot devirtualize although it knows the receiver's class. -/
def StaticMiss : Instr ℤ → Prop
  | .send selector receiver args | .sendWithStore selector receiver args _ =>
    classifyIdentity input.image (input.code.literalAt selector) args.length = .none ∧
    ∃ cls, resolveOperandClass input.image input.code receiver = some cls ∧
      lookupSelector (input.image.classAt cls) (input.code.literalAt selector) = none
  | _ => False

/-- Cell and site belong together, for every cell that is assigned, forwarded to the code
generator, or consumed by a guard. -/
structure CellsPaired : Prop where
  assigned : ∀ cell site, (cell,site) ∈ assignments input ↔ (icSites input)[cell]? = some site
  forwarded : ∀ number cell, (number,.cell cell) ∈ (optimizer input).siteMap →
    ∃ site receiver args result, (icSites input)[cell]? = some site ∧
      (optimizedCode input).bytecodes[number]? = some (emitSend site.selector receiver args result)
  guarded : ∀ site ∈ (optimizer input).inlined,
    (icSites input)[site.cell]? = some ⟨site.offset,site.selector⟩

variable {code : Bytecodes}

section Sites
theorem mem_sitesFrom : s ∈ sitesFrom site offset code ↔
      ∃ pre i post, code = pre ++ i :: post ∧ site (offset + bytecodesSize pre) i = some s := by
  induction code generalizing offset with
  | nil => simp [sitesFrom]
  | cons j r ih =>
    rw [sitesFrom,mem_append,mem_toList,ih]
    constructor
    · rintro (h | ⟨pre,i,post,rfl,h⟩)
      · exact ⟨[],j,r,rfl,h⟩
      · refine ⟨j :: pre,i,post,rfl,?_⟩
        rwa [bytecodesSize_cons,← Nat.add_assoc]
    · rintro ⟨pre,i,post,hc,h⟩
      cases pre with
      | nil =>
        obtain ⟨rfl,rfl⟩ := List.cons.inj hc
        exact Or.inl h
      | cons _ pre =>
        obtain ⟨rfl,rfl⟩ := List.cons.inj hc
        rw [bytecodesSize_cons,← Nat.add_assoc] at h
        exact Or.inr ⟨pre,i,post,rfl,h⟩

theorem sitesFrom_congr (h : ∀ i ∈ code, ∀ offset, site offset i = site' offset i) (offset : ℕ) :
    sitesFrom site offset code = sitesFrom site' offset code := by
  induction code generalizing offset with
  | nil => rfl
  | cons i _ ih => rw [sitesFrom,sitesFrom,h i mem_cons_self,ih fun j hj => h j (mem_cons_of_mem i hj)]

end Sites

theorem generateSend_eq_ic (selector : ℕ) (receiver : Operand) (args : List Operand) :
    generateSend input.image input.code selector receiver args.length = .ic ↔
      isDynamic input selector receiver args = true ∨
      (classifyIdentity input.image (input.code.literalAt selector) args.length = .none ∧
        ∃ cls, resolveOperandClass input.image input.code receiver = some cls ∧
          lookupSelector (input.image.classAt cls) (input.code.literalAt selector) = none) := by
  unfold generateSend isDynamic
  by_cases hid : classifyIdentity input.image (input.code.literalAt selector) args.length = .none
  · rw [if_pos hid]
    cases hcls : resolveOperandClass input.image input.code receiver with
    | none => simp [hid]
    | some cls =>
      cases hl : lookupSelector (input.image.classAt cls) (input.code.literalAt selector) with
      | none => simp [hid,hl]
      | some => simp [hl]
  · rw [if_neg hid]
    simp [hid]

variable {i : Instr ℤ}

theorem icSite_eq_dynamicSite (h : ¬StaticMiss input i) (offset : ℕ) :
    icSite input.image input.code offset i = dynamicSite input offset i := by
  cases i with
  | send | sendWithStore =>
    simp only [StaticMiss] at h
    simp only [icSite,dynamicSite,generateSend_eq_ic,or_iff_left h]
  | _ => rfl

theorem icSite_of_staticMiss (h : StaticMiss input i) (offset : ℕ) :
    ∃ selector, icSite input.image input.code offset i = some ⟨offset,selector⟩ := by
  cases i with
  | send selector rec args | sendWithStore selector rec args =>
    exact ⟨selector,if_pos ((generateSend_eq_ic input selector rec args).mpr (Or.inr h))⟩
  | _ => cases h

theorem dynamicSite_of_staticMiss (h : StaticMiss input i) (offset : ℕ) : dynamicSite input offset i = none := by
  cases i with
  | send | sendWithStore =>
    obtain ⟨-,cls,hcls,-⟩ := h
    simp [dynamicSite,isDynamic,hcls]
  | _ => rfl

variable {site : SendSite}

theorem dynamicSite_offset (h : dynamicSite input offset i = some site) : site.offset = offset := by
  unfold dynamicSite at h
  split at h <;> simp at h
  · exact h.2 ▸ rfl
  · exact h.2 ▸ rfl

variable {cell : ℕ}

section Walk
variable (opt : Optimizer) (offset : ℕ)

theorem assignment_eq (i : Instr ℤ) : assignment input opt offset i =
    if opt.oldSiteIndex < input.oldCells.length then
      (dynamicSite input offset i).map fun site => (opt.oldSiteIndex,site)
    else none := by
  cases i with
  | send sel rec args | sendWithStore sel rec args =>
    simp only [assignment,assignedCell,dynamicSite]
    by_cases hd : isDynamic input sel rec args <;>
      by_cases hlt : opt.oldSiteIndex < input.oldCells.length <;> simp [hd,hlt]
  | _ => simp [assignment,dynamicSite]

theorem dynamicSite_emitSend (selector : ℕ) (receiver : Operand) (args : List Operand)
    (result : Option Operand) : dynamicSite input offset (emitSend selector receiver args result) =
      if isDynamic input selector receiver args then some ⟨offset,selector⟩ else none := by
  cases result <;> rfl

theorem optimizeInstr_oldSiteIndex (i : Instr ℤ) : (optimizeInstr input opt offset i).oldSiteIndex =
    opt.oldSiteIndex + (dynamicSite input offset i).toList.length := by
  rcases optimizeInstr_cases input opt offset i with ⟨sel,rec,args,res,hi,hout⟩ | ⟨hne,heq⟩
  · generalize optimizeInstr input opt offset i = opt' at hout ⊢
    rw [hi,dynamicSite_emitSend]
    cases hout with
    | static hd | outOfCells hd | kept hd | inlined hd => simp [hd]
  · rw [heq]
    cases i with
    | send sel rec args => exact absurd rfl (hne sel rec args none)
    | sendWithStore sel rec args res => exact absurd rfl (hne sel rec args (some res))
    | _ => rfl

theorem mem_assignmentsFrom : (cell,site) ∈ assignmentsFrom input opt offset code ↔
      opt.oldSiteIndex ≤ cell ∧ cell < input.oldCells.length ∧
        (sitesFrom (dynamicSite input) offset code)[cell - opt.oldSiteIndex]? = some site := by
  induction code generalizing opt offset with
  | nil => simp [assignmentsFrom,sitesFrom]
  | cons i _ ih =>
    have hi := optimizeInstr_oldSiteIndex input opt offset i
    rw [assignmentsFrom,sitesFrom,mem_append,mem_toList,ih,hi,assignment_eq]
    cases hd : dynamicSite input offset i with
    | none => simp
    | some =>
      rcases Nat.lt_trichotomy cell opt.oldSiteIndex with hc | rfl | hc
      · have hle : ¬opt.oldSiteIndex ≤ cell := by omega
        have hle' : ¬opt.oldSiteIndex+1 ≤ cell := by omega
        have hne : opt.oldSiteIndex ≠ cell := by omega
        simp [hle,hle',hne]
      · have hle : ¬opt.oldSiteIndex+1 ≤ opt.oldSiteIndex := by omega
        simp [hle]
      · obtain ⟨k,rfl⟩ : ∃ k, cell = opt.oldSiteIndex+1 + k := ⟨cell - opt.oldSiteIndex-1,by omega⟩
        have hsub : opt.oldSiteIndex+1 + k - opt.oldSiteIndex = k+1 := by omega
        have hsub' : opt.oldSiteIndex+1 + k - (opt.oldSiteIndex+1) = k := by omega
        have hle : opt.oldSiteIndex ≤ opt.oldSiteIndex+1 + k := by omega
        have hne : opt.oldSiteIndex ≠ opt.oldSiteIndex+1 + k := by omega
        simp [hsub,hsub',hle,hne]

theorem optimizeInstr_marks (i : Instr ℤ) :
    (∀ number cell, (number,SiteMark.cell cell) ∈ (optimizeInstr input opt offset i).siteMap →
      (number,SiteMark.cell cell) ∈ opt.siteMap ∨
      ∃ site receiver args result, assignment input opt offset i = some (cell,site) ∧
        (instrs (optimizeInstr input opt offset i).text)[number]? =
          some (emitSend site.selector receiver args result)) ∧
    ∀ s ∈ (optimizeInstr input opt offset i).inlined, s ∈ opt.inlined ∨
      assignment input opt offset i = some (s.cell,⟨s.offset,s.selector⟩) := by
  rcases optimizeInstr_cases input opt offset i with ⟨selector,receiver,args,result,hi,hout⟩ | ⟨-,heq⟩
  · generalize optimizeInstr input opt offset i = opt' at hout ⊢
    rw [hi,assignment_eq,dynamicSite_emitSend]
    cases hout with
    | static | outOfCells => exact ⟨fun _ _ h => Or.inl h,fun _ h => Or.inl h⟩
    | kept hd hlt =>
      refine ⟨?_,fun _ h => Or.inl h⟩
      intro number cell hmem
      rcases mem_append.mp hmem with hmem | hmem
      · exact Or.inl hmem
      · simp only [mem_singleton,Prod.mk.injEq,SiteMark.cell.injEq] at hmem
        obtain ⟨rfl,rfl⟩ := hmem
        refine Or.inr ⟨⟨offset,selector⟩,receiver,args,result,?_,?_⟩
        · have hlt' : opt.oldSiteIndex < input.oldCells.length := hlt
          simp [hd,hlt']
        · simp [instrs,instructionCount]
    | inlined hd hlt =>
      have hlt' : opt.oldSiteIndex < input.oldCells.length := hlt
      constructor
      · intro number cell hmem
        rcases mem_append.mp hmem with hmem | hmem
        · exact Or.inl hmem
        · simp at hmem
      · intro s hs
        rcases mem_append.mp hs with hs | hs
        · exact Or.inl hs
        · rw [mem_singleton.mp hs]
          simp [hd,hlt']
  · rw [heq]
    exact ⟨fun _ _ h => Or.inl h,fun _ h => Or.inl h⟩

theorem optimizeFrom_forwarded (code : Bytecodes)
    (h : (number,SiteMark.cell cell) ∈ (optimizeFrom input opt offset code).siteMap) :
    (number,SiteMark.cell cell) ∈ opt.siteMap ∨
    ∃ site receiver args result, (cell,site) ∈ assignmentsFrom input opt offset code ∧
      (instrs (optimizeFrom input opt offset code).text)[number]? =
        some (emitSend site.selector receiver args result) := by
  induction code generalizing opt offset with
  | nil => exact Or.inl h
  | cons i r ih =>
    rw [optimizeFrom] at h ⊢
    rcases ih _ _ h with h | ⟨site,receiver,args,result,hmem,hi⟩
    · rcases (optimizeInstr_marks input opt offset i).1 _ _ h with h | ⟨site,receiver,args,result,ha,hi⟩
      · exact Or.inl h
      · refine Or.inr ⟨site,receiver,args,result,?_,?_⟩
        · exact mem_append_left _ (mem_toList.mpr ha)
        · obtain ⟨more,hm⟩ := optimizeFrom_text input (optimizeInstr input opt offset i) (offset + i.size) r
          obtain ⟨hlt,-⟩ := List.getElem?_eq_some_iff.mp hi
          rw [hm,instrs_append,List.getElem?_append_left hlt]
          exact hi
    · exact Or.inr ⟨site,receiver,args,result,mem_append_right _ hmem,hi⟩

theorem optimizeFrom_guarded (code : Bytecodes) (h : s ∈ (optimizeFrom input opt offset code).inlined) :
    s ∈ opt.inlined ∨ (s.cell,⟨s.offset,s.selector⟩) ∈ assignmentsFrom input opt offset code := by
  induction code generalizing opt offset with
  | nil => exact Or.inl h
  | cons i _ ih =>
    rcases ih _ _ h with h | h
    · rcases (optimizeInstr_marks input opt offset i).2 _ h with h | h
      · exact Or.inl h
      · exact Or.inr (mem_append_left _ (mem_toList.mpr h))
    · exact Or.inr (mem_append_right _ h)

end Walk

theorem mem_assignments : (cell,site) ∈ assignments input ↔ cell < input.oldCells.length ∧
      (sitesFrom (dynamicSite input) 0 input.code.bytecodes)[cell]? = some site := by
  rw [assignments,mem_assignmentsFrom]
  simp [initial]

theorem assignments_of_forwarded (h : (number,.cell cell) ∈ (optimizer input).siteMap) :
    ∃ site receiver args result, (cell,site) ∈ assignments input ∧ (optimizedCode input).bytecodes[number]? =
      some (emitSend site.selector receiver args result) := by
  rcases optimizeFrom_forwarded input _ _ _ h with h | ⟨site,receiver,args,result,hmem,hi⟩
  · cases h
  · refine ⟨site,receiver,args,result,hmem,?_⟩
    have hget : (assembleFrom Instr.size (patch (optimizer input).text) 0 (optimizer input).text)[number]? = _ :=
      assembleFrom_getElem? _ 0 number
    rw [show (instrs (optimizer input).text)[number]? = _ from hi] at hget
    rw [show (optimizedCode input).bytecodes = assemble (optimizer input).text from rfl,assemble,hget]
    cases result <;> rfl

theorem assignments_of_inlined (h : s ∈ (optimizer input).inlined) :
    (s.cell,⟨s.offset,s.selector⟩) ∈ assignments input := by
  rcases optimizeFrom_guarded input _ _ _ h with h | h
  · cases h
  · exact h

theorem icSites_eq (h : ∀ i ∈ input.code.bytecodes, ¬StaticMiss input i) :
    icSites input = sitesFrom (dynamicSite input) 0 input.code.bytecodes :=
  sitesFrom_congr (fun i hi offset => icSite_eq_dynamicSite input (h i hi) offset) 0

theorem no_staticMiss_of_assigned
    (h : ∀ cell site, (icSites input)[cell]? = some site → (cell,site) ∈ assignments input) :
    ∀ i ∈ input.code.bytecodes, ¬StaticMiss input i := by
  intro i hi hm
  obtain ⟨pre,q,hc⟩ := append_of_mem hi
  obtain ⟨sel,hs⟩ := icSite_of_staticMiss input hm (bytecodesSize pre)
  have hmem : ⟨bytecodesSize pre,sel⟩ ∈ icSites input := mem_sitesFrom.mpr ⟨pre,i,q,hc,by simpa using hs⟩
  obtain ⟨cell,hcel⟩ := mem_iff_getElem?.mp hmem
  obtain ⟨-,hdyn⟩ := (mem_assignments input).mp (h cell _ hcel)
  obtain ⟨pre',i',q',hc',hs'⟩ := mem_sitesFrom.mp (mem_of_getElem? hdyn)
  rw [Nat.zero_add] at hs'
  -- both sites stand at one offset, so they are one instruction
  have ho : bytecodesSize pre = bytecodesSize pre' := dynamicSite_offset input hs'
  have hf : fetch Instr.size (pre ++ i :: q) (bytecodesSize pre) = some i := fetch_append Instr.size_pos pre i q
  have hf' : fetch Instr.size (pre' ++ i' :: q') (bytecodesSize pre') = some i' :=
    fetch_append Instr.size_pos pre' i' q'
  rw [← hc,hc',ho] at hf
  obtain rfl : i' = i := Option.some.inj (hf'.symm.trans hf)
  rw [dynamicSite_of_staticMiss input hm] at hs'
  cases hs'

/-- For the cells of the method's own tier-0 code: every cell goes to its send exactly when each
send whose receiver class is known finds its method there. -/
theorem cellsPaired_iff (hcells : input.oldCells.length = (icSites input).length) :
    CellsPaired input ↔ ∀ i ∈ input.code.bytecodes, ¬StaticMiss input i := by
  constructor
  · intro h
    exact no_staticMiss_of_assigned input fun cell site hs => (h.assigned cell site).mpr hs
  · intro h
    have ha : ∀ cell site, (cell,site) ∈ assignments input ↔ (icSites input)[cell]? = some site := by
      intro cell site
      rw [mem_assignments,hcells,icSites_eq input h]
      constructor
      · exact fun hs => hs.2
      · intro hs
        exact ⟨(List.getElem?_eq_some_iff.mp hs).1,hs⟩
    refine ⟨ha,?_,?_⟩
    · intro number cell hmem
      obtain ⟨site,rec,args,res,hs,hi⟩ := assignments_of_forwarded input hmem
      exact ⟨site,rec,args,res,(ha cell site).mp hs,hi⟩
    · intro s hs
      exact (ha _ _).mp (assignments_of_inlined input hs)

/-- A message to nil, then another one to the argument, in an image with the given methods. -/
def nilThenArgument (methods : List (Oop × CompiledCode)) : Input :=
  { image := .uniform methods
    tierInlineMax := 64
    code :=
      { isBlock := false
        header := ⟨1,0,false,0,0,0⟩
        literals := [20,21]
        ownerClass := 10
        bytecodes := [.send 0 .nil [],.send 1 (.argVar 2) []] }
    oldCells := [.mono 10,.unlinked] }

def answerSelfMethod : CompiledCode :=
  { isBlock := false
    header := ⟨0,0,false,0,0,0⟩
    literals := []
    ownerClass := 10
    bytecodes := [.ret (.argVar 1)] }

theorem cellsPaired_of_understood : CellsPaired { nilThenArgument [(20,answerSelfMethod),(21,answerSelfMethod)] with
      oldCells := [.mono 10] } := by
  refine (cellsPaired_iff _ (by decide)).mpr ?_
  intro i hi
  simp only [nilThenArgument,mem_cons,not_mem_nil,or_false] at hi
  rcases hi with rfl | rfl
  · simp [StaticMiss,nilThenArgument,Image.uniform,lookupSelector,CompiledCode.literalAt]
  · simp [StaticMiss,resolveOperandClass]

/-- Nil does not understand selector 20, so its send owns cell 0; the optimizer hands that cell to
the send of selector 21 and inlines what class 10 answers to it. -/
theorem cell_of_static_miss_shifts : icSites (nilThenArgument [(21,answerSelfMethod)]) = [⟨0,0⟩,⟨5,1⟩] ∧
    assignments (nilThenArgument [(21,answerSelfMethod)]) = [(0,⟨5,1⟩)] ∧
    (optimizer (nilThenArgument [(21,answerSelfMethod)])).inlined = [⟨5,0,1,10⟩] ∧
    ¬CellsPaired (nilThenArgument [(21,answerSelfMethod)]) := by
  refine ⟨by decide,by decide,by decide,?_⟩
  intro h
  have hz := (h.assigned 0 ⟨0,0⟩).mpr (by decide)
  revert hz
  decide

end SmalltalkJit.Inlining
