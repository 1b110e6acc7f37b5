import SmalltalkJit.Optimizer.Layout

/-! # The walk over the hot method

What one original instruction adds to the emitted text, the literal frame, the
site map and the list of inlined sites, and from it, by induction over the
stream, where every original instruction stands in the finished text.
-/
namespace SmalltalkJit.Inlining
open Assembly List

variable (input : Input)

/-- An instruction that passes through, with its jump aimed at a label. -/
def passThrough (offset : ℕ) (i : Instr ℤ) : Instr Label :=
  i.mapTarget fun d => .orig (jumpTarget (offset + i.size) d)

inductive SendOutcome (opt : Optimizer) (site selector : ℕ) (receiver : Operand)
    (args : List Operand) (result : Option Operand) : Optimizer → Prop
  | static : isDynamic input selector receiver args = false →
      SendOutcome opt site selector receiver args result
        { opt with text := opt.text ++ [.instr (emitSend selector receiver args result)] }
  | outOfCells : isDynamic input selector receiver args = true →
      input.oldCells.length ≤ opt.oldSiteIndex →
      SendOutcome opt site selector receiver args result
        { opt with
          text := opt.text ++ [.instr (emitSend selector receiver args result)]
          oldSiteIndex := opt.oldSiteIndex+1 }
  | kept : isDynamic input selector receiver args = true → opt.oldSiteIndex < input.oldCells.length →
      SendOutcome opt site selector receiver args result
        { opt with
          text := opt.text ++ [.instr (emitSend selector receiver args result)]
          oldSiteIndex := opt.oldSiteIndex+1
          siteMap := opt.siteMap ++ [(instructionCount opt.text,.cell opt.oldSiteIndex)] }
  | inlined {guardClass : Oop} {callee : CompiledCode} :
      isDynamic input selector receiver args = true → opt.oldSiteIndex < input.oldCells.length →
      inlineTarget input opt.literals.length opt.oldSiteIndex selector receiver args result =
        some (guardClass,callee) →
      SendOutcome opt site selector receiver args result
        { text := opt.text ++
            (inlinedItems input opt.literals site selector receiver args result guardClass callee).1
          literals := (inlinedItems input opt.literals site selector receiver args result guardClass callee).2
          inlineAreaSize := max opt.inlineAreaSize (1 + args.length + callee.header.tempsSize)
          oldSiteIndex := opt.oldSiteIndex+1
          siteMap := opt.siteMap ++ [(instructionCount opt.text,.specGuard)]
          inlined := opt.inlined ++ [⟨site,opt.oldSiteIndex,selector,guardClass⟩] }

variable (opt : Optimizer)

theorem optimizeSend_outcome : SendOutcome input opt site selector receiver args result
      (optimizeSend input opt site selector receiver args result) := by
  unfold optimizeSend assignedCell
  cases hd : isDynamic input selector receiver args with
  | false => exact .static hd
  | true =>
    by_cases hlt : opt.oldSiteIndex < input.oldCells.length
    · simp only [hlt,decide_true,Bool.and_true,↓reduceIte]
      by_cases ha : args.length ≤ optMaxArgs
      · simp only [ha,↓reduceIte,tryInlineSite]
        cases ht : inlineTarget input opt.literals.length opt.oldSiteIndex selector receiver args result with
        | none => exact .kept hd hlt
        | some => exact .inlined hd hlt ht
      · simp only [ha,↓reduceIte]
        exact .kept hd hlt
    · simp only [hlt,decide_false,Bool.and_false,↓reduceIte]
      exact .outOfCells hd (by omega)

theorem optimizeInstr_cases (offset : ℕ) (i : Instr ℤ) :
    (∃ selector receiver args result, i = emitSend selector receiver args result ∧
      SendOutcome input { opt with text := opt.text ++ [.label (.orig offset)] } offset selector
        receiver args result (optimizeInstr input opt offset i)) ∨
    ((∀ selector receiver args result, i ≠ emitSend selector receiver args result) ∧
      optimizeInstr input opt offset i =
        { opt with
          text := opt.text ++ [.label (.orig offset)] ++ [.instr (passThrough offset i)] }) := by
  cases i with
  | send selector receiver args =>
    exact Or.inl ⟨selector,receiver,args,none,rfl,optimizeSend_outcome input _⟩
  | sendWithStore selector receiver args result =>
    exact Or.inl ⟨selector,receiver,args,some result,rfl,optimizeSend_outcome input _⟩
  | _ =>
    refine Or.inr ⟨?_,rfl⟩
    intro selector receiver args result
    cases result <;> simp [emitSend]

theorem passThrough_emitSend (offset selector : ℕ) (receiver : Operand) (args : List Operand)
    (result : Option Operand) : passThrough offset (emitSend selector receiver args result) =
      emitSend selector receiver args result := by
  cases result <;> rfl

/-- The text of one instruction: it passes through, or it is an inlined send. -/
inductive Chunk (opt opt' : Optimizer) (offset : ℕ) (i : Instr ℤ) : Prop
  | raw : opt'.text = opt.text ++ [.label (.orig offset),.instr (passThrough offset i)] →
      opt'.literals = opt.literals → opt'.inlined = opt.inlined →
      opt'.inlineAreaSize = opt.inlineAreaSize → Chunk opt opt' offset i
  | inlined {selector : ℕ} {receiver : Operand} {args : List Operand} {result : Option Operand}
      {cell : ℕ} {guardClass : Oop} {callee : CompiledCode} :
      i = emitSend selector receiver args result →
      inlineTarget input opt.literals.length cell selector receiver args result =
        some (guardClass,callee) →
      opt'.text = opt.text ++ .label (.orig offset) ::
        (inlinedItems input opt.literals offset selector receiver args result guardClass callee).1 →
      opt'.literals =
        (inlinedItems input opt.literals offset selector receiver args result guardClass callee).2 →
      opt'.inlined = opt.inlined ++ [⟨offset,cell,selector,guardClass⟩] →
      opt'.inlineAreaSize = max opt.inlineAreaSize (1 + args.length + callee.header.tempsSize) →
      Chunk opt opt' offset i

theorem optimizeInstr_chunk (offset : ℕ) (i : Instr ℤ) :
    Chunk input opt (optimizeInstr input opt offset i) offset i := by
  rcases optimizeInstr_cases input opt offset i with ⟨sel,rec,args,res,hi,hout⟩ | ⟨-,heq⟩
  · generalize optimizeInstr input opt offset i = opt' at hout ⊢
    subst hi
    cases hout with
    | static | outOfCells | kept => exact .raw (by simp [passThrough_emitSend]) rfl rfl rfl
    | inlined _ _ ht => exact .inlined rfl ht (by simp) rfl rfl rfl
  · rw [heq]
    exact .raw (by simp) rfl rfl rfl

theorem Chunk.literals_grow {opt opt' : Optimizer}
    (h : Chunk input opt opt' offset i) : opt.literals <+: opt'.literals := by
  cases h with
  | raw _ hlit => exact hlit ▸ prefix_refl _
  | inlined _ _ _ hlit =>
    rw [hlit]
    exact ordCollAdd_grows.trans emitInlinedFrom_grows

theorem optimizeFrom_literals (offset : ℕ) (code : Bytecodes) :
    opt.literals <+: (optimizeFrom input opt offset code).literals := by
  induction code generalizing opt offset with
  | nil => exact prefix_refl _
  | cons i _ ih => exact (optimizeInstr_chunk input opt offset i).literals_grow.trans (ih _ _)

theorem optimizeFrom_text (offset : ℕ) (code : Bytecodes) : ∃ rest, (optimizeFrom input opt offset code).text =
      opt.text ++ .label (.orig offset) :: rest := by
  induction code generalizing opt offset with
  | nil => exact ⟨[],rfl⟩
  | cons i _ ih =>
    obtain ⟨rest,hr⟩ := ih (optimizeInstr input opt offset i) (offset + i.size)
    rw [optimizeFrom,hr]
    cases optimizeInstr_chunk input opt offset i with
    | raw hte | inlined _ _ hte => exact ⟨_,by rw [hte,append_assoc]; rfl⟩

theorem optimizeFrom_inlined (offset : ℕ) (code : Bytecodes) : ∃ sites, (optimizeFrom input opt offset code).inlined =
      opt.inlined ++ sites ∧ ∀ site ∈ sites, offset ≤ site.offset := by
  induction code generalizing opt offset with
  | nil => exact ⟨[],by simp [optimizeFrom],by simp⟩
  | cons i _ ih =>
    obtain ⟨sites,hsi,hge⟩ := ih (optimizeInstr input opt offset i) (offset + i.size)
    rw [optimizeFrom,hsi]
    cases optimizeInstr_chunk input opt offset i with
    | raw _ _ hin =>
      refine ⟨sites,by rw [hin],?_⟩
      intro site hs
      have h := hge site hs
      omega
    | inlined _ _ _ _ hin =>
      refine ⟨_,by rw [hin,append_assoc],?_⟩
      intro site hs
      rcases mem_append.mp hs with hs | hs
      · exact Nat.le_of_eq (congrArg InlinedSite.offset (mem_singleton.mp hs)).symm
      · have h := hge site hs
        omega

theorem optimizeFrom_split (offset : ℕ) (pre : Bytecodes) (i : Instr ℤ) (post : Bytecodes) :
    ∃ opt1 sites, optimizeFrom input opt offset (pre ++ i :: post) =
        optimizeFrom input (optimizeInstr input opt1 (offset + bytecodesSize pre) i)
          (offset + bytecodesSize pre + i.size) post ∧
      opt1.inlined = opt.inlined ++ sites ∧
      ∀ site ∈ sites, site.offset < offset + bytecodesSize pre := by
  induction pre generalizing opt offset with
  | nil => exact ⟨opt,[],rfl,by simp,by simp⟩
  | cons j pre ih =>
    have hj := j.size_pos
    have hsiz : bytecodesSize (j :: pre) = j.size + bytecodesSize pre := streamSize_cons j pre
    obtain ⟨opt1,sites,hf,hsi,hlt⟩ := ih (optimizeInstr input opt offset j) (offset + j.size)
    rw [hsiz,← Nat.add_assoc]
    cases optimizeInstr_chunk input opt offset j with
    | raw _ _ hin => exact ⟨opt1,sites,hf,hsi.trans (by rw [hin]),hlt⟩
    | inlined _ _ _ _ hin =>
      refine ⟨opt1,_,hf,hsi.trans (by rw [hin,append_assoc]),?_⟩
      intro site hs
      rcases mem_append.mp hs with hs | hs
      · have ho := congrArg InlinedSite.offset (mem_singleton.mp hs)
        simp only at ho
        omega
      · exact hlt site hs

def Optimizer.siteAt (offset : ℕ) : Option InlinedSite := opt.inlined.find? fun site => site.offset = offset

inductive Placed (final : Optimizer) (offset : ℕ) (i : Instr ℤ) : Prop
  | raw {k : ℕ} :
      At Instr.size final.text k [.label (.orig offset),.instr (passThrough offset i),
        .label (.orig ((offset + i.size : ℕ) : ℤ))] →
      final.siteAt offset = none → Placed final offset i
  | inlined {literals : List Oop} {selector : ℕ} {receiver : Operand} {args : List Operand}
      {result : Option Operand} {cell : ℕ} {guardClass : Oop} {callee : CompiledCode} {k : ℕ} :
      i = emitSend selector receiver args result →
      inlineTarget input literals.length cell selector receiver args result =
        some (guardClass,callee) →
      (inlinedItems input literals offset selector receiver args result guardClass callee).2 <+:
        final.literals →
      At Instr.size final.text k (.label (.orig offset) ::
        (inlinedItems input literals offset selector receiver args result guardClass callee).1 ++
        [.label (.orig ((offset + i.size : ℕ) : ℤ))]) →
      final.siteAt offset = some ⟨offset,cell,selector,guardClass⟩ → Placed final offset i

theorem find_site_none {sites : List InlinedSite} (h : ∀ site ∈ sites, site.offset ≠ offset) :
    sites.find? (fun site => site.offset = offset) = none := by
  rw [List.find?_eq_none]
  intro site hs
  simpa using h site hs

theorem optimizer_placed {pre : Bytecodes}
    (h : input.code.bytecodes = pre ++ i :: post) : Placed input (optimizer input) (bytecodesSize pre) i := by
  obtain ⟨opt1,sites,hf,hsi,hlt⟩ := optimizeFrom_split input (initial input) 0 pre i post
  simp only [Nat.zero_add,initial,nil_append] at hf hsi hlt
  have hfin : optimizer input = optimizeFrom input
      (optimizeInstr input opt1 (bytecodesSize pre) i) (bytecodesSize pre + i.size) post := by
    rw [optimizer,h,← hf]
    rfl
  obtain ⟨r,hr⟩ := optimizeFrom_text input (optimizeInstr input opt1 (bytecodesSize pre) i)
    (bytecodesSize pre + i.size) post
  obtain ⟨later,hl,hge⟩ := optimizeFrom_inlined input
    (optimizeInstr input opt1 (bytecodesSize pre) i) (bytecodesSize pre + i.size) post
  have hg := optimizeFrom_literals input (optimizeInstr input opt1 (bytecodesSize pre) i)
    (bytecodesSize pre + i.size) post
  rw [← hfin] at hr hl hg
  have hi := i.size_pos
  have hold : ∀ q ∈ opt1.inlined, q.offset ≠ bytecodesSize pre := by
    intro q hs
    exact Nat.ne_of_lt (hlt q (hsi ▸ hs))
  have hnew : ∀ q ∈ later, q.offset ≠ bytecodesSize pre := by
    intro q hs
    have hle := hge q hs
    omega
  cases optimizeInstr_chunk input opt1 (bytecodesSize pre) i with
  | raw hte _ hin =>
    refine .raw ⟨opt1.text,r,?_,rfl⟩ ?_
    · rw [hr,hte]
      simp
    · rw [Optimizer.siteAt,hl,hin]
      refine find_site_none ?_
      intro q hs
      rcases mem_append.mp hs with hs | hs
      · exact hold q hs
      · exact hnew q hs
  | inlined hse ht hte hlit hin =>
    refine .inlined hse ht (hlit ▸ hg) ⟨opt1.text,r,?_,rfl⟩ ?_
    · rw [hr,hte]
      simp
    · rw [Optimizer.siteAt,hl,hin,append_assoc,List.find?_append,find_site_none hold]
      simp

theorem optimizeFrom_last (offset : ℕ) (code : Bytecodes) : ∃ items, (optimizeFrom input opt offset code).text =
      items ++ [.label (.orig ((offset + bytecodesSize code : ℕ) : ℤ))] := by
  induction code generalizing opt offset with
  | nil => exact ⟨opt.text,rfl⟩
  | cons i _ ih =>
    obtain ⟨items,hi⟩ := ih (optimizeInstr input opt offset i) (offset + i.size)
    exact ⟨items,by simp only [optimizeFrom,hi,streamSize_cons,Nat.add_assoc]⟩

def Label.site : Label → ℤ
  | .orig target => target
  | .callee site _ | .exit site | .fallback site | .done site => site

theorem labels_spillArgs (dest : ℕ) (args : List Operand) : labels (spillArgs dest args) = [] := by
  induction args generalizing dest with
  | nil => rfl
  | cons _ _ ih => exact ih (dest+1)

section Inlined
variable (literals : List Oop) (site selector : ℕ) (receiver : Operand) (args : List Operand)
  (result : Option Operand) (guardClass : Oop) (callee : CompiledCode)

theorem labels_inlinedItems :
    labels (inlinedItems input literals site selector receiver args result guardClass callee).1 =
      ((starts 0 callee.bytecodes ++ [bytecodesSize callee.bytecodes]).map
        fun o : ℕ => Label.callee site o) ++ [.exit site,.fallback site,.done site] := by
  simp [inlinedItems,labels,labels_spillArgs,labels_emitInlinedBody]

theorem inlinedItems_labels_nodup :
    (labels (.label (.orig site) ::
      (inlinedItems input literals site selector receiver args result guardClass callee).1)).Nodup := by
  have hmap : ((starts 0 callee.bytecodes ++ [bytecodesSize callee.bytecodes]).map
      fun o : ℕ => Label.callee site o).Nodup := by
    refine List.Nodup.map ?_ (by simpa using starts_nodup 0 callee.bytecodes)
    intro a b hab
    simp only [Label.callee.injEq,true_and] at hab
    omega
  rw [labels,labels_inlinedItems,nodup_cons,nodup_append]
  refine ⟨by simp,hmap,by simp,?_⟩
  intro a ha b hb hab
  obtain ⟨o,-,rfl⟩ := mem_map.mp ha
  subst hab
  simp at hb

end Inlined

theorem Chunk.labels_eq {opt opt' : Optimizer} (h : Chunk input opt opt' offset i) :
    ∃ ls : List Label, labels opt'.text = labels opt.text ++ ls ∧ ls.Nodup ∧ ∀ l ∈ ls, l.site = offset := by
  cases h with
  | raw hte => exact ⟨[.orig offset],by rw [hte,labels_append]; rfl,by simp,by simp [Label.site]⟩
  | @inlined sel rec args res c guardClass callee hi ht hte =>
    refine ⟨_,by rw [hte,labels_append],inlinedItems_labels_nodup input _ _ _ _ _ _ _ _,?_⟩
    intro l hl
    rw [labels,labels_inlinedItems] at hl
    simp only [map_append,map_cons,map_nil,append_assoc,mem_cons,mem_append,mem_map,not_mem_nil,or_false] at hl
    rcases hl with rfl | ⟨o,-,rfl⟩ | hl | hl
    · rfl
    · rfl
    · rcases hl with rfl
      rfl
    · rcases hl with rfl | rfl | rfl <;> rfl

theorem optimizeFrom_labels_nodup (offset : ℕ) (code : Bytecodes) (hnd : (labels opt.text).Nodup)
    (hlt : ∀ l ∈ labels opt.text, l.site < offset) : (labels (optimizeFrom input opt offset code).text).Nodup := by
  induction code generalizing opt offset with
  | nil =>
    simp only [optimizeFrom,labels_append,labels]
    refine nodup_append.mpr ⟨hnd,by simp,?_⟩
    intro a ha b hb hab
    have hsi := hlt a ha
    rw [hab,mem_singleton.mp hb] at hsi
    exact Int.lt_irrefl _ hsi
  | cons i _ ih =>
    have hi := i.size_pos
    obtain ⟨ls,hls,hlsn,hs⟩ := (optimizeInstr_chunk input opt offset i).labels_eq
    refine ih _ _ ?_ ?_
    · rw [hls]
      refine nodup_append.mpr ⟨hnd,hlsn,?_⟩
      intro a ha b hb hab
      have h1 := hlt a ha
      have h2 := hs b hb
      rw [hab] at h1
      omega
    · intro l hl
      rw [hls] at hl
      rcases mem_append.mp hl with hl | hl
      · have h1 := hlt l hl
        omega
      · have h2 := hs l hl
        omega

theorem optimizer_labels_nodup : (labels (optimizer input).text).Nodup :=
  optimizeFrom_labels_nodup input _ _ _ (by simp [initial,labels]) (by simp [initial,labels])

end SmalltalkJit.Inlining
