import SmalltalkJit.Jit.Tracking

/-! # The accessors of variables keep the flags true

One lemma for each function that fills, moves, stores or pushes a variable, a
context or an operand: if the flags are right before, the variables it touches
are live and their registers are clear, every use it emits gets the right value
and the flags are right afterwards.
-/
namespace SmalltalkJit.Jit
open Assembly Emission Function List Safe

section Variables
variable {V : Type} {nil : V} {alloc : RegsAlloc} {code : Bytecodes}
variable {live : Var → Prop} {reads : ℕ → Prop} {flags : Flags} {s : MachineState V} {v : Var}

structure Usable (alloc : RegsAlloc) (live : Var → Prop) (flags : Flags) (v : Var) : Prop where
  alive : ∀ index, 1 ≤ index → v = .tmp index → live v
  clear : Clear alloc live flags v
  defined : alloc.Defines v

section
variable (h : Tracks nil alloc live reads flags s) (husable : Usable alloc live flags v)
  (hstack : alloc.frameLess = true → flags.inReg v = false → ∀ index, 1 ≤ index → v = .tmp index →
    flags.onStack v = true)
include h husable hstack

theorem fillVar_safe : Runs nil (fillVar alloc v flags).2 (fun t =>
    Tracks nil alloc live reads (fillVar alloc v flags).1 t ∧ ∀ r, alloc.reg v = some r → Gets t v (t.regs r)) s := by
  unfold fillVar
  cases hin : flags.inReg v with
  | true =>
    refine ⟨h,?_⟩
    rintro r hreg index hpos rfl
    exact h.cached index r hpos (husable.alive index hpos rfl) hin hreg
  | false =>
    cases hreg : alloc.reg v with
    | none => exact ⟨h,nofun⟩
    | some r =>
      have hva : Gets s v (s.slots alloc.base (alloc.frameOffset v)) := by
        rintro index hpos rfl
        cases hf : alloc.frameLess with
        | false =>
          simp only [RegsAlloc.base,hf,Bool.false_eq_true,↓reduceIte]
          exact h.homed hf index hpos husable.defined
        | true =>
          simp only [RegsAlloc.base,hf,↓reduceIte]
          exact h.passed hf index hpos (hstack hf hin index hpos rfl) hin
      simp only [Bool.false_eq_true,↓reduceIte,safe_fill,safe_nil]
      refine ⟨h.fill husable.clear hreg hva,?_⟩
      rintro q ⟨⟩
      exact (hva.setReg r : Gets _ v (sourceValue nil _ (.reg r)))

theorem fillVar_use (hreg : alloc.reg v = some r)
    (hops : ∀ t, Tracks nil alloc live reads (fillVar alloc v flags).1 t → Runs nil ops Post t) :
    Runs nil ((fillVar alloc v).andThen (emit (useVar (.reg r) v ++ ops)) flags).2 Post s := by
  refine andThen ((fillVar_safe h husable hstack).mono ?_)
  rintro t ⟨ht,hva⟩
  exact safe_useVar (hva r hreg) (hops t ht)

end

section
variable (hs : alloc.Sound code) (h : Tracks nil alloc live reads flags s) (husable : Usable alloc live flags v)
  (hreads : ∀ index, 1 ≤ index → v = .tmp index → reads index)
include hs h husable hreads

theorem movVar_safe (dest : Reg) :
    Keeps nil alloc (fun w => live w ∧ alloc.reg w ≠ some dest) reads (movVar alloc v dest) flags s := by
  have hnil : flags.onStack v = false → Runs nil (.loadNil dest :: useVar (.reg dest) v)
      (fun t => Tracks nil alloc (fun w => live w ∧ alloc.reg w ≠ some dest) reads flags t) s := by
    intro hstack
    rw [safe_loadNil]
    exact safe_use ((h.gets_nil hreads hstack).setReg dest) h.clobber
  unfold Keeps movVar
  cases hreg : alloc.reg v with
  | none =>
    have hf : alloc.frameLess = false := by
      by_contra hl
      have hso := hs.spilled (by simpa using hl) v husable.defined
      simp [hreg] at hso
    cases hstack : flags.onStack v with
    | false => exact hnil hstack
    | true =>
      simp only [↓reduceIte,safe_fill]
      refine safe_use (Gets.setReg ?_ dest) h.clobber
      rintro index hpos rfl
      exact h.homed hf index hpos husable.defined
  | some =>
    by_cases hg : (flags.inReg v || flags.onStack v) = true
    · simp only [hg,↓reduceIte]
      exact fillVar_use h husable (fun _ hin _ _ _ => by simpa [hin] using hg) hreg
        fun t ht => safe_move.mpr ht.clobber
    · simp only [hg,Bool.false_eq_true,↓reduceIte]
      simp only [Bool.or_eq_true,not_or,Bool.not_eq_true] at hg
      exact hnil hg.2

theorem fillVarToReg_safe (hstack : alloc.frameLess = true → flags.onStack v = true)
    (hsc : scratch ∉ availableRegs) : Keeps nil alloc live reads (fillVarToReg alloc v scratch) flags s := by
  unfold Keeps fillVarToReg
  cases hreg : alloc.reg v with
  | none => exact (movVar_safe hs h husable hreads scratch).mono fun t => Tracks.unclobber hs hsc
  | some r =>
    dsimp only
    rw [← append_nil (useVar (.reg r) v)]
    exact fillVar_use h husable (fun hf _ _ _ _ => hstack hf) hreg fun t ht => ht

end

theorem clear_context (hs : alloc.Sound code) : Clear alloc live flags (.tmp contextIndex) := by
  intro r index hreg hpos _ _ _
  rcases hs.pool _ _ hreg with ⟨-,rfl⟩ | ⟨hne,-⟩
  · exact not_pool hs (by decide) hpos
  · exact absurd rfl hne

def SameTemps (flags flags' : Flags) : Prop :=
  ∀ index, 1 ≤ index → flags'.inReg (.tmp index) = flags.inReg (.tmp index) ∧
    flags'.onStack (.tmp index) = flags.onStack (.tmp index)

variable {flags' : Flags}

theorem Tracks.congr (h : Tracks nil alloc live reads flags s) (hsa : SameTemps flags flags') :
    Tracks nil alloc live reads flags' s := by
  refine ⟨?_,h.homed,?_,?_,?_⟩
  · intro index r hpos hl hin
    exact h.cached index r hpos hl ((hsa index hpos).1 ▸ hin)
  · intro hf index hpos hstack hin
    exact h.passed hf index hpos ((hsa index hpos).2 ▸ hstack) ((hsa index hpos).1 ▸ hin)
  · intro index hpos hr hstack
    exact h.unset index hpos hr ((hsa index hpos).2 ▸ hstack)
  · rw [(hsa selfIndex (Nat.le_refl 1)).2]
    exact h.self

theorem Clear.congr (h : Clear alloc live flags v) (hsa : SameTemps flags flags') : Clear alloc live flags' v :=
  fun r index hreg hpos hne hl hin => h r index hreg hpos hne hl ((hsa index hpos).1 ▸ hin)

section
variable (hv : ∀ index, 1 ≤ index → v ≠ .tmp index)
include hv

theorem sameTemps_setInReg : SameTemps flags (flags.setInReg v) :=
  fun index hpos => ⟨update_of_ne (hv index hpos).symm _ _,rfl⟩

theorem sameTemps_setOnStack : SameTemps flags (flags.setOnStack v) :=
  fun index hpos => ⟨rfl,update_of_ne (hv index hpos).symm _ _⟩

theorem sameTemps_fillVar : SameTemps flags (fillVar alloc v flags).1 := by
  have hr : SameTemps flags flags := fun _ _ => ⟨rfl,rfl⟩
  unfold fillVar
  split
  · exact hr
  · split
    · exact sameTemps_setInReg hv
    · exact hr

end

theorem contextVar_ne_tmp {level index : ℕ} (hpos : 1 ≤ index) : contextVar level ≠ .tmp index := by
  unfold contextVar
  split
  · intro heq
    injection heq with hi
    rw [← hi] at hpos
    cases hpos
  · simp

variable {index : ℕ}

theorem fillAssoc_safe (h : Tracks nil alloc live reads flags s) (hi : index < 256)
    (hc : Clear alloc live flags (.assoc index)) : Keeps nil alloc live reads (fillAssoc alloc index) flags s := by
  unfold Keeps fillAssoc
  rw [Nat.mod_eq_of_lt hi]
  split
  · exact h
  · cases hreg : alloc.reg (.assoc index) with
    | none => exact h
    | some =>
      simp only [safe_load,safe_nil]
      exact fun x => h.fill hc hreg fun _ _ hv => by cases hv

section
variable (hs : alloc.Sound code) (h : Tracks nil alloc live reads flags s)
include hs h

theorem fillContextVar_safe : Keeps nil alloc live reads (fillVar alloc (.tmp contextIndex)) flags s := by
  have hnot : ∀ index, 1 ≤ index → Var.tmp contextIndex ≠ .tmp index := by
    rintro _ hpos ⟨⟩
    cases hpos
  refine (fillVar_safe h ⟨fun index hpos hv => absurd hv (hnot index hpos),clear_context hs,hs.context.1⟩ ?_).mono
    fun t ht => ht.1
  exact fun _ _ index hpos hv => absurd hv (hnot index hpos)

theorem Tracks.setSlotContext (x : V) :
    Tracks nil alloc live reads flags (s.setSlot (alloc.frameOffset (.tmp contextIndex)) x) := by
  refine { h with homed := ?_, passed := ?_ }
  · intro hf index hpos hd
    have hne : alloc.frameOffset (.tmp index) ≠ alloc.frameOffset (.tmp contextIndex) := by
      intro heq
      rw [hs.offsets index contextIndex hd hs.context.1 heq] at hpos
      cases hpos
    simpa [hne] using h.homed hf index hpos hd
  · intro hf index hpos hstack hin
    simpa using h.passed hf index hpos hstack hin

theorem fillContext_safe (hc : Clear alloc live flags (contextVar level)) :
    Keeps nil alloc live reads (fillContext alloc level) flags s := by
  have hown : ∀ index, 1 ≤ index → contextVar 0 ≠ .tmp index := fun _ hpos => contextVar_ne_tmp hpos
  have hl : ∀ index, 1 ≤ index → contextVar level ≠ .tmp index := fun _ hpos => contextVar_ne_tmp hpos
  unfold Keeps fillContext
  split
  · exact h
  · split
    · rename_i hz
      obtain rfl : level = 0 := hz.1
      exact fillContextVar_safe hs h
    · cases hreg : alloc.reg (contextVar level) with
      | none => exact h
      | some =>
        refine andThen ((fillContextVar_safe hs h).mono ?_)
        intro t ht
        have hsa : SameTemps flags (fillVar alloc (.tmp contextIndex) flags).1 := sameTemps_fillVar hown
        by_cases hz : level = 0
        · subst hz
          simp only [Emitter.andThen,emit,track,↓reduceIte,nil_append,spillVar,hreg,safe_spill,safe_nil]
          exact ((ht.congr (sameTemps_setInReg hown)).congr (sameTemps_setOnStack hown)).setSlotContext hs _
        · simp only [Emitter.andThen,emit,track,hz,↓reduceIte,skip,append_nil,safe_load,safe_nil]
          intro x
          refine ht.fill (hc.congr hsa) hreg ?_
          intro index hpos hv
          exact absurd hv (hl index hpos)

theorem fillContextToReg_safe (hc : Clear alloc live flags (contextVar level)) (hsc : scratch ∉ availableRegs) :
    Keeps nil alloc live reads (fillContextToReg alloc level scratch) flags s := by
  unfold Keeps fillContextToReg
  cases alloc.reg (contextVar level) with
  | some => exact fillContext_safe hs h hc
  | none =>
    refine andThen ((fillContextVar_safe hs h).mono ?_)
    intro t ht
    by_cases hz : level = 0
    · simp only [emit,hz,↓reduceIte,safe_nil]
      exact ht
    · simp only [emit,hz,↓reduceIte,safe_load,safe_nil]
      exact fun x => ht.scratch hs hsc

theorem generateLoadBlock_safe (hf : alloc.frameLess = false) (hsel : live (.tmp selfIndex))
    (hreads : reads selfIndex) :
    Keeps nil alloc live reads (generateLoadBlock alloc) flags s := by
  have hn : Tracks nil alloc (fun _ => False) reads flags s := h.mono fun _ _ hl => hl.elim
  refine andThen ?_
  simp only [emit,safe_load]
  intro x y
  refine safe_call fun regs => ?_
  have ht : Tracks nil alloc live reads (invalidateRegs flags)
      { (s.setReg .rsi x).setReg .rdx y with regs := regs } :=
    ((hn.setReg fun _ _ hl => hl.elim).setReg fun _ _ hl => hl.elim).forget hf regs
  refine andThen (andThen ((fillContextVar_safe hs ht).mono ?_))
  intro t' ht'
  refine andThen ?_
  simp only [emit,safe_load,safe_nil]
  intro z
  have hc : Clear alloc live (fillVar alloc (.tmp contextIndex) (invalidateRegs flags)).1 (.tmp selfIndex) := by
    have hi : Clear alloc live (invalidateRegs flags) (.tmp selfIndex) := fun _ _ _ _ _ _ hin => by cases hin
    refine hi.congr (sameTemps_fillVar ?_)
    exact fun _ hpos => @contextVar_ne_tmp 0 _ hpos
  refine fillVarToReg_safe hs (ht'.scratch hs (by decide))
    ⟨fun _ _ _ => hsel,hc,(hs.args selfIndex (Nat.le_refl 1) (Nat.le_add_left 1 _)).1⟩ ?_ ?_ (by decide)
  · intro index _ hv
    injection hv with hind
    exact hind ▸ hreads
  · simp [hf]

section
variable (husable : Usable alloc live flags v) (hreads : ∀ index, 1 ≤ index → v = .tmp index → reads index)
include husable hreads

theorem pushVar_safe (hf : alloc.frameLess = false) : Keeps nil alloc live reads (pushVar alloc v) flags s := by
  have hsl : Runs nil (useVar (.slot (alloc.frameOffset v)) v) (fun t => Tracks nil alloc live reads flags t) s := by
    refine safe_use ?_ h
    rintro index hpos rfl
    exact h.homed hf index hpos husable.defined
  have hnil : flags.onStack v = false → Gets s v nil := h.gets_nil hreads
  unfold Keeps pushVar
  cases hreg : alloc.reg v with
  | none =>
    cases hstack : flags.onStack v with
    | true => exact hsl
    | false =>
      simp only [Bool.false_eq_true,↓reduceIte,safe_loadNil]
      exact safe_use ((hnil hstack).setReg _) (h.scratch hs (by decide))
  | some r =>
    cases hin : flags.inReg v with
    | true =>
      refine safe_use ?_ h
      rintro index hpos rfl
      exact h.cached index r hpos (husable.alive index hpos rfl) hin hreg
    | false =>
      cases hstack : flags.onStack v with
      | true => exact hsl
      | false =>
        simp only [Bool.false_eq_true,↓reduceIte,safe_loadNil]
        exact safe_use ((hnil hstack).setReg r) (h.fill husable.clear hreg (hnil hstack))

theorem copySource_safe : Keeps nil alloc live reads (copySource alloc v) flags s := by
  unfold Keeps copySource
  cases hreg : alloc.reg v with
  | none => exact (movVar_safe hs h husable hreads .rax).mono fun t => Tracks.unclobber hs (by decide)
  | some r =>
    by_cases hg : (flags.inReg v || flags.onStack v) = true
    · simp only [hg,↓reduceIte]
      rw [← append_nil (useVar (.reg r) v)]
      exact fillVar_use h husable (fun _ hin _ _ _ => by simpa [hin] using hg) hreg fun t ht => ht
    · simp only [hg,Bool.false_eq_true,↓reduceIte,safe_loadNil]
      simp only [Bool.or_eq_true,not_or,Bool.not_eq_true] at hg
      have hnil := h.gets_nil hreads hg.2
      exact safe_use (hnil.setReg r) (h.fill husable.clear hreg hnil)

end

end

theorem Tracks.write (hs : alloc.Sound code)
    (h : Tracks nil alloc live' reads flags s) (hd : alloc.Defines (.tmp index))
    (hvar : s'.vars = Function.update s.vars index x)
    (hsl : s'.slots = (s.setSlot (alloc.frameOffset (.tmp index)) x).slots)
    (hreg : ∀ j q, j ≠ index → 1 ≤ j → live (.tmp j) → flags.inReg (.tmp j) = true →
      alloc.reg (.tmp j) = some q → live' (.tmp j) ∧ s'.regs q = s.regs q)
    (hown : ∀ q, flags'.inReg (.tmp index) = true → alloc.reg (.tmp index) = some q → s'.regs q = x)
    (hf : ∀ j, j ≠ index → flags'.inReg (.tmp j) = flags.inReg (.tmp j) ∧
      flags'.onStack (.tmp j) = flags.onStack (.tmp j))
    (hstack : flags'.onStack (.tmp index) = true) (hin : alloc.frameLess = true → flags'.inReg (.tmp index) = true) :
    Tracks nil alloc live reads flags' s' := by
  constructor
  · intro j q hpos hl hj hq
    by_cases heq : j = index
    · subst heq
      rw [hvar,update_self]
      exact hown q hj hq
    · rw [(hf j heq).1] at hj
      obtain ⟨hl',hsa⟩ := hreg j q heq hpos hl hj hq
      rw [hvar,update_of_ne heq,hsa]
      exact h.cached j q hpos hl' hj hq
  · intro hfr j hpos hj
    rw [hvar,hsl]
    by_cases heq : j = index
    · subst heq
      simp
    · have ho : alloc.frameOffset (.tmp j) ≠ alloc.frameOffset (.tmp index) :=
        fun hsa => heq (hs.offsets j index hj hd hsa)
      simpa [ho,heq] using h.homed hfr j hpos hj
  · intro hfr j hpos hj hnot
    have heq : j ≠ index := by
      rintro rfl
      rw [hin hfr] at hnot
      cases hnot
    rw [(hf j heq).1] at hnot
    rw [(hf j heq).2] at hj
    rw [hvar,hsl]
    simpa [heq] using h.passed hfr j hpos hj hnot
  · intro j hpos hr hj
    have heq : j ≠ index := by
      rintro rfl
      rw [hstack] at hj
      cases hj
    rw [(hf j heq).2] at hj
    rw [hvar,update_of_ne heq]
    exact h.unset j hpos hr hj
  · by_cases heq : selfIndex = index
    · rw [heq]
      exact hstack
    · rw [(hf selfIndex heq).2]
      exact h.self

theorem tmp_ne (h : j ≠ index) : Var.tmp j ≠ .tmp index := fun heq => h (by injection heq)

theorem Tracks.store (hs : alloc.Sound code) (hreg : alloc.reg (.tmp index) = some r)
    (h : Tracks nil alloc (fun v => live v ∧ alloc.reg v ≠ some r) reads flags s)
    (hc : Clear alloc live flags (.tmp index)) (hd : alloc.Defines (.tmp index)) :
    Tracks nil alloc live reads ((flags.setInReg (.tmp index)).setOnStack (.tmp index))
      (((s.setVar index x).setReg r x).setSlot (alloc.frameOffset (.tmp index)) x) := by
  refine h.write hs hd rfl rfl ?_ ?_ ?_ (by simp [Flags.setOnStack]) ?_
  · intro j q hne hpos hl hin hq
    have ho := hc r j hreg hpos (tmp_ne hne) hl hin
    have hqr : q ≠ r := fun heq => ho (heq ▸ hq)
    exact ⟨⟨hl,ho⟩,update_of_ne hqr _ _⟩
  · intro q _ hq
    rw [hreg] at hq
    cases hq
    exact update_self _ _ _
  · intro j hne
    exact ⟨update_of_ne (tmp_ne hne) _ _,update_of_ne (tmp_ne hne) _ _⟩
  · intro _
    exact update_self _ _ _

theorem Tracks.storeSlot (hs : alloc.Sound code) (hreg : alloc.reg (.tmp index) = none)
    (h : Tracks nil alloc live reads flags s) (hd : alloc.Defines (.tmp index)) :
    Tracks nil alloc live reads (flags.setOnStack (.tmp index))
      ((s.setVar index x).setSlot (alloc.frameOffset (.tmp index)) x) := by
  refine h.write hs hd rfl rfl ?_ ?_ ?_ (by simp [Flags.setOnStack]) ?_
  · intro j q _ _ hl _ _
    exact ⟨hl,rfl⟩
  · intro q _ hq
    rw [hreg] at hq
    cases hq
  · intro j hne
    exact ⟨rfl,update_of_ne (tmp_ne hne) _ _⟩
  · intro hf
    have hso := hs.spilled hf _ hd
    rw [hreg] at hso
    cases hso

theorem movToVar_safe (hs : alloc.Sound code) (h : Tracks nil alloc live reads flags s)
    (husable : Usable alloc live flags (.tmp index)) (source : Reg) :
    Keeps nil alloc live reads (movToVar alloc source index) flags s := by
  unfold Keeps movToVar
  cases hreg : alloc.reg (.tmp index) with
  | none =>
    simp only [Emitter.andThen,track,emit,nil_append,safe_write,safe_spill,safe_nil]
    exact h.storeSlot hs hreg husable.defined
  | some =>
    simp only [Emitter.andThen,track,emit,nil_append,spillVar,hreg,cons_append,
      safe_write,safe_move,safe_spill,safe_nil]
    have hst := Tracks.store (x := s.regs source) hs hreg (h.mono fun _ _ => And.left) husable.clear husable.defined
    simpa [MachineState.setVar] using hst

end Variables

section Operands
variable {V : Type} {nil : V} {alloc : RegsAlloc} {code : Bytecodes}
variable {live : Var → Prop} {reads : ℕ → Prop} {flags : Flags} {s : MachineState V} {operand : Operand}

structure Ready (alloc : RegsAlloc) (live : Var → Prop) (flags : Flags) (operand : Operand) : Prop where
  usable : ∀ v ∈ examined operand, Usable alloc live flags v
  assoc : ∀ index, operand = .assoc index → index < 256
  frame : alloc.frameLess = false ∨ (needsFrame operand = false ∧ isInstVarOf operand = false)

theorem Ready.framed (h : Ready alloc live flags operand)
    (hn : needsFrame operand = true ∨ isInstVarOf operand = true) : alloc.frameLess = false := by
  rcases h.frame with hf | ⟨h1,h2⟩
  · exact hf
  · rcases hn with h' | h'
    · rw [h1] at h'
      cases h'
    · rw [h2] at h'
      cases h'

theorem reads_of_examined (hreads : ∀ index, 1 ≤ index → .tmp index ∈ examined operand → reads index)
    (hv : v ∈ examined operand) : ∀ index, 1 ≤ index → v = .tmp index → reads index :=
  fun index hpos heq => hreads index hpos (heq ▸ hv)

theorem loadDest_safe (h : Tracks nil alloc live reads flags s) (dest : Reg) :
    Runs nil ((emit [.load dest] : Emitter Flags Op) flags).2
      (fun t => Tracks nil alloc (fun v => live v ∧ alloc.reg v ≠ some dest) reads flags t) s :=
  safe_load.mpr fun _ => h.clobber

variable (hs : alloc.Sound code) (h : Tracks nil alloc live reads flags s)
include hs h

theorem load_safe (hr : r ∉ availableRegs) : Runs nil ((emit [.load r] : Emitter Flags Op) flags).2
      (fun t => Tracks nil alloc live reads flags t) s :=
  safe_load.mpr fun _ => h.scratch hs hr

def holders : Operand → List ℕ
  | .instVar _ => [selfIndex]
  | .instVarOf _ inst => [instanceIndex inst]
  | _ => []

variable (hr : Ready alloc live flags operand)
include hr

theorem movToOperand_safe (hreads : ∀ index ∈ holders operand, reads index)
    (source : Reg) : Keeps nil alloc live reads (movToOperand alloc source operand) flags s := by
  cases operand with
  | tempVar => exact movToVar_safe hs h (hr.usable _ mem_cons_self) source
  | contextVar => exact fillContextToReg_safe hs h (hr.usable _ mem_cons_self).clear (by decide)
  | instVar =>
    refine fillVarToReg_safe hs h (hr.usable _ mem_cons_self) ?_ (fun _ => h.self) (by decide)
    intro j _ hj
    injection hj with hj
    exact hreads j (hj ▸ mem_cons_self)
  | instVarOf _ o =>
    have hl : alloc.frameLess = true → flags.onStack (.tmp (instanceIndex o)) = true := by
      simp [hr.framed (Or.inr rfl)]
    refine fillVarToReg_safe hs h (hr.usable _ mem_cons_self) ?_ hl (by decide)
    intro j _ hj
    injection hj with hj
    exact hreads j (hj ▸ mem_cons_self)
  | assoc index =>
    simp only [movToOperand]
    cases (alloc.reg (.assoc index)).isSome with
    | true => exact fillAssoc_safe h (hr.assoc index rfl) (hr.usable _ mem_cons_self).clear
    | false => exact load_safe hs h (by decide)
  | _ => exact h

variable (hreads : ∀ index, 1 ≤ index → .tmp index ∈ examined operand → reads index)
include hreads

theorem pushOperand_safe (hf : alloc.frameLess = false) :
    Keeps nil alloc live reads (pushOperand alloc operand) flags s := by
  have hl : ∀ {v : Var}, alloc.frameLess = true → flags.onStack v = true := by simp [hf]
  cases operand with
  | thisContext => exact fillContextVar_safe hs h
  | tempVar | argVar =>
    exact pushVar_safe hs h (hr.usable _ mem_cons_self) (reads_of_examined hreads mem_cons_self) hf
  | super | instVar | instVarOf =>
    exact fillVarToReg_safe hs h (hr.usable _ mem_cons_self) (reads_of_examined hreads mem_cons_self) hl (by decide)
  | contextVar => exact fillContextToReg_safe hs h (hr.usable _ mem_cons_self).clear (by decide)
  | block =>
    exact generateLoadBlock_safe hs h hf ((hr.usable _ mem_cons_self).alive selfIndex (Nat.le_refl 1) rfl)
      (hreads selfIndex (Nat.le_refl 1) mem_cons_self)
  | _ => exact load_safe hs h (by decide)

theorem movOperand_safe (dest : Reg) :
    Keeps nil alloc (fun v => live v ∧ alloc.reg v ≠ some dest) reads (movOperand alloc dest operand) flags s := by
  cases operand with
  | thisContext =>
    have hc : ∀ index, 1 ≤ index → Var.tmp contextIndex ≠ .tmp index := fun _ hpos => @contextVar_ne_tmp 0 _ hpos
    exact movVar_safe hs h ⟨fun index hpos hv => absurd hv (hc index hpos),clear_context hs,
      hs.context.1⟩ (fun index hpos hv => absurd hv (hc index hpos)) dest
  | tempVar | argVar | super =>
    exact movVar_safe hs h (hr.usable _ mem_cons_self) (reads_of_examined hreads mem_cons_self) dest
  | contextVar =>
    exact andThen ((fillContextToReg_safe hs h (hr.usable _ mem_cons_self).clear
      (by decide)).mono fun t ht => loadDest_safe ht dest)
  | instVar =>
    exact andThen ((fillVarToReg_safe hs h (hr.usable _ mem_cons_self)
      (reads_of_examined hreads mem_cons_self) (fun _ => h.self) (by decide)).mono
        fun t ht => loadDest_safe ht dest)
  | instVarOf _ o =>
    have hle : alloc.frameLess = true → flags.onStack (.tmp (instanceIndex o)) = true := by
      simp [hr.framed (Or.inr rfl)]
    exact andThen ((fillVarToReg_safe hs h (hr.usable _ mem_cons_self)
      (reads_of_examined hreads mem_cons_self) hle (by decide)).mono
        fun t ht => loadDest_safe ht dest)
  | assoc index =>
    simp only [movOperand]
    cases (alloc.reg (.assoc index)).isSome with
    | true =>
      exact andThen ((fillAssoc_safe h (hr.assoc index rfl)
        (hr.usable _ mem_cons_self).clear).mono fun t ht => loadDest_safe ht dest)
    | false =>
      refine andThen ((loadDest_safe h dest).mono fun t ht => ?_)
      refine (loadDest_safe ht dest).mono fun t' ht' => ht'.mono ?_
      exact fun _ _ hl => ⟨hl,hl.2⟩
  | block =>
    exact andThen ((generateLoadBlock_safe hs h (hr.framed (Or.inl rfl))
      ((hr.usable _ mem_cons_self).alive selfIndex (Nat.le_refl 1) rfl)
      (hreads selfIndex (Nat.le_refl 1) mem_cons_self)).mono
        fun t ht => safe_move.mpr ht.clobber)
  | _ => exact loadDest_safe h dest

theorem generateClassCheck_safe (hfr : alloc.frameLess = false) :
    Keeps nil alloc live reads (generateClassCheck alloc operand) flags s := by
  have hl : ∀ {v : Var}, alloc.frameLess = true → flags.onStack v = true := by simp [hfr]
  have hf : ∀ {v : Var}, v ∈ examined operand → Keeps nil alloc live reads (fillVarToReg alloc v .tmp) flags s :=
    fun hv => fillVarToReg_safe hs h (hr.usable _ hv) (reads_of_examined hreads hv) hl (by decide)
  cases operand with
  | tempVar | argVar => exact hf mem_cons_self
  | instVar | instVarOf => exact andThen ((hf mem_cons_self).mono fun t ht => load_safe hs ht (by decide))
  | contextVar =>
    exact andThen ((fillContextToReg_safe hs h (hr.usable _ mem_cons_self).clear
      (by decide)).mono fun t ht => load_safe hs ht (by decide))
  | assoc => exact load_safe hs h (by decide)
  | _ => exact h

end Operands

end SmalltalkJit.Jit
