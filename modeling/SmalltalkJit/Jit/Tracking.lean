import SmalltalkJit.Jit.FrameSafety

/-! # What the flags say about the machine

`Tracks` ties the flags to registers and frame slots: a flagged register of a
live variable holds its value, the slot of every variable does, and a variable
that is read without ever having been flagged is still nil. Every emitter keeps
this, provided that the registers it fills belong to no other live variable.
-/
namespace SmalltalkJit.Jit
open Assembly Emission Function

section Safety
variable {V : Type} {nil : V} {s : MachineState V}

/-- Runs in which the methods that are called keep the frames of their callers. -/
abbrev Runs (nil : V) : List Op → (MachineState V → Prop) → MachineState V → Prop := Safe (machine nil) SafeChoice

@[simp] theorem safe_nil : Runs nil [] Post s ↔ Post s := Iff.rfl

theorem safe_silent (he : ∀ choice t, execOp nil s o choice = some t ↔ choice = .silent ∧ t = s') :
    Runs nil (o :: ops) Post s ↔ (machine nil).demands o s ∧ Runs nil ops Post s' := by
  constructor
  · rintro ⟨hd,h⟩
    exact ⟨hd,h .silent s' trivial ((he _ _).mpr ⟨rfl,rfl⟩)⟩
  · rintro ⟨hd,h⟩
    refine ⟨hd,?_⟩
    intro choice t _ ht
    obtain ⟨-,rfl⟩ := (he choice t).mp ht
    exact h

@[simp] theorem safe_read : Runs nil (.read index source :: ops) Post s ↔
      sourceValue nil s source = s.vars index ∧ Runs nil ops Post s :=
  safe_silent fun c t => by cases c <;> simp [execOp,eq_comm]

theorem safe_plain (hd : (machine nil).demands o s)
    (he : ∀ choice t, execOp nil s o choice = some t ↔ choice = .silent ∧ t = s') :
    Runs nil (o :: ops) Post s ↔ Runs nil ops Post s' := by
  rw [safe_silent he]
  exact and_iff_right hd

@[simp] theorem safe_fill :
    Runs nil (.fill r base offset :: ops) Post s ↔ Runs nil ops Post (s.setReg r (s.slots base offset)) :=
  safe_plain trivial fun c t => by cases c <;> simp [execOp,eq_comm]

@[simp] theorem safe_spill :
    Runs nil (.spill r offset :: ops) Post s ↔ Runs nil ops Post (s.setSlot offset (s.regs r)) :=
  safe_plain trivial fun c t => by cases c <;> simp [execOp,eq_comm]

@[simp] theorem safe_loadNil : Runs nil (.loadNil r :: ops) Post s ↔ Runs nil ops Post (s.setReg r nil) :=
  safe_plain trivial fun c t => by cases c <;> simp [execOp,eq_comm]

@[simp] theorem safe_move :
    Runs nil (.move source dest :: ops) Post s ↔ Runs nil ops Post (s.setReg dest (s.regs source)) :=
  safe_plain trivial fun c t => by cases c <;> simp [execOp,eq_comm]

@[simp] theorem safe_write :
    Runs nil (.write index r :: ops) Post s ↔ Runs nil ops Post (s.setVar index (s.regs r)) :=
  safe_plain trivial fun c t => by cases c <;> simp [execOp,eq_comm]

@[simp] theorem safe_load : Runs nil (.load r :: ops) Post s ↔
      ∀ v, Runs nil ops Post (s.setReg r v) := by
  constructor
  · rintro ⟨-,h⟩ v
    exact h (.value v) _ trivial rfl
  · intro h
    refine ⟨trivial,?_⟩
    intro c t _ ht
    cases c with
    | value v =>
      obtain rfl : s.setReg r v = t := by simpa [machine,execOp] using ht
      exact h v
    | _ => simp [machine,execOp] at ht

theorem safe_call (h : ∀ regs, Runs nil ops Post { s with regs := regs }) : Runs nil (.call :: ops) Post s := by
  refine ⟨trivial,?_⟩
  intro c t hs ht
  cases c with
  | call callee regs =>
    obtain rfl : { s with regs := regs } = t := by
      cases callee with
      | none => simpa [machine,execOp] using ht
      | some => simpa [machine,execOp,clobberedSlots_of_frameSafe hs] using ht
    exact h regs
  | _ => simp [machine,execOp] at ht

/-- If `v` is a variable of the method, `x` is its value. -/
def Gets (s : MachineState V) (v : Var) (x : V) : Prop := ∀ index, 1 ≤ index → v = .tmp index → x = s.vars index

theorem safe_useVar (hv : Gets s v (sourceValue nil s source))
    (h : Runs nil ops Post s) : Runs nil (useVar source v ++ ops) Post s := by
  unfold useVar
  cases v with
  | tmp i =>
    by_cases hz : i = contextIndex
    · simpa [hz] using h
    · simp only [hz,↓reduceIte,List.singleton_append,safe_read]
      exact ⟨hv i (Nat.pos_of_ne_zero hz) rfl,h⟩
  | context | assoc => exact h

theorem safe_use (hv : Gets s v (sourceValue nil s source)) (h : Post s) : Runs nil (useVar source v) Post s := by
  rw [← List.append_nil (useVar source v)]
  exact safe_useVar hv h

theorem Gets.setReg (h : Gets s v x) (r : Reg) : Gets (s.setReg r x) v (sourceValue nil (s.setReg r x) (.reg r)) := by
  intro i hpos hv
  simpa [sourceValue] using h i hpos hv

end Safety

section Tracks
variable {V : Type} (nil : V) (alloc : RegsAlloc)

/-- The registers claims are made about belong to `live` variables; `reads` are the variables whose
nil may be materialised. -/
structure Tracks (live : Var → Prop) (reads : ℕ → Prop) (flags : Flags) (s : MachineState V) :
    Prop where
  cached : ∀ index r, 1 ≤ index → live (.tmp index) → flags.inReg (.tmp index) = true →
    alloc.reg (.tmp index) = some r → s.regs r = s.vars index
  homed : alloc.frameLess = false → ∀ index, 1 ≤ index → alloc.Defines (.tmp index) →
    s.slots .rbp (alloc.frameOffset (.tmp index)) = s.vars index
  passed : alloc.frameLess = true → ∀ index, 1 ≤ index → flags.onStack (.tmp index) = true →
    flags.inReg (.tmp index) = false → s.slots .rsp (alloc.frameOffset (.tmp index)) = s.vars index
  unset : ∀ index, 1 ≤ index → reads index → flags.onStack (.tmp index) = false → s.vars index = nil
  self : flags.onStack (.tmp selfIndex) = true

/-- The code of an emitter keeps the flags true. -/
abbrev Keeps (live : Var → Prop) (reads : ℕ → Prop) (e : Emitter Flags Op) (flags : Flags) (s : MachineState V) :
    Prop := Runs nil (e flags).2 (fun t => Tracks nil alloc live reads (e flags).1 t) s

/-- No other live variable that the flags put in a register has the register of `v`. -/
def Clear (live : Var → Prop) (flags : Flags) (v : Var) : Prop :=
  ∀ r index, alloc.reg v = some r → 1 ≤ index → .tmp index ≠ v → live (.tmp index) →
    flags.inReg (.tmp index) = true → alloc.reg (.tmp index) ≠ some r

variable {nil alloc}
theorem not_pool (hs : alloc.Sound code) (hr : r ∉ availableRegs) (hpos : 1 ≤ index) :
    alloc.reg (.tmp index) ≠ some r := by
  intro hreg
  rcases hs.pool _ _ hreg with ⟨hvar,-⟩ | ⟨-,hmem⟩
  · injection hvar with hi
    rw [hi] at hpos
    cases hpos
  · exact hr hmem

section Tracking
variable {s : MachineState V} (h : Tracks nil alloc live reads flags s)
include h

theorem Tracks.mono
    (hli : ∀ index, 1 ≤ index → live' (.tmp index) → live (.tmp index)) : Tracks nil alloc live' reads flags s :=
  { h with cached := fun index r hpos hl => h.cached index r hpos (hli index hpos hl) }

theorem Tracks.setReg
    (hf : ∀ index, 1 ≤ index → live (.tmp index) → flags.inReg (.tmp index) = true →
      alloc.reg (.tmp index) ≠ some r) : Tracks nil alloc live reads flags (s.setReg r x) := by
  refine { h with cached := ?_ }
  intro index q hpos hl hin hreg
  have hne : q ≠ r := fun heq => hf index hpos hl hin (heq ▸ hreg)
  show Function.update s.regs r x q = s.vars index
  rw [update_of_ne hne]
  exact h.cached index q hpos hl hin hreg

theorem Tracks.scratch (hs : alloc.Sound code)
    (hr : r ∉ availableRegs) : Tracks nil alloc live reads flags (s.setReg r x) :=
  h.setReg fun _ hpos _ _ => not_pool hs hr hpos

theorem Tracks.clobber : Tracks nil alloc (fun v => live v ∧ alloc.reg v ≠ some r) reads flags (s.setReg r x) :=
  (h.mono fun _ _ => And.left).setReg fun _ _ hl _ => hl.2

omit h in
theorem Tracks.unclobber (hs : alloc.Sound code) (hr : r ∉ availableRegs)
    (h : Tracks nil alloc (fun v => live v ∧ alloc.reg v ≠ some r) reads flags s) :
    Tracks nil alloc live reads flags s :=
  h.mono fun _ hpos hl => ⟨hl,not_pool hs hr hpos⟩

theorem Tracks.fill (hc : Clear alloc live flags v)
    (hreg : alloc.reg v = some r) (hva : Gets s v x) :
    Tracks nil alloc live reads (flags.setInReg v) (s.setReg r x) := by
  refine ⟨?_,h.homed,?_,h.unset,h.self⟩
  · intro i q hpos hl hin hq
    show Function.update s.regs r x q = s.vars i
    by_cases hv : v = .tmp i
    · rw [← hv,hreg] at hq
      cases hq
      rw [update_self]
      exact hva i hpos hv
    · have hin' : flags.inReg (.tmp i) = true := by simpa [Flags.setInReg,update_of_ne (Ne.symm hv)] using hin
      have hne : q ≠ r := by
        rintro rfl
        exact hc q i hreg hpos (Ne.symm hv) hl hin' hq
      rw [update_of_ne hne]
      exact h.cached i q hpos hl hin' hq
  · intro hf i hpos hs hin
    refine h.passed hf i hpos hs ?_
    by_cases hv : v = .tmp i
    · simp [Flags.setInReg,hv] at hin
    · simpa [Flags.setInReg,update_of_ne (Ne.symm hv)] using hin

theorem Tracks.gets_nil
    (hr : ∀ index, 1 ≤ index → v = .tmp index → reads index) (hs : flags.onStack v = false) : Gets s v nil := by
  rintro index hpos rfl
  exact (h.unset index hpos (hr index hpos rfl) hs).symm

end Tracking

theorem Tracks.forget (h : Tracks nil alloc (fun _ => False) reads flags s) (hf : alloc.frameLess = false)
    (regs : Reg → V) : Tracks nil alloc live reads (invalidateRegs flags) { s with regs := regs } := by
  refine ⟨?_,h.homed,?_,h.unset,h.self⟩
  · intro i q _ _ hin
    cases hin
  · simp [hf]

end Tracks

end SmalltalkJit.Jit
