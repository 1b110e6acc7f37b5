import SmalltalkJit.Jit.Accessors

/-! # How the flags move

Whatever the machine does, an emitter flags at most the variables of its
operands as being in a register, and never takes back that a variable is on the
stack.
-/
namespace SmalltalkJit.Jit
open Assembly Emission List

/-- From `flags` on, only variables in `vs` were newly put in registers. -/
structure Grows (vs : List Var) (flags flags' : Flags) : Prop where
  inReg : ∀ index, 1 ≤ index → flags'.inReg (.tmp index) = true →
    flags.inReg (.tmp index) = true ∨ .tmp index ∈ vs
  onStack : ∀ v, flags.onStack v = true → flags'.onStack v = true

section Relation
variable {vs vs' : List Var} {v : Var}

theorem Grows.refl (flags : Flags) : Grows vs flags flags := ⟨fun _ _ => Or.inl,fun _ => id⟩

theorem Grows.trans (f g h : Flags) (h1 : Grows vs f g) (h2 : Grows vs g h) : Grows vs f h := by
  refine ⟨?_,fun v => h2.onStack v ∘ h1.onStack v⟩
  intro i hpos hin
  rcases h2.inReg i hpos hin with hin | hmem
  · exact h1.inReg i hpos hin
  · exact Or.inr hmem

theorem Grows.subset (h : Grows vs flags flags') (hsub : ∀ v ∈ vs, v ∈ vs') : Grows vs' flags flags' :=
  ⟨fun i hpos hin => (h.inReg i hpos hin).imp id (hsub _),h.onStack⟩

def Listed (vs : List Var) (v : Var) : Prop := v ∈ vs ∨ ∀ index, 1 ≤ index → v ≠ .tmp index

theorem listed_context (level : ℕ) : Listed vs (contextVar level) := Or.inr fun _ hpos => contextVar_ne_tmp hpos

theorem listed_own : Listed vs (.tmp contextIndex) := listed_context 0

theorem grows_setInReg (hv : Listed vs v) : Grows vs flags (flags.setInReg v) := by
  refine ⟨?_,fun _ => id⟩
  intro i hpos hin
  by_cases heq : .tmp i = v
  · rcases hv with hmem | hne
    · exact Or.inr (heq ▸ hmem)
    · exact absurd heq.symm (hne i hpos)
  · simp only [Flags.setInReg,Function.update_of_ne heq] at hin
    exact Or.inl hin

theorem grows_setOnStack : Grows vs flags (flags.setOnStack v) := by
  refine ⟨fun _ _ => Or.inl,?_⟩
  intro w hw
  by_cases heq : w = v
  · simp [Flags.setOnStack,heq]
  · simpa [Flags.setOnStack,heq] using hw

theorem grows_invalidate : Grows vs flags (invalidateRegs flags) := ⟨fun _ _ hin => (by cases hin),fun _ => id⟩

theorem grows_dropFilled : Grows vs flags (dropFilled flags) := by
  refine ⟨?_,fun _ => id⟩
  intro i _ hin
  simp only [dropFilled,Bool.and_eq_true] at hin
  exact Or.inl hin.1

end Relation

section Emitters
variable {alloc : RegsAlloc} {vs : List Var} {v : Var}

theorem emit_grows {ops : List Op} : (emit ops).Moves (Grows vs) := Grows.refl

theorem andThen_grows {first second : Emitter Flags Op} (h1 : first.Moves (Grows vs))
    (h2 : second.Moves (Grows vs)) : (first.andThen second).Moves (Grows vs) := h1.andThen Grows.trans h2

theorem fillVar_grows (hv : Listed vs v) : (fillVar alloc v).Moves (Grows vs) := by
  intro fl
  unfold fillVar
  split
  · exact Grows.refl fl
  · split
    · exact grows_setInReg hv
    · exact Grows.refl fl

theorem spillVar_grows : (spillVar alloc v).Moves (Grows vs) := by
  intro fl
  unfold spillVar
  split
  · exact grows_setOnStack
  · exact Grows.refl fl

theorem movVar_grows (hv : Listed vs v) (dest : Reg) : (movVar alloc v dest).Moves (Grows vs) := by
  intro fl
  unfold movVar
  split
  · split <;> exact Grows.refl fl
  · split
    · exact andThen_grows (fillVar_grows hv) emit_grows fl
    · exact Grows.refl fl

theorem fillVarToReg_grows (hv : Listed vs v) (scratch : Reg) : (fillVarToReg alloc v scratch).Moves (Grows vs) := by
  unfold fillVarToReg
  split
  · exact movVar_grows hv scratch
  · exact andThen_grows (fillVar_grows hv) emit_grows

theorem movToVar_grows (hv : Listed vs (.tmp index)) (source : Reg) :
    (movToVar alloc source index).Moves (Grows vs) := by
  unfold movToVar
  split
  · exact andThen_grows (fun _ => grows_setOnStack) emit_grows
  · exact andThen_grows (andThen_grows (fun _ => grows_setInReg hv) emit_grows) spillVar_grows

theorem fillContext_grows (level : ℕ) : (fillContext alloc level).Moves (Grows vs) := by
  intro fl
  unfold fillContext
  split
  · exact Grows.refl fl
  · split
    · exact fillVar_grows (listed_context level) fl
    · cases alloc.reg (contextVar level) with
      | none => exact Grows.refl fl
      | some =>
        refine andThen_grows (fillVar_grows listed_own) (andThen_grows emit_grows
          (andThen_grows (fun _ => grows_setInReg (listed_context level)) ?_)) fl
        split
        · exact spillVar_grows
        · exact Grows.refl

theorem fillContextToReg_grows (level : ℕ) (scratch : Reg) :
    (fillContextToReg alloc level scratch).Moves (Grows vs) := by
  unfold fillContextToReg
  cases alloc.reg (contextVar level) with
  | some => exact fillContext_grows level
  | none => exact andThen_grows (fillVar_grows listed_own) emit_grows

theorem fillAssoc_grows (index : ℕ) : (fillAssoc alloc index).Moves (Grows vs) := by
  intro fl
  unfold fillAssoc
  split
  · exact Grows.refl fl
  · split
    · exact grows_setInReg (Or.inr fun _ _ hv => by cases hv)
    · exact Grows.refl fl

theorem generateLoadBlock_grows (hs : Listed vs (.tmp selfIndex)) : (generateLoadBlock alloc).Moves (Grows vs) :=
  andThen_grows emit_grows (andThen_grows (fun _ => grows_invalidate)
    (andThen_grows (fillVar_grows listed_own) (andThen_grows emit_grows (fillVarToReg_grows hs _))))

theorem pushVar_grows (hv : Listed vs v) : (pushVar alloc v).Moves (Grows vs) := by
  intro fl
  unfold pushVar
  split
  · split <;> exact Grows.refl fl
  · split
    · exact Grows.refl fl
    · split
      · exact Grows.refl fl
      · exact grows_setInReg hv

theorem pushOperand_grows (operand : Operand) : (pushOperand alloc operand).Moves (Grows (examined operand)) := by
  cases operand with
  | thisContext => exact fillVar_grows listed_own
  | tempVar | argVar => exact pushVar_grows (Or.inl mem_cons_self)
  | super | instVar | instVarOf => exact fillVarToReg_grows (Or.inl mem_cons_self) _
  | contextVar _ l => exact fillContextToReg_grows l _
  | block => exact generateLoadBlock_grows (Or.inl mem_cons_self)
  | _ => exact emit_grows

theorem movOperand_grows (dest : Reg) (operand : Operand) :
    (movOperand alloc dest operand).Moves (Grows (examined operand)) := by
  cases operand with
  | thisContext => exact movVar_grows listed_own dest
  | tempVar | argVar | super => exact movVar_grows (Or.inl mem_cons_self) dest
  | contextVar _ l => exact andThen_grows (fillContextToReg_grows l _) emit_grows
  | instVar | instVarOf => exact andThen_grows (fillVarToReg_grows (Or.inl mem_cons_self) _) emit_grows
  | assoc i =>
    refine andThen_grows ?_ emit_grows
    split
    · exact fillAssoc_grows i
    · exact emit_grows
  | block => exact andThen_grows (generateLoadBlock_grows (Or.inl mem_cons_self)) emit_grows
  | _ => exact emit_grows

theorem movToOperand_grows (source : Reg) (dest : Operand) :
    (movToOperand alloc source dest).Moves (Grows (examined dest)) := by
  cases dest with
  | tempVar => exact movToVar_grows (Or.inl mem_cons_self) source
  | contextVar _ l => exact fillContextToReg_grows l _
  | instVar | instVarOf => exact fillVarToReg_grows (Or.inl mem_cons_self) _
  | assoc i =>
    simp only [movToOperand]
    split
    · exact fillAssoc_grows i
    · exact emit_grows
  | _ => exact Grows.refl

theorem copySource_grows (hv : Listed vs v) : (copySource alloc v).Moves (Grows vs) := by
  intro fl
  unfold copySource
  split
  · exact movVar_grows hv .rax fl
  · split
    · exact andThen_grows (fillVar_grows hv) emit_grows fl
    · exact grows_setInReg hv

theorem moves_subset {e : Emitter Flags Op} (h : e.Moves (Grows vs))
    (hsub : ∀ v ∈ vs, v ∈ vs') : e.Moves (Grows vs') := fun fl => (h fl).subset hsub

theorem copyToVar_grows (source : Operand) (index : ℕ) :
    (copyToVar alloc source index).Moves (Grows (examined source ++ [.tmp index])) := by
  have hmov : ∀ r, (movOperand alloc r source).Moves (Grows (examined source ++ [.tmp index])) :=
    fun r => moves_subset (movOperand_grows r source) fun v hv => mem_append_left _ hv
  unfold copyToVar
  split
  · exact andThen_grows (hmov _) (andThen_grows emit_grows fun _ => grows_setOnStack)
  · exact andThen_grows (hmov _) (andThen_grows emit_grows
      (andThen_grows (fun _ => grows_setInReg (Or.inl (by simp))) spillVar_grows))

theorem generateCopy_grows (source dest : Operand) :
    (generateCopy alloc source dest).Moves (Grows (examined source ++ examined dest)) := by
  have hs : ∀ r, (movToOperand alloc r dest).Moves (Grows (examined source ++ examined dest)) :=
    fun r => moves_subset (movToOperand_grows r dest) fun v hv => mem_append_right _ hv
  have hmov : ∀ r, (movOperand alloc r source).Moves (Grows (examined source ++ examined dest)) :=
    fun r => moves_subset (movOperand_grows r source) fun v hv => mem_append_left _ hv
  unfold generateCopy
  split
  · exact andThen_grows (copySource_grows (Or.inl (by simp [examined]))) (hs _)
  · exact andThen_grows (copySource_grows (Or.inl (by simp [examined]))) (hs _)
  · split
    · exact copyToVar_grows source _
    · exact andThen_grows (hmov _) (hs _)

theorem generateClassCheck_grows (operand : Operand) :
    (generateClassCheck alloc operand).Moves (Grows (examined operand)) := by
  cases operand with
  | tempVar | argVar => exact fillVarToReg_grows (Or.inl mem_cons_self) _
  | contextVar _ l => exact andThen_grows (fillContextToReg_grows l _) emit_grows
  | instVar | instVarOf => exact andThen_grows (fillVarToReg_grows (Or.inl mem_cons_self) _) emit_grows
  | assoc => exact emit_grows
  | _ => exact Grows.refl

theorem generateSendCode_grows (receiver : Operand) (args : List Operand) :
    (generateSendCode alloc receiver args).Moves (Grows []) := by
  intro fl
  have hp : (emitAll (pushOperand alloc) args).Moves (Grows ((receiver :: args).flatMap examined)) := by
    refine Emitter.Moves.emitAll Grows.refl Grows.trans ?_
    intro arg harg
    refine moves_subset (pushOperand_grows arg) fun v hv => ?_
    exact mem_flatMap.mpr ⟨arg,mem_cons_of_mem receiver harg,hv⟩
  have hmov : (movOperand alloc .tmp receiver).Moves (Grows ((receiver :: args).flatMap examined)) :=
    moves_subset (movOperand_grows .tmp receiver) fun v hv => mem_flatMap.mpr ⟨receiver,mem_cons_self,hv⟩
  have hc : (generateSendCode alloc receiver args).Moves (Grows ((receiver :: args).flatMap examined)) :=
    andThen_grows hp (andThen_grows hmov (andThen_grows emit_grows fun _ => grows_invalidate))
  exact ⟨fun _ _ hin => (by cases hin),(hc fl).onStack⟩

end Emitters

end SmalltalkJit.Jit
