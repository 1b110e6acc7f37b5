import SmalltalkJit.Jit.Paths

/-! # Falling off the end of a method

The code after the last bytecode takes self from its register if the flags of the
emission say that it is there. On the paths that `MayEnter` allows they are right;
but a stream with a return on some path does not keep self alive up to its end, so
that another variable may have got the register.
-/
namespace SmalltalkJit.Jit
open Assembly Emission List

section Answer
variable {V : Type} {nil : V} {gen : CodeGenerator} {s : MachineState V}

theorem movVar_loads (hi : index ≠ contextIndex) (h : Runs nil (movVar alloc (.tmp index) dest flags).2 Post s) :
    Runs nil (movVar alloc (.tmp index) dest flags).2 (fun t => t.regs dest = t.vars index) s := by
  revert h
  unfold movVar
  cases hreg : alloc.reg (.tmp index) with
  | none =>
    dsimp only
    split <;> simp +contextual [useVar,hi,sourceValue,MachineState.setReg]
  | some =>
    dsimp only
    split
    · simp only [Emitter.andThen,fillVar,hreg,emit,useVar,hi]
      split <;> simp +contextual [sourceValue,MachineState.setReg]
    · simp +contextual [useVar,hi,sourceValue,MachineState.setReg]

theorem end_answers (hb : generateCode gen (some (bytecodesSize gen.code.bytecodes)) = some (ops,succs))
    (hat : BlockAt nil gen (some (bytecodesSize gen.code.bytecodes)) s)
    (hr : returnsAtEnd gen.code.bytecodes = false) : Runs nil ops (fun t => t.regs .rax = t.vars selfIndex) s := by
  obtain ⟨b,hf,heq⟩ := Option.map_eq_some_iff.mp hb
  cases heq
  have ho : b.offset = bytecodesSize gen.code.bytecodes := by simpa using List.find?_some hf
  rcases mem_generateFrom (mem_of_find?_eq_some hf) with ⟨pre,i,q,hc,hpre,-⟩ | ⟨-,-,hops⟩
  · have hpos := Instr.size_pos i
    rw [ho,hc,bytecodesSize_append,bytecodesSize_cons] at hpre
    omega
  · have hs := end_block (hat gen.code.bytecodes [] (by simp) rfl) fun _ => trivial
    rw [hr] at hs
    rw [hops,hr]
    exact movVar_loads (by decide) hs

/-- A run that comes to the end of a stream that answers self there, on a path that enters its
blocks as they allow, answers what the variable self holds. -/
theorem generateCode_answers_self (hcompilable : Compilable gen) (hentry : Entry nil gen s)
    (hreturns : returnsAtEnd gen.code.bytecodes = false) {c : Config (Option ℕ) Op (MachineState V)}
    (hrun : Relation.ReflTransGen
      (Step (machine nil) SafeChoice (generateCode gen) (MayEnter nil gen)) ⟨none,generateEntry gen,s⟩ c)
    (hend : c.block = some (bytecodesSize gen.code.bytecodes)) (hrest : c.rest = []) :
    c.state.regs .rax = c.state.vars selfIndex := by
  have hf := @generateCode_floyd V nil gen hcompilable
  have hs := hf.safe (Q := fun k t => k = some (bytecodesSize gen.code.bytecodes) →
    t.regs .rax = t.vars selfIndex) ?_ rfl (show BlockAt nil gen none s from hentry) hrun
  · rw [hrest] at hs
    exact hs hend
  · intro k ops succs t hk hat
    by_cases heq : k = some (bytecodesSize gen.code.bytecodes)
    · subst heq
      exact (end_answers hk hat hreturns).mono fun _ ht _ => ht
    · exact (hf.block hk hat).mono fun _ _ h => absurd h heq

end Answer

section Streams

def receiverState (gen : CodeGenerator) : MachineState ℕ where
  regs := fun _ => 0
  slots := fun _ offset => if offset = gen.alloc.frameOffset (.tmp selfIndex) then 7 else 0
  vars := fun index => if index = selfIndex then 7 else 0

theorem entry_receiverState (bytecodes : Bytecodes) :
    Entry 0 (oneTemp bytecodes) (receiverState (oneTemp bytecodes)) := by
  refine ⟨?_,fun i hlt => if_neg (by simp only [selfIndex]; omega)⟩
  intro i hpos hle
  obtain rfl : i = selfIndex := Nat.le_antisymm hle hpos
  exact if_pos rfl

def sendOnly : Bytecodes := [.send 0 (.argVar 1) []]

theorem sendOnly_compilable : Compilable (oneTemp sendOnly) :=
  compilable_of_framed (by decide +kernel) (by simp [sendOnly,resultOperands])

theorem sendOnly_mayEnter (source target : Option ℕ) (t : MachineState ℕ) :
    MayEnter 0 (oneTemp sendOnly) source target t := by
  have hf : ∀ {off i}, fetch Instr.size sendOnly off = some i → i = .send 0 (.argVar 1) [] := by
    intro off i h
    obtain ⟨pre,q,hc,-⟩ := fetch_eq_some h
    exact mem_singleton.mp (hc ▸ mem_append_right pre mem_cons_self : i ∈ sendOnly)
  refine ⟨?_,?_,fun _ _ => Or.inl (Or.inr ⟨[],_,[],rfl,rfl,by simp [resultOperands],by simp⟩)⟩
  · intro off op _ h
    cases hf h
  · intro off i _ h k hmem hl
    obtain rfl := hf h
    obtain rfl : k = 1 := by simpa [readTemps,tempOperand] using hmem
    exact absurd hl (Nat.lt_irrefl 1)

/-- After a send the receiver is fetched from its slot. -/
theorem generateCode_answers_self_sendOnly : ∃ c : Config (Option ℕ) Op (MachineState ℕ), c.rest = [] ∧
      c.state.regs .rax = c.state.vars selfIndex ∧ c.state.vars selfIndex = 7 := by
  have hp : (follow (fun o l s => execOp 0 s o l) (generateCode (oneTemp sendOnly)) (enterPath.tail ++
      [silently,silently,silently,plainCall,.inr (some 7),silently,silently,silently])
      ⟨none,generateEntry (oneTemp sendOnly),receiverState (oneTemp sendOnly)⟩).map
        (fun c => (c.block,c.rest,c.state.vars selfIndex)) = some (some 7,[],7) := by
    decide +kernel
  obtain ⟨c,hc,heq⟩ := Option.map_eq_some_iff.mp hp
  simp only [Prod.mk.injEq] at heq
  obtain ⟨hend,hr,hs⟩ := heq
  refine ⟨c,hr,?_,hs⟩
  refine generateCode_answers_self sendOnly_compilable (entry_receiverState _) rfl
    (follow_run hc ?_ fun m _ k t => sendOnly_mayEnter k m t) hend hr
  exact safeChoice_of_plain (by simp [enterPath,silently,plainCall])

/-- One arm answers self; the other one uses self, and then a temporary that gets its register. -/
def earlyReturn : Bytecodes :=
  [.send 0 (.argVar 1) [],.jumpNotMemberOf 0 (.argVar 1) 4,.ret (.argVar 1),
    .copy (.argVar 1) (.instVar 0),.copy (.value 5) (.tempVar 2)]

theorem early_return_answers_temporary :
    ∃ (s : MachineState ℕ) (c : Config (Option ℕ) Op (MachineState ℕ)), Entry 0 (oneTemp earlyReturn) s ∧
      Relation.ReflTransGen (Step (machine 0) SafeChoice (generateCode (oneTemp earlyReturn))
        fun _ _ _ => True) ⟨none,generateEntry (oneTemp earlyReturn),s⟩ c ∧
      c.block = some (bytecodesSize earlyReturn) ∧ c.rest = [] ∧
      c.state.vars selfIndex = s.vars selfIndex ∧ c.state.regs .rax ≠ c.state.vars selfIndex := by
  have hp : (follow (fun o l s => execOp 0 s o l) (generateCode (oneTemp earlyReturn)) (enterPath ++
      [silently,silently,silently,plainCall,.inr (some 7),silently,silently,.inr (some 21),silently,silently,
        silently,.inr (some 28),.inl (.value 5),silently,silently,.inr (some 41),silently,silently])
      ⟨none,generateEntry (oneTemp earlyReturn),receiverState (oneTemp earlyReturn)⟩).map
        (fun c => (c.block,c.rest,c.state.vars selfIndex,c.state.regs .rax)) = some (some 41,[],7,5) := by
    decide +kernel
  obtain ⟨c,hc,heq⟩ := Option.map_eq_some_iff.mp hp
  simp only [Prod.mk.injEq] at heq
  obtain ⟨hend,hr,hs,hrax⟩ := heq
  refine ⟨_,c,entry_receiverState _,follow_run hc ?_ fun _ _ _ _ => trivial,hend,hr,hs,?_⟩
  · exact safeChoice_of_plain (by simp [enterPath,silently,plainCall])
  · rw [hrax,hs]
    decide

end Streams

end SmalltalkJit.Jit
