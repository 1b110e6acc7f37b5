import Mathlib.Data.List.Induction
import SmalltalkJit.Jit.LiveRanges

/-! # The register pool and the active list

`scanRegisters` with the register pool as it is, an array with a cursor that
separates the registers in use from the free ones. The loop does what linear
scan does and never leaves the array, and its list of active variables is exact
whenever a variable has been visited.
-/
namespace SmalltalkJit.Jit
open List LinearScan

/-- The registers from the cursor on are free. -/
structure RegsPool where
  regs : List Reg
  tmp : ℕ

def RegsPool.nextReg (p : RegsPool) : Option Reg × RegsPool :=
  match p.regs[p.tmp]? with
  | some r => (some r,{ p with tmp := p.tmp+1 })
  | none => (none,p)

/-- No answer is a store in front of the array. -/
def RegsPool.reuseVarReg (p : RegsPool) : Option Reg → Option RegsPool
  | none => some p
  | some r => if p.tmp = 0 then none else some ⟨p.regs.set (p.tmp-1) r,p.tmp-1⟩

def removeDeadVars (reg : Var → Option Reg) (offset : ℕ) :
    List (Range Var) → RegsPool → Option (List (Range Var) × RegsPool)
  | [], p => some ([],p)
  | i :: rest, p =>
    if i.stop < offset then (p.reuseVarReg (reg i.var)).bind (removeDeadVars reg offset rest)
    else (removeDeadVars reg offset rest p).map fun q => (i :: q.1,q.2)

structure Assignment where
  reg : Var → Option Reg
  sortedVars : List (Range Var)
  regsPool : RegsPool

namespace Assignment
variable (s : Assignment)

def spillOr (active : List (Range Var)) (i : Range Var) : Option Reg × RegsPool → Option Assignment
  | (some r,pool) => some ⟨Function.update s.reg i.var (some r),active,pool⟩
  | (none,pool) =>
    match active with
    | spilled :: rest =>
      some ⟨Function.update (Function.update s.reg i.var (s.reg spilled.var)) spilled.var none,rest,pool⟩
    | [] => none

def assign (i : Range Var) : Option Assignment :=
  (removeDeadVars s.reg i.start s.sortedVars s.regsPool).bind fun q => s.spillOr (insert q.1 i) i q.2.nextReg

end Assignment

def assignVars (regs : List Reg) (ranges : List (Range Var)) : Option Assignment :=
  ranges.foldlM Assignment.assign ⟨pinnedRegs,[],⟨regs,0⟩⟩

namespace Assignment
variable (s : Assignment)

structure Fits (size : ℕ) : Prop where
  array : s.regsPool.regs.length = size
  cursor : s.regsPool.tmp = s.sortedVars.length
  bound : s.regsPool.tmp ≤ size

def pool : Pool Var Reg := ⟨s.reg,s.sortedVars,s.regsPool.regs.drop s.regsPool.tmp⟩

end Assignment

section Pool
variable {reg : Var → Option Reg} {size : ℕ} {s : Assignment}

theorem drop_set_pred {regs : List Reg} (hpos : tmp ≠ 0) (hle : tmp ≤ regs.length) :
    (regs.set (tmp-1) r).drop (tmp-1) = r :: regs.drop tmp := by
  have hlt : tmp-1 < (regs.set (tmp-1) r).length := by
    rw [length_set]
    omega
  rw [drop_eq_getElem_cons hlt,getElem_set_self,Nat.sub_add_cancel (Nat.pos_of_ne_zero hpos),
    drop_set_of_lt (by omega)]

theorem removeDeadVars_eq (offset : ℕ) (hreg : ∀ i ∈ active, (reg i.var).isSome) (hl : active.length ≤ p.tmp)
    (hle : p.tmp ≤ p.regs.length) : ∃ q, removeDeadVars reg offset active p =
      some (active.filter fun i => !(i.stop < offset),q) ∧ q.regs.length = p.regs.length ∧ q.tmp + active.length =
      p.tmp + (active.filter fun i => !(i.stop < offset)).length ∧ q.regs.drop q.tmp =
      ((active.filter fun i => i.stop < offset).filterMap fun i => reg i.var).reverse ++ p.regs.drop p.tmp := by
  induction active generalizing p with
  | nil => exact ⟨p,rfl,rfl,rfl,rfl⟩
  | cons i l ih =>
    rw [length_cons] at hl
    have hres : ∀ j ∈ l, (reg j.var).isSome := fun j hj => hreg j (mem_cons_of_mem _ hj)
    by_cases hd : i.stop < offset
    · obtain ⟨r,hr⟩ := Option.isSome_iff_exists.mp (hreg i mem_cons_self)
      have hpos : p.tmp ≠ 0 := by omega
      obtain ⟨q,hq,hs,htmp,hf⟩ := ih (p := ⟨p.regs.set (p.tmp-1) r,p.tmp-1⟩) hres
        (by simp only; omega) (by simp only [length_set]; omega)
      refine ⟨q,?_,by rw [hs,length_set],?_,?_⟩
      · simpa [removeDeadVars,hd,hr,RegsPool.reuseVarReg,hpos] using hq
      · simp only [hd,decide_true,Bool.not_true,Bool.false_eq_true,not_false_eq_true,
          filter_cons_of_neg,length_cons] at htmp ⊢
        omega
      · rw [hf,drop_set_pred hpos hle]
        simp [hd,hr]
    · obtain ⟨q,hq,hs,htmp,hf⟩ := ih hres (by omega) hle
      refine ⟨q,?_,hs,?_,?_⟩
      · simp [removeDeadVars,hd,hq]
      · simp only [hd,decide_false,Bool.not_false,filter_cons_of_pos,length_cons]
        omega
      · simpa [hd] using hf

theorem assign_eq (hf : s.Fits size) (hreg : ∀ i ∈ s.sortedVars, (s.reg i.var).isSome) (i : Range Var) :
    ∃ s', s.assign i = some s' ∧ s'.pool = visit s.pool i ∧ s'.Fits size := by
  obtain ⟨hsi,hc,hb⟩ := hf
  obtain ⟨q,hq,hl,htmp,hfr⟩ := removeDeadVars_eq i.start hreg (by omega)
    (by omega : s.regsPool.tmp ≤ s.regsPool.regs.length)
  have hd : removeDead s.pool i.start =
      ⟨s.reg,s.sortedVars.filter fun j => !(j.stop < i.start),q.regs.drop q.tmp⟩ := by
    rw [hfr]
    rfl
  rw [Assignment.assign,hq,visit,hd]
  have hs := length_filter_le (fun j : Range Var => !(j.stop < i.start)) s.sortedVars
  generalize s.sortedVars.filter (fun j => !(j.stop < i.start)) = active at htmp hs
  have hi : (insert active i).length = active.length+1 := insert_length
  by_cases hlt : q.tmp < q.regs.length
  · have hn : q.nextReg = (some q.regs[q.tmp],{ q with tmp := q.tmp+1 }) := by simp [RegsPool.nextReg,hlt]
    simp only [Option.bind_some,hn,Assignment.spillOr,drop_eq_getElem_cons hlt]
    exact ⟨_,rfl,rfl,by simp only; omega,by simp only; omega,by simp only; omega⟩
  · have hn : q.nextReg = (none,q) := by simp [RegsPool.nextReg,hlt]
    have hnil : q.regs.drop q.tmp = [] := drop_eq_nil_of_le (by omega)
    cases ha : insert active i with
    | nil => simp [ha] at hi
    | cons =>
      rw [ha,length_cons] at hi
      simp only [Option.bind_some,hn,Assignment.spillOr,hnil,ha]
      refine ⟨_,rfl,?_,by simp only; omega,by simp only; omega,by simp only; omega⟩
      simp only [Assignment.pool,hnil]

theorem assignVars_eq {ranges : List (Range Var)} (hr : regs.Nodup)
    (hso : ranges.Pairwise fun i j => i.start ≤ j.start) (hv : (ranges.map Range.var).Nodup) :
    ∃ s, assignVars regs ranges = some s ∧ s.pool = scan ⟨pinnedRegs,[],regs⟩ ranges ∧ s.Fits regs.length := by
  induction ranges using List.reverseRecOn with
  | nil => exact ⟨_,rfl,rfl,rfl,rfl,Nat.zero_le _⟩
  | append_singleton ranges i ih =>
    have hsub : ranges.Sublist (ranges ++ [i]) := sublist_append_left _ _
    have hso' := hso.sublist hsub
    have hv' := hv.sublist (hsub.map _)
    obtain ⟨s,hs,hp,hf⟩ := ih hso' hv'
    have hinv := hp ▸ scan_inv hr hso' hv'
    obtain ⟨s',hs',hp',hf'⟩ := assign_eq hf (fun j hj => (hinv.active j hj).2) i
    refine ⟨s',?_,?_,hf'⟩
    · rw [assignVars,foldlM_append,← assignVars,hs]
      simpa using hs'
    · rw [hp',hp,scan,scan,foldl_append]
      rfl

end Pool

section Ranges
variable {n : ℕ} {vars : Vars}

/-- No range ends before it starts, and the slots of outer contexts lie below the frame's own. -/
structure Vars.Proper (n : ℕ) (vars : Vars) : Prop where
  started : ∀ i ∈ vars.order, i.start ≤ n
  stopped : ∀ i ∈ vars.order, i.start ≤ i.stop
  contexts : ∀ i ∈ vars.order, ∀ level, i.var = .context level → i.frameOffset ≤ -3
  room : vars.frameSize ≤ -3

section
variable (h : vars.Proper n)
include h

theorem Vars.Proper.moveEnd (hle : ∀ i ∈ vars.order, i.var = v → i.start ≤ offset) : Vars.Proper n { vars with
      order := vars.order.map fun i => if i.var = v then { i with stop := offset } else i } := by
  refine ⟨?_,?_,?_,h.room⟩ <;> intro i hi <;> obtain ⟨j,hj,rfl⟩ := mem_map.mp hi <;> split
  exacts [h.started j hj,h.started j hj,hle j hj ‹_›,h.stopped j hj,h.contexts j hj,h.contexts j hj]

theorem Vars.Proper.define (v : Var) : (vars.define v n).Proper n := by
  unfold Vars.define
  split
  · exact h.moveEnd fun i hi _ => h.started i hi
  · have hr := h.room
    refine ⟨?_,?_,?_,by simp only; split <;> omega⟩ <;> intro i hi <;>
      rcases mem_append.mp hi with hi | hi
    · exact h.started i hi
    · simp [mem_singleton.mp hi]
    · exact h.stopped i hi
    · simp [mem_singleton.mp hi]
    · exact h.contexts i hi
    · intro l hvar
      obtain rfl := mem_singleton.mp hi
      subst hvar
      exact hr

theorem Vars.Proper.defineContext (level : ℕ) : (defineContext vars level n).Proper n := by
  unfold Jit.defineContext
  split
  · exact h.define _
  · exact (h.define _).define _

theorem Vars.Proper.examineOperand (operand : Operand) : (examineOperand vars n operand).Proper n := by
  have hf : { vars with frameLess := false }.Proper n := ⟨h.started,h.stopped,h.contexts,h.room⟩
  cases operand with
  | tempVar | argVar | super | instVar | assoc | instVarOf => exact h.define _
  | contextVar _ l => exact hf.defineContext l
  | block => exact (hf.define _).defineContext 0
  | _ => exact h

theorem Vars.Proper.examineOperands (operands : List Operand) : (examineOperands vars n operands).Proper n := by
  induction operands generalizing vars with
  | nil => exact h
  | cons op _ ih => exact ih (h.examineOperand op)

theorem Vars.Proper.scanFrom (code : Bytecodes) : (scanFrom vars n code).Proper (n + code.length) := by
  induction code generalizing vars n with
  | nil => exact h
  | cons i r ih =>
    have hf : { vars with frameLess := false }.Proper n := ⟨h.started,h.stopped,h.contexts,h.room⟩
    have hn : ∀ {vars : Vars}, vars.Proper n → vars.Proper (n+1) := fun h =>
      ⟨fun i hi => Nat.le_succ_of_le (h.started i hi),h.stopped,h.contexts,h.room⟩
    have hi : (scanInstr vars n i).Proper (n+1) := by
      cases i with
      | copy => exact hn (h.examineOperands _)
      | send => exact hn (hf.examineOperands _)
      | sendWithStore => exact (hn (hf.examineOperands _)).examineOperand _
      | ret | jumpNotMemberOf => exact hn (h.examineOperand _)
      | outerReturn => exact hn (hf.examineOperand _)
      | jump => exact hn h
    rw [length_cons,Nat.add_comm r.length,← Nat.add_assoc]
    exact ih hi

end

theorem scanCode_proper (argsSize : ℕ) (code : Bytecodes) : ∃ n, (scanCode (initialVars argsSize) code).Proper n := by
  have hin : (initialVars argsSize).Proper 0 := by
    refine ⟨?_,?_,?_,Int.le_refl _⟩ <;> intro i hi
    · exact Nat.le_of_eq (initialVars_start hi)
    · exact (initialVars_start hi).symm ▸ Nat.zero_le _
    · intro lv hvar
      rcases mem_initialVars.mp hi with ⟨k,-,rfl⟩ | rfl <;> cases hvar
  have hsc := hin.scanFrom code
  obtain ⟨hwf,hk⟩ := scanFrom_scanned (initialVars_wf argsSize) code
  unfold scanCode
  split
  · exact ⟨_,hsc⟩
  · obtain ⟨i,hi,hvar⟩ := (initialVars_wf argsSize).defined selfIndex (by simp [selfIndex])
    obtain ⟨j,hj,hvar',hs,-⟩ := hk.kept i hi
    rw [initialVars_start hi] at hs
    unfold Vars.define
    cases hf : (Jit.scanFrom (initialVars argsSize) 0 code).find (.tmp selfIndex) with
    | none => exact absurd (hvar'.trans hvar) (Vars.find_none hf j hj)
    | some =>
      refine ⟨_,hsc.moveEnd ?_⟩
      intro l hl hsel
      rw [hwf.unique l hl j hj (hsel.trans (hvar'.trans hvar).symm),hs]
      exact Nat.zero_le _

end Ranges

section Allocation
variable (code : CompiledCode) {regs : List Reg}

theorem slot_cases (h : alloc = computeRegsAlloc regs code)
    (hi : i ∈ alloc.order) (hs : hasSlot i.var = true) : -(alloc.frameSize : ℤ) ≤ alloc.frameOffset i.var ∧
      ((alloc.frameOffset i.var = i.frameOffset ∧ i.frameOffset ≤ -2) ∨
        (1 ≤ alloc.frameOffset i.var ∧ ∃ index, i.var = .tmp index)) := by
  subst h
  obtain ⟨time,vars,hwf,hv,hord,hsi⟩ := computeRegsAlloc_wf code regs
  obtain ⟨n,hp⟩ := scanCode_proper code.header.argsSize code.bytecodes
  rw [← hv] at hp
  have hb := hwf.below i (hord ▸ hi) hs
  cases hvar : i.var with
  | assoc => simp [hvar,hasSlot] at hs
  | context l =>
    have heq : (computeRegsAlloc regs code).frameOffset (.context l) = i.frameOffset := by
      simp [RegsAlloc.frameOffset,← hvar,interval_eq code hi]
    have hle := hp.contexts i (hord ▸ hi) l hvar
    exact ⟨by omega,Or.inl ⟨heq,by omega⟩⟩
  | tmp index =>
    have heq := frameOffset_eq code hi hvar
    rcases frameOffset_cases code ⟨i,hi,hvar⟩ with ⟨hpos,hle,ho⟩ | ⟨rfl,ho⟩ | ⟨hlt,hge,ho⟩
    · have hone : 1 ≤ (computeRegsAlloc regs code).frameOffset (.tmp index) := by
        rw [ho]
        split <;> omega
      exact ⟨by omega,Or.inr ⟨hone,index,rfl⟩⟩
    · rw [if_neg (by simp [contextIndex])] at heq
      exact ⟨by omega,Or.inl ⟨heq,by omega⟩⟩
    · rw [if_neg (by omega)] at heq
      exact ⟨hge,Or.inl ⟨heq,by omega⟩⟩

theorem slot_inj (h : alloc = computeRegsAlloc regs code)
    (hi : i ∈ alloc.order) (hs : hasSlot i.var = true) (hj : j ∈ alloc.order)
    (hs' : hasSlot j.var = true) (heq : alloc.frameOffset i.var = alloc.frameOffset j.var) : i.var = j.var := by
  -- arguments lie above the frame pointer and all others below it
  rcases slot_cases code h hi hs with ⟨-,⟨ho,hle⟩ | ⟨hone,k,hvar⟩⟩ <;>
    rcases slot_cases code h hj hs' with ⟨-,⟨ho',hle'⟩ | ⟨hone',i',hvar'⟩⟩
  · obtain ⟨time,vars,hwf,-,hord,-⟩ := computeRegsAlloc_wf code regs
    rw [h,hord] at hi hj
    exact hwf.slots i hi j hj hs hs' (by omega)
  · omega
  · omega
  · subst h
    rw [hvar,hvar'] at heq ⊢
    rw [frameOffset_inj code ⟨i,hi,hvar⟩ ⟨j,hj,hvar'⟩ heq]

/-- What an allocation from a pool of registers has to be. The list of active variables is the one
that is left when the variable `i` has been visited. -/
structure Allocates (regs : List Reg) (alloc : RegsAlloc) : Prop where
  apart : ∀ i ∈ alloc.order, ∀ j ∈ alloc.order, i.var ≠ j.var → ∀ r, alloc.reg i.var = some r →
    alloc.reg j.var = some r → Disjoint i.toRange j.toRange
  pinned : ∀ v, alloc.reg v = some .ctx → v = .tmp contextIndex
  runs : (assignVars regs (scanRanges alloc.order)).map Assignment.reg = some alloc.reg
  active : ∀ pre i post, scanRanges alloc.order = pre ++ i :: post →
    ∃ s, assignVars regs (pre ++ [i]) = some s ∧ s.Fits regs.length ∧
      ∀ j, j ∈ s.sortedVars ↔ j ∈ pre ++ [i] ∧ (s.reg j.var).isSome ∧ i.start ≤ j.stop
  framed : ∀ i ∈ alloc.order, alloc.reg i.var = none → alloc.frameLess = false
  slots : ∀ i ∈ alloc.order, alloc.reg i.var = none → hasSlot i.var = true →
    -(alloc.frameSize : ℤ) ≤ alloc.frameOffset i.var ∧
    (alloc.frameOffset i.var ≤ -2 ∨ 1 ≤ alloc.frameOffset i.var) ∧
    ∀ j ∈ alloc.order, hasSlot j.var = true → alloc.frameOffset i.var = alloc.frameOffset j.var → i.var = j.var

theorem assignVars_active (hreg : regs.Nodup) (hr : scanRanges (computeRegsAlloc regs code).order = pre ++ i :: post) :
    ∃ s, assignVars regs (pre ++ [i]) = some s ∧ s.Fits regs.length ∧ ∀ j, j ∈ s.sortedVars ↔ j ∈ pre ++ [i] ∧
      (s.reg j.var).isSome ∧ i.start ≤ j.stop := by
  obtain ⟨time,vars,hwf,hv,ho,-⟩ := computeRegsAlloc_wf code regs
  obtain ⟨n,hpr⟩ := scanCode_proper code.header.argsSize code.bytecodes
  rw [ho] at hr
  have hsub : (pre ++ [i]).Sublist (scanRanges vars.order) := by
    rw [hr]
    exact (append_sublist_append_left pre).mpr (singleton_sublist.mpr mem_cons_self)
  have hso := hwf.scanRanges_sorted.sublist hsub
  have hn := hwf.scanRanges_nodup.sublist (hsub.map _)
  have hst : i.start ≤ i.stop := by
    obtain ⟨k,hk,rfl⟩ := mem_map.mp (hsub.subset (mem_append_right pre mem_cons_self))
    exact hpr.stopped k (hv ▸ (mem_filter.mp hk).1)
  obtain ⟨s,hs,hp,hf⟩ := assignVars_eq hreg hso hn
  have hinv : Inv pinnedRegs regs _ _ _ := scan_inv hreg hso hn
  refine ⟨s,hs,hf,?_⟩
  rw [scan,foldl_append] at hp hinv
  rw [foldl_append] at hinv
  intro j
  change j ∈ s.pool.active ↔ j ∈ pre ++ [i] ∧ (s.pool.reg j.var).isSome ∧ i.start ≤ j.stop
  rw [hp]
  exact hinv.mem_active hst

/-- Linear scan with any pool of distinct registers that leaves out the one of the context. -/
theorem computeRegsAlloc_allocates (hregs : regs.Nodup) (hctx : Reg.ctx ∉ regs) :
    Allocates regs (computeRegsAlloc regs code) := by
  obtain ⟨time,vars,hwf,hvars,ho,-⟩ := computeRegsAlloc_wf code regs
  constructor
  · intro i hi j hj hne r hri hrj
    exact computeRegsAlloc_disjoint code hregs hctx hi hj hne hri hrj
  · intro v hv
    rcases computeRegsAlloc_pool code hregs hv with ⟨hvar,-⟩ | ⟨-,hmem⟩
    · exact hvar
    · exact absurd hmem hctx
  · obtain ⟨s,hs,hp,-⟩ := assignVars_eq hregs hwf.scanRanges_sorted hwf.scanRanges_nodup
    rw [ho,hs,Option.map_some,show s.reg = s.pool.reg from rfl,hp,hvars]
    rfl
  · intro pre i q hr
    exact assignVars_active code hregs hr
  · intro i hi hn
    cases hf : (computeRegsAlloc regs code).frameLess with
    | false => rfl
    | true =>
      simp only [computeRegsAlloc,Bool.and_eq_true,all_eq_true] at hf
      have hso := hf.2 i hi
      rw [show scanRegisters regs _ i.var = none from hn] at hso
      cases hso
  · intro i hi _ hsl
    obtain ⟨hge,hc⟩ := slot_cases code rfl hi hsl
    refine ⟨hge,?_,fun j hj hsl' heq => slot_inj code rfl hi hsl hj hsl' heq⟩
    rcases hc with ⟨heq,hle⟩ | ⟨hone,-⟩
    · exact Or.inl (heq ▸ hle)
    · exact Or.inr hone

def setter : CompiledCode :=
  ⟨false,⟨2,0,false,0,0,0⟩,[],0,[.copy (.argVar 2) (.instVar 0),.copy (.argVar 3) (.instVar 1)]⟩

theorem computeRegsAlloc_allocates_setter : Allocates [.r11,.r13] (computeRegsAlloc [.r11,.r13] setter) ∧
      (computeRegsAlloc [.r11,.r13] setter).reg (.tmp 3) = some .r11 ∧
      (computeRegsAlloc [.r11,.r13] setter).reg (.tmp 2) = some .r13 ∧
      (computeRegsAlloc [.r11,.r13] setter).reg (.tmp 1) = none :=
  ⟨computeRegsAlloc_allocates setter (by decide) (by decide),by decide,by decide,by decide⟩

end Allocation

end SmalltalkJit.Jit
