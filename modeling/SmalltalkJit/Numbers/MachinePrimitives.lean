import SmalltalkJit.Numbers.Exactness

/-! # The machine primitives of small integers

The words of small integers are the integers times four. The instructions compute on
them, on untagged words where they multiply or divide, and give up on overflow, on a
zero divisor and on an argument that is not a small integer. Each answers the word of
the exact result or gives up, except that the product of -1 and the smallest integer
comes out as the smallest integer: the argument is untagged without its sign.
-/
namespace SmalltalkJit.Numbers
open BitVec Int

abbrev Word := BitVec 64

def tagInt (i : ℤ) : Word := BitVec.ofInt 64 i <<< 2

/-- How a primitive ends: with a word, at the code behind it, or in a trap of the processor. -/
inductive Exit
  | answers (word : Word)
  | declines
  | faults
  deriving DecidableEq

section Instructions

def checked (overflow : Bool) (word : Word) : Exit := if overflow then .declines else .answers word

def testInt (word : Word) (rest : Exit) : Exit := if word &&& 3 = 0 then rest else .declines

def idivq (dividend divisor : Word) (rest : Word → Word → Exit) : Exit :=
  if divisor = 0 ∨ dividend = intMin 64 ∧ divisor = -1 then .faults
  else rest (dividend.sdiv divisor) (dividend.srem divisor)

def divide (receiver argument : Word) (rest : Word → Word → Exit) : Exit :=
  testInt argument (if argument = 0 then .declines else idivq receiver argument rest)

def retag (quotient : Word) : Exit :=
  let rax := (quotient <<< 2).sshiftRight 2
  if rax = quotient then .answers (rax <<< 2) else .declines

/-- The remainder is not zero and its sign is not that of the divisor. -/
def differs (remainder divisor : Word) : Bool := remainder ≠ 0 ∧ (remainder ^^^ divisor).slt 0

variable (receiver argument : Word)

def generateIntAddPrimitive : Exit :=
  testInt argument (checked (receiver.saddOverflow argument) (receiver + argument))

def generateIntSubPrimitive : Exit :=
  testInt argument (checked (receiver.ssubOverflow argument) (receiver - argument))

/-- The argument is untagged by a logical shift. -/
def generateIntMulPrimitive : Exit :=
  testInt argument (checked ((argument >>> 2).smulOverflow receiver) ((argument >>> 2)*receiver))

def generateIntQuoPrimitive : Exit := divide receiver argument fun quotient _ => retag quotient

def generateIntFloorDivPrimitive : Exit :=
  divide receiver argument fun quotient remainder =>
    retag (if differs remainder argument then quotient-1 else quotient)

def generateIntModPrimitive : Exit :=
  divide receiver argument fun _ remainder =>
    .answers (if differs remainder argument then remainder + argument else remainder)

def generateIntRemPrimitive : Exit := divide receiver argument fun _ remainder => .answers remainder

def generateIntNegPrimitive : Exit := checked receiver.negOverflow (-receiver)

/-- The processor takes six bits of the count. -/
def generateIntShiftPrimitive : Exit :=
  testInt argument <|
    let count := argument.sshiftRight 2
    if count.slt 0 then
      let count := if (-count).sle 63 then -count else 63
      .answers (receiver.sshiftRight (count.toNat % 64) &&& ~~~3)
    else if (62 : Word).sle count then .declines
    else
      let rax := receiver <<< (count.toNat % 64)
      if rax.sshiftRight (count.toNat % 64) = receiver then .answers rax else .declines

def inlinedAdd : Exit := testInt receiver (generateIntAddPrimitive receiver argument)

def inlinedSub : Exit := testInt receiver (generateIntSubPrimitive receiver argument)

def inlinedMul : Exit :=
  testInt receiver <| testInt argument <|
    checked ((receiver.sshiftRight 2).smulOverflow argument) (receiver.sshiftRight 2*argument)

end Instructions

inductive Operator
  | add
  | sub
  | mul
  | quo
  | floorDiv
  | rem
  | mod
  | neg
  | shift
  | inlinedAdd
  | inlinedSub
  | inlinedMul
  deriving DecidableEq

def Operator.run : Operator → Word → Word → Exit
  | .add => generateIntAddPrimitive
  | .sub => generateIntSubPrimitive
  | .mul => generateIntMulPrimitive
  | .quo => generateIntQuoPrimitive
  | .floorDiv => generateIntFloorDivPrimitive
  | .rem => generateIntRemPrimitive
  | .mod => generateIntModPrimitive
  | .neg => fun receiver _ => generateIntNegPrimitive receiver
  | .shift => generateIntShiftPrimitive
  | .inlinedAdd => Numbers.inlinedAdd
  | .inlinedSub => Numbers.inlinedSub
  | .inlinedMul => Numbers.inlinedMul

def shifted (i j : ℤ) : ℤ := if 0 ≤ j then i*2^j.toNat else i / 2^(-j).toNat

def Operator.result (i j : ℤ) : Operator → Option ℤ
  | .add | .inlinedAdd => some (i + j)
  | .sub | .inlinedSub => some (i - j)
  | .mul | .inlinedMul => some (i*j)
  | .quo => if j = 0 then none else some (i.tdiv j)
  | .floorDiv => if j = 0 then none else some (i.fdiv j)
  | .rem => if j = 0 then none else some (i.tmod j)
  | .mod => if j = 0 then none else some (i.fmod j)
  | .neg => some (-i)
  | .shift => some (shifted i j)

/-- The primitive gives up, or answers the word of the result, which is in range. -/
def Exit.Sound (exit : Exit) (result : Option ℤ) : Prop :=
  exit = .declines ∨ ∃ n, result = some n ∧ InRange n ∧ exit = .answers (tagInt n)

section Words
variable {i j n : ℤ} {w : Word}

theorem toInt_shiftLeft (w : Word) (c : ℕ) : (w <<< c).toInt = (w.toInt*2^c).bmod (2^64) := by
  rw [BitVec.toInt_shiftLeft,Nat.shiftLeft_eq,BitVec.toInt_eq_toNat_bmod,bmod_mul_bmod]
  norm_cast

theorem toInt_tagInt (h : InRange i) : (tagInt i).toInt = 4*i := by
  obtain ⟨h1,h2⟩ := h
  rw [tagInt,toInt_shiftLeft,toInt_ofInt,bmod_mul_bmod,bmod_eq_of_le] <;> omega

theorem sound_answers (h : w.toInt = 4*n) : (Exit.answers w).Sound (some n) := by
  have hlow := w.le_toInt
  have hh := w.toInt_lt
  have hn : InRange n := ⟨by omega,by omega⟩
  refine .inr ⟨n,rfl,hn,?_⟩
  rw [← toInt_tagInt hn,toInt_inj] at h
  rw [h]

theorem sound_checked (h : overflow = false → w.toInt = 4*n) : (checked overflow w).Sound (some n) := by
  cases overflow with
  | false => exact sound_answers (h rfl)
  | true => exact .inl rfl

theorem testInt_tagInt (j : ℤ) (rest : Exit) : testInt (tagInt j) rest = rest := by
  refine if_pos (eq_of_toNat_eq ?_)
  have hmod := Nat.and_two_pow_sub_one_eq_mod (BitVec.ofInt 64 j <<< 2).toNat 2
  rw [toNat_shiftLeft,Nat.shiftLeft_eq] at hmod
  rw [tagInt,toNat_and,toNat_shiftLeft,Nat.shiftLeft_eq]
  refine hmod.trans ?_
  rw [show (0 : Word).toNat = 0 from rfl]
  omega

theorem toInt_shiftLeft_of_eq (hc : c ≤ 64) (h : (w <<< c).sshiftRight c = w) : (w <<< c).toInt = w.toInt*2^c := by
  have hb := congrArg BitVec.toInt h
  rw [BitVec.toInt_sshiftRight,shiftRight_eq_div_pow] at hb
  have hpow : ((2 : ℕ) : ℤ)^c ∣ ((2^64 : ℕ) : ℤ) := by exact_mod_cast Nat.pow_dvd_pow 2 hc
  have hdvd : ((2 : ℕ) : ℤ)^c ∣ (w <<< c).toInt := by
    rw [toInt_shiftLeft,dvd_iff_emod_eq_zero,← emod_emod_of_dvd _ hpow,bmod_emod,emod_emod_of_dvd _ hpow]
    exact mul_emod_left _ _
  rw [← hb]
  exact_mod_cast (Int.ediv_mul_cancel hdvd).symm

theorem sound_retag (h : w.toInt = n) : (retag w).Sound (some n) := by
  unfold retag
  dsimp only
  split
  · next heq =>
    rw [heq]
    refine sound_answers ?_
    rw [toInt_shiftLeft_of_eq (by norm_num) heq,h]
    omega
  · exact .inl rfl

theorem tmod_sign (i j : ℤ) : 0 ≤ i ∧ 0 ≤ i.tmod j ∨ i < 0 ∧ i.tmod j ≤ 0 := by
  obtain hi | hi := lt_or_ge i 0
  · have hneg := tmod_nonneg j (by omega : 0 ≤ -i)
    rw [neg_tmod] at hneg
    omega
  · exact .inl ⟨hi,tmod_nonneg j hi⟩

theorem differs_iff (r d : Word) : differs r d = true ↔ r.toInt ≠ 0 ∧ ¬ (r.toInt < 0 ↔ d.toInt < 0) := by
  have hz : (0 : Word).toInt = 0 := rfl
  have hmsb : ∀ w : Word, w.toInt < 0 ↔ w.msb = true := fun w => by rw [msb_eq_toInt,decide_eq_true_iff]
  rw [differs,decide_eq_true_iff,Ne,← toInt_inj,slt_iff_toInt_lt,hz,hmsb,hmsb,hmsb,
    msb_xor,bne_iff_ne,Ne,Bool.eq_iff_iff]

theorem toInt_and_not_three (w : Word) : (w &&& ~~~(3 : Word)).toInt = 4*(w.toInt / 4) := by
  have hs : w &&& ~~~(3 : Word) = (w.sshiftRight 2) <<< 2 := by
    refine eq_of_getLsbD_eq fun k hk => ?_
    rw [getLsbD_and,getLsbD_not,getLsbD_shiftLeft,getLsbD_sshiftRight]
    match k with
    | 0 | 1 => simp
    | k+2 =>
      have ht : (3 : Word).getLsbD (k+2) = false := by simp [getLsbD_ofNat,Nat.testBit_succ]
      rw [ht,Nat.add_sub_cancel,Nat.add_comm 2 k]
      have hle : ¬ 64 ≤ k := by omega
      simp [hk,hle]
  have hlow := w.le_toInt
  have hh := w.toInt_lt
  rw [hs,toInt_shiftLeft,toInt_sshiftRight,shiftRight_eq_div_pow,bmod_eq_of_le] <;> omega

theorem ediv_clamped (h : InRange i) (n : ℕ) : i / 2^min n 63 = i / 2^n := by
  obtain hn | hn := le_total n 63
  · rw [min_eq_left hn]
  · have hs : ∀ c : ℕ, 61 ≤ c → i / 2^c = if i < 0 then -1 else 0 := by
      intro c hc
      have hpow : (2 : ℤ)^61 ≤ 2^c := pow_le_pow_right₀ (by norm_num) hc
      obtain ⟨h1,h2⟩ := h
      split
      · exact ediv_eq_neg_one_of_neg_of_le (by omega) (by omega)
      · exact ediv_eq_zero_of_lt (by omega) (by omega)
    rw [min_eq_right hn,hs 63 (by norm_num),hs n (by omega)]

end Words

section Primitives
variable {i j : ℤ} (hi : InRange i) (hj : InRange j)
include hi hj

theorem add_sound : (generateIntAddPrimitive (tagInt i) (tagInt j)).Sound (some (i + j)) := by
  rw [generateIntAddPrimitive,testInt_tagInt]
  refine sound_checked fun h => ?_
  rw [toInt_add_of_not_saddOverflow (by simp [h]),toInt_tagInt hi,toInt_tagInt hj]
  omega

theorem sub_sound : (generateIntSubPrimitive (tagInt i) (tagInt j)).Sound (some (i - j)) := by
  rw [generateIntSubPrimitive,testInt_tagInt]
  refine sound_checked fun h => ?_
  rw [toInt_sub_of_not_ssubOverflow (by simp [h]),toInt_tagInt hi,toInt_tagInt hj]
  omega

theorem inlinedMul_sound : (inlinedMul (tagInt i) (tagInt j)).Sound (some (i*j)) := by
  rw [inlinedMul,testInt_tagInt,testInt_tagInt]
  refine sound_checked fun h => ?_
  rw [toInt_mul_of_not_smulOverflow (by simp [h]),toInt_sshiftRight,toInt_tagInt hi,toInt_tagInt hj,
    shiftRight_eq_div_pow,show ((2^2 : ℕ) : ℤ) = 4 from rfl,mul_ediv_cancel_left i (by norm_num)]
  ring

theorem mul_sound_iff : (generateIntMulPrimitive (tagInt i) (tagInt j)).Sound (some (i*j)) ↔
    ¬ (i = -1 ∧ j = -2^61) := by
  obtain ⟨h1,h2⟩ := id hj
  have hu : (tagInt j >>> 2).toInt = if 0 ≤ j then j else 2^62 + j := by
    have hw := toInt_tagInt hj
    rw [BitVec.toInt_eq_toNat_cond] at hw
    rw [BitVec.toInt_ushiftRight,if_neg (by norm_num),Nat.shiftRight_eq_div_pow]
    split at hw <;> split <;> omega
  constructor
  · rintro hs ⟨rfl,rfl⟩
    obtain hd | ⟨n,hn,hr,-⟩ := hs
    · exact absurd hd (by decide)
    · cases hn
      exact absurd hr (by decide)
  · intro hne
    rw [generateIntMulPrimitive,testInt_tagInt]
    refine sound_checked fun h => ?_
    rw [BitVec.toInt_mul_of_not_smulOverflow (by simp [h]),hu,toInt_tagInt hi]
    simp only [BitVec.smulOverflow,hu,toInt_tagInt hi,Bool.or_eq_false_iff,decide_eq_false_iff_not,Nat.reduceSub] at h
    by_cases hneg : 0 ≤ j
    · rw [if_pos hneg]
      ring
    · -- the factor is at least `2 ^ 61`, so that only a zero receiver and -1 do not overflow
      rw [if_neg hneg] at h ⊢
      obtain hpos | rfl | rfl | hl : 1 ≤ i ∨ i = 0 ∨ i = -1 ∨ i ≤ -2 := by omega
      · have ho := mul_nonneg (by omega : 0 ≤ 2^61 + j) (by omega : 0 ≤ i-1)
        exact absurd (by linarith) h.1
      · ring
      · omega
      · have hun := mul_nonneg (by omega : 0 ≤ 2^61 + j) (by omega : 0 ≤ -2 - i)
        exact absurd (by linarith) h.2

omit hj in
theorem neg_sound : (generateIntNegPrimitive (tagInt i)).Sound (some (-i)) := by
  refine sound_checked fun h => ?_
  rw [toInt_neg_of_not_negOverflow (by simp [h]),toInt_tagInt hi]
  omega

omit hi in
theorem divide_tagInt (rest : Word → Word → Exit) : divide (tagInt i) (tagInt j) rest =
    if j = 0 then .declines else rest ((tagInt i).sdiv (tagInt j)) ((tagInt i).srem (tagInt j)) := by
  have hz : tagInt j = 0 ↔ j = 0 := by
    rw [← toInt_inj,toInt_tagInt hj,show (0 : Word).toInt = 0 from rfl]
    omega
  have hone : tagInt j ≠ -1 := by
    rw [Ne,← toInt_inj,toInt_tagInt hj,show (-1 : Word).toInt = -1 from rfl]
    omega
  rw [divide,testInt_tagInt,idivq]
  simp only [hz,hone,and_false,or_false]
  split <;> rfl

theorem toInt_sdiv : ((tagInt i).sdiv (tagInt j)).toInt = i.tdiv j := by
  have hle := natAbs_tdiv_le_natAbs i j
  obtain ⟨h1,h2⟩ := id hi
  rw [BitVec.toInt_sdiv,toInt_tagInt hi,toInt_tagInt hj,mul_tdiv_mul_of_pos _ _ (by norm_num),bmod_eq_of_le] <;> omega

theorem toInt_srem : ((tagInt i).srem (tagInt j)).toInt = 4*i.tmod j := by
  rw [BitVec.toInt_srem,toInt_tagInt hi,toInt_tagInt hj,mul_tmod_mul_of_pos _ _ (by norm_num)]

theorem quo_sound : (generateIntQuoPrimitive (tagInt i) (tagInt j)).Sound
    (if j = 0 then none else some (i.tdiv j)) := by
  rw [generateIntQuoPrimitive,divide_tagInt hj]
  split
  · exact .inl rfl
  · exact sound_retag (toInt_sdiv hi hj)

theorem rem_sound : (generateIntRemPrimitive (tagInt i) (tagInt j)).Sound
    (if j = 0 then none else some (i.tmod j)) := by
  rw [generateIntRemPrimitive,divide_tagInt hj]
  split
  · exact .inl rfl
  · exact sound_answers (toInt_srem hi hj)

theorem differs_tagInt : differs ((tagInt i).srem (tagInt j)) (tagInt j) = true ↔
    ¬ (i - i.tdiv j*j = 0 ∨ (i < 0 ↔ j < 0)) := by
  have hmod : i - i.tdiv j*j = i.tmod j := by rw [tmod_def,mul_comm]
  have hs := tmod_sign i j
  rw [differs_iff,toInt_srem hi hj,toInt_tagInt hj,hmod]
  omega

theorem floorDiv_sound : (generateIntFloorDivPrimitive (tagInt i) (tagInt j)).Sound
    (if j = 0 then none else some (i.fdiv j)) := by
  have hq := toInt_sdiv hi hj
  have hle := natAbs_tdiv_le_natAbs i j
  obtain ⟨h1,h2⟩ := id hi
  rw [generateIntFloorDivPrimitive,divide_tagInt hj]
  split
  · exact .inl rfl
  · next hz =>
    refine sound_retag ?_
    simp only [differs_tagInt hi hj,fdiv_eq_tdiv_corrected hz,ite_not]
    split
    · exact hq
    · rw [toInt_sub,hq,show (1 : Word).toInt = 1 from rfl,bmod_eq_of_le] <;> omega

theorem mod_sound : (generateIntModPrimitive (tagInt i) (tagInt j)).Sound
    (if j = 0 then none else some (i.fmod j)) := by
  have hr := toInt_srem hi hj
  rw [generateIntModPrimitive,divide_tagInt hj]
  split
  · exact .inl rfl
  · next hz =>
    refine sound_answers ?_
    simp only [differs_tagInt hi hj,fmod_def,fdiv_eq_tdiv_corrected hz,ite_not]
    split
    · rw [hr,tmod_def]
    · next hd =>
      have hlt := Nat.mod_lt i.natAbs (natAbs_pos.mpr hz)
      have hs := tmod_sign i j
      obtain ⟨h1,h2⟩ := id hj
      have hc : i - j*(i.tdiv j-1) = i.tmod j + j := by
        rw [tmod_def]
        ring
      rw [← natAbs_tmod] at hlt
      rw [toInt_add,hr,toInt_tagInt hj,hc,bmod_eq_of_le] <;> omega

theorem shift_sound : (generateIntShiftPrimitive (tagInt i) (tagInt j)).Sound (some (shifted i j)) := by
  have hc : ((tagInt j).sshiftRight 2).toInt = j := by
    rw [toInt_sshiftRight,toInt_tagInt hj,shiftRight_eq_div_pow]
    omega
  obtain ⟨h1,h2⟩ := id hj
  rw [generateIntShiftPrimitive,testInt_tagInt]
  generalize (tagInt j).sshiftRight 2 = count at hc ⊢
  have hneg : (-count).toInt = -j := by rw [toInt_neg,hc,bmod_eq_of_le] <;> omega
  simp only [slt_iff_toInt_lt,sle_iff_toInt_le,hc,hneg,show (0 : Word).toInt = 0 from rfl,
    show (63 : Word).toInt = 63 from rfl,show (62 : Word).toInt = 62 from rfl]
  split
  · next hr =>
    have hcl : (if -j ≤ 63 then -count else 63 : Word).toNat % 64 = min (-j).toNat 63 := by
      split
      · rw [toInt_eq_toNat_cond] at hneg
        split at hneg <;> omega
      · rw [show (63 : Word).toNat = 63 from rfl]
        omega
    refine sound_answers ?_
    rw [toInt_and_not_three,toInt_sshiftRight,toInt_tagInt hi,shiftRight_eq_div_pow,hcl,shifted,
      if_neg (by omega),← ediv_clamped hi,ediv_ediv_of_nonneg (by positivity),mul_comm _ 4]
    push_cast
    rw [mul_ediv_mul_of_pos _ _ (by norm_num)]
  · next hl =>
    split
    · exact .inl rfl
    · split
      · next hb =>
        refine sound_answers ?_
        have hsix : count.toNat % 64 = j.toNat := by
          rw [toInt_eq_toNat_cond] at hc
          split at hc <;> omega
        rw [hsix] at hb ⊢
        rw [toInt_shiftLeft_of_eq (by omega) hb,toInt_tagInt hi,shifted,if_pos (by omega)]
        ring
      · exact .inl rfl

end Primitives

/-- For all small integers, every primitive and every inlined operator answers the word of the exact
result or gives up, except for the primitive for the product of -1 and the smallest one. -/
theorem machine_exact_iff (op : Operator) {i j : ℤ} (hi : InRange i) (hj : InRange j) :
    (op.run (tagInt i) (tagInt j)).Sound (op.result i j) ↔ ¬ (op = .mul ∧ i = -1 ∧ j = -2^61) := by
  cases op with
  | mul => exact (mul_sound_iff hi hj).trans (by simp)
  | add => exact iff_of_true (add_sound hi hj) (by simp)
  | sub => exact iff_of_true (sub_sound hi hj) (by simp)
  | quo => exact iff_of_true (quo_sound hi hj) (by simp)
  | floorDiv => exact iff_of_true (floorDiv_sound hi hj) (by simp)
  | rem => exact iff_of_true (rem_sound hi hj) (by simp)
  | mod => exact iff_of_true (mod_sound hi hj) (by simp)
  | neg => exact iff_of_true (neg_sound hi) (by simp)
  | shift => exact iff_of_true (shift_sound hi hj) (by simp)
  | inlinedAdd =>
    refine iff_of_true ?_ (by simp)
    rw [Operator.run,inlinedAdd,testInt_tagInt]
    exact add_sound hi hj
  | inlinedSub =>
    refine iff_of_true ?_ (by simp)
    rw [Operator.run,inlinedSub,testInt_tagInt]
    exact sub_sound hi hj
  | inlinedMul => exact iff_of_true (inlinedMul_sound hi hj) (by simp)

theorem machine_exact_smallest : (Operator.floorDiv.run (tagInt (-2^61)) (tagInt (-1))).Sound (some (2^61)) :=
  (machine_exact_iff .floorDiv (i := -2^61) (j := -1) (by decide) (by decide)).mpr (by decide)

/-- The product of -1 and the smallest integer is answered as the smallest integer. -/
theorem mul_answers_smallest : generateIntMulPrimitive (tagInt (-1)) (tagInt (-2^61)) = .answers (tagInt (-2^61)) ∧
      ¬ InRange (-1 * -2^61) := by
  decide

end SmalltalkJit.Numbers
