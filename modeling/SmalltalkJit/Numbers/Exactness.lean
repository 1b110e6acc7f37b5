import SmalltalkJit.Numbers.LargeInteger
import Mathlib.Tactic.Linarith

/-! # Integer arithmetic is exact

Every integer has one representation: a small integer when it is in range, a large
one with its limbs otherwise. Operands are taken apart into magnitude and sign and
put together again without loss, so the messages answer the representation of the
exact result.
-/
namespace SmalltalkJit.Numbers
open List Limbs Int Nat

namespace Limbs
variable {a b : Limbs}

theorem value_append_zero (a : Limbs) : value (a ++ [0]) = a.value := by simp [value,ofDigits_append]

theorem value_normalize (a : Limbs) : (bigIntNormalize a).value = a.value := by
  induction a using List.reverseRecOn with
  | nil => rfl
  | append_singleton _ _ ih =>
    rw [bigIntNormalize,rdropWhile_concat]
    split
    · rename_i hx
      rw [beq_iff_eq] at hx
      subst hx
      rw [value_append_zero]
      exact ih
    · rfl

theorem normal_normalize (a : Limbs) : (bigIntNormalize a).Normal := rdropWhile_idempotent _ _

theorem Normal.getLast_ne (h : a.Normal) (hne : a ≠ []) : a.getLast hne ≠ 0 := by
  have := rdropWhile_eq_self_iff.mp h hne
  simpa using this

theorem toNat_ofNat_of_lt (h : d < 2^32) : (UInt32.ofNat d).toNat = d := mod_eq_of_lt h

def ofNat (n : ℕ) : Limbs := (digits (2^32) n).map UInt32.ofNat

theorem map_toNat_ofNat (n : ℕ) : (ofNat n).map UInt32.toNat = digits (2^32) n := by
  rw [ofNat,map_map]
  conv_rhs => rw [← map_id (digits (2^32) n)]
  refine map_congr_left fun d hd => ?_
  exact toNat_ofNat_of_lt (digits_lt_base (by norm_num) hd)

@[simp] theorem value_ofNat (n : ℕ) : (ofNat n).value = n := by rw [value,map_toNat_ofNat,ofDigits_digits]

theorem Normal.ofNat_value (h : a.Normal) : ofNat a.value = a := by
  have hdi : digits (2^32) a.value = a.map UInt32.toNat := by
    refine digits_ofDigits (2^32) (by norm_num) _ ?_ ?_
    · intro d hd
      obtain ⟨x,-,rfl⟩ := mem_map.mp hd
      exact x.toNat_lt
    · intro hne
      have hne' : a ≠ [] := fun h => hne (by simp [h])
      have := h.getLast_ne hne'
      simpa [UInt32.toNat_inj,← UInt32.toNat_inj] using this
  rw [ofNat,hdi,map_map]
  conv_rhs => rw [← map_id a]
  exact map_congr_left fun x _ => UInt32.ofNat_toNat

theorem normal_ofNat (n : ℕ) : (ofNat n).Normal := by
  refine rdropWhile_eq_self_iff.mpr fun hne => ?_
  have hd : digits (2^32) n ≠ [] := fun h => hne (by rw [ofNat,h,map_nil])
  have hn : n ≠ 0 := by
    rintro rfl
    exact hd (digits_zero _)
  have hl := getLast_digit_ne_zero (2^32) hn
  have hlt := digits_lt_base (b := 2^32) (by norm_num) (getLast_mem hd)
  rw [beq_iff_eq,← UInt32.toNat_inj]
  simp only [ofNat,getLast_map,toNat_ofNat_of_lt hlt]
  exact hl

theorem Normal.value_eq_zero (h : a.Normal) : a.value = 0 ↔ a = [] := by
  constructor
  · intro hv
    rw [← h.ofNat_value,hv]
    simp [ofNat]
  · rintro rfl
    rfl

theorem value_cons (x : UInt32) (a : Limbs) : value (x :: a) = x.toNat+2^32*a.value := by
  simp only [value,map_cons,ofDigits_cons]

theorem value_pair (low high : UInt32) : value [low,high] = low.toNat + high.toNat*2^32 := by
  rw [value_cons,value_cons,mul_comm high.toNat]
  rfl

theorem Normal.tail (h : Normal (x :: a)) (hne : a ≠ []) : a.Normal := by
  refine rdropWhile_eq_self_iff.mpr fun _ => ?_
  have hl := h.getLast_ne (cons_ne_nil x a)
  rw [getLast_cons hne] at hl
  simpa using hl

theorem Normal.le_value (h : Normal (x :: y :: z :: a)) : 2^64 ≤ value (x :: y :: z :: a) := by
  have hz : value (z :: a) ≠ 0 := by
    have hn := (h.tail (cons_ne_nil _ _)).tail (cons_ne_nil z a)
    rw [Ne,hn.value_eq_zero]
    exact cons_ne_nil z a
  rw [value_cons,value_cons]
  omega

end Limbs

def signed (negative : Bool) (n : ℕ) : ℤ := if negative then -n else n

def represent (n : ℤ) : Integer := if InRange n then .small n else .large (n < 0) (ofNat n.natAbs)

section Operands

theorem signed_natAbs (n : ℤ) : signed (decide (n < 0)) n.natAbs = n := by
  unfold signed
  by_cases hn : n < 0
  · rw [decide_eq_true hn,if_pos rfl]
    omega
  · rw [decide_eq_false hn,if_neg Bool.false_ne_true]
    omega

theorem normal_operand (v : Integer) : (largeIntOperand v).Normal := by
  cases v with
  | small | large => exact normal_normalize _

theorem value_operand (n : ℤ) : (largeIntOperand (represent n)).value = n.natAbs := by
  unfold represent
  split
  · rename_i hn
    have hb : n.natAbs ≤ 2^61 := by
      obtain ⟨h1,h2⟩ := hn
      omega
    have hh : n.natAbs / 2^32 < 2^32 := by omega
    have hlow : n.natAbs % 2^32 < 2^32 := mod_lt _ (by norm_num)
    rw [largeIntOperand,value_normalize,value_cons,value_cons,toNat_ofNat_of_lt hlow,toNat_ofNat_of_lt hh]
    have hnil : value [] = 0 := rfl
    omega
  · rw [largeIntOperand,value_normalize,value_ofNat]

theorem isNegative_represent (n : ℤ) : largeIntIsNegative (represent n) = decide (n < 0) := by
  unfold represent
  split <;> rfl

theorem fitsSmall_eq (h : limbs.Normal) (negative : Bool) :
    largeIntFitsSmall limbs negative = decide (InRange (signed negative limbs.value)) := by
  have hf : ∀ m : ℕ, largeIntFitsSmall.fits negative m = decide (InRange (signed negative m)) := by
    intro m
    unfold largeIntFitsSmall.fits signed InRange
    cases negative with
    | false =>
      simp only [Bool.false_eq_true,if_false]
      exact decide_eq_decide.mpr (by omega)
    | true =>
      simp only [if_true]
      exact decide_eq_decide.mpr (by omega)
  match limbs, h with
  | [], _ => cases negative <;> decide
  | [low], _ =>
    have hv : value [low] = low.toNat := by simp [value]
    rw [largeIntFitsSmall,hf,hv]
  | [low,high], _ =>
    rw [largeIntFitsSmall,hf,value_pair]
  | x :: y :: z :: rest, h =>
    have hl := h.le_value
    change false = _
    rw [eq_comm,decide_eq_false_iff_not]
    unfold signed InRange
    split <;> omega

theorem largeIntResult_eq (limbs : Limbs) (negative : Bool) :
    largeIntResult limbs negative = represent (signed negative limbs.value) := by
  rw [← value_normalize limbs]
  have hn := normal_normalize limbs
  unfold largeIntResult
  generalize bigIntNormalize limbs = l at hn ⊢
  match l, hn with
  | [], _ => cases negative <;> decide
  | low :: rest, hn =>
    have hf := fitsSmall_eq hn negative
    simp only [hf,represent,decide_eq_true_eq]
    by_cases hr : InRange (signed negative (value (low :: rest)))
    · rw [if_pos hr,if_pos hr]
      congr 1
      match rest, hn with
      | [], _ => simp [signed,value]
      | [high], _ =>
        rw [value_pair]
        rfl
      | y :: z :: rest, hn =>
        have hl := hn.le_value
        unfold signed InRange at hr
        split at hr <;> omega
    · rw [if_neg hr,if_neg hr]
      have hv : value (low :: rest) ≠ 0 := by
        rw [Ne,hn.value_eq_zero]
        exact cons_ne_nil low rest
      have hs : decide (signed negative (value (low :: rest)) < 0) = negative := by
        unfold signed
        cases negative with
        | false => simp
        | true =>
          rw [if_pos rfl,decide_eq_true_eq]
          omega
      have habs : (signed negative (value (low :: rest))).natAbs = value (low :: rest) := by
        unfold signed
        split <;> omega
      rw [hs,habs,hn.ofNat_value]

end Operands

section Signs
variable {m n : ℕ}

theorem signed_not (s : Bool) (m : ℕ) : signed (!s) m = -signed s m := by cases s <;> simp [signed]

variable (s t : Bool)

theorem signed_mul (m n : ℕ) : signed s m*signed t n = signed (s != t) (m*n) := by
  cases s <;> cases t <;> simp [signed]

theorem signed_tdiv (m n : ℕ) : (signed s m).tdiv (signed t n) = signed (s != t) (m / n) := by
  cases s <;> cases t <;> simp [signed,Int.neg_tdiv,Int.tdiv_neg]

theorem signed_tmod (m n : ℕ) : (signed s m).tmod (signed t n) = signed s (m % n) := by
  cases s <;> cases t <;>
    simp only [signed,Bool.false_eq_true,if_false,if_true,neg_tmod,tmod_neg,ofNat_tmod]

theorem signed_dvd_iff (m n : ℕ) : signed t n ∣ signed s m ↔ m % n = 0 := by
  rw [← dvd_iff_mod_eq_zero,← natAbs_dvd_natAbs]
  cases s <;> cases t <;> simp [signed]

theorem signed_fdiv (m : ℕ) (hn : n ≠ 0) : (signed s m).fdiv (signed t n) =
    signed (s != t) (if (s != t) = true ∧ m % n ≠ 0 then m / n+1 else m / n) := by
  have hs : (n : ℤ).sign = 1 := sign_eq_one_of_pos (by omega)
  simp only [fdiv_eq_tdiv,signed_tdiv,signed_dvd_iff]
  by_cases hr : m % n = 0
  · simp [hr]
  · have hm : m ≠ 0 := by
      rintro rfl
      simp at hr
    cases s <;> cases t <;> simp [signed,hr,hn,hm,hs] <;> omega

theorem signed_fmod (m : ℕ) (hn : n ≠ 0) : (signed s m).fmod (signed t n) =
    signed t (if (s != t) = true ∧ m % n ≠ 0 then n - m % n else m % n) := by
  have hlt := mod_lt m (pos_of_ne_zero hn)
  simp only [fmod_eq_tmod,signed_tmod,signed_dvd_iff]
  by_cases hr : m % n = 0
  · cases s <;> cases t <;> simp [signed,hr]
  · have hm : m ≠ 0 := by
      rintro rfl
      simp at hr
    have hsub : ((n - m % n : ℕ) : ℤ) = n - (m % n : ℕ) := by omega
    cases s <;> cases t <;> simp [signed,hr,hn,hm,hsub] <;> omega

end Signs

section Primitives
variable (kernels : Kernels) {a b : Limbs}

theorem compare_nonneg_iff (ha : a.Normal) (hb : b.Normal) : kernels.compare a b ≥ 0 ↔ b.value ≤ a.value := by
  rw [kernels.compare_exact a b ha hb,ge_iff_le,sign_nonneg_iff]
  omega

theorem largeIntAdd_eq (ha : a.Normal) (hb : b.Normal) (s t : Bool) :
    largeIntAdd kernels a b s t = represent (signed s a.value + signed t b.value) := by
  unfold largeIntAdd
  by_cases hst : s = t
  · subst hst
    rw [if_pos rfl,largeIntResult_eq,kernels.add_exact a b ha hb]
    congr 1
    unfold signed
    split <;> omega
  · rw [if_neg hst]
    obtain rfl : t = !s := by cases s <;> cases t <;> simp_all
    by_cases hle : b.value ≤ a.value
    · rw [if_pos ((compare_nonneg_iff kernels ha hb).mpr hle),largeIntResult_eq,kernels.sub_exact a b ha hb hle,
        signed_not]
      congr 1
      unfold signed
      split <;> omega
    · rw [if_neg (fun h => hle ((compare_nonneg_iff kernels ha hb).mp h)),largeIntResult_eq,
        kernels.sub_exact b a hb ha (by omega),signed_not,signed_not]
      congr 1
      unfold signed
      split <;> omega

def quotient (op : LargeOp) (a b : ℤ) : ℤ :=
  match op with
  | .quo => a.tdiv b
  | .rem => a.tmod b
  | .div => a.fdiv b
  | _ => a.fmod b

theorem largeIntDivide_eq (op : LargeOp) (ha : a.Normal) (hb : b.Normal) (s t : Bool) :
    largeIntDivide kernels op a b s t = if b.value = 0 then none
      else some (represent (quotient op (signed s a.value) (signed t b.value))) := by
  unfold largeIntDivide
  by_cases hz : b.value = 0
  · rw [if_pos (hb.value_eq_zero.mp hz),if_pos hz]
  · obtain ⟨hq,hr⟩ := kernels.divMod_exact a b ha hb hz
    obtain ⟨hnq,hnr⟩ := kernels.divMod_normal a b ha hb hz
    rw [if_neg (fun h => hz (hb.value_eq_zero.mpr h)),if_neg hz]
    generalize kernels.divMod a b = d at hq hr hnq hnr
    obtain ⟨q,r⟩ := d
    have hone : Normal [1] := rfl
    have hmod : r.value ≤ b.value := by
      rw [hr]
      exact (mod_lt _ (pos_of_ne_zero hz)).le
    have hadj : ((s != t && r != []) = true) = ((s != t) = true ∧ a.value % b.value ≠ 0) := by
      rw [Bool.and_eq_true,bne_iff_ne,← hr,Ne,Ne,hnr.value_eq_zero,bne_iff_ne]
    have hdiv : value (if (s != t && r != []) = true then kernels.add q [1] else q) =
        if (s != t) = true ∧ a.value % b.value ≠ 0 then a.value / b.value+1 else a.value / b.value := by
      simp only [hadj]
      split
      · rw [kernels.add_exact q [1] hnq hone,hq]
        rfl
      · exact hq
    have hres : value (if (s != t && r != []) = true then kernels.sub b r else r) =
        if (s != t) = true ∧ a.value % b.value ≠ 0 then b.value - a.value % b.value else a.value % b.value := by
      simp only [hadj]
      split
      · rw [kernels.sub_exact b r hb hnr hmod,hr]
      · exact hr
    cases op <;> simp only [largeIntResult_eq,quotient,signed_tdiv,signed_tmod,signed_fdiv s t _ hz,
      signed_fmod s t _ hz,hq,hr,hdiv,hres]

theorem largeIntBinaryPrimitive_eq (op : LargeOp) (a b : ℤ) :
    largeIntBinaryPrimitive kernels op (represent a) (represent b) =
      match op with
      | .add => some (represent (a + b))
      | .sub => some (represent (a - b))
      | .mul => some (represent (a*b))
      | .gcd => some (represent (Int.gcd a b))
      | op => if b = 0 then none else some (represent (quotient op a b)) := by
  have ha := normal_operand (represent a)
  have hb := normal_operand (represent b)
  have hz : b.natAbs = 0 ↔ b = 0 := natAbs_eq_zero
  have hd : ∀ op, largeIntDivide kernels op (largeIntOperand (represent a)) (largeIntOperand (represent b))
      (decide (a < 0)) (decide (b < 0)) = if b = 0 then none else some (represent (quotient op a b)) := by
    intro op
    simp only [largeIntDivide_eq kernels op ha hb,value_operand,signed_natAbs,hz]
  unfold largeIntBinaryPrimitive
  simp only [isNegative_represent]
  cases op with
  | add => simp only [largeIntAdd_eq kernels ha hb,value_operand,signed_natAbs]
  | sub => simp only [largeIntAdd_eq kernels ha hb,value_operand,signed_not,signed_natAbs,sub_eq_add_neg]
  | mul => simp only [largeIntResult_eq,kernels.mul_exact _ _ ha hb,value_operand,← signed_mul,signed_natAbs]
  | gcd =>
    simp only [largeIntResult_eq,kernels.gcd_exact _ _ ha hb,value_operand]
    rfl
  | quo => exact hd .quo
  | rem => exact hd .rem
  | div => exact hd .div
  | mod => exact hd .mod

theorem largeIntComparePrimitive_eq (a b : ℤ) :
    largeIntComparePrimitive kernels (represent a) (represent b) = (a - b).sign := by
  have hs : ∀ n : ℤ, (decide (n < 0) && largeIntOperand (represent n) != []) = decide (n < 0) := by
    intro n
    have hv := value_operand n
    have hnil := (normal_operand (represent n)).value_eq_zero
    by_cases hn : n < 0
    · rw [decide_eq_true hn,Bool.true_and,bne_iff_ne,Ne,← hnil,hv]
      omega
    · rw [decide_eq_false hn,Bool.false_and]
  have hc : kernels.compare (largeIntOperand (represent a)) (largeIntOperand (represent b)) =
      ((a.natAbs : ℤ) - b.natAbs).sign := by
    rw [kernels.compare_exact _ _ (normal_operand _) (normal_operand _),value_operand,value_operand]
  unfold largeIntComparePrimitive
  simp only [isNegative_represent,hs,hc]
  by_cases ha : a < 0 <;> by_cases hb : b < 0 <;> simp only [ha,hb,decide_true,decide_false]
  · have habs : (a.natAbs : ℤ) - b.natAbs = -(a - b) := by omega
    rw [habs,sign_neg,neg_neg]
    rfl
  · exact (sign_eq_neg_one_of_neg (by omega)).symm
  · exact (sign_eq_one_of_pos (by omega)).symm
  · have habs : (a.natAbs : ℤ) - b.natAbs = a - b := by omega
    rw [habs]
    rfl

end Primitives

variable {n : ℤ}

section Messages
variable (kernels : Kernels) (machine : Machine) (a b : ℤ)

theorem represent_of_inRange (h : InRange n) : represent n = .small n := if_pos h

theorem isSmall_represent_iff (n : ℤ) : (∃ i, represent n = .small i) ↔ InRange n := by
  constructor
  · rintro ⟨i,hi⟩
    by_contra hn
    rw [represent,if_neg hn] at hi
    cases hi
  · exact fun hn => ⟨n,represent_of_inRange hn⟩

theorem eq_of_represent_eq_small (h : represent n = .small i) : i = n := by
  unfold represent at h
  split at h
  · exact (Integer.small.inj h).symm
  · cases h

theorem equals_represent : equals kernels (represent a) (represent b) = decide (a = b) := by
  have hc : decide (largeIntComparePrimitive kernels (represent a) (represent b) = 0) = decide (a = b) := by
    rw [largeIntComparePrimitive_eq,decide_eq_decide,sign_eq_zero_iff_zero]
    omega
  cases hx : represent a <;> cases hy : represent b
  · rw [eq_of_represent_eq_small hx,eq_of_represent_eq_small hy,equals]
  all_goals
    rw [hx,hy] at hc
    exact hc

theorem lessThan_represent : lessThan kernels (represent a) (represent b) = decide (a < b) := by
  have hc : decide (largeIntComparePrimitive kernels (represent a) (represent b) < 0) = decide (a < b) := by
    rw [largeIntComparePrimitive_eq,decide_eq_decide,sign_neg_iff]
    omega
  cases hx : represent a <;> cases hy : represent b
  · rw [eq_of_represent_eq_small hx,eq_of_represent_eq_small hy,lessThan]
  all_goals
    rw [hx,hy] at hc
    exact hc

theorem equals_zero : equals kernels (represent a) (.small 0) = decide (a = 0) := equals_represent kernels a 0

theorem lessThan_zero : lessThan kernels (represent a) (.small 0) = decide (a < 0) := lessThan_represent kernels a 0

theorem greaterThan_represent : greaterThan kernels (represent a) (represent b) = decide (a > b) := by
  unfold greaterThan
  split
  · exact lessThan_represent kernels b a
  · rw [largeIntComparePrimitive_eq,decide_eq_decide,gt_iff_lt,sign_pos_iff]
    omega

theorem lessOrEqual_represent : lessOrEqual kernels (represent a) (represent b) = decide (a ≤ b) := by
  unfold lessOrEqual
  split
  · rw [lessThan_represent,← decide_not,decide_eq_decide]
    omega
  · rw [largeIntComparePrimitive_eq,decide_eq_decide,sign_nonpos_iff]
    omega

theorem greaterOrEqual_represent : greaterOrEqual kernels (represent a) (represent b) = decide (a ≥ b) := by
  unfold greaterOrEqual
  split
  · rw [lessThan_represent,← decide_not,decide_eq_decide]
    omega
  · rw [largeIntComparePrimitive_eq,decide_eq_decide,ge_iff_le,sign_nonneg_iff]
    omega

theorem machinePrimitive_eq_some (h : machinePrimitive primitive (represent a) (represent b) = some v) :
    ∃ r, primitive a b = some r ∧ v = .small r := by
  cases hx : represent a <;> cases hy : represent b <;> rw [hx,hy] at h
  · obtain ⟨r,hr,rfl⟩ := Option.map_eq_some_iff.mp h
    rw [eq_of_represent_eq_small hx,eq_of_represent_eq_small hy] at hr
    exact ⟨r,hr,rfl⟩
  all_goals cases h

theorem arithmetic_represent (hm : ∀ r, primitive a b = some r → r = n ∧ InRange r)
    (hl : largeIntBinaryPrimitive kernels op (represent a) (represent b) = some (represent n)) :
    arithmetic kernels primitive op (represent a) (represent b) = .ok (represent n) := by
  unfold arithmetic
  cases hv : machinePrimitive primitive (represent a) (represent b) with
  | none => simp only [largeOp,hl]
  | some =>
    obtain ⟨r,hr,rfl⟩ := machinePrimitive_eq_some a b hv
    obtain ⟨rfl,hra⟩ := hm r hr
    simp only [represent_of_inRange hra]

theorem division_represent (hm : ∀ r, primitive a b = some r → b ≠ 0 ∧ r = n ∧ InRange r)
    (hl : b ≠ 0 → largeIntBinaryPrimitive kernels op (represent a) (represent b) = some (represent n)) :
    division kernels primitive op (represent a) (represent b) =
      if b = 0 then .error .zeroDivide else .ok (represent n) := by
  unfold division
  cases hv : machinePrimitive primitive (represent a) (represent b) with
  | none =>
    simp only [equals_zero,decide_eq_true_eq]
    split
    · rfl
    · rename_i hb
      simp only [largeOp,hl hb]
  | some =>
    obtain ⟨r,hr,rfl⟩ := machinePrimitive_eq_some a b hv
    obtain ⟨hb,rfl,hra⟩ := hm r hr
    simp only [represent_of_inRange hra,if_neg hb]

theorem plus_represent : plus kernels machine (represent a) (represent b) = .ok (represent (a + b)) :=
  arithmetic_represent kernels a b (machine.add_exact a b) (largeIntBinaryPrimitive_eq kernels .add a b)

theorem minus_represent : minus kernels machine (represent a) (represent b) = .ok (represent (a - b)) :=
  arithmetic_represent kernels a b (machine.sub_exact a b) (largeIntBinaryPrimitive_eq kernels .sub a b)

theorem times_represent : times kernels machine (represent a) (represent b) = .ok (represent (a*b)) :=
  arithmetic_represent kernels a b (machine.mul_exact a b) (largeIntBinaryPrimitive_eq kernels .mul a b)

theorem quo_represent : quo kernels machine (represent a) (represent b) =
    if b = 0 then .error .zeroDivide else .ok (represent (a.tdiv b)) :=
  division_represent kernels a b (machine.quo_exact a b)
    fun hb => (largeIntBinaryPrimitive_eq kernels .quo a b).trans (if_neg hb)

theorem rem_represent : rem kernels machine (represent a) (represent b) =
    if b = 0 then .error .zeroDivide else .ok (represent (a.tmod b)) :=
  division_represent kernels a b (machine.rem_exact a b)
    fun hb => (largeIntBinaryPrimitive_eq kernels .rem a b).trans (if_neg hb)

theorem modulo_represent : modulo kernels machine (represent a) (represent b) =
    if b = 0 then .error .zeroDivide else .ok (represent (a.fmod b)) :=
  division_represent kernels a b (machine.mod_exact a b)
    fun hb => (largeIntBinaryPrimitive_eq kernels .mod a b).trans (if_neg hb)

theorem fdiv_eq_tdiv_corrected {a b : ℤ} (hb : b ≠ 0) :
    a.fdiv b = if a - a.tdiv b*b = 0 ∨ (a < 0 ↔ b < 0) then a.tdiv b else a.tdiv b-1 := by
  have he : a - a.tdiv b*b = 0 ↔ b ∣ a := by rw [dvd_iff_tmod_eq_zero,tmod_def,mul_comm]
  simp only [fdiv_eq_tdiv,he]
  by_cases hdvd : b ∣ a
  · simp [hdvd]
  · simp only [hdvd,false_or,if_false]
    obtain hneg | hpos := lt_or_gt_of_ne hb
    · rw [sign_eq_neg_one_of_neg hneg]
      split_ifs <;> omega
    · rw [sign_eq_one_of_pos hpos]
      split_ifs <;> omega

theorem integerFloorDiv_represent (hb : b ≠ 0) :
    integerFloorDiv kernels machine (represent a) (represent b) = .ok (represent (a.fdiv b)) := by
  have hone : ∀ n, minus kernels machine (represent n) (.small 1) = .ok (represent (n-1)) := fun n =>
    minus_represent kernels machine n 1
  simp only [integerFloorDiv,quo_represent,if_neg hb,times_represent,minus_represent,bind,Except.bind,
    lessThan_zero,equals_zero,hone,fdiv_eq_tdiv_corrected hb]
  have hc : (decide (a - a.tdiv b*b = 0) || decide (a < 0) == decide (b < 0)) =
      decide (a - a.tdiv b*b = 0 ∨ (a < 0 ↔ b < 0)) := by
    simp
  rw [hc]
  simp only [decide_eq_true_eq]
  split <;> rfl

theorem floorDiv_represent : floorDiv kernels machine (represent a) (represent b) =
    if b = 0 then .error .zeroDivide else .ok (represent (a.fdiv b)) := by
  unfold floorDiv
  cases hv : machinePrimitive machine.floorDiv (represent a) (represent b) with
  | none =>
    simp only [equals_zero,decide_eq_true_eq]
    by_cases hb : b = 0
    · rw [if_pos hb,if_pos hb]
    · rw [if_neg hb,if_neg hb]
      split
      · exact integerFloorDiv_represent kernels machine a b hb
      · simp only [largeOp,largeIntBinaryPrimitive_eq,if_neg hb,quotient]
  | some =>
    obtain ⟨r,hr,rfl⟩ := machinePrimitive_eq_some a b hv
    obtain ⟨hb,rfl,hra⟩ := machine.floorDiv_exact a b r hr
    simp only [represent_of_inRange hra,if_neg hb]

theorem normal_of_represent_eq_large (h : represent n = .large negative limbs) :
    limbs.Normal ∧ signed negative limbs.value = n ∧ ¬ InRange n := by
  unfold represent at h
  split at h
  · cases h
  · rename_i hn
    obtain ⟨rfl,rfl⟩ := Integer.large.inj h
    exact ⟨normal_ofNat _,by rw [value_ofNat,signed_natAbs],hn⟩

/-- Every message answers the representation of the exact result, and the representation of an
integer is small exactly when the integer is in range. -/
theorem integer_arithmetic_exact : ((∃ i, represent a = .small i) ↔ InRange a) ∧
    (∀ negative limbs, represent a = .large negative limbs →
      limbs.Normal ∧ signed negative limbs.value = a ∧ ¬ InRange a) ∧
    plus kernels machine (represent a) (represent b) = .ok (represent (a + b)) ∧
    minus kernels machine (represent a) (represent b) = .ok (represent (a - b)) ∧
    times kernels machine (represent a) (represent b) = .ok (represent (a*b)) ∧
    floorDiv kernels machine (represent a) (represent b) =
      (if b = 0 then .error .zeroDivide else .ok (represent (a.fdiv b))) ∧
    modulo kernels machine (represent a) (represent b) =
      (if b = 0 then .error .zeroDivide else .ok (represent (a.fmod b))) ∧
    quo kernels machine (represent a) (represent b) =
      (if b = 0 then .error .zeroDivide else .ok (represent (a.tdiv b))) ∧
    rem kernels machine (represent a) (represent b) =
      (if b = 0 then .error .zeroDivide else .ok (represent (a.tmod b))) ∧
    equals kernels (represent a) (represent b) = decide (a = b) ∧
    lessThan kernels (represent a) (represent b) = decide (a < b) ∧
    greaterThan kernels (represent a) (represent b) = decide (a > b) ∧
    lessOrEqual kernels (represent a) (represent b) = decide (a ≤ b) ∧
    greaterOrEqual kernels (represent a) (represent b) = decide (a ≥ b) :=
  ⟨isSmall_represent_iff a,fun _ _ => normal_of_represent_eq_large,plus_represent kernels machine a b,
    minus_represent kernels machine a b,times_represent kernels machine a b,floorDiv_represent kernels machine a b,
    modulo_represent kernels machine a b,quo_represent kernels machine a b,rem_represent kernels machine a b,
    equals_represent kernels a b,lessThan_represent kernels a b,greaterThan_represent kernels a b,
    lessOrEqual_represent kernels a b,greaterOrEqual_represent kernels a b⟩

end Messages

/-- Kernels that go through the natural numbers. -/
def Kernels.exact : Kernels where
  compare a b := (a.value - b.value : ℤ).sign
  add a b := .ofNat (a.value + b.value)
  sub a b := .ofNat (a.value - b.value)
  mul a b := .ofNat (a.value*b.value)
  divMod a b := (.ofNat (a.value / b.value),.ofNat (a.value % b.value))
  gcd a b := .ofNat (Nat.gcd a.value b.value)
  compare_exact _ _ _ _ := rfl
  add_exact _ _ _ _ := value_ofNat _
  sub_exact _ _ _ _ _ := value_ofNat _
  mul_exact _ _ _ _ := value_ofNat _
  divMod_exact _ _ _ _ _ := ⟨value_ofNat _,value_ofNat _⟩
  divMod_normal _ _ _ _ _ := ⟨normal_ofNat _,normal_ofNat _⟩
  gcd_exact _ _ _ _ := value_ofNat _

instance : Inhabited Kernels := ⟨.exact⟩

def inRange? (n : ℤ) : Option ℤ := if InRange n then some n else none

theorem inRange?_eq_some (h : inRange? n = some r) : r = n ∧ InRange r := by
  obtain ⟨hn,hr⟩ := Option.ite_none_right_eq_some.mp h
  obtain rfl := Option.some.inj hr
  exact ⟨rfl,hn⟩

theorem divides_eq_some {f : ℤ → ℤ → ℤ} (h : (if j = 0 then none else inRange? (f i j)) = some r) :
    j ≠ 0 ∧ r = f i j ∧ InRange r := by
  obtain ⟨hj,hr⟩ := Option.ite_none_left_eq_some.mp h
  exact ⟨hj,inRange?_eq_some hr⟩

/-- A machine that fails only for a result out of range and a zero divisor. -/
def Machine.exact : Machine where
  add i j := inRange? (i + j)
  sub i j := inRange? (i - j)
  mul i j := inRange? (i*j)
  quo i j := if j = 0 then none else inRange? (i.tdiv j)
  rem i j := if j = 0 then none else inRange? (i.tmod j)
  floorDiv i j := if j = 0 then none else inRange? (i.fdiv j)
  mod i j := if j = 0 then none else inRange? (i.fmod j)
  add_exact _ _ _ := inRange?_eq_some
  sub_exact _ _ _ := inRange?_eq_some
  mul_exact _ _ _ := inRange?_eq_some
  quo_exact _ _ _ := divides_eq_some
  rem_exact _ _ _ := divides_eq_some
  floorDiv_exact _ _ _ := divides_eq_some
  mod_exact _ _ _ := divides_eq_some

instance : Inhabited Machine := ⟨.exact⟩

end SmalltalkJit.Numbers
