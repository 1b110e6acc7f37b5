import SmalltalkJit.Numbers.MachinePrimitives
import Mathlib.Data.Rat.Lemmas

/-! # Negation, greatest common divisors and fractions

The smallest small integer has no negation among the small ones. The primitive for the
negation gives up on it, and the code behind the primitive signals an error. The
absolute value, the greatest common divisor and the creation of fractions all negate,
and inherit the error.
-/
namespace SmalltalkJit.Numbers
open Int

abbrev Result := Except ArithmeticError

/-- Integers and reduced fractions. -/
inductive Rational
  | integer (i : Integer)
  | fraction (numerator denominator : Integer)
  deriving DecidableEq

def minVal : ℤ := -2^61

section Messages
variable (kernels : Kernels) (machine : Machine)

def negPrimitive (i : ℤ) : Option ℤ :=
  match generateIntNegPrimitive (tagInt i) with
  | .answers word => some (word.toInt / 4)
  | _ => none

def primitiveFailed : ArithmeticError := .error "Integer overflow"

def negated : Integer → Result Integer
  | .small i =>
    match negPrimitive i with
    | some r => .ok (.small r)
    | none => .error primitiveFailed
  | a => minus kernels machine (.small 0) a

def abs : Integer → Result Integer
  | .small i => if lessThan kernels (.small i) (.small 0) then negated kernels machine (.small i) else .ok (.small i)
  | .large negative limbs =>
    if negative then negated kernels machine (.large negative limbs) else .ok (.large negative limbs)

def andThen {α β : Type} : Result α → (α → Option (Result β)) → Option (Result β)
  | .ok a,rest => rest a
  | .error e,_ => some (.error e)

def gcdLoop : ℕ → Integer → Integer → Option (Result Integer)
  | 0,_,_ => none
  | rounds+1,a,b =>
    if equals kernels b (.small 0) then some (.ok a)
    else andThen (modulo kernels machine a b) fun r => gcdLoop rounds b r

variable (rounds : ℕ)

def gcd (a b : Integer) : Option (Result Integer) :=
  match a with
  | .large .. => some (largeOp kernels .gcd a b)
  | .small _ => andThen (abs kernels machine a) fun a => andThen (abs kernels machine b) fun b =>
      gcdLoop kernels machine rounds a b

/-- The end of `Fraction class>>numerator:denominator:`, for a positive denominator. -/
def reduce (num den : Integer) : Option (Result Rational) :=
  (gcd kernels machine rounds num den).map fun g => do
    let g ← g
    let num ← floorDiv kernels machine num g
    let den ← floorDiv kernels machine den g
    return if equals kernels den (.small 1) then .integer num else .fraction num den

def numeratorDenominator (n d : Integer) : Option (Result Rational) :=
  if equals kernels d (.small 0) then some (.error .zeroDivide)
  else if lessThan kernels d (.small 0) then
    andThen (negated kernels machine n) fun num => andThen (negated kernels machine d) fun den =>
      reduce kernels machine rounds num den
  else reduce kernels machine rounds n d

def dividedBy (a b : Integer) : Option (Result Rational) :=
  match a with
  | .small _ =>
    if equals kernels b (.small 0) then some (.error .zeroDivide) else numeratorDenominator kernels machine rounds a b
  | .large .. => numeratorDenominator kernels machine rounds a b

end Messages

def representRat (q : ℚ) : Rational :=
  if q.den = 1 then .integer (represent q.num) else .fraction (represent q.num) (represent q.den)

section Totality
variable (kernels : Kernels) (machine : Machine) {a b : ℤ} {rounds : ℕ}

theorem negPrimitive_eq (h : InRange a) : negPrimitive a = if a = minVal then none else some (-a) := by
  have hw := toInt_tagInt h
  have ho : (tagInt a).negOverflow = decide (a = minVal) := by
    rw [BitVec.negOverflow,hw,← decide_eq_decide.mpr (by unfold minVal; omega : 4*a = -2^63 ↔ a = minVal)]
    rfl
  unfold negPrimitive generateIntNegPrimitive checked
  rw [ho]
  by_cases ha : a = minVal
  · simp [ha]
  · simp only [ha,decide_false,Bool.false_eq_true,if_false]
    rw [BitVec.toInt_neg_of_not_negOverflow (by simpa [ho] using ha),hw]
    congr 1
    omega

theorem negated_represent (a : ℤ) : negated kernels machine (represent a) =
    if a = minVal then .error primitiveFailed else .ok (represent (-a)) := by
  by_cases h : InRange a
  · rw [represent_of_inRange h,negated,negPrimitive_eq h]
    by_cases ha : a = minVal
    · simp only [ha,if_true]
    · have hneg : InRange (-a) := by
        unfold InRange minVal at *
        omega
      simp only [ha,if_false,represent_of_inRange hneg]
  · have ha : a ≠ minVal := fun ha => h (ha ▸ by decide)
    have hm := minus_represent kernels machine 0 a
    rw [zero_sub] at hm
    rw [if_neg ha,← hm,represent,if_neg h]
    rfl

theorem abs_represent (a : ℤ) : abs kernels machine (represent a) =
    if a = minVal then .error primitiveFailed else .ok (represent |a|) := by
  have hv : abs kernels machine (represent a) =
      if a < 0 then negated kernels machine (represent a) else .ok (represent a) := by
    by_cases h : InRange a
    · have hl := lessThan_zero kernels a
      rw [represent_of_inRange h] at hl
      simp only [represent_of_inRange h,abs,hl,decide_eq_true_eq]
    · simp only [represent,if_neg h,abs,decide_eq_true_eq]
  rw [hv,negated_represent]
  by_cases ha : a < 0
  · rw [if_pos ha,abs_of_neg ha]
  · rw [if_neg ha,abs_of_nonneg (by omega),if_neg (by unfold minVal; omega)]

theorem gcdLoop_represent (ha : 0 ≤ a) (hb : 0 ≤ b) (hr : b < rounds) :
    gcdLoop kernels machine rounds (represent a) (represent b) = some (.ok (represent (Int.gcd a b))) := by
  induction rounds generalizing a b with
  | zero => omega
  | succ _ ih =>
    rw [gcdLoop,equals_zero]
    by_cases hb0 : b = 0
    · subst hb0
      rw [if_pos (by simp),gcd_zero_right,natAbs_of_nonneg ha]
    · have hlt := emod_lt_of_pos a (by omega : 0 < b)
      rw [if_neg (by simpa using hb0),modulo_represent,if_neg hb0,fmod_eq_emod_of_nonneg a hb,andThen,
        ih hb (emod_nonneg a hb0) (by omega),Int.gcd_comm b,gcd_emod]

theorem gcd_represent (a : ℤ) (hro : |b| < rounds) : gcd kernels machine rounds (represent a) (represent b) =
    some (if InRange a ∧ (a = minVal ∨ b = minVal) then .error primitiveFailed
      else .ok (represent (Int.gcd a b))) := by
  by_cases h : InRange a
  · have hs : gcd kernels machine rounds (represent a) (represent b) =
        andThen (abs kernels machine (represent a)) fun a => andThen (abs kernels machine (represent b)) fun b =>
          gcdLoop kernels machine rounds a b := by
      rw [represent_of_inRange h,gcd]
    rw [hs,abs_represent,abs_represent]
    by_cases ha : a = minVal
    · simp only [ha,if_true,andThen,true_or,and_true,show InRange minVal by decide]
    · by_cases hb : b = minVal
      · simp only [ha,hb,if_true,if_false,andThen,or_true,and_true,h]
      · simp only [ha,hb,if_false,andThen,or_self,and_false,
          gcdLoop_represent kernels machine (abs_nonneg a) (abs_nonneg b) hro,Int.gcd,Int.natAbs_abs]
  · have hl := largeIntBinaryPrimitive_eq kernels .gcd a b
    rw [if_neg fun hr => h hr.1]
    simp only [represent,if_neg h,gcd,largeOp] at hl ⊢
    rw [hl]

/-- What `numerator:denominator:` cannot negate. -/
def Overflows (n d : ℤ) : Prop := n = minVal ∨ d < 0 ∧ (n = -minVal ∨ d = minVal)

instance (n d : ℤ) : Decidable (Overflows n d) := inferInstanceAs (Decidable (_ ∨ _))

theorem reduce_represent {n d : ℤ} (hd : 0 < d) (hr : d < rounds) :
    reduce kernels machine rounds (represent n) (represent d) =
      some (if n = minVal then .error primitiveFailed else .ok (representRat (n / d))) := by
  have hg : (Int.gcd n d : ℤ) ≠ 0 := by
    have := gcd_pos_of_ne_zero_right n hd.ne'
    omega
  have hnum : ((n : ℚ) / d).num = n / Int.gcd n d := by
    rw [← Rat.divInt_eq_div,Rat.num_divInt,sign_eq_one_of_pos hd,one_mul,gcd_comm]
  have hden : (((n : ℚ) / d).den : ℤ) = d / Int.gcd n d := by
    rw [← Rat.divInt_eq_div,Rat.den_divInt,if_neg hd.ne',gcd_comm]
    push_cast
    rw [abs_of_pos hd]
  have hc : (InRange n ∧ (n = minVal ∨ d = minVal)) = (n = minVal) := by
    refine propext ⟨fun h => h.2.resolve_right (by unfold minVal; omega),?_⟩
    rintro rfl
    exact ⟨by decide,.inl rfl⟩
  rw [reduce,gcd_represent kernels machine n (by rwa [abs_of_pos hd]),Option.map_some]
  simp only [hc]
  split
  · rfl
  · have hone : equals kernels (represent (d / Int.gcd n d)) (.small 1) = decide (d / Int.gcd n d = 1) :=
      equals_represent kernels _ 1
    simp only [bind,Except.bind,floorDiv_represent,if_neg hg,fdiv_eq_ediv_of_nonneg _ (natCast_nonneg _),
      hone,decide_eq_true_eq,representRat,hnum]
    rw [← hden]
    norm_cast

theorem numeratorDenominator_represent {n d : ℤ} (hd : d ≠ 0) (hr : |d| < rounds) :
    numeratorDenominator kernels machine rounds (represent n) (represent d) =
      some (if Overflows n d then .error primitiveFailed else .ok (representRat (n / d))) := by
  simp only [numeratorDenominator,equals_zero,lessThan_zero,decide_eq_true_eq,if_neg hd,negated_represent,Overflows]
  by_cases hneg : d < 0
  · have hred := reduce_represent kernels machine (n := -n) (by omega : 0 < -d) (by rwa [abs_of_neg hneg] at hr)
    rw [cast_neg,cast_neg,neg_div_neg_eq] at hred
    by_cases hn : n = minVal
    · simp only [hn,if_true,andThen,true_or,hneg]
    · by_cases hmin : d = minVal
      · simp only [hn,hmin,hmin ▸ hneg,if_true,if_false,andThen,or_true,and_self]
      · simp only [hn,hmin,hneg,if_true,if_false,andThen,hred,neg_eq_iff_eq_neg,or_false,false_or,true_and]
  · simp only [hneg,if_false,false_and,or_false,
      reduce_represent kernels machine (by omega : 0 < d) (by rwa [abs_of_nonneg (by omega)] at hr)]

theorem dividedBy_represent (a b : ℤ) (hr : |b| < rounds) :
    dividedBy kernels machine rounds (represent a) (represent b) =
      if b = 0 then some (.error .zeroDivide)
      else some (if Overflows a b then .error primitiveFailed else .ok (representRat (a / b))) := by
  have hc : dividedBy kernels machine rounds (represent a) (represent b) =
      numeratorDenominator kernels machine rounds (represent a) (represent b) := by
    unfold dividedBy
    split
    · split
      · next h => rw [numeratorDenominator,if_pos h]
      · rfl
    · rfl
  rw [hc]
  by_cases hb : b = 0
  · rw [numeratorDenominator,equals_zero,if_pos (by simpa using hb),if_pos hb]
  · rw [if_neg hb,numeratorDenominator_represent kernels machine hb hr]

/-- The negation, the absolute value, the greatest common divisor and the quotient of two integers
are exact, and the only error is that for a zero divisor. -/
structure Exact (rounds : ℕ) (a b : ℤ) : Prop where
  negated : negated kernels machine (represent a) = .ok (represent (-a))
  abs : abs kernels machine (represent a) = .ok (represent |a|)
  gcd : gcd kernels machine rounds (represent a) (represent b) = some (.ok (represent (Int.gcd a b)))
  dividedBy : dividedBy kernels machine rounds (represent a) (represent b) =
    some (if b = 0 then .error .zeroDivide else .ok (representRat (a / b)))

/-- They are so exactly when neither is the smallest small integer and no negative number divides
its negation. -/
theorem exact_iff (a b : ℤ) (hrounds : |b| < rounds) : Exact kernels machine rounds a b ↔
    a ≠ minVal ∧ b ≠ minVal ∧ ¬ (a = -minVal ∧ b < 0) := by
  have hd := dividedBy_represent kernels machine a b hrounds
  constructor
  · intro h
    have hc : b ≠ 0 → ¬ Overflows a b := by
      intro hb ho
      have hbad := h.dividedBy
      rw [hd,if_neg hb,if_neg hb,if_pos ho] at hbad
      cases hbad
    refine ⟨?_,?_,?_⟩
    · rintro rfl
      have hbad := h.negated
      rw [negated_represent,if_pos rfl] at hbad
      cases hbad
    · rintro rfl
      exact hc (by decide) (.inr ⟨by decide,.inr rfl⟩)
    · rintro ⟨rfl,hb⟩
      exact hc hb.ne (.inr ⟨hb,.inl rfl⟩)
  · rintro ⟨ha,hb,hneg⟩
    have ho : ¬ Overflows a b := by
      rintro (h | ⟨hlt,h | h⟩)
      · exact ha h
      · exact hneg ⟨h,hlt⟩
      · exact hb h
    constructor
    · rw [negated_represent,if_neg ha]
    · rw [abs_represent,if_neg ha]
    · rw [gcd_represent kernels machine a hrounds,if_neg fun h => h.2.elim ha hb]
    · rw [hd,if_neg ho]
      split <;> rfl

theorem exact_six_four : Exact .exact .exact 5 6 4 := (exact_iff .exact .exact 6 4 (by decide)).mpr (by decide)

end Totality

/-- The smallest small integer cannot be negated, nor divided by one. -/
theorem negated_smallest_overflows : negated .exact .exact (represent minVal) = .error (.error "Integer overflow") ∧
      dividedBy .exact .exact 2 (represent minVal) (represent 1) = some (.error (.error "Integer overflow")) := by
  decide

end SmalltalkJit.Numbers
