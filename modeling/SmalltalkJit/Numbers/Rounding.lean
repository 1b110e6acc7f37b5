import SmalltalkJit.Numbers.Fractions
import Mathlib.Data.Rat.Floor
import Mathlib.Tactic.FieldSimp
import Mathlib.Tactic.Linarith

/-! # Rounding exact numbers

Integers answer themselves. Fractions and scaled decimals add one half and take
the floor, so that of the two integers next to a negative tie they answer the
one with the smaller absolute value.
-/
namespace SmalltalkJit.Numbers
open Int

/-- The numbers of the exact classes; the scale of a decimal is for printing only. -/
inductive ExactNumber
  | integer (i : Integer)
  | fraction (numerator denominator : Integer)
  | scaledDecimal (numerator denominator : Integer)

section Messages
variable (kernels : Kernels) (machine : Machine) (rounds : ℕ)

/-- `Fraction>>coerce:` leaves a fraction as it is. -/
def coerce : Rational → Integer × Integer
  | .integer i => (i,.small 1)
  | .fraction n d => (n,d)

/-- `+` with one half for the argument. -/
def plusHalf (x : Rational) : Option (Result Rational) :=
  let (n,d) := coerce x
  andThen (times kernels machine n (.small 2)) fun left => andThen (times kernels machine (.small 1) d) fun right =>
    andThen (plus kernels machine left right) fun num => andThen (times kernels machine d (.small 2)) fun den =>
      numeratorDenominator kernels machine rounds num den

def floor : Rational → Result Integer
  | .integer i => .ok i
  | .fraction n d => floorDiv kernels machine n d

def roundSum (x : Rational) : Option (Result Integer) :=
  (plusHalf kernels machine rounds x).map (Except.bind · (floor kernels machine))

def rounded : ExactNumber → Option (Result Integer)
  | .integer i => some (.ok i)
  | .fraction n d => roundSum kernels machine rounds (.fraction n d)
  | .scaledDecimal n d =>
    (numeratorDenominator kernels machine rounds n d).bind fun exactValue =>
      andThen exactValue (roundSum kernels machine rounds)

end Messages

/-- Fractions are reduced, scaled decimals need not be. -/
inductive Represents : ExactNumber → ℚ → Prop
  | integer (i : ℤ) : Represents (.integer (represent i)) i
  | fraction (x : ℚ) (h : x.den ≠ 1) : Represents (.fraction (represent x.num) (represent x.den)) x
  | scaledDecimal (n d : ℤ) (h : 0 < d) : Represents (.scaledDecimal (represent n) (represent d)) (n/d)

/-- `n` is the integer nearest to `x`, and of two the one with the larger absolute value. -/
def Nearest (x : ℚ) (n : ℤ) : Prop := |x - n| ≤ 1/2 ∧ (|x - n| = 1/2 → |x| < |(n : ℚ)|)

theorem nearest_floor_iff (x : ℚ) : Nearest x ⌊x + 1/2⌋ ↔ ¬ (x < 0 ∧ ∃ k : ℤ, x + 1/2 = k) := by
  have hle := floor_le (x + 1/2)
  have hlt := lt_floor_add_one (x + 1/2)
  generalize ⌊x + 1/2⌋ = n at hle hlt
  constructor
  · rintro ⟨-,htie⟩ ⟨hneg,k,hk⟩
    obtain rfl : n = k := by
      rw [hk] at hle hlt
      norm_cast at hle hlt
      omega
    have hn : (n : ℚ) ≤ 0 := by
      have : (n : ℚ) < 1 := by linarith
      norm_cast at this ⊢
      omega
    have hfar := htie (by rw [← hk]; norm_num)
    rw [abs_of_neg hneg,abs_of_nonpos hn] at hfar
    linarith
  · intro hnot
    have hne : |x - n| ≤ 1/2 := abs_le.mpr ⟨by linarith,by linarith⟩
    refine ⟨hne,fun htie => ?_⟩
    have hk : x + 1/2 = n := by rcases eq_or_eq_neg_of_abs_eq htie with h | h <;> linarith
    have hpos : 0 ≤ x := le_of_not_gt fun hneg => hnot ⟨hneg,n,hk⟩
    rw [abs_of_nonneg hpos,abs_of_nonneg (by linarith)]
    linarith

section Values
variable (kernels : Kernels) (machine : Machine) {rounds : ℕ}

theorem represent_injective (h : represent a = represent b) : a = b := by
  have he := equals_represent .exact a b
  rw [h,equals_represent] at he
  simpa using he.symm

theorem floor_representRat (q : ℚ) : floor kernels machine (representRat q) = .ok (represent ⌊q⌋) := by
  rw [Rat.floor_def',representRat]
  split
  · next h => rw [h,Nat.cast_one,Int.ediv_one]; rfl
  · rw [floor,floorDiv_represent,if_neg (by exact_mod_cast q.den_ne_zero),fdiv_eq_ediv_of_nonneg _ (natCast_nonneg _)]

theorem roundSum_representRat (x : ℚ) (hr : 2*x.den < rounds) : roundSum kernels machine rounds (representRat x) =
      some (if 2*x.num + x.den = minVal then .error primitiveFailed else .ok (represent ⌊x + 1/2⌋)) := by
  have hpos := x.den_pos
  have hsum : ((x.num*2 + 1*x.den : ℤ) : ℚ) / (x.den*2 : ℤ) = x + 1/2 := by
    conv_rhs => rw [← Rat.num_div_den x]
    push_cast
    field_simp
  have hc : numeratorDenominator kernels machine rounds (represent (x.num*2 + 1*x.den)) (represent (x.den*2)) = _ :=
    numeratorDenominator_represent kernels machine (by omega) (by rw [abs_of_pos] <;> omega)
  have htwo : Integer.small 2 = represent 2 := rfl
  have hone : Integer.small 1 = represent 1 := rfl
  have hco : coerce (representRat x) = (represent x.num,represent x.den) := by
    unfold representRat
    split
    · next h => rw [h]; rfl
    · rfl
  simp only [roundSum,plusHalf,hco,htwo,hone,times_represent,plus_represent,andThen,hc,hsum,Option.map_some]
  by_cases hmin : 2*x.num + x.den = minVal
  · rw [if_pos hmin,if_pos (.inl (by omega))]
    rfl
  · rw [if_neg hmin,if_neg]
    · exact congrArg some (floor_representRat kernels machine _)
    · rintro (h | h) <;> omega

/-- What is rounded right: no tie below zero, and nothing that cannot be reduced. -/
structure Roundable (number : ExactNumber) (x : ℚ) : Prop where
  exactValue : ∀ d, number ≠ .scaledDecimal (represent minVal) d
  sum : 2*x.num + x.den ≠ minVal
  tie : ¬ (x < 0 ∧ ∃ k : ℤ, x + 1/2 = k)

theorem roundSum_iff (x : ℚ) (hr : 2*x.den < rounds) :
    (∃ n, roundSum kernels machine rounds (representRat x) = some (.ok (represent n)) ∧ Nearest x n) ↔
      2*x.num + x.den ≠ minVal ∧ ¬ (x < 0 ∧ ∃ k : ℤ, x + 1/2 = k) := by
  rw [roundSum_representRat kernels machine x hr,← nearest_floor_iff]
  by_cases hmin : 2*x.num + x.den = minVal
  · simp [hmin]
  · rw [if_neg hmin,and_iff_right hmin]
    refine ⟨fun ⟨n,heq,hn⟩ => ?_,fun hn => ⟨_,rfl,hn⟩⟩
    rwa [represent_injective (Except.ok.inj (Option.some.inj heq))]

theorem rounded_nearest_iff (h : Represents number x) :
    ∃ enough, ∀ rounds, enough < rounds → ((∃ n, rounded kernels machine rounds number = some (.ok (represent n)) ∧
      Nearest x n) ↔ Roundable number x) := by
  cases h with
  | integer i =>
    refine ⟨0,fun rounds _ => iff_of_true ⟨i,rfl,by simp [Nearest]⟩ ⟨fun _ h => ?_,?_,?_⟩⟩
    · cases h
    · rw [Rat.num_intCast,Rat.den_intCast,minVal]
      omega
    · rintro ⟨-,k,hk⟩
      have hodd : 2*i + 1 = 2*k := by exact_mod_cast (by linarith : (2*i + 1 : ℚ) = 2*k)
      omega
  | fraction _ h =>
    refine ⟨2*x.den,fun rounds hr => ?_⟩
    have hiff := roundSum_iff kernels machine x hr
    rw [representRat,if_neg h] at hiff
    exact hiff.trans ⟨fun hx => ⟨fun _ h => (by cases h),hx.1,hx.2⟩,fun h => ⟨h.sum,h.tie⟩⟩
  | scaledDecimal n d hd =>
    refine ⟨max d.toNat (2*(n/d : ℚ).den),fun rounds hr => ?_⟩
    obtain ⟨hred,hro⟩ := max_lt_iff.mp hr
    rw [rounded,numeratorDenominator_represent kernels machine hd.ne' (by rw [abs_of_pos hd]; omega)]
    by_cases hn : n = minVal
    · rw [if_pos (.inl hn),hn]
      exact iff_of_false (by rintro ⟨_,⟨⟩,_⟩) fun h => h.exactValue _ rfl
    · have hiff := roundSum_iff kernels machine (n/d) hro
      rw [if_neg (by rintro (h | h) <;> omega)]
      refine hiff.trans ⟨fun hx => ⟨fun d' heq => hn ?_,hx.1,hx.2⟩,fun h => ⟨h.sum,h.tie⟩⟩
      exact represent_injective (ExactNumber.scaledDecimal.inj heq).1

theorem rounded_nearest_decimal : ∃ enough, ∀ rounds, enough < rounds →
    ((∃ n, rounded .exact .exact rounds (.scaledDecimal (represent 25) (represent 10)) = some (.ok (represent n)) ∧
      Nearest ((25 : ℤ)/(10 : ℤ)) n) ↔ Roundable (.scaledDecimal (represent 25) (represent 10)) ((25 : ℤ)/(10 : ℤ))) :=
  rounded_nearest_iff .exact .exact (.scaledDecimal 25 10 (by decide))

end Values

/-- Minus one half rounds to zero. -/
theorem rounded_negative_tie : rounded .exact .exact 9 (.fraction (represent (-1)) (represent 2)) =
    some (.ok (represent 0)) ∧ ¬ Nearest (-1/2) 0 := by
  refine ⟨by decide,fun h => ?_⟩
  norm_num [Nearest] at h

end SmalltalkJit.Numbers
