import SmalltalkJit.Numbers.Fractions

/-! # Strings as numbers

`asNumber` first tries a primitive that accumulates decimal digits in a machine word, and
reads the string as a stream of characters when the primitive gives up. The limit of the
primitive is that of 62 bits without a sign, twice the range of small integers, and what
does not fit is cut off when the result is tagged.
-/
namespace SmalltalkJit.Numbers
open List Nat

def smiMax : ℕ := 2^62-1

/-- The loop of `stringToIntegerPrimitive`. -/
def accumulate (val : ℕ) : List Char → Option ℕ
  | [] => some val
  | c :: s =>
    if c.isDigit then
      let d := c.toNat-48
      if val > (smiMax-d) / 10 then none else accumulate (val*10+d) s
    else none

def splitSign : List Char → ℤ × List Char
  | '-' :: s => (-1,s)
  | s => (1,s)

def stringToIntegerPrimitive (text : List Char) : Option Integer :=
  let (sign,s) := splitSign text
  if s = [] then none else (accumulate 0 s).map fun val : ℕ => .small ((tagInt (sign*val)).toInt / 4)

/-- The table of `Character`, after `asUppercase`. -/
def digitValue (c : Char) : ℕ :=
  if c.isDigit then c.toNat-48 else if c.toUpper.isUpper then c.toUpper.toNat-55 else 36

section Reader
variable (kernels : Kernels) (machine : Machine) (base : ℕ)

def readDigits (sign : Integer) : Integer → List Char → Result (Integer × List Char)
  | int,[] => .ok (int,[])
  | int,c :: s =>
    if digitValue c < base then do
      let digit ← times kernels machine sign (.small (digitValue c))
      let int ← times kernels machine int (.small base)
      let int ← plus kernels machine digit int
      readDigits sign int s
    else .ok (int,c :: s)

/-- `Number class>>readFrom:base:`. What follows the digits, a fraction or an exponent, is left to
`rest`. -/
def readFrom (rest : ℤ → Integer → List Char → Result Integer) (text : List Char) : Result Integer :=
  let (sign,s) := splitSign text
  match s with
  | [] => .ok (.small 0)
  | c :: _ =>
    if digitValue c < base ∨ c = '.' then do
      match ← readDigits kernels machine base (.small sign) (.small 0) s with
      | (int,[]) => return int
      | (int,s) => rest sign int s
    else .ok (.small 0)

def asNumber (rest : ℤ → Integer → List Char → Result Integer) (text : List Char) : Result Integer :=
  match stringToIntegerPrimitive text with
  | some n => .ok n
  | none => readFrom kernels machine 10 rest text

end Reader

def numeral (negative : Bool) (digits : List Char) : List Char := if negative then '-' :: digits else digits

def denoted (negative : Bool) (digits : List Char) : ℤ := signed negative (ofDigitChars 10 digits 0)

theorem signed_one_mul (negative : Bool) (n : ℕ) : signed negative 1*n = signed negative n := by
  cases negative <;> simp [signed]

theorem digit_lt {c : Char} (hc : c.isDigit) : c.toNat-48 < 10 := by
  have hb := (Char.isDigit_iff_toNat.mp hc).2
  change _ ≤ 57 at hb
  omega

theorem le_ofDigitChars (digits : List Char) (v : ℕ) : v ≤ ofDigitChars 10 digits v := by
  induction digits generalizing v with
  | nil => exact le_rfl
  | cons _ _ ih =>
    rw [ofDigitChars_cons]
    exact le_trans (by omega) (ih _)

section Digits
variable {digits : List Char} (hd : ∀ c ∈ digits, c.isDigit)
include hd

theorem accumulate_eq (hv : v ≤ smiMax) : accumulate v digits =
    if ofDigitChars 10 digits v ≤ smiMax then some (ofDigitChars 10 digits v) else none := by
  induction digits generalizing v with
  | nil => exact (if_pos hv).symm
  | cons c s ih =>
    obtain ⟨hc,hd⟩ := forall_mem_cons.mp hd
    have hlt := digit_lt hc
    have hle := le_ofDigitChars s (v*10+(c.toNat-48))
    rw [accumulate,if_pos hc,ofDigitChars_cons,mul_comm 10]
    dsimp only
    unfold smiMax at *
    split
    · exact (if_neg (by change ¬ ofDigitChars 10 s (v*10+(c.toNat-48)) ≤ _; omega)).symm
    · exact ih hd (by omega)

variable (kernels : Kernels) (machine : Machine)

theorem readDigits_eq (sign : ℤ) (v : ℕ) :
    readDigits kernels machine 10 (represent sign) (represent (sign*v)) digits =
      .ok (represent (sign*ofDigitChars 10 digits v),[]) := by
  induction digits generalizing v with
  | nil => rfl
  | cons c s ih =>
    obtain ⟨hc,hd⟩ := forall_mem_cons.mp hd
    have hlt := digit_lt hc
    have hdv : digitValue c = c.toNat-48 := if_pos hc
    have hs (n : ℕ) (hn : n ≤ 10) : Integer.small n = represent n :=
      (represent_of_inRange ⟨by omega,by omega⟩).symm
    have hsum (d : ℕ) : sign*d+sign*v*(10 : ℕ) = sign*(10*v+d : ℕ) := by
      push_cast
      ring
    rw [readDigits,hdv,if_pos hlt,hs _ hlt.le,hs 10 le_rfl,times_represent,times_represent]
    simp only [bind,Except.bind,plus_represent,hsum,ofDigitChars_cons]
    exact ih hd _

variable (negative : Bool) (hne : digits ≠ [])
include hne

theorem splitSign_numeral : splitSign (numeral negative digits) = (signed negative 1,digits) := by
  cases negative with
  | true => rfl
  | false =>
    unfold numeral splitSign
    split
    · next h =>
      obtain rfl : digits = _ := h
      exact absurd (hd _ mem_cons_self) (by decide)
    · rfl

theorem readFrom_numeral (rest : ℤ → Integer → List Char → Result Integer) :
    readFrom kernels machine 10 rest (numeral negative digits) = .ok (represent (denoted negative digits)) := by
  have hr := readDigits_eq hd kernels machine (signed negative 1) 0
  have hs : represent (signed negative 1) = .small (signed negative 1) :=
    represent_of_inRange (by cases negative <;> decide)
  have hz : represent (signed negative 1*(0 : ℕ)) = .small 0 := by cases negative <;> rfl
  rw [hs,hz,signed_one_mul] at hr
  obtain ⟨c,s,rfl⟩ := exists_cons_of_ne_nil hne
  have hc := hd c mem_cons_self
  have hdv : digitValue c = c.toNat-48 := if_pos hc
  rw [readFrom,splitSign_numeral hd negative hne]
  dsimp only
  rw [if_pos (.inl (hdv ▸ digit_lt hc))]
  rw [hr]
  rfl

theorem stringToIntegerPrimitive_numeral : stringToIntegerPrimitive (numeral negative digits) =
    if |denoted negative digits| < 2^62 then some (.small ((tagInt (denoted negative digits)).toInt / 4))
    else none := by
  have habs : |denoted negative digits| = (ofDigitChars 10 digits 0 : ℕ) := by
    cases negative <;> simp [signed,denoted]
  rw [stringToIntegerPrimitive,splitSign_numeral hd negative hne]
  have hm : |denoted negative digits| < 2^62 ↔ ofDigitChars 10 digits 0 ≤ smiMax := by
    unfold smiMax
    omega
  simp only [hne,if_false,accumulate_eq hd (Nat.zero_le _),hm]
  split
  · rw [Option.map_some,signed_one_mul]
    rfl
  · rfl

end Digits

/-- A string of a sign and digits is converted exactly unless its value is beyond the small integers
and has at most 62 bits. -/
theorem asNumber_iff (kernels : Kernels) (machine : Machine) (rest : ℤ → Integer → List Char → Result Integer)
    (negative : Bool) (digits : List Char) (hne : digits ≠ []) (hdigits : ∀ c ∈ digits, c.isDigit) :
    asNumber kernels machine rest (numeral negative digits) = .ok (represent (denoted negative digits)) ↔
      InRange (denoted negative digits) ∨ 2^62 ≤ |denoted negative digits| := by
  rw [asNumber,stringToIntegerPrimitive_numeral hdigits negative hne]
  by_cases hlt : |denoted negative digits| < 2^62
  · simp only [if_pos hlt,Except.ok.injEq,hlt.not_ge,or_false]
    by_cases hr : InRange (denoted negative digits)
    · simp only [hr,iff_true,represent_of_inRange,toInt_tagInt]
      congr 1
      omega
    · simp only [represent,hr,if_false,reduceCtorEq]
  · simp only [if_neg hlt]
    exact iff_of_true (readFrom_numeral hdigits kernels machine negative hne rest) (.inr (not_lt.mp hlt))

theorem asNumber_minus_seven :
    asNumber .exact .exact (fun _ int _ => .ok int) ['-','7'] = .ok (represent (-7)) :=
  (asNumber_iff .exact .exact _ true ['7'] (by decide) (forall_mem_singleton.mpr rfl)).mpr (.inl (by decide))

/-- The first integer above the small ones becomes the smallest one. -/
theorem asNumber_two_pow : asNumber .exact .exact (fun _ int _ => .ok int) "2305843009213693952".toList =
    .ok (.small (-2305843009213693952)) := by
  decide

end SmalltalkJit.Numbers
