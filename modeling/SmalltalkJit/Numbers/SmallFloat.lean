import SmalltalkJit.Lib.ByteStream

/-! # Immediate floats

A double is rotated by one bit, so that its sign comes last, and the exponents from 768 on
are moved down to 0. What then fits in 62 bits is kept in the word itself, above the tag;
the payloads 0 and 1 stand for the two zeros.
-/
namespace SmalltalkJit.SmallFloat
open ByteStream BitVec

def valueFloat : Word := 3

def smallFloatOffset : Word := 768#64 <<< 53

variable (bits : Word)

def isZero : Bool := bits &&& ~~~(1#64 <<< 63) = 0

def rotated : Word := ((bits <<< 1) ||| (bits >>> 63))-smallFloatOffset

def inPayload (payload : Word) : Bool := 2 ≤ payload && payload < 1#64 <<< 62

def smallFloatFits : Bool := isZero bits || inPayload (rotated bits)

def tagPayload (payload : Word) : Word := (payload <<< 2) ||| valueFloat

/-- A failed assertion answers `none`. -/
def tagFloat : Option Word :=
  if isZero bits then some (tagPayload (bits >>> 63))
  else if inPayload (rotated bits) then some (tagPayload (rotated bits))
  else none

def floatValueOf (value : Word) : Option Word :=
  if value &&& 3 = valueFloat then
    let payload := value >>> 2
    let bits := if payload ≤ 1 then payload else payload+smallFloatOffset
    some ((bits >>> 1) ||| (bits <<< 63))
  else none

def exponent : ℕ := bits.toNat / 2^52 % 2^11

def mantissa : ℕ := bits.toNat % 2^52

theorem toNat_shiftRight (a : Word) (k : ℕ) : (a >>> k).toNat = a.toNat / 2^k := by
  rw [toNat_ushiftRight,Nat.shiftRight_eq_div_pow]

theorem rotate_back {r : Word} (h : r = (bits <<< 1) ||| (bits >>> 63)) : (r >>> 1) ||| (r <<< 63) = bits := by
  subst h
  ext i hi
  by_cases h63 : i = 63
  · subst h63
    simp
  · have hlt : i < 63 := by omega
    simp [hlt,show 1+i < 64 by omega,show 64 ≤ 63+(1+i) by omega]

theorem isZero_iff : isZero bits = true ↔ bits.toNat % 2^63 = 0 := by
  rw [isZero,decide_eq_true_eq,← toNat_inj,toNat_and,show (~~~(1#64 <<< 63)).toNat = 2^63-1 by decide,
    Nat.and_two_pow_sub_one_eq_mod]
  rfl

theorem inPayload_iff (p : Word) : inPayload p = true ↔ 2 ≤ p.toNat ∧ p.toNat < 2^62 := by
  rw [inPayload,Bool.and_eq_true,decide_eq_true_eq,decide_eq_true_eq,le_def,lt_def]
  rfl

theorem fields_lt : bits.toNat / 2^63 < 2 ∧ exponent bits < 2^11 ∧ mantissa bits < 2^52 := by
  unfold exponent mantissa
  omega

theorem toNat_rotation : ((bits <<< 1) ||| (bits >>> 63)).toNat =
    exponent bits*2^53 + mantissa bits*2 + bits.toNat / 2^63 := by
  have hr := toNat_shiftRight bits 63
  rw [toNat_shiftLeft_or bits (by decide) (by omega),hr]
  unfold exponent mantissa
  omega

/-- An exponent below 768 wraps around, to a payload beyond 62 bits. -/
theorem inPayload_rotated : inPayload (rotated bits) = true ↔
    768 ≤ exponent bits ∧ exponent bits ≤ 1279 ∧ ¬ (exponent bits = 768 ∧ mantissa bits = 0) := by
  have hf := fields_lt bits
  rw [inPayload_iff,rotated,toNat_sub,toNat_rotation,show smallFloatOffset.toNat = 768*2^53 by decide]
  by_cases he : exponent bits < 768 <;> omega

theorem tagPayload_tag (p : Word) : tagPayload p &&& 3 = valueFloat := by
  ext
  simpa [tagPayload,valueFloat] using .inr

theorem tagPayload_shift {p : Word} (hp : p.toNat < 2^62) : tagPayload p >>> 2 = p := by
  rw [← toNat_inj,toNat_shiftRight,tagPayload,toNat_shiftLeft_or p (by decide) (by decide)]
  change (_ + 3) / _ = _
  omega

theorem tagFloat_spec (h : smallFloatFits bits = true) :
    ∃ w, tagFloat bits = some w ∧ w &&& 3 = valueFloat ∧ floatValueOf w = some bits := by
  unfold tagFloat floatValueOf
  by_cases hz : isZero bits = true
  · have hp := toNat_shiftRight bits 63
    have hle : bits >>> 63 ≤ 1 := by
      change _ ≤ (1 : ℕ)
      omega
    have hl : bits <<< 1 = 0#64 := by
      rw [← toNat_inj,toNat_shiftLeft,Nat.shiftLeft_eq]
      have := (isZero_iff bits).mp hz
      change _ = (0 : ℕ)
      omega
    refine ⟨_,if_pos hz,tagPayload_tag _,?_⟩
    simp only [tagPayload_tag,if_true,tagPayload_shift (p := bits >>> 63) (by omega),if_pos hle]
    rw [rotate_back bits (by rw [hl,BitVec.zero_or])]
  · have hin : inPayload (rotated bits) = true := by simpa [smallFloatFits,hz] using h
    obtain ⟨hlo,hhi⟩ := (inPayload_iff _).mp hin
    have hle : ¬ rotated bits ≤ 1 := Nat.not_le_of_lt hlo
    refine ⟨_,by rw [if_neg hz,if_pos hin],tagPayload_tag _,?_⟩
    simp only [tagPayload_tag,if_true,tagPayload_shift hhi,if_neg hle]
    have hb : rotated bits+smallFloatOffset = _ := BitVec.sub_add_cancel _ _
    rw [rotate_back bits hb]

theorem tagFloat_none (h : ¬ smallFloatFits bits = true) : tagFloat bits = none := by
  rw [smallFloatFits,Bool.or_eq_true] at h
  rw [tagFloat,if_neg fun hz => h (.inl hz),if_neg fun hin => h (.inr hin)]

/-- The immediate words of floats: decoding takes back what encoding did, bit by bit. -/
theorem tagFloat_bijective :
    (∀ bits, smallFloatFits bits = true → ∃ w, tagFloat bits = some w ∧ w &&& 3 = valueFloat ∧
      floatValueOf w = some bits) ∧
    (∀ a b, smallFloatFits a = true → smallFloatFits b = true → tagFloat a = tagFloat b → a = b) ∧
    (∀ bits w, tagFloat bits = some w → ∃ b, floatValueOf w = some b ∧ smallFloatFits b = true) ∧
    ∀ bits, smallFloatFits bits = true ↔
      768 ≤ exponent bits ∧ exponent bits ≤ 1279 ∧ ¬ (exponent bits = 768 ∧ mantissa bits = 0) ∨
        bits = 0#64 ∨ bits = 1#64 <<< 63 := by
  refine ⟨tagFloat_spec,fun a b ha hb heq => ?_,fun bits w hw => ?_,fun bits => ?_⟩
  · obtain ⟨w,hw,-,hva⟩ := tagFloat_spec a ha
    obtain ⟨w',hw',-,hvb⟩ := tagFloat_spec b hb
    obtain rfl : w = w' := Option.some.inj (hw.symm.trans (heq.trans hw'))
    exact Option.some.inj (hva.symm.trans hvb)
  · have hfits : smallFloatFits bits = true := by
      by_contra hnot
      cases (tagFloat_none bits hnot).symm.trans hw
    obtain ⟨w',hw',-,hv⟩ := tagFloat_spec bits hfits
    obtain rfl : w = w' := Option.some.inj (hw.symm.trans hw')
    exact ⟨bits,hv,hfits⟩
  · rw [smallFloatFits,Bool.or_eq_true,inPayload_rotated,isZero_iff,← toNat_inj,← toNat_inj,
      show (0#64).toNat = 0 from rfl,show (1#64 <<< 63).toNat = 2^63 by decide]
    unfold exponent mantissa
    omega

end SmalltalkJit.SmallFloat
