import Mathlib.Data.Nat.Digits.Lemmas
import Mathlib.Data.List.DropRight
import Mathlib.Data.Int.GCD

/-! # Integers of any size

A small integer is a value of 62 bits with a sign. A large integer has its sign in
its class and its magnitude in limbs of 32 bits, the least significant first. The
primitives take the operands apart into limbs and signs, leave the work on limbs to
the kernels, and build the result; the messages of the image try a machine
primitive for two small integers first.
-/
namespace SmalltalkJit.Numbers

abbrev Limbs := List UInt32

def Limbs.value (a : Limbs) : ℕ := Nat.ofDigits (2^32) (a.map UInt32.toNat)

/-- Without limbs that are zero at the end. -/
def bigIntNormalize (a : Limbs) : Limbs := a.rdropWhile (· == 0)

def Limbs.Normal (a : Limbs) : Prop := bigIntNormalize a = a

/-- The kernels of `BigInt.c`, which compute exactly on natural numbers. -/
structure Kernels where
  compare : Limbs → Limbs → ℤ
  add : Limbs → Limbs → Limbs
  sub : Limbs → Limbs → Limbs
  mul : Limbs → Limbs → Limbs
  divMod : Limbs → Limbs → Limbs × Limbs
  gcd : Limbs → Limbs → Limbs
  compare_exact : ∀ a b, a.Normal → b.Normal → compare a b = (a.value - b.value : ℤ).sign
  add_exact : ∀ a b, a.Normal → b.Normal → (add a b).value = a.value + b.value
  sub_exact : ∀ a b, a.Normal → b.Normal → b.value ≤ a.value → (sub a b).value = a.value - b.value
  mul_exact : ∀ a b, a.Normal → b.Normal → (mul a b).value = a.value*b.value
  divMod_exact : ∀ a b, a.Normal → b.Normal → b.value ≠ 0 →
    (divMod a b).1.value = a.value / b.value ∧ (divMod a b).2.value = a.value % b.value
  divMod_normal : ∀ a b, a.Normal → b.Normal → b.value ≠ 0 → (divMod a b).1.Normal ∧ (divMod a b).2.Normal
  gcd_exact : ∀ a b, a.Normal → b.Normal → (gcd a b).value = Nat.gcd a.value b.value

inductive Integer
  | small (i : ℤ)
  | large (negative : Bool) (limbs : Limbs)
  deriving DecidableEq

def InRange (n : ℤ) : Prop := -2^61 ≤ n ∧ n ≤ 2^61-1

instance (n : ℤ) : Decidable (InRange n) := inferInstanceAs (Decidable (_ ∧ _))

section Primitives

def largeIntOperand : Integer → Limbs
  | .small i => bigIntNormalize [UInt32.ofNat (i.natAbs % 2^32),UInt32.ofNat (i.natAbs / 2^32)]
  | .large _ limbs => bigIntNormalize limbs

def largeIntIsNegative : Integer → Bool
  | .small i => i < 0
  | .large negative _ => negative

/-- The range is not symmetric. -/
def largeIntFitsSmall (limbs : Limbs) (negative : Bool) : Bool :=
  match limbs with
  | [] => true
  | [low] => fits low.toNat
  | [low,high] => fits (low.toNat + high.toNat*2^32)
  | _ => false
where
  fits (magnitude : ℕ) : Bool := if negative then magnitude ≤ 2^61 else magnitude < 2^61

def largeIntResult (limbs : Limbs) (negative : Bool) : Integer :=
  match bigIntNormalize limbs with
  | [] => .small 0
  | low :: rest =>
    if largeIntFitsSmall (low :: rest) negative then
      let magnitude : ℕ := match rest with
        | [high] => low.toNat + high.toNat*2^32
        | _ => low.toNat
      .small (if negative then -magnitude else magnitude)
    else .large negative (low :: rest)

inductive LargeOp
  | add
  | sub
  | mul
  | quo
  | rem
  | div
  | mod
  | gcd
  deriving DecidableEq

variable (kernels : Kernels)

def largeIntAdd (a b : Limbs) (negA negB : Bool) : Integer :=
  if negA = negB then largeIntResult (kernels.add a b) negA
  else if kernels.compare a b ≥ 0 then largeIntResult (kernels.sub a b) negA
  else largeIntResult (kernels.sub b a) negB

/-- The four divisions; none is the failure for a zero divisor. -/
def largeIntDivide (op : LargeOp) (a b : Limbs) (negA negB : Bool) : Option Integer :=
  if b = [] then none
  else
    let (q,r) := kernels.divMod a b
    let negQ := negA != negB
    -- The floored forms go one further from zero when the signs differ and something is left.
    let adjust := negQ && r != []
    match op with
    | .quo => some (largeIntResult q negQ)
    | .rem => some (largeIntResult r negA)
    | .div => some (largeIntResult (if adjust then kernels.add q [1] else q) negQ)
    | _ => some (largeIntResult (if adjust then kernels.sub b r else r) negB)

def largeIntBinaryPrimitive (op : LargeOp) (vSelf vOther : Integer) : Option Integer :=
  let a := largeIntOperand vSelf
  let b := largeIntOperand vOther
  let negA := largeIntIsNegative vSelf
  let negB := largeIntIsNegative vOther
  match op with
  | .add => some (largeIntAdd kernels a b negA negB)
  | .sub => some (largeIntAdd kernels a b negA !negB)
  | .mul => some (largeIntResult (kernels.mul a b) (negA != negB))
  | .gcd => some (largeIntResult (kernels.gcd a b) false)
  | op => largeIntDivide kernels op a b negA negB

def largeIntComparePrimitive (vSelf vOther : Integer) : ℤ :=
  let a := largeIntOperand vSelf
  let b := largeIntOperand vOther
  let negA := largeIntIsNegative vSelf && a != []
  let negB := largeIntIsNegative vOther && b != []
  if negA != negB then if negA then -1 else 1
  else if negA then -kernels.compare a b else kernels.compare a b

end Primitives

/-- The machine primitives for two small integers: what they answer is exact and in range. -/
structure Machine where
  add : ℤ → ℤ → Option ℤ
  sub : ℤ → ℤ → Option ℤ
  mul : ℤ → ℤ → Option ℤ
  quo : ℤ → ℤ → Option ℤ
  rem : ℤ → ℤ → Option ℤ
  floorDiv : ℤ → ℤ → Option ℤ
  mod : ℤ → ℤ → Option ℤ
  add_exact : ∀ i j r, add i j = some r → r = i + j ∧ InRange r
  sub_exact : ∀ i j r, sub i j = some r → r = i - j ∧ InRange r
  mul_exact : ∀ i j r, mul i j = some r → r = i*j ∧ InRange r
  quo_exact : ∀ i j r, quo i j = some r → j ≠ 0 ∧ r = i.tdiv j ∧ InRange r
  rem_exact : ∀ i j r, rem i j = some r → j ≠ 0 ∧ r = i.tmod j ∧ InRange r
  floorDiv_exact : ∀ i j r, floorDiv i j = some r → j ≠ 0 ∧ r = i.fdiv j ∧ InRange r
  mod_exact : ∀ i j r, mod i j = some r → j ≠ 0 ∧ r = i.fmod j ∧ InRange r

inductive ArithmeticError
  | zeroDivide
  | error (messageText : String)
  deriving DecidableEq

section Messages
variable (kernels : Kernels) (machine : Machine)

/-- `=`: small integers are identical, all others are compared. -/
def equals : Integer → Integer → Bool
  | .small i, .small j => i = j
  | a, b => largeIntComparePrimitive kernels a b = 0

/-- `<`. The machine primitive answers for every two small integers. -/
def lessThan : Integer → Integer → Bool
  | .small i, .small j => i < j
  | a, b => largeIntComparePrimitive kernels a b < 0

variable (a b : Integer)

/-- `>` of a small integer is that of `Magnitude`. -/
def greaterThan : Bool :=
  match a with
  | .small _ => lessThan kernels b a
  | .large .. => largeIntComparePrimitive kernels a b > 0

def lessOrEqual : Bool :=
  match a with
  | .small _ => !lessThan kernels b a
  | .large .. => largeIntComparePrimitive kernels a b ≤ 0

def greaterOrEqual : Bool :=
  match a with
  | .small _ => !lessThan kernels a b
  | .large .. => largeIntComparePrimitive kernels a b ≥ 0

def largeOp (op : LargeOp) (a b : Integer) : Except ArithmeticError Integer :=
  match largeIntBinaryPrimitive kernels op a b with
  | some r => .ok r
  | none =>
    if equals kernels b (.small 0) then .error .zeroDivide
    else .error (.error "large integer arithmetic failed")

variable (primitive : ℤ → ℤ → Option ℤ)

/-- A machine primitive, which fails for an argument that is not a small integer. -/
def machinePrimitive : Integer → Integer → Option Integer
  | .small i, .small j => (primitive i j).map .small
  | _, _ => none

def arithmetic (op : LargeOp) (a b : Integer) : Except ArithmeticError Integer :=
  match machinePrimitive primitive a b with
  | some r => .ok r
  | none => largeOp kernels op a b

def plus : Except ArithmeticError Integer := arithmetic kernels machine.add .add a b

def minus : Except ArithmeticError Integer := arithmetic kernels machine.sub .sub a b

def times : Except ArithmeticError Integer := arithmetic kernels machine.mul .mul a b

def division (op : LargeOp) (a b : Integer) : Except ArithmeticError Integer :=
  match machinePrimitive primitive a b with
  | some r => .ok r
  | none => if equals kernels b (.small 0) then .error .zeroDivide else largeOp kernels op a b

def quo : Except ArithmeticError Integer := division kernels machine.quo .quo a b

def rem : Except ArithmeticError Integer := division kernels machine.rem .rem a b

def modulo : Except ArithmeticError Integer := division kernels machine.mod .mod a b

/-- `Integer>>//`, which corrects the quotient of `quo:`. -/
def integerFloorDiv : Except ArithmeticError Integer := do
  let q ← quo kernels machine a b
  let product ← times kernels machine q b
  let left ← minus kernels machine a product
  if equals kernels left (.small 0) ||
      lessThan kernels a (.small 0) == lessThan kernels b (.small 0) then .ok q
  else minus kernels machine q (.small 1)

/-- `//`: a small integer falls back to its superclass, a large one has its own opcode. -/
def floorDiv : Except ArithmeticError Integer :=
  match machinePrimitive machine.floorDiv a b with
  | some r => .ok r
  | none =>
    if equals kernels b (.small 0) then .error .zeroDivide
    else match a with
      | .small _ => integerFloorDiv kernels machine a b
      | .large .. => largeOp kernels .div a b

end Messages

end SmalltalkJit.Numbers
