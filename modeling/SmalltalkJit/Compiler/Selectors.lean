import SmalltalkJit.Compiler.Tokenizer
import Mathlib.Data.List.Flatten

/-! # The arity of selectors

The tokenizer gives identifiers, operators and keywords, from which the parser builds
unary, binary and keyword selectors. `computeArguments` tells them apart by their first two
characters and `numArgs` by the first one and the colons.
-/
namespace SmalltalkJit.Selectors
open ByteStream Tokenizing

def colon : Byte := 58

/-- The rounds of `memchr` over the text, or what the block of `numArgs` counts. -/
def colons (s : List Byte) : ℕ := s.foldl (fun count c => if c = colon then count+1 else count) 0

/-- A `char` is signed. Behind a selector of one character stands a byte that is not part of it. -/
def computeArguments (behind : Byte) (s : List Byte) : ℕ :=
  let s0 := (s.headD behind).toInt
  let s1 := (s.tail.headD behind).toInt
  if s.getLast? = some colon then colons s
  else if (s0 < 65 ∨ s0 > 90) ∧ (s0 < 97 ∨ s1 > 122) then 1 else 0

def isLetter (c : Byte) : Bool := isUppercase c || (97 ≤ c.toNat && c.toNat ≤ 122)

def numArgs (s : List Byte) : ℕ :=
  if colon ∈ s then colons s
  else s.head?.elim 0 fun c => if isLetter c || c = 95 then 0 else 1

structure Identifier where
  first : Byte
  rest : List Byte
  begins : isIdentifierBegining first = true
  continues : ∀ c ∈ rest, isIdentifier c = true

structure Operator where
  first : Byte
  rest : List Byte
  special : ∀ c ∈ first :: rest, isSpecial c = true

inductive Selector
  | unary (name : Identifier)
  | binary (operator : Operator)
  | keyword (parts : List Identifier) (last : Identifier)

def Identifier.text (name : Identifier) : List Byte := name.first :: name.rest

namespace Selector

def text : Selector → List Byte
  | unary name => name.text
  | binary operator => operator.first :: operator.rest
  | keyword parts last => (parts ++ [last]).flatMap fun part => part.text ++ [colon]

/-- The number of arguments that the parser reads with the selector. -/
def arity : Selector → ℕ
  | unary _ => 0
  | binary _ => 1
  | keyword parts _ => parts.length+1

/-- The first character tells the kind: it is not an underscore, and where it is above `Z` the
second one, or the byte behind, lies on the side of `z` that the kind needs. -/
def Told (behind : Byte) : Selector → Prop
  | unary name => name.first.toNat ≠ 95 ∧ (97 ≤ name.first.toNat → (name.rest.headD behind).toInt ≤ 122)
  | binary operator => 97 ≤ operator.first.toNat → 122 < (operator.rest.headD behind).toInt
  | keyword _ _ => True

end Selector

theorem colons_eq_count (s : List Byte) : colons s = s.count colon := by
  suffices h : ∀ n, s.foldl (fun count c => if c = colon then count+1 else count) n = n + s.count colon from
    (h 0).trans (Nat.zero_add _)
  induction s with
  | nil => exact fun n => rfl
  | cons c s ih =>
    intro n
    rw [List.foldl_cons,ih,List.count_cons]
    by_cases hc : c = colon
    · simp only [hc,if_true,beq_self_eq_true]
      omega
    · simp [hc]

theorem isIdentifier_spec : ∀ c : Byte, isIdentifier c = true → c ≠ colon := by decide +kernel

theorem isIdentifierBegining_spec : ∀ c : Byte, isIdentifierBegining c = true → isIdentifier c = true ∧
    (isLetter c || c = 95) = true ∧ (c.toNat = 95 ∨ 65 ≤ c.toNat ∧ c.toNat ≤ 90 ∨ 97 ≤ c.toNat) ∧ c.toInt = c.toNat := by
  decide +kernel

theorem isSpecial_spec : ∀ c : Byte, isSpecial c = true → c ≠ colon ∧ (isLetter c || c = 95) = false ∧
    (c.toNat < 65 ∨ c.toNat > 90) ∧ c.toInt = c.toNat := by
  decide +kernel

theorem Identifier.colon_not_mem (name : Identifier) : colon ∉ name.text := by
  intro h
  rcases List.mem_cons.mp h with h | h
  · exact isIdentifier_spec _ (isIdentifierBegining_spec _ name.begins).1 h.symm
  · exact isIdentifier_spec _ (name.continues _ h) rfl

section Short
variable {r : List Byte} (h : colon ∉ c :: r)
include h

theorem computeArguments_short (behind : Byte) : computeArguments behind (c :: r) =
    if (c.toInt < 65 ∨ c.toInt > 90) ∧ (c.toInt < 97 ∨ (r.headD behind).toInt > 122) then 1 else 0 :=
  if_neg fun hl => h (List.mem_of_getLast? hl)

theorem numArgs_short : numArgs (c :: r) = if isLetter c || c = 95 then 0 else 1 := if_neg h

end Short

section Keyword
variable (parts : List Identifier) (last : Identifier)

theorem getLast?_keyword : (Selector.keyword parts last).text.getLast? = some colon := by
  rw [Selector.text,List.flatMap_append,List.flatMap_singleton,← List.append_assoc,List.getLast?_concat]

theorem colons_keyword : colons (Selector.keyword parts last).text = parts.length+1 := by
  have hpart (part : Identifier) : (part.text ++ [colon]).count colon = 1 := by
    rw [List.count_append,List.count_eq_zero.mpr part.colon_not_mem]
    rfl
  rw [colons_eq_count,Selector.text,List.count_flatMap]
  simp only [Function.comp_def,hpart,List.map_const',List.sum_replicate_nat,List.length_append,Nat.mul_one]
  rfl

end Keyword

/-- The primitive and the symbol agree on the arity of a selector exactly if its first two characters tell
its kind. -/
theorem computeArguments_iff (behind : Byte) (selector : Selector) :
    computeArguments behind selector.text = selector.arity ∧ numArgs selector.text = selector.arity ↔
      selector.Told behind := by
  cases selector with
  | unary name =>
    have hc := name.colon_not_mem
    obtain ⟨-,hl,hk,he⟩ := isIdentifierBegining_spec _ name.begins
    simp only [Selector.text,Selector.arity,Selector.Told,Identifier.text,computeArguments_short hc,numArgs_short hc,
      hl,he,if_true,and_true,ite_eq_right_iff]
    omega
  | binary operator =>
    have hspec := fun c hc => isSpecial_spec c (operator.special c hc)
    have hc : colon ∉ operator.first :: operator.rest := fun h => (hspec _ h).1 rfl
    obtain ⟨-,hl,hk,he⟩ := hspec _ List.mem_cons_self
    simp only [Selector.text,Selector.arity,Selector.Told,computeArguments_short hc,numArgs_short hc,
      hl,he,Bool.false_eq_true,if_false,and_true,ite_eq_left_iff]
    omega
  | keyword parts last =>
    have hlast := getLast?_keyword parts last
    have hcount := colons_keyword parts last
    exact iff_of_true ⟨(if_pos hlast).trans hcount,(if_pos (List.mem_of_getLast? hlast)).trans hcount⟩ trivial

def notEqual : Selector := .binary ⟨126,[61],by simp [isSpecial]⟩

theorem notEqual_no_arguments : computeArguments 0 notEqual.text = 0 ∧ notEqual.arity = 1 := by decide

end SmalltalkJit.Selectors
