import Mathlib.Algebra.Ring.Nat

/-! # Streams of bytes

Words are written as their bytes, the least significant first, and are read from
the front of what is left of the stream. A word that has been written is read
back, and what follows it is left.
-/
namespace SmalltalkJit.ByteStream
open BitVec

abbrev Byte := BitVec 8
abbrev Word := BitVec 64

def split : ℕ → ℕ → List Byte
  | 0, _ => []
  | k+1, n => BitVec.ofNat 8 n :: split k (n / 256)

def combine : List Byte → ℕ
  | [] => 0
  | b :: bytes => b.toNat+256*combine bytes

@[simp] theorem length_split (k n : ℕ) : (split k n).length = k := by
  induction k generalizing n with
  | zero => rfl
  | succ _ ih => rw [split,List.length_cons,ih]

theorem combine_split (k n : ℕ) : combine (split k n) = n % 256^k := by
  induction k generalizing n with
  | zero => rw [split,combine,Nat.pow_zero,Nat.mod_one]
  | succ k ih =>
    have hmul : n % 256^(k+1) = n % 256+256*(n / 256 % 256^k) := by rw [Nat.pow_succ',Nat.mod_mul]
    rw [split,combine,ih,toNat_ofNat,hmul]

def wordBytes (w : Word) : List Byte := split 8 w.toNat

@[simp] theorem length_wordBytes (w : Word) : (wordBytes w).length = 8 := length_split 8 w.toNat

def readWord (file : List Byte) : Option (Word × List Byte) :=
  if 8 ≤ file.length then some (BitVec.ofNat 64 (combine (file.take 8)),file.drop 8) else none

@[simp] theorem readWord_append (w : Word) (rest : List Byte) : readWord (wordBytes w ++ rest) = some (w,rest) := by
  have hl := length_wordBytes w
  rw [readWord,if_pos (by rw [List.length_append]; omega),List.take_left' hl,List.drop_left' hl,
    wordBytes,combine_split]
  have hlt : w.toNat % 256^8 = w.toNat := Nat.mod_eq_of_lt w.isLt
  rw [hlt,ofNat_toNat,setWidth_eq]

/-! Words are assembled from fields at different positions. -/

section Fields
variable {v w : ℕ}

def field (w k : ℕ) (bits : Word) : BitVec w := (bits >>> k).setWidth w

theorem field_or (k : ℕ) (a b : Word) : field w k (a ||| b) = field w k a ||| field w k b := by
  rw [field,ushiftRight_or_distrib,setWidth_or]
  rfl

theorem field_self (x : BitVec w) (h : k + w ≤ 64) : field w k (x.setWidth 64 <<< k) = x := by
  ext i hi
  have hlt : k + i < 64 := by omega
  simp [field,hlt,hi,show i < 64 by omega]

theorem field_below (x : BitVec v) (h : j + v ≤ k) : field w k (x.setWidth 64 <<< j) = 0#w := by
  ext i hi
  have hge : v ≤ k + i - j := by omega
  simp [field,getLsbD_of_ge x _ hge]

theorem field_above (x : BitVec v) (h : k + w ≤ j) : field w k (x.setWidth 64 <<< j) = 0#w := by
  ext i hi
  have hlt : k + i < j := by omega
  simp [field,hlt]

end Fields

theorem toNat_shiftLeft_or (a : Word) {b : Word} (hk : k ≤ 64) (hb : b.toNat < 2^k) :
    ((a <<< k) ||| b).toNat = a.toNat*2^k % 2^64 + b.toNat := by
  have ha : (a <<< k).toNat = a.toNat*2^k % 2^64 := by rw [toNat_shiftLeft,Nat.shiftLeft_eq]
  have hdvd : 2^k ∣ a.toNat*2^k % 2^64 :=
    (Nat.dvd_mod_iff (Nat.pow_dvd_pow 2 hk)).mpr (Nat.dvd_mul_left _ _)
  obtain ⟨c,hc⟩ := hdvd
  rw [toNat_or,ha,hc,Nat.two_pow_add_eq_or_of_lt hb]

end SmalltalkJit.ByteStream
