import SmalltalkJit.Lib.ByteStream

/-! # The format of snapshots

The header of the file, the words that hold a shape or an object header, and the
tags that tell an object in place and a reference to an earlier object from an
immediate value. The stream is modelled for a little-endian host.
-/
namespace SmalltalkJit.Snapshot
open ByteStream BitVec

structure InstanceShape where
  tag : Byte
  payloadSize : Byte
  varsSize : Byte
  isIndexed : Byte
  isBytes : Byte
  valueType : Byte
  size : BitVec 16
  deriving DecidableEq

def snapshotEncodeShape (shape : InstanceShape) : Word :=
  shape.tag.setWidth 64 ||| shape.payloadSize.setWidth 64 <<< 8 ||| shape.varsSize.setWidth 64 <<< 16 |||
    shape.isIndexed.setWidth 64 <<< 24 ||| shape.isBytes.setWidth 64 <<< 32 |||
    shape.valueType.setWidth 64 <<< 40 ||| shape.size.setWidth 64 <<< 48

def snapshotDecodeShape (bits : Word) : InstanceShape where
  tag := bits.setWidth 8
  payloadSize := (bits >>> 8).setWidth 8
  varsSize := (bits >>> 16).setWidth 8
  isIndexed := (bits >>> 24).setWidth 8
  isBytes := (bits >>> 32).setWidth 8
  valueType := (bits >>> 40).setWidth 8
  size := (bits >>> 48).setWidth 16

def snapshotEncodeObjectHeader (hash : BitVec 32) (payloadSize varsSize : Byte) : Word :=
  hash.setWidth 64 ||| payloadSize.setWidth 64 <<< 40 ||| varsSize.setWidth 64 <<< 48

def snapshotDecodeObjectHeader (bits : Word) : BitVec 32 × Byte × Byte :=
  (bits.setWidth 32,(bits >>> 40).setWidth 8,(bits >>> 48).setWidth 8)

theorem decodeShape_encodeShape (shape : InstanceShape) :
    snapshotDecodeShape (snapshotEncodeShape shape) = shape := by
  have htag : ∀ tag : Byte, tag.setWidth 64 = tag.setWidth 64 <<< 0 := fun tag => by simp
  have hd : ∀ b : Word, snapshotDecodeShape b = ⟨field 8 0 b,field 8 8 b,field 8 16 b,
      field 8 24 b,field 8 32 b,field 8 40 b,field 16 48 b⟩ := fun b => by
    simp [snapshotDecodeShape,field]
  rw [hd,snapshotEncodeShape,htag]
  simp (disch := omega) only [field_or, field_self, field_below, field_above, or_zero, zero_or]

theorem decodeObjectHeader_encodeObjectHeader (hash : BitVec 32) (payloadSize varsSize : Byte) :
    snapshotDecodeObjectHeader (snapshotEncodeObjectHeader hash payloadSize varsSize) =
      (hash,payloadSize,varsSize) := by
  have hh : hash.setWidth 64 = hash.setWidth 64 <<< 0 := by simp
  have hd : ∀ b : Word, snapshotDecodeObjectHeader b = (field 32 0 b,field 8 40 b,field 8 48 b) := fun b => by
    simp [snapshotDecodeObjectHeader,field]
  rw [hd,snapshotEncodeObjectHeader,hh]
  simp (disch := omega) only [field_or, field_self, field_below, field_above, or_zero, zero_or]

def snapshotMagic : List Byte := [0x53,0x54,0x49,0x4D]

def snapshotFormatVersion : Byte := 5

def snapshotByteOrderLittle : Byte := 1

def snapshotByteOrderBig : Byte := 2

def wordSize : Byte := 8

def snapshotWriteHeader : List Byte := snapshotMagic ++ [snapshotFormatVersion,snapshotByteOrderLittle,wordSize,0]

/-- What follows a valid header, or why the header is refused. -/
def snapshotCheckHeader (file : List Byte) : Except String (List Byte) :=
  if file.length < 8 ∨ file.take 4 ≠ snapshotMagic then
    .error ("not a valid image (missing 'STIM' magic): legacy or corrupt snapshot - " ++
      "regenerate it with `st -s <image> -b packages/Core`")
  else if file.getD 4 0 ≠ snapshotFormatVersion then
    .error ("image format v" ++ toString (file.getD 4 0).toNat ++ ", this VM reads v" ++
      toString snapshotFormatVersion.toNat ++ " - re-bootstrap the image")
  else if file.getD 5 0 ≠ snapshotByteOrderLittle then
    .error ("image was built " ++ (if file.getD 5 0 = snapshotByteOrderBig then "big" else "little") ++
      "-endian but this host is little-endian: images are per-build artifacts - re-bootstrap on this host")
  else if file.getD 6 0 ≠ wordSize then
    .error ("image word size " ++ toString (file.getD 6 0).toNat ++ ", host word size " ++
      toString wordSize.toNat ++ " - re-bootstrap")
  else .ok (file.drop 8)

theorem checkHeader_writeHeader (rest : List Byte) :
    snapshotCheckHeader (snapshotWriteHeader ++ rest) = .ok rest := by
  have hl : ¬ (snapshotWriteHeader ++ rest).length < 8 := by simp [snapshotWriteHeader,snapshotMagic]
  rw [snapshotCheckHeader,if_neg (not_or.mpr ⟨hl,fun hm => hm rfl⟩)]
  rfl

def objectFieldMask : Word := 7

def objectInline : Word := 1

def objectPointer : Word := 5

def isPointer (value : Word) : Bool := value &&& 3 = 1

def tagPtr (object : Word) : Word := object+1

def asObject (value : Word) : Word := value-1

@[simp] theorem asObject_tagPtr (object : Word) : asObject (tagPtr object) = object := add_sub_cancel object 1

theorem mask_ne_of_not_isPointer (h : isPointer value = false) :
    value &&& objectFieldMask ≠ objectInline ∧ value &&& objectFieldMask ≠ objectPointer := by
  have hm : value &&& 3 = value &&& objectFieldMask &&& 3 := by
    rw [BitVec.and_assoc]
    rfl
  rw [isPointer,decide_eq_false_iff_not,hm] at h
  constructor <;> intro heq <;> rw [heq] at h <;> exact h rfl

theorem isPointer_tagPtr (h : object.toNat % 4 = 0) : isPointer (tagPtr object) = true := by
  have hm : (3 : Word).toNat = 2^2-1 := rfl
  have hone : (1 : Word).toNat = 1 := rfl
  rw [isPointer,decide_eq_true_iff]
  apply eq_of_toNat_eq
  rw [toNat_and,hm,Nat.and_two_pow_sub_one_eq_mod,tagPtr,toNat_add,hone]
  omega

variable {id mark : Word} (hid : id.toNat < 1152921504606846976) (hm : mark.toNat < 8)
include hid hm

theorem toNat_mark : (id <<< 3 ||| mark).toNat = id.toNat*8 + mark.toNat := by
  rw [toNat_shiftLeft_or id (by decide) hm]
  omega

theorem mark_and_mask : (id <<< 3 ||| mark) &&& objectFieldMask = mark := by
  apply eq_of_toNat_eq
  have hma : objectFieldMask.toNat = 2^3-1 := rfl
  rw [toNat_and,toNat_mark hid hm,hma,Nat.and_two_pow_sub_one_eq_mod]
  omega

theorem mark_sshiftRight : (id <<< 3 ||| mark).sshiftRight 3 = id := by
  have ht := toNat_mark hid hm
  have hmsb : (id <<< 3 ||| mark).msb = false := by
    rw [msb_eq_false_iff_two_mul_lt,ht]
    omega
  rw [sshiftRight_eq_of_msb_false hmsb]
  apply eq_of_toNat_eq
  rw [toNat_ushiftRight,ht,Nat.shiftRight_eq_div_pow]
  omega

end SmalltalkJit.Snapshot
