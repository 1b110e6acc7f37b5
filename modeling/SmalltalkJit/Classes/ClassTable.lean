import Mathlib.Logic.Function.Basic
import SmalltalkJit.Bytecode.Instr
import SmalltalkJit.Lib.OpenAddressing

/-! # Classes, metaclasses and the namespace that binds them

The class objects of an image with the fields that class definitions and method
lookup read: the class word, the superclass, the list of subclasses, the method
dictionary, the instance shape and the instance variables. A namespace resolves
a name in its own bindings first. `lookupSelector` walks the superclass chain,
which nothing in the object memory keeps from being circular.
-/
namespace SmalltalkJit.Classes
open OpenAddressing

inductive Value
  | pointer (object : Oop)
  | immediate (word : UInt64)
  deriving DecidableEq

def Value.word : Value → UInt64
  | .pointer object => UInt64.ofNat (object+1)
  | .immediate word => word

/-- `InstanceShape`, without its tag byte. -/
structure InstanceShape where
  payloadSize : UInt8
  varsSize : UInt8
  isIndexed : UInt8
  isBytes : UInt8
  valueType : UInt8
  size : UInt16
  deriving DecidableEq

def InstanceShape.ofWord (word : UInt64) : InstanceShape where
  payloadSize := (word >>> 8).toUInt8
  varsSize := (word >>> 16).toUInt8
  isIndexed := (word >>> 24).toUInt8
  isBytes := (word >>> 32).toUInt8
  valueType := (word >>> 40).toUInt8
  size := (word >>> 48).toUInt16

/-- `shape.varsSize` and `shape.size` as `declareVariables` stores them. -/
def InstanceShape.withVars (shape : InstanceShape) (vars : ℕ) : InstanceShape :=
  { shape with
    varsSize := UInt8.ofNat vars
    size := UInt16.ofNat
      (16 + (shape.isIndexed.toNat + shape.payloadSize.toNat + (UInt8.ofNat vars).toNat)*8) }

def InstanceShape.offset (shape : InstanceShape) : ℕ := shape.payloadSize.toNat + shape.isIndexed.toNat

section Symbols
variable {Sym : Type} [DecidableEq Sym]

/-- A method to compile: `className` is present on the class side, `mentions` are the names that its
body mentions. -/
structure MethodNode (Sym : Type) where
  selector : Sym
  className : Option Sym
  mentions : List Sym
  deriving DecidableEq

def MethodNode.classSide {Sym : Type} (node : MethodNode Sym) : Bool := node.className.isSome

def bySide {α : Type} (inst cls : α) (classSide : Bool) : α := if classSide then cls else inst

/-- `instVars` are the instance variable operands of the code with the names they were compiled
from. -/
structure CompiledMethod (Sym : Type) where
  node : MethodNode Sym
  ownerClass : Oop
  instVars : List (ℕ × Sym)
  deriving DecidableEq

abbrev MethodDictionary (hash : Sym → ℕ) := HashMap Sym (CompiledMethod Sym) hash

/-- `RawClass` and `RawMetaClass`: `name` is a field of a class, `instanceClass` of a metaclass. An
absent reference is nil. -/
structure RawClass (hash : Sym → ℕ) where
  cls : Oop
  superClass : Option Oop
  subClasses : List Oop
  methodDictionary : Option (MethodDictionary hash)
  instanceShape : InstanceShape
  instanceVariables : List Sym
  name : Option Sym
  instanceClass : Option Oop

structure Handles where
  nil : Oop
  metaClass : Oop
  classClass : Oop
  undefinedObject : Oop

/-- The class objects of an image, and one namespace: its own bindings, and what its imports and the
core resolve. -/
structure ClassTable (hash : Sym → ℕ) where
  classAt : Oop → Option (RawClass hash)
  next : Oop
  bindings : Sym → Option Value
  imported : Sym → Option Value

variable {hash : Sym → ℕ}

def ClassTable.set (t : ClassTable hash) (o : Oop) (k : RawClass hash) : ClassTable hash :=
  { t with classAt := Function.update t.classAt o (some k) }

def ClassTable.modify (t : ClassTable hash) (o : Oop) (f : RawClass hash → RawClass hash) : ClassTable hash :=
  { t with classAt := Function.update t.classAt o ((t.classAt o).map f) }

/-- `namespaceResolveAssoc`: an own binding hides an imported one even when its value is nil. -/
def ClassTable.resolve (t : ClassTable hash) (name : Sym) : Option Value := (t.bindings name).or (t.imported name)

/-- The loop of `lookupSelector`. No answer is a chain that does not end within `fuel` classes, or
that leaves the classes with a method dictionary. -/
def ClassTable.lookupSelector (t : ClassTable hash) (selector : Sym) : ℕ → Oop → Option (Option (CompiledMethod Sym))
  | 0, _ => none
  | fuel+1, c =>
    match t.classAt c with
    | none => none
    | some k =>
      match k.methodDictionary with
      | none => none
      | some dict =>
        match dict.at? selector with
        | some method => some (some method)
        | none =>
          match k.superClass with
          | none => some none
          | some s => t.lookupSelector selector fuel s

def ClassTable.Answers (t : ClassTable hash) (c : Oop) (selector : Sym)
    (answer : Option (CompiledMethod Sym)) : Prop :=
  ∃ fuel, t.lookupSelector selector fuel c = some answer

section Tables
variable (t : ClassTable hash) (o : Oop) (k : RawClass hash) (f : RawClass hash → RawClass hash)

@[simp] theorem set_classAt_self : (t.set o k).classAt o = some k := by simp [ClassTable.set]

@[simp] theorem set_classAt_other (h : x ≠ o) : (t.set o k).classAt x = t.classAt x := by simp [ClassTable.set,h]

@[simp] theorem modify_classAt_self : (t.modify o f).classAt o = (t.classAt o).map f := by simp [ClassTable.modify]

@[simp] theorem modify_classAt_other (h : x ≠ o) : (t.modify o f).classAt x = t.classAt x := by
  simp [ClassTable.modify,h]

end Tables

section Lookup
variable {t : ClassTable hash} {c s : Oop} {selector : Sym} {k : RawClass hash}
variable {dict : MethodDictionary hash}

section
variable (hc : t.classAt c = some k) (hd : k.methodDictionary = some dict)
include hc hd

theorem answers_hit (hm : dict.at? selector = some method) : t.Answers c selector (some method) :=
  ⟨1,by simp [ClassTable.lookupSelector,hc,hd,hm]⟩

theorem answers_miss (hm : dict.at? selector = none) (hs : k.superClass = none) : t.Answers c selector none :=
  ⟨1,by simp [ClassTable.lookupSelector,hc,hd,hm,hs]⟩

theorem answers_up (hm : dict.at? selector = none)
    (hs : k.superClass = some s) (h : t.Answers s selector answer) : t.Answers c selector answer := by
  obtain ⟨fuel,h⟩ := h
  exact ⟨fuel+1,by simp [ClassTable.lookupSelector,hc,hd,hm,hs,h]⟩

end

theorem ClassTable.Answers.cases (h : t.Answers c selector answer) :
    ∃ k dict, t.classAt c = some k ∧ k.methodDictionary = some dict ∧
      ((∃ method, dict.at? selector = some method ∧ answer = some method) ∨
        dict.at? selector = none ∧ (k.superClass = none ∧ answer = none ∨
          ∃ s, k.superClass = some s ∧ t.Answers s selector answer)) := by
  obtain ⟨fuel,h⟩ := h
  cases fuel with
  | zero => cases h
  | succ fuel =>
    simp only [ClassTable.lookupSelector] at h
    split at h
    · cases h
    · rename_i k hk
      split at h
      · cases h
      · rename_i dict hd
        refine ⟨k,dict,hk,hd,?_⟩
        split at h
        · rename_i method hm
          exact .inl ⟨method,hm,(Option.some.inj h).symm⟩
        · rename_i hm
          refine .inr ⟨hm,?_⟩
          split at h
          · rename_i hs
            exact .inl ⟨hs,(Option.some.inj h).symm⟩
          · rename_i s hs
            exact .inr ⟨s,hs,fuel,h⟩

theorem ClassTable.Answers.unique (ha : t.Answers c selector a) (hb : t.Answers c selector b) : a = b := by
  obtain ⟨fuel,ha⟩ := ha
  induction fuel generalizing c with
  | zero => cases ha
  | succ _ ih =>
    obtain ⟨k,dict,hk,hd,hca⟩ := hb.cases
    simp only [ClassTable.lookupSelector,hk,hd] at ha
    rcases hca with ⟨m,hm,rfl⟩ | ⟨hm,⟨hs,rfl⟩ | ⟨s,hs,hup⟩⟩
    · simpa [hm,eq_comm] using ha
    · simpa [hm,hs,eq_comm] using ha
    · exact ih hup (by simpa [hm,hs] using ha)

end Lookup

end Symbols

end SmalltalkJit.Classes
