import SmalltalkJit.Classes.Building
import SmalltalkJit.Lib.AncestorSearch

/-! # Well-formed class hierarchies

A class is an object whose metaclass has it as its instance class. In a
well-formed hierarchy the superclass chains end, the metaclasses run parallel to
the classes and end in Class, and every class stands exactly once in the list of
its superclass. `lookupSelector` then answers what the search
along the superclass chain finds, on both sides.
-/
namespace SmalltalkJit.Classes
open OpenAddressing AncestorSearch

variable {Sym E : Type} [DecidableEq Sym] {hash : Sym → ℕ}

variable (t : ClassTable hash)

def ClassTable.field {α : Type} (g : RawClass hash → Option α) (o : Oop) : Option α := (t.classAt o).bind g

section Fields
variable {α : Type} (t : ClassTable hash) (g : RawClass hash → Option α)

theorem field_modify_self (o : Oop) (f : RawClass hash → RawClass hash) :
    (t.modify o f).field g o = t.field (fun k => g (f k)) o := by
  simp [ClassTable.field,Option.bind_map]

@[simp] theorem field_modify_other (f : RawClass hash → RawClass hash) (h : x ≠ o) :
    (t.modify o f).field g x = t.field g x := by
  simp [ClassTable.field,h]

theorem field_modify_of_eq (h : ∀ k, g (f k) = g k) (x : Oop) : (t.modify o f).field g x = t.field g x := by
  by_cases hx : x = o
  · subst hx
    simp [field_modify_self,h]
  · exact field_modify_other t g f hx

end Fields

def ClassTable.superOf : Oop → Option Oop := t.field RawClass.superClass

def ClassTable.metaOf : Oop → Option Oop := t.field fun k => some k.cls

def ClassTable.instanceOf : Oop → Option Oop := t.field RawClass.instanceClass

def ClassTable.dictOf : Oop → Option (MethodDictionary hash) := t.field RawClass.methodDictionary

def ClassTable.subClassesOf (o : Oop) : List Oop := (t.field (fun k => some k.subClasses) o).getD []

def ClassTable.IsClass (c : Oop) : Prop := ∃ m, t.metaOf c = some m ∧ t.instanceOf m = some c

/-- What every definition keeps: classes and metaclasses refer to each other, the superclasses of
classes and the classes that names are bound to are classes. -/
structure Regular (h : Handles) (t : ClassTable hash) : Prop where
  fresh : ∀ o, t.next ≤ o → t.classAt o = none
  classClass : t.IsClass h.classClass
  metaClass : t.IsClass h.metaClass
  plain : ∀ c, t.IsClass c → t.instanceOf c = none
  dictionaries : ∀ c m, t.IsClass c → t.metaOf c = some m →
    (t.dictOf c).isSome ∧ (t.dictOf m).isSome
  superClass : ∀ c s, t.IsClass c → t.superOf c = some s → t.IsClass s
  lists : ∀ s, t.IsClass s → ∀ c ∈ t.subClassesOf s, c < t.next
  known : ∀ name o, t.bindings name = some (.pointer o) ∨ t.imported name = some (.pointer o) →
    o < t.next
  bound : ∀ name o, t.bindings name = some (.pointer o) ∨ t.imported name = some (.pointer o) →
    o ≠ h.nil → (t.classAt o).isSome → t.IsClass o

structure WellFormed (h : Handles) (t : ClassTable hash) : Prop extends Regular h t where
  parallel : ∀ c m, t.IsClass c → t.metaOf c = some m →
    t.superOf m = (t.superOf c).elim (some h.classClass) t.metaOf
  acyclic : Acyclic t.IsClass t.superOf
  listed : ∀ c s, t.IsClass c → t.superOf c = some s → (t.subClassesOf s).count c = 1

section Lookup
variable {t : ClassTable hash} {h : Handles} {selector : Sym}

def ClassTable.instMethod (t : ClassTable hash) (selector : Sym) (c : Oop) : Option (CompiledMethod Sym) :=
  (t.dictOf c).bind fun d => d.at? selector

def ClassTable.classMethod (t : ClassTable hash) (selector : Sym) (c : Oop) : Option (CompiledMethod Sym) :=
  (t.metaOf c).bind (t.instMethod selector)

theorem exists_record (hd : t.dictOf c = some d) :
    ∃ k, t.classAt c = some k ∧ k.methodDictionary = some d ∧ k.superClass = t.superOf c := by
  obtain ⟨k,hk,hkd⟩ := Option.bind_eq_some_iff.mp hd
  exact ⟨k,hk,hkd,by simp [ClassTable.superOf,ClassTable.field,hk]⟩

theorem answers_of_step (hd : (t.dictOf c).isSome)
    (h : t.instMethod selector c = answer ∧ answer ≠ none ∨ t.instMethod selector c = none ∧
      (t.superOf c = none ∧ answer = none ∨ ∃ s, t.superOf c = some s ∧ t.Answers s selector answer)) :
    t.Answers c selector answer := by
  obtain ⟨d,hd⟩ := Option.isSome_iff_exists.mp hd
  obtain ⟨k,hk,hkd,hks⟩ := exists_record hd
  simp only [ClassTable.instMethod,hd,Option.bind_some] at h
  rcases h with ⟨hm,hne⟩ | ⟨hm,⟨hs,rfl⟩ | ⟨s,hs,hup⟩⟩
  · obtain ⟨m,rfl⟩ := Option.ne_none_iff_exists'.mp hne
    exact answers_hit hk hkd hm
  · exact answers_miss hk hkd hm (hks.trans hs)
  · exact answers_up hk hkd hm (hks.trans hs) hup

def ClassTable.InstSearch (t : ClassTable hash) (selector : Sym) : Oop → Option (CompiledMethod Sym) → Prop :=
  Search t.superOf (t.instMethod selector) (· = none)

def ClassTable.ClassSearch (t : ClassTable hash) (h : Handles) (selector : Sym) :
    Oop → Option (CompiledMethod Sym) → Prop :=
  Search t.superOf (t.classMethod selector) (t.InstSearch selector h.classClass)

theorem Regular.metaOf_isSome (hc : t.IsClass c) : ∃ m, t.metaOf c = some m := by
  obtain ⟨m,hm,-⟩ := hc
  exact ⟨m,hm⟩

theorem WellFormed.lookup_inst (hwf : WellFormed h t) (selector : Sym) (hc : t.IsClass c) :
    ∃ r, t.Answers c selector r ∧ t.InstSearch selector c r := by
  refine hwf.acyclic.induction hwf.superClass
    (motive := fun c => ∃ r, t.Answers c selector r ∧ t.InstSearch selector c r) ?_ hc
  intro c hc ih
  obtain ⟨m,hm⟩ := Regular.metaOf_isSome hc
  have hd := (hwf.dictionaries c m hc hm).1
  cases hi : t.instMethod selector c with
  | some method => exact ⟨some method,answers_of_step hd (.inl ⟨hi,by simp⟩),.hit hi⟩
  | none =>
    cases hs : t.superOf c with
    | none => exact ⟨none,answers_of_step hd (.inr ⟨hi,.inl ⟨hs,rfl⟩⟩),.top hi hs rfl⟩
    | some s =>
      obtain ⟨r,ha,hr⟩ := ih s hs
      exact ⟨r,answers_of_step hd (.inr ⟨hi,.inr ⟨s,hs,ha⟩⟩),.up hi hs hr⟩

theorem WellFormed.lookup_class (hwf : WellFormed h t) (selector : Sym) (hc : t.IsClass c) :
    ∃ m r, t.metaOf c = some m ∧ t.Answers m selector r ∧ t.ClassSearch h selector c r := by
  refine hwf.acyclic.induction hwf.superClass (motive := fun c => ∃ m r, t.metaOf c = some m ∧
    t.Answers m selector r ∧ t.ClassSearch h selector c r) ?_ hc
  intro c hc ih
  obtain ⟨m,hm⟩ := Regular.metaOf_isSome hc
  have hd := (hwf.dictionaries c m hc hm).2
  have hpar := hwf.parallel c m hc hm
  have hcm : t.classMethod selector c = t.instMethod selector m := by simp [ClassTable.classMethod,hm]
  cases hi : t.instMethod selector m with
  | some method => exact ⟨m,some method,hm,answers_of_step hd (.inl ⟨hi,by simp⟩),.hit (hcm.trans hi)⟩
  | none =>
    cases hs : t.superOf c with
    | none =>
      obtain ⟨r,ha,hr⟩ := hwf.lookup_inst selector hwf.classClass
      rw [hs] at hpar
      exact ⟨m,r,hm,answers_of_step hd (.inr ⟨hi,.inr ⟨_,hpar,ha⟩⟩),.top (hcm.trans hi) hs hr⟩
    | some s =>
      obtain ⟨sm,r,hsm,ha,hr⟩ := ih s hs
      rw [hs,Option.elim_some,hsm] at hpar
      exact ⟨m,r,hm,answers_of_step hd (.inr ⟨hi,.inr ⟨sm,hpar,ha⟩⟩),.up (hcm.trans hi) hs hr⟩

end Lookup

end SmalltalkJit.Classes
