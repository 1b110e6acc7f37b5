import SmalltalkJit.Bytecode.Semantics

/-! # The assembler buffer and the literal pool

The compiler and the inliner emit instructions between labels and intern the
objects that they refer to. Here are the pool of `runtime/Collection.c`, the
patching of label references, and single steps of an assembled stream in terms
of positions in its text.
-/
namespace SmalltalkJit
open Assembly Machine Instr

section Literals
variable (image : Image)

def compareValues (object value : Oop) : Bool :=
  object = value || (image.classOf object = image.stringClass &&
    image.classOf value = image.stringClass && image.bytes object = image.bytes value)

def ordCollAddObjectIfNotExists (literals : List Oop) (object : Oop) : ℕ × List Oop :=
  match literals.findIdx? (compareValues image object) with
  | some index => (index,literals)
  | none => (literals.length,literals ++ [object])

def Interned (final : List Oop) (object : Oop) (index : ℕ) : Prop :=
  ∃ value, final[index]? = some value ∧ compareValues image object value = true

variable {image}

theorem compareValues_refl (object : Oop) : compareValues image object object = true := by simp [compareValues]

theorem ordCollAdd_grows : literals <+: (ordCollAddObjectIfNotExists image literals object).2 := by
  unfold ordCollAddObjectIfNotExists
  cases literals.findIdx? (compareValues image object) with
  | some => exact List.prefix_refl _
  | none => exact List.prefix_append _ _

theorem ordCollAdd_interned (h : (ordCollAddObjectIfNotExists image literals object).2 <+: final) :
    Interned image final object (ordCollAddObjectIfNotExists image literals object).1 := by
  obtain ⟨r,rfl⟩ := h
  unfold ordCollAddObjectIfNotExists
  cases hf : literals.findIdx? (compareValues image object) with
  | some i =>
    obtain ⟨hlt,hcmp,-⟩ := List.findIdx?_eq_some_iff_getElem.mp hf
    exact ⟨literals[i],by simp [List.getElem?_append,hlt],hcmp⟩
  | none => exact ⟨object,by simp,compareValues_refl object⟩

theorem mem_ordCollAdd
    (h : x ∈ (ordCollAddObjectIfNotExists image literals object).2) : x ∈ literals ∨ x = object := by
  unfold ordCollAddObjectIfNotExists at h
  cases hf : literals.findIdx? (compareValues image object) with
  | some => simp only [hf] at h; exact Or.inl h
  | none => simpa [hf] using h

end Literals

section Patch
variable {L : Type} [DecidableEq L]

variable (text : List (Item L (Instr L)))

/-- Every label reference becomes a displacement from the end of its instruction. -/
def patch (next : ℕ) (i : Instr L) : Instr ℤ := i.mapTarget fun l => ((offsetOf size l text).getD 0 : ℤ) - next

def assemble : Bytecodes := assembleFrom size (patch text) 0 text

theorem size_patch (next : ℕ) (i : Instr L) : (patch text next i).size = i.size := i.size_mapTarget _

theorem jumpTarget_offsetOf {text : List (Item L (Instr L))} (hl : offsetOf size l text = some m) (next : ℕ) :
    (jumpTarget next (((offsetOf size l text).getD 0 : ℤ) - next)).toNat = m := by
  simp only [hl,jumpTarget,Option.getD_some]
  omega

variable {V W : Type}

theorem step_of_at {text : List (Item L (Instr L))} (hc : code.bytecodes = assemble text)
    (h : At size text k (.instr i :: rest)) : step image rt code ⟨world,k,vars⟩ =
      execInstr image rt code ⟨world,k,vars⟩ (k + i.size) (patch text (k + i.size) i) := by
  have hf : fetch size code.bytecodes k = some (patch text (k + i.size) i) := by
    rw [hc]
    exact h.fetch_eq (size_patch _) size_pos
  simp only [step,hf,size_patch]

end Patch

end SmalltalkJit
