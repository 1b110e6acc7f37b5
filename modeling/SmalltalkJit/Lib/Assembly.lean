import Mathlib.Data.List.Nodup

/-! # Assembly texts with labels

Instructions of different byte sizes are emitted between labels, and a later
pass patches every label reference once its offset is known. The emitted text
is a list of items; its labels take no bytes. Byte offsets into the assembled
stream are related to positions in the text, so that a proof about emitted code
walks along the text and never computes an offset.
-/
namespace SmalltalkJit.Assembly

inductive Item (L I : Type*)
  | label (l : L)
  | instr (i : I)
  deriving DecidableEq

variable {L I J : Type*}

def streamSize (size : I → ℕ) : List I → ℕ
  | [] => 0
  | i :: code => size i + streamSize size code

def fetch (size : I → ℕ) : List I → ℕ → Option I
  | [], _ => none
  | i :: code, offset =>
    if offset = 0 then some i
    else if offset < size i then none
    else fetch size code (offset - size i)

def instrs : List (Item L I) → List I
  | [] => []
  | .label _ :: text => instrs text
  | .instr i :: text => i :: instrs text

def labels : List (Item L I) → List L
  | [] => []
  | .label l :: text => l :: labels text
  | .instr _ :: text => labels text

def byteSize (size : I → ℕ) (text : List (Item L I)) : ℕ := streamSize size (instrs text)

def offsetOf [DecidableEq L] (size : I → ℕ) (l : L) : List (Item L I) → Option ℕ
  | [] => none
  | .label m :: text => if m = l then some 0 else offsetOf size l text
  | .instr i :: text => (offsetOf size l text).map (size i + ·)

def assembleFrom (size : I → ℕ) (patch : ℕ → I → J) : ℕ → List (Item L I) → List J
  | _, [] => []
  | offset, .label _ :: text => assembleFrom size patch offset text
  | offset, .instr i :: text => patch (offset + size i) i :: assembleFrom size patch (offset + size i) text

section Streams
@[simp] theorem streamSize_nil : streamSize size [] = 0 := rfl

@[simp] theorem streamSize_cons (i : I) (code : List I) :
    streamSize size (i :: code) = size i + streamSize size code := rfl

@[simp] theorem streamSize_append (code rest : List I) :
    streamSize size (code ++ rest) = streamSize size code + streamSize size rest := by
  induction code with
  | nil => simp
  | cons _ _ ih => simp [ih,Nat.add_assoc]

theorem fetch_append (hpos : ∀ i, 0 < size i) (pre : List I) (i : I) (post : List I) :
    fetch size (pre ++ i :: post) (streamSize size pre) = some i := by
  induction pre with
  | nil => simp [fetch]
  | cons j _ ih =>
    have hj := hpos j
    rw [List.cons_append,fetch,if_neg (by simp; omega),if_neg (by simp)]
    simpa using ih

theorem fetch_end (hpos : ∀ i, 0 < size i) (code : List I) : fetch size code (streamSize size code) = none := by
  induction code with
  | nil => rfl
  | cons j _ ih =>
    have hj := hpos j
    rw [fetch,if_neg (by simp; omega),if_neg (by simp)]
    simpa using ih

theorem fetch_eq_some (h : fetch size code offset = some i) :
    ∃ pre post, code = pre ++ i :: post ∧ streamSize size pre = offset := by
  induction code generalizing offset with
  | nil => simp [fetch] at h
  | cons j code ih =>
    by_cases h0 : offset = 0
    · rw [fetch,if_pos h0] at h
      cases h
      exact ⟨[],code,rfl,h0.symm⟩
    · by_cases hlt : offset < size j
      · rw [fetch,if_neg h0,if_pos hlt] at h
        cases h
      · rw [fetch,if_neg h0,if_neg hlt] at h
        obtain ⟨pre,post,rfl,hs⟩ := ih h
        exact ⟨j :: pre,post,rfl,by simp [hs]; omega⟩

end Streams

variable {text rest : List (Item L I)} {k : ℕ}

section Texts
variable {size : I → ℕ}

@[simp] theorem instrs_append (text rest : List (Item L I)) : instrs (text ++ rest) = instrs text ++ instrs rest := by
  induction text with
  | nil => rfl
  | cons x _ ih => cases x <;> simp [instrs,ih]

@[simp] theorem labels_append (text rest : List (Item L I)) : labels (text ++ rest) = labels text ++ labels rest := by
  induction text with
  | nil => rfl
  | cons x _ ih => cases x <;> simp [labels,ih]

@[simp] theorem byteSize_nil : byteSize size ([] : List (Item L I)) = 0 := rfl

@[simp] theorem byteSize_label (l : L) (text : List (Item L I)) :
    byteSize size (.label l :: text) = byteSize size text := rfl

@[simp] theorem byteSize_instr (i : I) (text : List (Item L I)) :
    byteSize size (.instr i :: text) = size i + byteSize size text := by
  simp [byteSize,instrs]

@[simp] theorem byteSize_append (text rest : List (Item L I)) :
    byteSize size (text ++ rest) = byteSize size text + byteSize size rest := by
  simp [byteSize]

theorem offsetOf_bound [DecidableEq L] (pre post : List (Item L I)) (h : l ∉ labels pre) :
    offsetOf size l (pre ++ .label l :: post) = some (byteSize size pre) := by
  induction pre with
  | nil => simp [offsetOf]
  | cons x pre ih =>
    cases x with
    | label =>
      simp only [labels,List.mem_cons,not_or] at h
      simp [offsetOf,Ne.symm h.1,ih h.2]
    | instr =>
      have hi : l ∉ labels pre := h
      simp [offsetOf,ih hi]

def At (size : I → ℕ) (text : List (Item L I)) (k : ℕ) (items : List (Item L I)) : Prop :=
  ∃ pre post, text = pre ++ (items ++ post) ∧ byteSize size pre = k

theorem At.left (h : At size text k (items ++ rest)) : At size text k items := by
  obtain ⟨pre,q,rfl,hk⟩ := h
  exact ⟨pre,rest ++ q,by simp,hk⟩

theorem At.right (h : At size text k (items ++ rest)) : At size text (k + byteSize size items) rest := by
  obtain ⟨pre,q,rfl,rfl⟩ := h
  exact ⟨pre ++ items,q,by simp,by simp⟩

theorem At.inner {text pre items post : List (Item L I)} {k : ℕ}
    (h : At size text k (pre ++ (items ++ post))) : At size text (k + byteSize size pre) items :=
  h.right.left

theorem At.after_instr (h : At size text k (.instr i :: rest)) : At size text (k + size i) rest := by
  have hi : At size text k ([.instr i] ++ rest) := h
  simpa using hi.right

theorem At.after_label (h : At size text k (.label l :: rest)) : At size text k rest := by
  have hl : At size text k ([.label l] ++ rest) := h
  simpa using hl.right

theorem At.offsetOf_eq [DecidableEq L] (h : At size text k (.label l :: rest)) (hnd : (labels text).Nodup) :
    offsetOf size l text = some k := by
  obtain ⟨pre,q,rfl,rfl⟩ := h
  have hl : l ∉ labels pre := by
    simp only [labels_append,List.cons_append,labels] at hnd
    intro hmem
    exact List.disjoint_of_nodup_append hnd hmem List.mem_cons_self
  exact offsetOf_bound pre (rest ++ q) hl

end Texts

section Assemble
theorem assembleFrom_append (text rest : List (Item L I)) (k : ℕ) : assembleFrom size patch k (text ++ rest) =
      assembleFrom size patch k text ++ assembleFrom size patch (k + byteSize size text) rest := by
  induction text generalizing k with
  | nil => simp [assembleFrom]
  | cons x _ ih =>
    cases x with
    | label => simpa [assembleFrom] using ih k
    | instr i => simpa [assembleFrom,Nat.add_assoc] using ih (k + size i)

theorem streamSize_assembleFrom (hp : ∀ n i, sizeJ (patch n i) = size i) (text : List (Item L I)) (k : ℕ) :
    streamSize sizeJ (assembleFrom size patch k text) = byteSize size text := by
  induction text generalizing k with
  | nil => rfl
  | cons x _ ih =>
    cases x with
    | label => simpa [assembleFrom] using ih k
    | instr i => simp [assembleFrom,hp,ih (k + size i)]

theorem assembleFrom_getElem? (text : List (Item L I)) (k n : ℕ) : (assembleFrom size patch k text)[n]? =
      (instrs text)[n]?.map (patch (k + streamSize size ((instrs text).take (n+1)))) := by
  induction text generalizing k n with
  | nil => simp [assembleFrom,instrs]
  | cons x _ ih =>
    cases x with
    | label => simpa [assembleFrom,instrs] using ih k n
    | instr i =>
      cases n with
      | zero => simp [assembleFrom,instrs]
      | succ n => simpa [assembleFrom,instrs,Nat.add_assoc] using ih (k + size i) n

theorem At.fetch_eq (hp : ∀ n i, sizeJ (patch n i) = size i) (hpos : ∀ i, 0 < sizeJ i)
    (h : At size text k (.instr i :: rest)) :
    fetch sizeJ (assembleFrom size patch 0 text) k = some (patch (k + size i) i) := by
  obtain ⟨pre,q,rfl,rfl⟩ := h
  have hs := streamSize_assembleFrom hp pre 0
  rw [assembleFrom_append,List.cons_append,assembleFrom,Nat.zero_add,← hs]
  exact fetch_append hpos _ _ _

end Assemble

end SmalltalkJit.Assembly
