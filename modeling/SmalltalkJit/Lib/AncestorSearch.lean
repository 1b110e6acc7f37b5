import Mathlib.Logic.Function.Basic
import Mathlib.Data.Nat.Notation

/-! # Searching along a chain of ancestors

Nodes with at most one parent are searched upwards for the first one that has
something to offer; `top` says what follows above the last node. A search ends
when the parents lie lower in some rank. Moving a node that is nobody's parent
keeps such a rank.
-/
namespace SmalltalkJit.AncestorSearch

variable {α β : Type*}

inductive Search (parent : α → Option α) (found : α → Option β) (top : Option β → Prop) :
    α → Option β → Prop
  | hit {a : α} {b : β} (h : found a = some b) : Search parent found top a (some b)
  | up {a p : α} {r : Option β} (h : found a = none) (hp : parent a = some p)
      (hr : Search parent found top p r) : Search parent found top a r
  | top {a : α} {r : Option β} (h : found a = none) (hp : parent a = none) (hr : top r) :
      Search parent found top a r

/-- Among the nodes `P` every parent lies lower. -/
def Acyclic (P : α → Prop) (parent : α → Option α) : Prop :=
  ∃ rank : α → ℕ, ∀ a p, P a → parent a = some p → rank p < rank a

variable {P : α → Prop} {parent parent' : α → Option α} {found found' : α → Option β}
variable {top top' : Option β → Prop}

theorem Acyclic.induction (h : Acyclic P parent) (hc : ∀ a p, P a → parent a = some p → P p) {motive : α → Prop}
    (hs : ∀ a, P a → (∀ p, parent a = some p → motive p) → motive a) (ha : P a) : motive a := by
  obtain ⟨f,hr⟩ := h
  induction hn : f a using Nat.strongRecOn generalizing a with
  | ind _ ih =>
    apply hs a ha
    intro p hp
    exact ih (f p) (hn ▸ hr a p ha hp) (hc a p ha hp) rfl

theorem Acyclic.parent_ne (h : Acyclic P parent) (ha : P a) : parent a ≠ some a := by
  obtain ⟨f,hr⟩ := h
  intro hp
  exact Nat.lt_irrefl _ (hr a a ha hp)

theorem Acyclic.update [DecidableEq α] (h : Acyclic P parent) (hs : ∀ a, P' a → a ≠ d → P a ∧ parent' a = parent a)
    (hl : ∀ a, P a → parent a ≠ some d) (hsel : parent' d ≠ some d) : Acyclic P' parent' := by
  obtain ⟨f,hr⟩ := h
  refine ⟨Function.update f d ((parent' d).elim 0 fun p => f p+1),?_⟩
  intro a p ha hp
  by_cases had : a = d
  · subst had
    have hpa : p ≠ a := by
      rintro rfl
      exact hsel hp
    simp [hp,hpa]
  · obtain ⟨ha',heq⟩ := hs a ha had
    rw [heq] at hp
    have hpd : p ≠ d := by
      rintro rfl
      exact hl a ha' hp
    simpa [had,hpd] using hr a p ha' hp

theorem Search.congr (hc : ∀ a p, P a → parent a = some p → P p) (hpar : ∀ a, P a → parent' a = parent a)
    (hf : ∀ a, P a → found' a = found a) (htop : ∀ r, top r → top' r) (ha : P a)
    (h : Search parent found top a r) : Search parent' found' top' a r := by
  induction h with
  | hit h => exact .hit ((hf _ ha).trans h)
  | up h hp _ ih => exact .up ((hf _ ha).trans h) ((hpar _ ha).trans hp) (ih (hc _ _ ha hp))
  | top h hp hr => exact .top ((hf _ ha).trans h) ((hpar _ ha).trans hp) (htop _ hr)

end SmalltalkJit.AncestorSearch
