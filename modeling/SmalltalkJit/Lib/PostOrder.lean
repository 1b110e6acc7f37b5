import Mathlib.Logic.Relation
import Mathlib.Data.List.Nodup
import Mathlib.Data.List.Dedup

/-! # Depth-first post-order

The walk marks a node when it meets it, visits the unmarked nodes among those the
node needs and then appends the node to the order. In a finite graph it ends, and
the order has each reachable node once. A marked node that is not yet in the order
is an ancestor of the node at hand, so in an acyclic graph every node comes after
what it needs.
-/
namespace SmalltalkJit.PostOrder
open List Relation

variable {α : Type*} (next : α → List α)

abbrev Edge (a b : α) : Prop := b ∈ next a

abbrev Reaches : α → α → Prop := ReflTransGen (Edge next)

def Acyclic (root : α) : Prop := ∀ a, Reaches next root a → ¬ TransGen (Edge next) a a

def Ordered (order : List α) : Prop := ∀ pre a post, order = pre ++ a :: post → ∀ b ∈ next a, b ∈ pre

structure Marks (α : Type*) where
  seen : List α
  order : List α

section Visit
variable [DecidableEq α]

def visitAll (visit : α → Marks α → Option (Marks α)) : List α → Marks α → Option (Marks α)
  | [], s => some s
  | b :: rest, s =>
    if b ∈ s.seen then visitAll visit rest s
    else (visit b { s with seen := b :: s.seen }).bind (visitAll visit rest)

def visit : ℕ → α → Marks α → Option (Marks α)
  | 0, _, _ => none
  | fuel+1, a, s => (visitAll (visit fuel) (next a) s).map fun s => { s with order := s.order ++ [a] }

end Visit

section Order
variable {next}

theorem Ordered.nil : Ordered next ([] : List α) := by
  intro pre a q h
  simp at h

theorem Ordered.append (h : Ordered next order) (ha : ∀ b ∈ next a, b ∈ order) : Ordered next (order ++ [a]) := by
  intro pre x post heq b hb
  rcases append_eq_append_iff.mp heq with ⟨mid,hpre,hl⟩ | ⟨mid,ho,hr⟩
  · cases mid with
    | nil =>
      obtain ⟨rfl,rfl⟩ : a = x ∧ [] = post := by simpa using hl
      rw [hpre,append_nil]
      exact ha b hb
    | cons => simp at hl
  · cases mid with
    | nil =>
      obtain ⟨rfl,-⟩ : x = a ∧ post = [] := by simpa using hr
      rw [append_nil] at ho
      exact ho ▸ ha b hb
    | cons y mid =>
      obtain ⟨rfl,-⟩ : x = y ∧ post = mid ++ [a] := by simpa using hr
      exact h pre x mid ho b hb

theorem Ordered.mem_before (h : Ordered next order) (hp : TransGen (Edge next) a b) (heq : order = pre ++ a :: post) : b ∈ pre := by
  induction hp using TransGen.head_induction_on generalizing pre post with
  | single hab => exact h pre _ post heq b hab
  | head hab _ ih =>
    obtain ⟨pre',q',rfl⟩ := append_of_mem (h pre _ post heq _ hab)
    exact mem_append_left _ (ih (by simpa using heq))

theorem Ordered.acyclic (h : Ordered next order) (hn : order.Nodup)
    (hall : ∀ a, Reaches next root a → a ∈ order) : Acyclic next root := by
  intro a ha hc
  obtain ⟨pre,q,rfl⟩ := append_of_mem (hall a ha)
  have hmem := h.mem_before hc rfl
  exact (nodup_append.mp hn).2.2 a hmem a mem_cons_self rfl

end Order

section Walk
variable {next} {path : List α} {s s' : Marks α} {a : α}

/-- The marks of a walk that has entered the nodes `path` and not left them. -/
structure Sound (path : List α) (s : Marks α) : Prop where
  nodup : s.order.Nodup
  seen : ∀ b, b ∈ s.seen ↔ b ∈ s.order ∨ b ∈ path
  apart : ∀ b ∈ path, b ∉ s.order
  distinct : path.Nodup

/-- What a part of the walk leaves of its marks; it appends nodes that `reached` allows. -/
structure Extends (reached : α → Prop) (s s' : Marks α) : Prop where
  seen : ∀ b ∈ s.seen, b ∈ s'.seen
  order : ∃ added, s'.order = s.order ++ added ∧ ∀ b ∈ added, reached b

theorem Extends.refl : Extends reached s s := ⟨fun _ h => h,[],by simp⟩

theorem Extends.trans (h : Extends reached s s') (h' : Extends reached s' s'') : Extends reached s s'' := by
  obtain ⟨l,heq,ha⟩ := h.order
  obtain ⟨l',heq',ha'⟩ := h'.order
  refine ⟨fun b hb => h'.seen b (h.seen b hb),l ++ l',?_,?_⟩
  · rw [heq',heq,append_assoc]
  · intro b hb
    exact (mem_append.mp hb).elim (ha b) (ha' b)

theorem Extends.mono (h : Extends reached s s') (hle : ∀ b, reached b → reached' b) : Extends reached' s s' := by
  obtain ⟨l,heq,ha⟩ := h.order
  exact ⟨h.seen,l,heq,fun b hb => hle b (ha b hb)⟩

structure Visits (next : α → List α) (path : List α) (a : α) (s s' : Marks α) : Prop where
  sound : Sound path s'
  grows : Extends (Reaches next a) s s'
  mem : a ∈ s'.order
  closed : (∀ b ∈ s.order, ∀ c ∈ next b, c ∈ s.seen) → ∀ b ∈ s'.order, ∀ c ∈ next b, c ∈ s'.seen
  ordered : Ordered next s.order → Acyclic next a → (∀ p ∈ path, Reaches next p a) →
    Ordered next s'.order

/-- What a part of the loop over the nodes that `a` needs does. -/
structure VisitsAll (next : α → List α) (path nodes : List α) (a : α) (s s' : Marks α) : Prop where
  sound : Sound (a :: path) s'
  grows : Extends (fun b => ∃ c ∈ nodes, Reaches next c b) s s'
  seen : ∀ b ∈ nodes, b ∈ s'.seen
  closed : (∀ b ∈ s.order, ∀ c ∈ next b, c ∈ s.seen) → ∀ b ∈ s'.order, ∀ c ∈ next b, c ∈ s'.seen
  ordered : Ordered next s.order → Acyclic next a → (∀ p ∈ path, Reaches next p a) →
    (∀ b ∈ nodes, b ∈ next a) → Ordered next s'.order

theorem Acyclic.of_reaches (h : Acyclic next a) (hab : Reaches next a b) : Acyclic next b :=
  fun c hbc => h c (hab.trans hbc)

theorem Sound.enter (h : Sound path s) (ha : a ∉ s.seen) : Sound (a :: path) { s with seen := a :: s.seen } where
  nodup := h.nodup
  seen := by
    intro b
    rw [mem_cons,h.seen,mem_cons]
    tauto
  apart := by
    intro b hb hmem
    rcases mem_cons.mp hb with rfl | hb
    · exact ha ((h.seen b).mpr (.inl hmem))
    · exact h.apart b hb hmem
  distinct := nodup_cons.mpr ⟨fun hp => ha ((h.seen a).mpr (.inr hp)),h.distinct⟩

theorem Sound.mem_order_of_needed (hs : Sound (a :: path) s) (ha : Acyclic next a)
    (hp : ∀ p ∈ path, Reaches next p a) (hab : b ∈ next a) (hb : b ∈ s.seen) : b ∈ s.order := by
  rcases (hs.seen b).mp hb with h | h
  · exact h
  · have hba : Reaches next b a := by
      rcases mem_cons.mp h with rfl | h
      · exact .refl
      · exact hp b h
    exact absurd (TransGen.head' hab hba) (ha a .refl)

variable [DecidableEq α]

theorem visitAll_seen
    (hw : ∀ b s s', walk b s = some s' → ∀ c ∈ s.seen, c ∈ s'.seen) (h : visitAll walk nodes s = some s') : ∀ c ∈ s.seen, c ∈ s'.seen := by
  induction nodes generalizing s with
  | nil =>
    cases h
    exact fun _ hc => hc
  | cons _ _ ih =>
    simp only [visitAll] at h
    split at h
    · exact ih h
    · obtain ⟨t,ht,hr⟩ := Option.bind_eq_some_iff.mp h
      exact fun c hc => ih hr c (hw _ _ _ ht c (mem_cons_of_mem _ hc))

theorem visit_seen (h : visit next fuel a s = some s') : ∀ c ∈ s.seen, c ∈ s'.seen := by
  induction fuel generalizing a s s' with
  | zero => cases h
  | succ _ ih =>
    obtain ⟨t,ht,rfl⟩ := Option.map_eq_some_iff.mp h
    intro c hc
    exact visitAll_seen (fun _ _ _ hb => ih hb) ht c hc

/-- The nodes among `univ` that the walk has not met. -/
def unseen (univ : List α) (s : Marks α) : ℕ := univ.countP (· ∉ s.seen)

theorem unseen_mono (univ : List α) (h : ∀ b ∈ s.seen, b ∈ s'.seen) : unseen univ s' ≤ unseen univ s := by
  apply countP_mono_left
  intro b _ hb
  simp only [decide_eq_true_eq] at hb ⊢
  exact fun hs => hb (h b hs)

theorem unseen_enter (hmem : a ∈ univ) (ha : a ∉ s.seen) :
    unseen univ { s with seen := a :: s.seen } < unseen univ s := by
  obtain ⟨pre,q,rfl⟩ := append_of_mem hmem
  have hle (part : List α) : unseen part { s with seen := a :: s.seen } ≤ unseen part s :=
    unseen_mono part fun b hb => mem_cons_of_mem _ hb
  have hpre := hle pre
  have hp := hle q
  unfold unseen at hpre hp ⊢
  rw [countP_append,countP_append,countP_cons_of_neg (by simp),countP_cons_of_pos (by simpa using ha)]
  omega

theorem visitAll_spec
    (hw : ∀ {b : α} {s : Marks α}, b ∈ univ → Sound (b :: a :: path) s → unseen univ s < fuel →
      ∃ s', walk b s = some s' ∧ Visits next (a :: path) b s s')
    (hs : Sound (a :: path) s) (hno : ∀ b ∈ nodes, b ∈ univ) (hf : unseen univ s ≤ fuel) :
    ∃ s', visitAll walk nodes s = some s' ∧ VisitsAll next path nodes a s s' := by
  induction nodes generalizing s with
  | nil =>
    refine ⟨s,rfl,hs,.refl,by simp,id,?_⟩
    intro h _ _ _
    exact h
  | cons b r ih =>
    have hr : ∀ c ∈ r, c ∈ univ := fun c hc => hno c (mem_cons_of_mem _ hc)
    by_cases hb : b ∈ s.seen
    · obtain ⟨s',hrun,h⟩ := ih hs hr hf
      refine ⟨s',by simp [visitAll,hb,hrun],h.sound,?_,?_,h.closed,?_⟩
      · exact h.grows.mono fun c ⟨d,hd,hdc⟩ => ⟨d,mem_cons_of_mem _ hd,hdc⟩
      · intro c hc
        rcases mem_cons.mp hc with rfl | hc
        · exact h.grows.seen c hb
        · exact h.seen c hc
      · intro hord ha hpa hn
        exact h.ordered hord ha hpa fun c hc => hn c (mem_cons_of_mem _ hc)
    · have hro := unseen_enter (hno b mem_cons_self) hb
      obtain ⟨t,hv,hb'⟩ := hw (hno b mem_cons_self) (hs.enter hb) (by omega)
      have hse : ∀ c ∈ s.seen, c ∈ t.seen := fun c hc => hb'.grows.seen c (mem_cons_of_mem _ hc)
      have hle := unseen_mono univ hse
      obtain ⟨s',hrun,h⟩ := ih hb'.sound hr (by omega)
      have hg : Extends (fun c => ∃ d ∈ b :: r, Reaches next d c) s t := by
        obtain ⟨l,heq,hadd⟩ := hb'.grows.order
        exact ⟨hse,l,heq,fun c hc => ⟨b,mem_cons_self,hadd c hc⟩⟩
      refine ⟨s',by simp [visitAll,hb,hv,hrun],h.sound,?_,?_,?_,?_⟩
      · exact hg.trans (h.grows.mono fun c ⟨d,hd,hdc⟩ => ⟨d,mem_cons_of_mem _ hd,hdc⟩)
      · intro c hc
        rcases mem_cons.mp hc with rfl | hc
        · exact h.grows.seen c ((hb'.sound.seen c).mpr (.inl hb'.mem))
        · exact h.seen c hc
      · intro hcl
        exact h.closed (hb'.closed fun c hc d hd => mem_cons_of_mem _ (hcl c hc d hd))
      · intro hord ha hpa hn
        have hab : Reaches next a b := .single (hn b mem_cons_self)
        refine h.ordered (hb'.ordered hord (ha.of_reaches hab) ?_) ha hpa
          fun c hc => hn c (mem_cons_of_mem _ hc)
        intro p hp
        rcases mem_cons.mp hp with rfl | hp
        · exact hab
        · exact (hpa p hp).trans hab

theorem visit_spec (hcl : ∀ b ∈ univ, ∀ c ∈ next b, c ∈ univ) (ha : a ∈ univ) (hs : Sound (a :: path) s)
    (hf : unseen univ s < fuel) : ∃ s', visit next fuel a s = some s' ∧ Visits next path a s s' := by
  induction fuel generalizing a path s with
  | zero => omega
  | succ _ ih =>
    obtain ⟨t,hrun,h⟩ := visitAll_spec (fun hb hs hr => ih hb hs hr) hs (hcl a ha) (Nat.lt_succ_iff.mp hf)
    obtain ⟨hout,hd⟩ := nodup_cons.mp h.sound.distinct
    have hnew : a ∉ t.order := h.sound.apart a mem_cons_self
    have hse : a ∈ t.seen := (h.sound.seen a).mpr (.inr mem_cons_self)
    refine ⟨{ t with order := t.order ++ [a] },by simp [visit,hrun],⟨?_,?_,?_,hd⟩, ⟨h.grows.seen,?_⟩,by simp,?_,?_⟩
    · exact h.sound.nodup.append (by simp) (by simpa using hnew)
    · intro b
      simp only [h.sound.seen b,mem_cons,mem_append,not_mem_nil,or_false]
      tauto
    · intro p hp hmem
      rcases mem_append.mp hmem with hmem | hmem
      · exact h.sound.apart p (mem_cons_of_mem _ hp) hmem
      · exact hout (mem_singleton.mp hmem ▸ hp)
    · obtain ⟨l,heq,hadd⟩ := h.grows.order
      refine ⟨l ++ [a],by simp [heq],?_⟩
      intro b hb
      rcases mem_append.mp hb with hb | hb
      · obtain ⟨c,hc,hcb⟩ := hadd b hb
        exact .head hc hcb
      · rw [mem_singleton.mp hb]
    · intro hall b hb c hc
      rcases mem_append.mp hb with hb | hb
      · exact h.closed hall b hb c hc
      · rw [mem_singleton.mp hb] at hc
        exact h.seen c hc
    · intro hord hac hpa
      have hpre := h.ordered hord hac hpa fun b hb => hb
      refine hpre.append ?_
      intro b hb
      exact h.sound.mem_order_of_needed hac hpa hb (h.seen b hb)

theorem visit_root {univ : List α} (hc : ∀ b ∈ univ, ∀ c ∈ next b, c ∈ univ)
    (ha : a ∈ univ) (hf : univ.length < fuel) : ∃ s, visit next fuel a ⟨[a],[]⟩ = some s ∧ s.order.Nodup ∧
      (∀ b, b ∈ s.order ↔ Reaches next a b) ∧ (Acyclic next a → Ordered next s.order) := by
  have hs : Sound [a] (⟨[a],[]⟩ : Marks α) := ⟨by simp,by simp,by simp,by simp⟩
  obtain ⟨s,hrun,h⟩ := visit_spec hc ha hs (Nat.lt_of_le_of_lt countP_le_length hf)
  have hall := h.closed (by simp)
  refine ⟨s,hrun,h.sound.nodup,?_,fun hac => h.ordered .nil hac (by simp)⟩
  intro b
  constructor
  · intro hb
    obtain ⟨l,heq,hadd⟩ := h.grows.order
    exact hadd b (by simpa [heq] using hb)
  · intro hab
    induction hab with
    | refl => exact h.mem
    | tail _ hbc ih => exact ((h.sound.seen _).mp (hall _ ih _ hbc)).elim id (by simp)

end Walk

end SmalltalkJit.PostOrder
