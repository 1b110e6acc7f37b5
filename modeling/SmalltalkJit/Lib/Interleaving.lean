import Mathlib.Data.Nat.Notation

/-! # Interleavings of atomic steps

Threads take atomic steps on a shared state; an interleaving is the list of the
actions in the order in which they happen. Claims about every interleaving are
proved from what one action preserves. A condition on actions restricts the
interleavings to those in which each action meets it in the state it happens in.
-/
namespace SmalltalkJit.Interleaving

variable {S A : Type*}

/-- The state after a list of actions, when each of them can happen in its turn. -/
def perform (step : S → A → Option S) : S → List A → Option S
  | s, [] => some s
  | s, a :: rest =>
    match step s a with
    | some s' => perform step s' rest
    | none => none

/-- Every action of an interleaving meets `ok` in the state in which it happens. -/
def Meets (step : S → A → Option S) (ok : S → A → Prop) : S → List A → Prop
  | _, [] => True
  | s, a :: rest => ok s a ∧
    match step s a with
    | some s' => Meets step ok s' rest
    | none => True

def Along (step : S → A → Option S) (P : S → Prop) : S → List A → Prop
  | s, [] => P s
  | s, a :: rest => P s ∧
    match step s a with
    | some s' => Along step P s' rest
    | none => True

instance decidableMeets (step : S → A → Option S) (ok : S → A → Prop)
    [∀ s a, Decidable (ok s a)] : ∀ s as, Decidable (Meets step ok s as)
  | _, [] => .isTrue trivial
  | s, a :: rest =>
    match h : step s a with
    | some s' =>
      have := decidableMeets step ok s' rest
      decidable_of_iff (ok s a ∧ Meets step ok s' rest) (by simp [Meets,h])
    | none => decidable_of_iff (ok s a) (by simp [Meets,h])

variable {as : List A} {s s' : S} {I : S → Prop}

section Rules
variable {step : S → A → Option S} {ok : S → A → Prop} {P : S → Prop}

theorem perform_total (f : S → A → S) (s : S) (as : List A) :
    perform (fun s a => some (f s a)) s as = some (as.foldl f s) := by
  induction as generalizing s with
  | nil => rfl
  | cons a _ ih => exact ih (f s a)

theorem perform_cons (h : perform step s (a :: rest) = some s') :
    ∃ t, step s a = some t ∧ perform step t rest = some s' := by
  cases hs : step s a with
  | none => simp [perform,hs] at h
  | some t => exact ⟨t,rfl,by simpa [perform,hs] using h⟩

theorem perform_append (h : perform step s as = some t) (h' : perform step t bs = some s') :
    perform step s (as ++ bs) = some s' := by
  induction as generalizing s with
  | nil =>
    cases h
    exact h'
  | cons _ _ ih =>
    obtain ⟨u,hu,hr⟩ := perform_cons h
    simpa [perform,hu] using ih hr

theorem invariant_of_meets (hst : ∀ s a s', P s → ok s a → step s a = some s' → P s') (hs : P s)
    (hok : Meets step ok s as) (h : perform step s as = some s') : P s' := by
  induction as generalizing s with
  | nil =>
    cases h
    exact hs
  | cons a rest ih =>
    obtain ⟨t,ht,hr⟩ := perform_cons h
    have hm : ok s a ∧ Meets step ok t rest := by simpa [Meets,ht] using hok
    exact ih (hst s a t hs hm.1 ht) hm.2 hr

theorem meets_of_forall (h : ∀ a ∈ as, ∀ s, ok s a) : Meets step ok s as := by
  induction as generalizing s with
  | nil => trivial
  | cons a _ ih =>
    refine ⟨h a List.mem_cons_self s,?_⟩
    split
    · exact ih fun b hb => h b (List.mem_cons_of_mem a hb)
    · trivial

theorem invariant (hst : ∀ s a s', P s → step s a = some s' → P s') (hs : P s) (h : perform step s as = some s') :
    P s' :=
  invariant_of_meets (fun s a s' hs (_ : True) => hst s a s' hs) hs (meets_of_forall fun _ _ _ => trivial) h

theorem exists_perform_of_meets (hst : ∀ s a, P s → ok s a → ∃ s', step s a = some s' ∧ P s') (hs : P s)
    (hok : Meets step ok s as) : ∃ s', perform step s as = some s' ∧ P s' := by
  induction as generalizing s with
  | nil => exact ⟨s,rfl,hs⟩
  | cons a _ ih =>
    obtain ⟨t,ht,hPt⟩ := hst s a hs hok.1
    simp only [Meets,ht] at hok
    obtain ⟨s',hr,hPs'⟩ := ih hPt hok.2
    exact ⟨s',by simp only [perform,ht,hr],hPs'⟩

theorem along_of_invariant (hst : ∀ s a s', I s → step s a = some s' → I s') (hP : ∀ s, I s → P s) (hs : I s)
    (as : List A) : Along step P s as := by
  induction as generalizing s with
  | nil => exact hP s hs
  | cons a _ ih =>
    refine ⟨hP s hs,?_⟩
    split
    · next s' hs' => exact ih (hst s a s' hs hs')
    · trivial

/-- A property that an action keeps exactly when it meets the condition, and that is lost for good,
holds at the end of exactly the interleavings whose actions all meet the condition. -/
theorem meets_iff (hI : ∀ s a s', I s → step s a = some s' → I s')
    (hk : ∀ s a s', I s → P s → step s a = some s' → (P s' ↔ ok s a))
    (hl : ∀ s a s', I s → ¬ P s → step s a = some s' → ¬ P s') (hs : I s) (hP : P s)
    (h : perform step s as = some s') : P s' ↔ Meets step ok s as := by
  have hg : ∀ {s as}, I s → ¬ P s → perform step s as = some s' → ¬ P s' := by
    intro s as hs hP h
    have hst : ∀ s a s', I s ∧ ¬ P s → step s a = some s' → I s' ∧ ¬ P s' :=
      fun s a s' h hs => ⟨hI s a s' h.1 hs,hl s a s' h.1 h.2 hs⟩
    exact (invariant hst ⟨hs,hP⟩ h).2
  induction as generalizing s with
  | nil =>
    cases h
    exact iff_of_true hP trivial
  | cons a rest ih =>
    obtain ⟨t,ht,hr⟩ := perform_cons h
    have hm : Meets step ok s (a :: rest) ↔ ok s a ∧ Meets step ok t rest := by simp [Meets,ht]
    rw [hm,← hk s a t hs hP ht]
    by_cases hPt : P t
    · exact (ih (hI s a t hs ht) hPt hr).trans (and_iff_right hPt).symm
    · exact iff_of_false (hg (hI s a t hs ht) hPt hr) fun h => hPt h.1

/-- A property that an action keeps exactly when it meets the condition holds all along exactly the
interleavings whose actions all meet it. What else is known needs only to hold up to the first action
that does not. -/
theorem along_iff_meets (hst : ∀ s a s', I s → P s → step s a = some s' → (P s' ↔ ok s a) ∧ (ok s a → I s'))
    (hs : I s) (hP : P s) (h : perform step s as = some s') : Along step P s as ↔ Meets step ok s as := by
  induction as generalizing s with
  | nil => exact iff_of_true hP trivial
  | cons a r ih =>
    obtain ⟨t,ht,hr⟩ := perform_cons h
    obtain ⟨hk,hI⟩ := hst s a t hs hP ht
    simp only [Along,Meets,ht]
    rw [← hk,and_iff_right hP]
    by_cases hPt : P t
    · rw [ih (hI (hk.mp hPt)) hPt hr,and_iff_right hPt]
    · refine iff_of_false (fun ha => hPt ?_) fun h => hPt h.1
      cases r with
      | nil => exact ha
      | cons => exact ha.1

end Rules

end SmalltalkJit.Interleaving
