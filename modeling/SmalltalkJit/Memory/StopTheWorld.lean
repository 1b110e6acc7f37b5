import SmalltalkJit.Memory.Safepoint

/-! # Which clients really stop the world

A client that found itself the only mutator works without the handshake. The
count of `heapCollectYoung` is taken under `gcLock`, where no thread can register;
`objectBecome` and `icInvalidateAllSends` count before they take the lock, and a
thread that registers in between runs on while they work.
-/
namespace SmalltalkJit.Safepoint
open Interleaving Option

variable {T : Type} [DecidableEq T]

/-- A count of one mutator that was taken without `gcLock` and has not been acted on. -/
def Pc.countedAlone : Pc → Bool
  | .counted _ multi => !multi
  | .blocked (.client c multi) => !c.countsUnderLock && !multi
  | _ => false

/-- No thread registers while the count of another is pending. -/
def CountStands (s : Heap T) (x : T × Action) : Prop :=
  x.2 = .heapAddMutator → ∀ u ∈ s.mutators, (s.pc u).countedAlone = false

instance (s : Heap T) (x : T × Action) : Decidable (CountStands s x) := by
  unfold CountStands
  infer_instance

@[simp] def Pc.sole : Pc → Bool
  | .counted _ multi => !multi
  | .blocked (.client c multi) | .leaving (.client c multi) | .locked (.client c multi) =>
    !c.countsUnderLock && !multi
  | .alone _ => true
  | _ => false

def CountsRight (s : Heap T) : Prop := ∀ t, (s.pc t).sole → s.mutators = [t]

theorem Pc.sole_cases {pc : Pc} (h : pc.sole) : pc.countedAlone ∨ pc.holdsGcLock := by
  cases pc with
  | blocked w => cases w <;> simp_all [Pc.countedAlone]
  | leaving w => cases w <;> simp_all
  | locked | alone => exact .inr rfl
  | counted => exact .inl (by simpa [Pc.countedAlone] using h)
  | _ => cases h

omit [DecidableEq T] in
theorem mutators_eq_of_not_isMulti {s : Heap T} (ht : t ∈ s.mutators) (h : s.isMulti = false) : s.mutators = [t] := by
  unfold Heap.isMulti at h
  split at h
  · cases h
  · rename_i hs
    match hm : s.mutators with
    | [] => simp [hm] at ht
    | [u] => simp_all
    | u :: v :: rest => exact absurd hm (hs u v rest)

theorem sole_of_step {t : T} (h : step s t a = some s') :
    (a = .heapAddMutator ∧ s.gcLock = none ∧ s'.pc t = .running) ∨
    (s.pc t = .locked .endMutator ∧ s'.pc t = .outside) ∨
    s'.mutators = s.mutators ∧ ((s'.pc t).sole → (s.pc t).sole ∨ s.pc t ≠ .outside ∧ s.isMulti = false) := by
  cases steps_of_step h with
  | heapAddMutator _ hf => exact .inl ⟨rfl,hf,by simp⟩
  | unlink hpc => exact .inr (.inl ⟨hpc,by simp⟩)
  | work => exact .inr (.inr ⟨rfl,.inl⟩)
  | count => exact .inr (.inr ⟨rfl,fun hs => .inr (by simp_all)⟩)
  | heapGcEnterBlocked =>
    rename_i w _
    refine .inr (.inr ⟨rfl,fun hs => .inl ?_⟩)
    cases hpc : s.pc t <;> cases w <;> simp_all [Pc.mayBlock]
  | take =>
    rename_i w _ _ _
    refine .inr (.inr ⟨rfl,fun hs => .inl ?_⟩)
    cases w <;> simp_all
  | heapGcLeaveBlocked =>
    rename_i w _ _
    refine .inr (.inr ⟨rfl,fun hs => .inl ?_⟩)
    cases w <;> simp_all [Wait.next]
  | alone =>
    rename_i c _ _ _ _
    refine .inr (.inr ⟨rfl,fun _ => ?_⟩)
    cases hc : c.countsUnderLock <;> simp_all [Heap.shakesHands]
  | _ => exact .inr (.inr ⟨rfl,fun hs => by simp at hs⟩)

theorem CountsRight.step {s s' : Heap T} {x : T × Action} (hc : Coherent s) (h : CountsRight s)
    (hok : CountStands s x) (hs : next s x = some s') : CountsRight s' := by
  obtain ⟨t,a⟩ := x
  have m := move_of_step hc hs
  intro u hu
  by_cases hut : u = t
  · subst hut
    rcases sole_of_step hs with ⟨_,_,hpc⟩ | ⟨_,hpc⟩ | ⟨hsa,hb⟩
    · simp [hpc] at hu
    · simp [hpc] at hu
    · rw [hsa]
      rcases hb hu with hso | ⟨hin,hone⟩
      · exact h u hso
      · exact mutators_eq_of_not_isMulti ((hc.registered u).mpr hin) hone
  · rw [m.pc_other hut] at hu
    have hl := h u hu
    rcases sole_of_step hs with ⟨ha,hf,_⟩ | ⟨hpc,_⟩ | ⟨hsa,_⟩
    · rcases Pc.sole_cases hu with hco | hh
      · have hno := hok ha u (by simp [hl])
        simp [hco] at hno
      · exact absurd ((hc.lock u).mpr hh) (by simp [hf])
    · have hin : t ∈ s.mutators := (hc.registered t).mpr (by simp [hpc])
      rw [hl,List.mem_singleton] at hin
      exact absurd hin.symm hut
    · rw [hsa,hl]

theorem countsRight_start (main : T) : CountsRight (start main) := by
  intro t ht
  by_cases h : t = main <;> simp [start,Heap.pc,h] at ht

theorem countsRight_of_perform {s : Heap T} (hok : Meets next CountStands (start main) as)
    (h : perform next (start main) as = some s) : Coherent s ∧ CountsRight s := by
  refine invariant_of_meets (P := fun s => Coherent s ∧ CountsRight s) ?_
    ⟨coherent_start main,countsRight_start main⟩ hok h
  rintro s x s' ⟨hc,hr⟩ hx hs
  exact ⟨hc.move (move_of_step hc hs),hr.step hc hx hs⟩

omit [DecidableEq T] in
theorem CountsRight.safe_of_working (h : CountsRight s) (hc : Coherent s)
    {c : Client} (hw : s.pc t = .paused c ∨ s.pc t = .alone c) : ∀ u ∈ s.mutators, u ≠ t → (s.pc u).isSafe := by
  intro u hu hne
  rcases hw with hpc | hpc
  · exact hc.pause t c hpc u hu hne
  · rw [h t (by simp [hpc]),List.mem_singleton] at hu
    exact absurd hu hne

/-- In every interleaving in which no thread registers while a count is pending: wherever a client
works, every other registered mutator is in the safepoint or the blocked state, and a client that
skipped the handshake holds `gcLock` as the only mutator. -/
theorem clients_stop_the_world {main : T} {as : List (T × Action)} {s : Heap T}
    (hok : Meets next CountStands (start main) as) (h : perform next (start main) as = some s)
    {t : T} {c : Client} (hw : s.pc t = .paused c ∨ s.pc t = .alone c) : (∀ u ∈ s.mutators, u ≠ t → (s.pc u).isSafe) ∧
    (s.pc t = .alone c → s.mutators = [t] ∧ s.gcLock = some t) := by
  obtain ⟨hc,hr⟩ := countsRight_of_perform hok h
  refine ⟨hr.safe_of_working hc hw,?_⟩
  intro hpc
  exact ⟨hr t (by simp [hpc]),(hc.lock t).mpr (by simp [hpc])⟩

abbrev mutating : Fin 2 := 0

abbrev peer : Fin 2 := 1

/-- A redefinition by thread 0 that counted one mutator, from the count to the mutation; `others`
happens between the count and the wait for `gcLock`. -/
def redefining (others : List (Fin 2 × Action)) : List (Fin 2 × Action) :=
  (mutating,.count .icInvalidateAllSends) :: others ++
    [(mutating,.heapGcEnterBlocked (.client .icInvalidateAllSends false)),(mutating,.acquire),
      (mutating,.heapGcLeaveBlocked),(mutating,.heapGcBegin true)]

theorem clients_stop_the_world_sole_mutator : ∃ s, Meets next CountStands (start 0) (redefining []) ∧
      perform next (start 0) (redefining []) = some s ∧ s.pc 0 = .alone .icInvalidateAllSends ∧ s.mutators = [0] := by
  have hok : Meets next CountStands (start 0) (redefining []) := by decide
  refine ⟨_,hok,rfl,rfl,?_⟩
  exact ((clients_stop_the_world hok rfl (.inr rfl)).2 rfl).1

/-- Thread 1 registers between the count and the lock, and runs while the mutation happens. -/
theorem icInvalidateAllSends_misses_registration : ∃ s, perform next (start 0) (redefining [(1,.heapAddMutator)]) =
      some s ∧ s.pc 0 = .alone .icInvalidateAllSends ∧ 1 ∈ s.mutators ∧ (s.pc 1).isSafe = false ∧
      (next s (1,.work)).isSome := by
  refine ⟨_,rfl,rfl,?_,rfl,rfl⟩
  decide

end SmalltalkJit.Safepoint
