import Mathlib.Data.List.Infix

/-! # Deterministic machines and their observable behaviour

A machine is a step function that either moves on, emitting a list of events,
or halts with a result. Two machines behave alike when they halt with the same
event sequence and result and emit the same finite event prefixes, so that runs
which never halt are compared as well. A lock-step simulation in which every
step of the first machine is matched by at least one step of the second gives
this equivalence in both directions.
-/
namespace SmalltalkJit.Machine
open List

inductive Outcome (S E R : Type*)
  | next (state : S) (events : List E)
  | halt (result : R)
  deriving DecidableEq

variable {S T E R : Type*}

/-- `Steps step n s es t`: from `s` the machine reaches `t` in `n` steps and emits `es`. -/
inductive Steps (step : S → Outcome S E R) : ℕ → S → List E → S → Prop
  | refl (s : S) : Steps step 0 s [] s
  | cons {n : ℕ} {s t u : S} {es fs : List E} :
      step s = .next t es → Steps step n t fs u → Steps step (n+1) s (es ++ fs) u

def Reaches (step : S → Outcome S E R) (s t : S) : Prop := ∃ n es, Steps step n s es t

def Halts (step : S → Outcome S E R) (s : S) (es : List E) (r : R) : Prop :=
  ∃ n t, Steps step n s es t ∧ step t = .halt r

def Emits (step : S → Outcome S E R) (s : S) (es : List E) : Prop := ∃ n t fs, Steps step n s fs t ∧ es <+: fs

/-- Equal results, equal event sequences and equal event prefixes. -/
def SameBehaviour (step1 : S → Outcome S E R) (s : S) (step2 : T → Outcome T E R) (t : T) : Prop :=
  (∀ es r, Halts step1 s es r ↔ Halts step2 t es r) ∧ ∀ es, Emits step1 s es ↔ Emits step2 t es

/-- The machine run for at most `fuel` steps, when it halts within them. -/
def run (step : S → Outcome S E R) : ℕ → S → Option (List E × R)
  | 0, _ => none
  | fuel+1, s =>
    match step s with
    | .halt r => some ([],r)
    | .next t es => (run step fuel t).map fun out => (es ++ out.1,out.2)

/-- Every state of a run that halts within `fuel` steps meets `P`. -/
def allStates (step : S → Outcome S E R) (P : S → Prop) [DecidablePred P] : ℕ → S → Bool
  | 0, _ => false
  | fuel+1, s => P s &&
    match step s with
    | .halt _ => true
    | .next t _ => allStates step P fuel t

section Runs
theorem Steps.one (h : step s = .next t es) : Steps step 1 s es t := by simpa using Steps.cons h (Steps.refl t)

theorem Steps.trans (h1 : Steps step n s es t) (h2 : Steps step m t fs u) : Steps step (n + m) s (es ++ fs) u := by
  induction h1 with
  | refl => simpa using h2
  | @cons n s t v es gs hs _ ih =>
    have hc := Steps.cons hs (ih h2)
    rw [append_assoc,show n+1 + m = n + m+1 by omega]
    exact hc

theorem Reaches.refl (s : S) : Reaches step s s := ⟨0,[],.refl s⟩

theorem Reaches.head (h : step s = .next t es) (ht : Reaches step t u) : Reaches step s u := by
  obtain ⟨n,fs,hn⟩ := ht
  exact ⟨n+1,es ++ fs,.cons h hn⟩

/-- A run is determined by its start: two runs from one state are comparable. -/
theorem Steps.split (h1 : Steps step n s es t) (h2 : Steps step m s fs u) (hle : n ≤ m) :
    ∃ gs, fs = es ++ gs ∧ Steps step (m - n) t gs u := by
  induction h1 generalizing m fs with
  | refl => exact ⟨fs,rfl,by simpa using h2⟩
  | @cons n s t v es gs hs _ ih =>
    cases h2 with
    | refl => omega
    | @cons m _ w _ es' fs' hs' hr =>
      rw [hs] at hs'
      cases hs'
      obtain ⟨gs',rfl,hgs⟩ := ih hr (by omega)
      exact ⟨gs',by simp,by simpa using hgs⟩

theorem Steps.halt_le (h1 : Steps step n s es t) (h2 : Steps step m s fs u) (hr : step u = .halt r) : n ≤ m := by
  by_contra hlt
  obtain ⟨gs,-,hgs⟩ := h2.split h1 (by omega)
  obtain ⟨k,hk⟩ : ∃ k, n - m = k+1 := ⟨n - m-1,by omega⟩
  rw [hk] at hgs
  cases hgs with
  | cons he => rw [hr] at he; cases he

theorem Halts.unique (h1 : Halts step s es r) (h2 : Halts step s fs q) : es = fs ∧ r = q := by
  obtain ⟨n,t,hn,ht⟩ := h1
  obtain ⟨m,u,hm,hu⟩ := h2
  have hle := hn.halt_le hm hu
  have hge := hm.halt_le hn ht
  obtain ⟨gs,rfl,hgs⟩ := hn.split hm hle
  rw [show m - n = 0 by omega] at hgs
  cases hgs
  rw [ht] at hu
  cases hu
  exact ⟨by simp,rfl⟩

theorem Reaches.of_allStates [DecidablePred P] (fuel : ℕ) (h : allStates step P fuel s = true)
    (ht : Reaches step s t) : P t := by
  obtain ⟨n,es,hn⟩ := ht
  induction hn generalizing fuel with
  | refl =>
    cases fuel with
    | zero => cases h
    | succ =>
      simp only [allStates,Bool.and_eq_true,decide_eq_true_eq] at h
      exact h.1
  | cons he _ ih =>
    cases fuel with
    | zero => cases h
    | succ fuel =>
      simp only [allStates,he,Bool.and_eq_true] at h
      exact ih fuel h.2

theorem halts_of_run (fuel : ℕ) (h : run step fuel s = some (es,r)) : Halts step s es r := by
  induction fuel generalizing s es with
  | zero => simp [run] at h
  | succ _ ih =>
    cases hs : step s with
    | halt =>
      simp only [run,hs,Option.some.injEq,Prod.mk.injEq] at h
      obtain ⟨rfl,rfl⟩ := h
      exact ⟨0,s,.refl s,hs⟩
    | next =>
      simp only [run,hs,Option.map_eq_some_iff,Prod.mk.injEq,Prod.exists] at h
      obtain ⟨gs,q,hrun,rfl,rfl⟩ := h
      obtain ⟨n,u,hn,hu⟩ := ih hrun
      exact ⟨n+1,u,.cons hs hn,hu⟩

end Runs

/-- Every step of the first machine, from a related state that meets `Ok`, is matched by at
least one step of the second with the same events; a halt by a silent run to the same halt. -/
structure Simulation (step1 : S → Outcome S E R) (step2 : T → Outcome T E R)
    (Rel : S → T → Prop) (Ok : S → Prop) : Prop where
  next : ∀ {s s' : S} {t : T} {es : List E}, Rel s t → Ok s → step1 s = .next s' es →
    ∃ n t', Steps step2 (n+1) t es t' ∧ Rel s' t'
  halt : ∀ {s : S} {t : T} {r : R}, Rel s t → Ok s → step1 s = .halt r →
    ∃ n t', Steps step2 n t [] t' ∧ step2 t' = .halt r

section Simulation
variable {step1 : S → Outcome S E R} {step2 : T → Outcome T E R} {Rel : S → T → Prop} {Ok : S → Prop} {s : S} {t : T}
  (sim : Simulation step1 step2 Rel Ok) (hr : Rel s t) (hok : ∀ u, Reaches step1 s u → Ok u)
include sim hr hok

theorem Simulation.steps (h : Steps step1 n s es s') : ∃ m t', Steps step2 m t es t' ∧ Rel s' t' := by
  induction h generalizing t with
  | refl => exact ⟨0,t,.refl t,hr⟩
  | cons he _ ih =>
    obtain ⟨k,t',hk,hr'⟩ := sim.next hr (hok _ (.refl _)) he
    obtain ⟨m,t'',hm,hr''⟩ := ih hr' fun u hu => hok u (.head he hu)
    exact ⟨_,t'',hk.trans hm,hr''⟩

theorem Simulation.halts (h : Halts step1 s es r) : Halts step2 t es r := by
  obtain ⟨n,s',hn,hs'⟩ := h
  obtain ⟨m,t',hm,hr'⟩ := sim.steps hr hok hn
  obtain ⟨k,u,hk,hu⟩ := sim.halt hr' (hok _ ⟨n,es,hn⟩) hs'
  exact ⟨m + k,u,by simpa using hm.trans hk,hu⟩

/-- Induction on the length of the second machine's run: it passes through the match of
each step of the first machine, which is not empty. -/
theorem Simulation.halts_of_halts (h : Halts step2 t es r) : Halts step1 s es r := by
  obtain ⟨n,u,hn,hu⟩ := h
  induction n using Nat.strong_induction_on generalizing s t es with
  | _ n ih =>
    cases hs : step1 s with
    | halt =>
      obtain ⟨k,v,hk,hv⟩ := sim.halt hr (hok s (.refl s)) hs
      obtain ⟨rfl,rfl⟩ := Halts.unique ⟨k,v,hk,hv⟩ ⟨n,u,hn,hu⟩
      exact ⟨0,s,.refl s,hs⟩
    | next =>
      obtain ⟨k,t',hk,hr'⟩ := sim.next hr (hok s (.refl s)) hs
      have hle := hk.halt_le hn hu
      obtain ⟨gs,rfl,hgs⟩ := hk.split hn hle
      obtain ⟨m,v,hm,hv⟩ := ih (n - (k+1)) (by omega) hr' (fun w hw => hok w (.head hs hw)) hgs
      exact ⟨m+1,v,.cons hs hm,hv⟩

theorem Simulation.emits_of_emits (h : Emits step2 t es) : Emits step1 s es := by
  obtain ⟨n,u,fs,hn,hfs⟩ := h
  induction n using Nat.strong_induction_on generalizing s t es fs with
  | _ n ih =>
    cases hs : step1 s with
    | halt =>
      obtain ⟨k,v,hk,hv⟩ := sim.halt hr (hok s (.refl s)) hs
      obtain ⟨gs,hgs,-⟩ := hn.split hk (hn.halt_le hk hv)
      obtain ⟨rfl,-⟩ := append_eq_nil_iff.mp hgs.symm
      exact ⟨0,s,[],.refl s,hfs⟩
    | next s' gs =>
      obtain ⟨k,t',hk,hr'⟩ := sim.next hr (hok s (.refl s)) hs
      rcases Nat.lt_or_ge n (k+1) with hlt | hge
      · obtain ⟨r,rfl,-⟩ := hn.split hk (by omega)
        exact ⟨1,s',_,Steps.one hs,hfs.trans (prefix_append fs r)⟩
      · obtain ⟨r,rfl,hres⟩ := hk.split hn hge
        rcases prefix_or_prefix_of_prefix hfs (prefix_append gs r) with hsh | ⟨es',rfl⟩
        · exact ⟨1,s',gs,Steps.one hs,hsh⟩
        · obtain ⟨m,v,hs',hm,hpre⟩ := ih (n - (k+1)) (by omega) hr'
            (fun w hw => hok w (.head hs hw)) r hres ((prefix_append_right_inj gs).mp hfs)
          exact ⟨m+1,v,gs ++ hs',.cons hs hm,(prefix_append_right_inj gs).mpr hpre⟩

theorem Simulation.sameBehaviour : SameBehaviour step1 s step2 t := by
  refine ⟨fun es r => ⟨sim.halts hr hok,sim.halts_of_halts hr hok⟩,fun es => ⟨?_,sim.emits_of_emits hr hok⟩⟩
  rintro ⟨n,u,fs,hn,hfs⟩
  obtain ⟨m,v,hm,-⟩ := sim.steps hr hok hn
  exact ⟨m,v,fs,hm,hfs⟩

end Simulation

end SmalltalkJit.Machine
