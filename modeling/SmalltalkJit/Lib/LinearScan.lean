import Mathlib.Data.List.Nodup
import Mathlib.Logic.Function.Basic

/-! # Linear-scan register allocation

Live ranges are visited by increasing start. A range gets a free register, after
all ranges that ended before its start gave theirs back; when none is free, the
first of the active ranges loses its register for good and hands it on. Two
ranges that end up with one register do not overlap, whichever range is chosen
to be spilled.
-/
namespace SmalltalkJit.LinearScan
open Function List LinearScan

structure Range (X : Type*) where
  var : X
  start : ℕ
  stop : ℕ
  deriving DecidableEq, Repr

variable {X R : Type*}

/-- The registers handed out so far, the active ranges and the free registers. -/
structure Pool (X R : Type*) where
  reg : X → Option R
  active : List (Range X)
  free : List R

/-- Ranges that end before `offset` give their registers back. -/
def removeDead (pool : Pool X R) (offset : ℕ) : Pool X R :=
  let dead := pool.active.filter fun i => i.stop < offset
  { pool with
    active := pool.active.filter fun i => !(i.stop < offset)
    free := (dead.filterMap fun i => pool.reg i.var).reverse ++ pool.free }

/-- The active list keeps a range that ends late in front. -/
def insert (active : List (Range X)) (i : Range X) : List (Range X) :=
  match active with
  | [] => [i]
  | first :: _ => if first.stop ≤ i.stop then i :: active else active ++ [i]

/-- Without a free register the first active range is spilled and its register handed on. -/
def visit [DecidableEq X] (pool : Pool X R) (i : Range X) : Pool X R :=
  let pool := removeDead pool i.start
  let active := insert pool.active i
  match pool.free with
  | r :: free => { reg := update pool.reg i.var (some r), active := active, free := free }
  | [] =>
    match active with
    | spilled :: rest =>
      { reg := update (update pool.reg i.var (pool.reg spilled.var)) spilled.var none
        active := rest
        free := [] }
    | [] => pool

def scan [DecidableEq X] (pool : Pool X R) (ranges : List (Range X)) : Pool X R := ranges.foldl visit pool

section Correct

def Disjoint (i j : Range X) : Prop := i.stop < j.start ∨ j.stop < i.start

/-- What holds after the ranges `done` were visited and the dead ones at `time` removed. Variables
without a range keep the registers they are pinned to. -/
structure Inv (pinned : X → Option R) (regs : List R) (done : List (Range X)) (time : ℕ) (pool : Pool X R) : Prop where
  active : ∀ i ∈ pool.active, i ∈ done ∧ (pool.reg i.var).isSome
  activeNodup : pool.active.Nodup
  held : ∀ i ∈ pool.active, ∀ j ∈ pool.active, ∀ r, pool.reg i.var = some r →
    pool.reg j.var = some r → i = j
  freeNodup : pool.free.Nodup
  unused : ∀ r ∈ pool.free, ∀ i ∈ pool.active, pool.reg i.var ≠ some r
  expired : ∀ i ∈ done, (pool.reg i.var).isSome → i ∈ pool.active ∨ i.stop < time
  disjoint : ∀ i ∈ done, ∀ j ∈ done, i.var ≠ j.var → ∀ r, pool.reg i.var = some r →
    pool.reg j.var = some r → Disjoint i j
  used : ∀ i ∈ done, ∀ r, pool.reg i.var = some r → r ∈ regs
  free : ∀ r ∈ pool.free, r ∈ regs
  kept : ∀ v, (∀ i ∈ done, i.var ≠ v) → pool.reg v = pinned v

theorem nodup_filterMap {l : List A} (hl : l.Nodup)
    (h : ∀ a ∈ l, ∀ a' ∈ l, ∀ b, f a = some b → f a' = some b → a = a') : (l.filterMap f).Nodup := by
  rw [Nodup,pairwise_filterMap]
  refine hl.imp_of_mem fun {a a'} ha ha' hne b hb b' hb' => ?_
  rintro rfl
  exact hne (h a ha a' ha' b hb hb')

variable {pinned : X → Option R} {regs : List R} {done : List (Range X)} {time offset : ℕ}
variable {pool : Pool X R} {i : Range X}

theorem mem_removeDead_free (h : r ∈ (removeDead pool offset).free) :
    r ∈ pool.free ∨ ∃ i ∈ pool.active, i.stop < offset ∧ pool.reg i.var = some r := by
  simp only [removeDead,mem_append,mem_reverse,mem_filterMap,mem_filter,decide_eq_true_eq] at h
  rcases h with ⟨i,⟨hi,hlt⟩,hr⟩ | h
  · exact Or.inr ⟨i,hi,hlt,hr⟩
  · exact Or.inl h

theorem mem_removeDead_active : i ∈ (removeDead pool offset).active ↔ i ∈ pool.active ∧ offset ≤ i.stop := by
  simp [removeDead]

theorem Inv.removeDead (h : Inv pinned regs done time pool) (hle : time ≤ offset) :
    Inv pinned regs done offset (removeDead pool offset) where
  active i hi := h.active i (mem_removeDead_active.mp hi).1
  activeNodup := h.activeNodup.filter _
  held i hi j hj := h.held i (mem_removeDead_active.mp hi).1 j (mem_removeDead_active.mp hj).1
  freeNodup := by
    refine nodup_append.mpr ⟨nodup_reverse.mpr ?_,h.freeNodup,?_⟩
    · refine nodup_filterMap (h.activeNodup.filter _) ?_
      intro i hi j hj r hri hrj
      exact h.held i (mem_filter.mp hi).1 j (mem_filter.mp hj).1 r hri hrj
    · intro r hr r' hr' heq
      subst heq
      obtain ⟨i,hi,hri⟩ := mem_filterMap.mp (mem_reverse.mp hr)
      exact h.unused r hr' i (mem_filter.mp hi).1 hri
  unused r hr i hi := by
    obtain ⟨hmem,hst⟩ := mem_removeDead_active.mp hi
    rcases mem_removeDead_free hr with hr | ⟨j,hj,hlt,hrj⟩
    · exact h.unused r hr i hmem
    · intro hri
      obtain rfl := h.held i hmem j hj r hri hrj
      omega
  expired i hi hs := by
    rcases h.expired i hi hs with hmem | hlt
    · rcases Nat.lt_or_ge i.stop offset with hlt | hge
      · exact Or.inr hlt
      · exact Or.inl (mem_removeDead_active.mpr ⟨hmem,hge⟩)
    · exact Or.inr (by omega)
  disjoint := h.disjoint
  used := h.used
  free r hr := by
    rcases mem_removeDead_free hr with hr | ⟨i,hi,-,hri⟩
    · exact h.free r hr
    · exact h.used i (h.active i hi).1 r hri
  kept := h.kept

variable {active : List (Range X)} {j : Range X}

theorem mem_insert : j ∈ insert active i ↔ j = i ∨ j ∈ active := by
  unfold insert
  split
  · simp
  · split
    · simp
    · rw [mem_append,mem_singleton,or_comm]

theorem insert_nodup (h : active.Nodup) (hi : i ∉ active) : (insert active i).Nodup := by
  unfold insert
  split
  · simp
  · split
    · exact nodup_cons.mpr ⟨hi,h⟩
    · refine nodup_append.mpr ⟨h,by simp,?_⟩
      intro a ha b hb hab
      rw [mem_singleton.mp hb] at hab
      exact hi (hab ▸ ha)

theorem Inv.extend {free : List R} (h : Inv pinned regs done i.start pool)
    (hreg : ∀ j ∈ done, reg j.var = none ∨ reg j.var = pool.reg j.var)
    (ha : ∀ j ∈ active, (j = i ∨ j ∈ pool.active) ∧ (reg j.var).isSome)
    (hke : ∀ j, (j = i ∨ j ∈ pool.active) → (reg j.var).isSome → j ∈ active) (hn : active.Nodup)
    (hfr : ∀ r ∈ free, r ∈ pool.free) (hf : free.Nodup)
    (hg : ∀ r, reg i.var = some r → r ∈ regs ∧ r ∉ free ∧ ∀ j ∈ done, reg j.var = some r → j ∉ pool.active)
    (ho : ∀ v, v ≠ i.var → (∀ j ∈ done, j.var ≠ v) → reg v = pool.reg v) :
    Inv pinned regs (done ++ [i]) i.start ⟨reg,active,free⟩ := by
  have hold : ∀ j ∈ done, ∀ r, reg j.var = some r → pool.reg j.var = some r := by
    intro j hj r hr
    rcases hreg j hj with hno | heq
    · rw [hno] at hr
      cases hr
    · exact heq ▸ hr
  have he : ∀ j ∈ done, ∀ r, reg i.var = some r → reg j.var = some r → j.stop < i.start := by
    intro j hj r hi hr
    rcases h.expired j hj (by rw [hold j hj r hr]; rfl) with hact | hlt
    · exact absurd hact ((hg r hi).2.2 j hj hr)
    · exact hlt
  constructor
  · intro j hj
    refine ⟨?_,(ha j hj).2⟩
    rcases (ha j hj).1 with rfl | hact
    · simp
    · exact mem_append_left _ (h.active j hact).1
  · exact hn
  · intro j hj k hk r hrj hrk
    rcases (ha j hj).1 with rfl | hj <;> rcases (ha k hk).1 with rfl | hk
    · rfl
    · exact absurd hk ((hg r hrj).2.2 k (h.active k hk).1 hrk)
    · exact absurd hj ((hg r hrk).2.2 j (h.active j hj).1 hrj)
    · exact h.held j hj k hk r (hold j (h.active j hj).1 r hrj) (hold k (h.active k hk).1 r hrk)
  · exact hf
  · intro r hr j hj hrj
    rcases (ha j hj).1 with rfl | hact
    · exact (hg r hrj).2.1 hr
    · exact h.unused r (hfr r hr) j hact (hold j (h.active j hact).1 r hrj)
  · intro j hj hs
    rcases mem_append.mp hj with hj | hj
    · obtain ⟨r,hr⟩ := Option.isSome_iff_exists.mp hs
      rcases h.expired j hj (by rw [hold j hj r hr]; rfl) with hact | hlt
      · exact Or.inl (hke j (Or.inr hact) hs)
      · exact Or.inr hlt
    · exact Or.inl (hke j (Or.inl (mem_singleton.mp hj)) hs)
  · intro j hj k hk hne r hrj hrk
    rcases mem_append.mp hj with hj' | hj' <;> rcases mem_append.mp hk with hk' | hk'
    · exact h.disjoint j hj' k hk' hne r (hold j hj' r hrj) (hold k hk' r hrk)
    · obtain rfl := mem_singleton.mp hk'
      exact Or.inl (he j hj' r hrk hrj)
    · obtain rfl := mem_singleton.mp hj'
      exact Or.inr (he k hk' r hrj hrk)
    · exact absurd (by rw [mem_singleton.mp hj',mem_singleton.mp hk']) hne
  · intro j hj r hr
    rcases mem_append.mp hj with hj | hj
    · exact h.used j hj r (hold j hj r hr)
    · obtain rfl := mem_singleton.mp hj
      exact (hg r hr).1
  · intro r hr
    exact h.free r (hfr r hr)
  · intro v hv
    have hd : ∀ j ∈ done, j.var ≠ v := fun j hj => hv j (mem_append_left _ hj)
    rw [← h.kept v hd]
    exact ho v (hv i (by simp)).symm hd

variable [DecidableEq X]

theorem Inv.takeFree (h : Inv pinned regs done i.start pool) (hnew : ∀ j ∈ done, j.var ≠ i.var)
    {free : List R} (hf : pool.free = r :: free) : Inv pinned regs (done ++ [i]) i.start
      ⟨update pool.reg i.var (some r),insert pool.active i,free⟩ := by
  have hn : r ∉ free ∧ free.Nodup := nodup_cons.mp (hf ▸ h.freeNodup)
  have hold : ∀ j ∈ done, update pool.reg i.var (some r) j.var = pool.reg j.var :=
    fun j hj => update_of_ne (hnew j hj) _ _
  refine h.extend (fun j hj => Or.inr (hold j hj)) ?_ (fun j hj _ => mem_insert.mpr hj)
    (insert_nodup h.activeNodup fun hi => hnew i (h.active i hi).1 rfl)
    (fun q hq => by simp [hf,hq]) hn.2 ?_ fun v hv _ => update_of_ne hv _ _
  · intro j hj
    refine ⟨mem_insert.mp hj,?_⟩
    rcases mem_insert.mp hj with rfl | hact
    · simp
    · rw [hold j (h.active j hact).1]
      exact (h.active j hact).2
  · intro q hq
    obtain rfl : r = q := by simpa using hq
    refine ⟨h.free r (by simp [hf]),hn.1,?_⟩
    intro j hj hrj hact
    rw [hold j hj] at hrj
    exact h.unused r (by simp [hf]) j hact hrj

theorem Inv.spill (h : Inv pinned regs done i.start pool) (hnew : ∀ j ∈ done, j.var ≠ i.var)
    (hd : ∀ j ∈ done, ∀ k ∈ done, j.var = k.var → j = k) {rest : List (Range X)} (ha : insert pool.active i = spilled :: rest) :
    Inv pinned regs (done ++ [i]) i.start
      ⟨update (update pool.reg i.var (pool.reg spilled.var)) spilled.var none,
        rest,[]⟩ := by
  have hi : i ∉ pool.active := fun hi => hnew i (h.active i hi).1 rfl
  have hno : spilled ∉ rest ∧ rest.Nodup := nodup_cons.mp (ha ▸ insert_nodup h.activeNodup hi)
  have hmem : ∀ j, j ∈ spilled :: rest ↔ j = i ∨ j ∈ pool.active := fun j => ha ▸ mem_insert
  have hinj : ∀ j, (j = i ∨ j ∈ pool.active) → j.var = spilled.var → j = spilled := by
    intro j hj hvar
    rcases hj with rfl | hj <;> rcases (hmem spilled).mp mem_cons_self with heq | hs
    · exact heq.symm
    · exact absurd hvar.symm (hnew spilled (h.active spilled hs).1)
    · exact absurd (heq ▸ hvar) (hnew j (h.active j hj).1)
    · exact hd j (h.active j hj).1 spilled (h.active spilled hs).1 hvar
  have hold : ∀ j ∈ done, update (update pool.reg i.var (pool.reg spilled.var))
      spilled.var none j.var = if j.var = spilled.var then none else pool.reg j.var := by
    intro j hj
    by_cases hvar : j.var = spilled.var
    · simp [hvar]
    · rw [update_of_ne hvar,update_of_ne (hnew j hj),if_neg hvar]
  have hn : update (update pool.reg i.var (pool.reg spilled.var))
      spilled.var none i.var = if i.var = spilled.var then none else pool.reg spilled.var := by
    by_cases hvar : i.var = spilled.var
    · simp [hvar]
    · rw [update_of_ne hvar,update_self,if_neg hvar]
  refine h.extend ?_ ?_ ?_ hno.2 (by simp) (by simp) ?_ ?_
  · intro j hj
    rw [hold j hj]
    split
    · exact Or.inl rfl
    · exact Or.inr rfl
  · intro j hj
    have hj' := (hmem j).mp (mem_cons_of_mem _ hj)
    have hne : j.var ≠ spilled.var := fun hvar => hno.1 (hinj j hj' hvar ▸ hj)
    refine ⟨hj',?_⟩
    rcases hj' with rfl | hact
    · rw [hn,if_neg hne]
      rcases (hmem spilled).mp mem_cons_self with heq | hs
      · exact absurd (heq ▸ rfl) hne
      · exact (h.active spilled hs).2
    · rw [hold j (h.active j hact).1,if_neg hne]
      exact (h.active j hact).2
  · intro j hj hso
    rcases mem_cons.mp ((hmem j).mpr hj) with rfl | hres
    · simp at hso
    · exact hres
  · intro r hr
    rw [hn] at hr
    by_cases hvar : i.var = spilled.var
    · rw [if_pos hvar] at hr
      cases hr
    · rw [if_neg hvar] at hr
      have hs : spilled ∈ pool.active := by
        rcases (hmem spilled).mp mem_cons_self with heq | hs
        · exact absurd (heq ▸ rfl) hvar
        · exact hs
      refine ⟨h.used spilled (h.active spilled hs).1 r hr,by simp,?_⟩
      intro j hj hrj hact
      rw [hold j hj] at hrj
      split at hrj
      · cases hrj
      · rename_i hne
        exact hne (h.held j hact spilled hs r hrj hr ▸ rfl)
  · intro v hv ho
    have hne : v ≠ spilled.var := by
      rcases (hmem spilled).mp mem_cons_self with heq | hs
      · exact heq ▸ hv
      · exact (ho spilled (h.active spilled hs).1).symm
    rw [update_of_ne hne,update_of_ne hv]

theorem Inv.visit (h : Inv pinned regs done time pool) (hle : time ≤ i.start) (hnew : ∀ j ∈ done, j.var ≠ i.var)
    (hd : ∀ j ∈ done, ∀ k ∈ done, j.var = k.var → j = k) : Inv pinned regs (done ++ [i]) i.start (visit pool i) := by
  have h' := h.removeDead hle
  unfold LinearScan.visit
  generalize LinearScan.removeDead pool i.start = pool' at h'
  cases hf : pool'.free with
  | cons =>
    simp only [hf]
    exact h'.takeFree hnew hf
  | nil =>
    cases ha : insert pool'.active i with
    | cons =>
      simp only [hf,ha]
      exact h'.spill hnew hd ha
    | nil =>
      have hmem : i ∈ insert pool'.active i := mem_insert.mpr (Or.inl rfl)
      rw [ha] at hmem
      cases hmem

theorem Inv.scan {ranges : List (Range X)} (h : Inv pinned regs done time pool) (hle : ∀ i ∈ ranges, time ≤ i.start)
    (hs : ranges.Pairwise fun i j => i.start ≤ j.start) (hv : ((done ++ ranges).map Range.var).Nodup) :
    Inv pinned regs (done ++ ranges) (ranges.foldl (fun _ i => i.start) time) (scan pool ranges) := by
  induction ranges generalizing done time pool with
  | nil => simpa [scan] using h
  | cons i ranges ih =>
    obtain ⟨hf,hr⟩ := pairwise_cons.mp hs
    have hinj : ∀ j ∈ done ++ i :: ranges, ∀ k ∈ done ++ i :: ranges, j.var = k.var → j = k :=
      fun j hj k hk heq => inj_on_of_nodup_map hv hj hk heq
    rw [map_append,nodup_append] at hv
    have hnew : ∀ j ∈ done, j.var ≠ i.var := fun j hj => hv.2.2 j.var (mem_map_of_mem hj) i.var (by simp)
    have hi := h.visit (hle i (by simp)) hnew fun j hj k hk heq =>
      hinj j (mem_append_left _ hj) k (mem_append_left _ hk) heq
    have hrun := ih hi hf hr (by
      rw [append_assoc,singleton_append,map_append,nodup_append]
      exact hv)
    rwa [append_assoc,singleton_append] at hrun

omit [DecidableEq X] in
theorem insert_length : (insert active i).length = active.length+1 := by
  unfold insert
  split
  · rfl
  · split <;> simp

theorem mem_visit_active (h : j ∈ (visit pool i).active) : j = i ∨ (j ∈ pool.active ∧ i.start ≤ j.stop) := by
  suffices hmem : j ∈ insert (removeDead pool i.start).active i from
    (mem_insert.mp hmem).imp_right mem_removeDead_active.mp
  unfold visit at h
  cases hf : (removeDead pool i.start).free with
  | cons =>
    simp only [hf] at h
    exact h
  | nil =>
    cases ha : insert (removeDead pool i.start).active i with
    | cons =>
      simp only [hf,ha] at h
      exact mem_cons_of_mem _ h
    | nil =>
      simp only [hf,ha] at h
      exact ha ▸ mem_insert.mpr (Or.inr h)

theorem Inv.mem_active (h : Inv pinned regs (done ++ [i]) i.start (LinearScan.visit pool i)) (hi : i.start ≤ i.stop) :
    j ∈ (LinearScan.visit pool i).active ↔
      j ∈ done ++ [i] ∧ ((LinearScan.visit pool i).reg j.var).isSome ∧ i.start ≤ j.stop := by
  constructor
  · intro hj
    refine ⟨(h.active j hj).1,(h.active j hj).2,?_⟩
    rcases mem_visit_active hj with rfl | ⟨-,hs⟩
    · exact hi
    · exact hs
  · rintro ⟨hj,hso,hs⟩
    rcases h.expired j hj hso with hact | hlt
    · exact hact
    · omega

omit [DecidableEq X] in
theorem inv_initial (hr : regs.Nodup) : Inv pinned regs [] 0 ⟨pinned,[],regs⟩ := by constructor <;> simp [hr]

theorem scan_inv {ranges : List (Range X)} (hr : regs.Nodup)
    (hs : ranges.Pairwise fun i j => i.start ≤ j.start) (hv : (ranges.map Range.var).Nodup) :
    Inv pinned regs ranges (ranges.foldl (fun _ i => i.start) 0) (scan ⟨pinned,[],regs⟩ ranges) :=
  (inv_initial hr).scan (fun _ _ => Nat.zero_le _) hs hv

end Correct

end SmalltalkJit.LinearScan
