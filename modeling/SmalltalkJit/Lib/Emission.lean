import Mathlib.Logic.Relation

/-! # Emitted code and what its emitter tracks

A code generator emits operations while it tracks facts about the machine that
will run them. `Safe` says that every execution of an operation list meets the
demands of its operations and ends in a postcondition, `Triple` lifts this to
emitters, and `Floyd` carries assertions from block to block along every path of
a control-flow graph. Operations may be nondeterministic; a label names the
choice that was made, so that runs can be restricted to some choices.
-/
namespace SmalltalkJit.Emission
open List

variable {F O L S : Type*}

/-- What an operation may do to the machine under a label, and what it demands beforehand. -/
structure Target (O L S : Type*) where
  exec : O → L → S → S → Prop
  demands : O → S → Prop

section Safe
variable (target : Target O L S) (allowed : L → Prop)

/-- Every execution of `ops` with allowed choices meets all demands and ends in `Post`. -/
def Safe : List O → (S → Prop) → S → Prop
  | [], Post, s => Post s
  | o :: ops, Post, s => target.demands o s ∧ ∀ l s', allowed l → target.exec o l s s' → Safe ops Post s'

variable {target allowed}

theorem Safe.mono (h : Safe target allowed ops Post s) (hp : ∀ t, Post t → Post' t) :
    Safe target allowed ops Post' s := by
  induction ops generalizing s with
  | nil => exact hp s h
  | cons _ _ ih => exact ⟨h.1,fun l t hl ht => ih (h.2 l t hl ht)⟩

theorem Safe.append (h : Safe target allowed ops Post s) (hp : ∀ t, Post t → Safe target allowed ops' Post' t) :
    Safe target allowed (ops ++ ops') Post' s := by
  induction ops generalizing s with
  | nil => exact hp s h
  | cons _ _ ih => exact ⟨h.1,fun l t hl ht => ih (h.2 l t hl ht)⟩

end Safe

abbrev Emitter (F O : Type*) := F → F × List O

section Emitters

def skip : Emitter F O := fun f => (f,[])

def emit (ops : List O) : Emitter F O := fun f => (f,ops)

def track (g : F → F) : Emitter F O := fun f => (g f,[])

def Emitter.andThen (first second : Emitter F O) : Emitter F O := fun f =>
  ((second (first f).1).1,(first f).2 ++ (second (first f).1).2)

def emitAll {A : Type*} (e : A → Emitter F O) : List A → Emitter F O
  | [] => skip
  | a :: as => (e a).andThen (emitAll e as)

variable (target : Target O L S) (allowed : L → Prop)

theorem Safe.andThen {target : Target O L S} {allowed : L → Prop} {first second : Emitter F O} {Post : S → Prop}
    {s : S} (h : Safe target allowed (first f).2 (Safe target allowed (second (first f).1).2 Post) s) :
    Safe target allowed ((first.andThen second) f).2 Post s := h.append fun _ ht => ht

/-- From tracked facts and machine states in `P`, the emitted code leads safely into `Q`. -/
def Triple (P : F → S → Prop) (e : Emitter F O) (Q : F → S → Prop) : Prop :=
  ∀ f s, P f s → Safe target allowed (e f).2 (Q (e f).1) s

variable {target allowed}

theorem Triple.skip : Triple target allowed P Emission.skip P := fun _ _ h => h

theorem Triple.andThen (h1 : Triple target allowed P first Q) (h2 : Triple target allowed Q second R) :
    Triple target allowed P (first.andThen second) R :=
  fun f s hs => ((h1 f s hs).mono fun _ ht => h2 _ _ ht).andThen

theorem Triple.emitAll
    (h : ∀ a ∈ as, Triple target allowed P (e a) P) : Triple target allowed P (Emission.emitAll e as) P := by
  induction as with
  | nil => exact Triple.skip
  | cons a _ ih => exact (h a mem_cons_self).andThen (ih fun b hb => h b (mem_cons_of_mem a hb))

end Emitters

section Static
variable {R : F → F → Prop} {p : O → Prop} {e first second : Emitter F O}

/-- Whatever is emitted, the tracked facts move along `R`. -/
def Emitter.Moves (R : F → F → Prop) (e : Emitter F O) : Prop := ∀ f, R f (e f).1

def Emitter.Emits (p : O → Prop) (e : Emitter F O) : Prop := ∀ f, ∀ o ∈ (e f).2, p o

theorem Emitter.Moves.andThen (ht : ∀ f g h, R f g → R g h → R f h) (h1 : first.Moves R)
    (h2 : second.Moves R) : (first.andThen second).Moves R :=
  fun f => ht _ _ _ (h1 f) (h2 (first f).1)

theorem Emitter.Moves.emitAll {e : A → Emitter F O} (hr : ∀ f, R f f)
    (ht : ∀ f g h, R f g → R g h → R f h) (h : ∀ a ∈ as, (e a).Moves R) : (Emission.emitAll e as).Moves R := by
  induction as with
  | nil => exact hr
  | cons a _ ih => exact (h a mem_cons_self).andThen ht (ih fun b hb => h b (mem_cons_of_mem a hb))

theorem Emitter.Emits.andThen (h1 : first.Emits p) (h2 : second.Emits p) : (first.andThen second).Emits p := by
  intro f o ho
  rcases mem_append.mp ho with ho | ho
  · exact h1 f o ho
  · exact h2 _ o ho

end Static

/-- Where a machine stands: in a block, with these operations still to run. -/
structure Config (K O S : Type*) where
  block : K
  rest : List O
  state : S

section Paths
variable {K : Type*} (target : Target O L S) (allowed : L → Prop) (code : K → Option (List O × List K))
variable (enters : K → K → S → Prop)

/-- One operation, or the way into a successor block when none is left. `enters` restricts which
edges are taken in which state. -/
inductive Step : Config K O S → Config K O S → Prop
  | op {k : K} {o : O} {rest : List O} {l : L} {s s' : S} :
      allowed l → target.exec o l s s' → Step ⟨k,o :: rest,s⟩ ⟨k,rest,s'⟩
  | edge {k m : K} {ops ops' : List O} {succs succs' : List K} {s : S} :
      code k = some (ops,succs) → m ∈ succs → code m = some (ops',succs') → enters k m s →
      Step ⟨k,[],s⟩ ⟨m,ops',s⟩

/-- Block assertions that every block's code carries to its successors. -/
structure Floyd (At : K → S → Prop) : Prop where
  block : ∀ {k : K} {ops : List O} {succs : List K} {s : S}, code k = some (ops,succs) → At k s →
    Safe target allowed ops (fun t => ∀ m ∈ succs, enters k m t → At m t) s

variable {target allowed code enters}

/-- What holds at the end of each block that is entered as its assertion allows, holds where a run
has come to the end of one. -/
theorem Floyd.safe (h : Floyd target allowed code enters At) {Q : K → S → Prop}
    (hQ : ∀ {k ops succs s}, code k = some (ops,succs) → At k s → Safe target allowed ops (Q k) s) {s : S} (hk : code k = some (ops,succs)) (hs : At k s)
    {c : Config K O S} (hrun : Relation.ReflTransGen (Step target allowed code enters) ⟨k,ops,s⟩ c) :
    Safe target allowed c.rest (Q c.block) c.state := by
  -- what is left of a block leads safely to its successors
  suffices hinv : (∃ ops succs, code c.block = some (ops,succs) ∧
      Safe target allowed c.rest (fun t => ∀ m ∈ succs, enters c.block m t → At m t) c.state) ∧
      Safe target allowed c.rest (Q c.block) c.state from hinv.2
  induction hrun with
  | refl => exact ⟨⟨ops,succs,hk,h.block hk hs⟩,hQ hk hs⟩
  | tail _ hst ih =>
    obtain ⟨⟨ops1,succs1,hc,hsa⟩,hr⟩ := ih
    cases hst with
    | op hl he => exact ⟨⟨ops1,succs1,hc,hsa.2 _ _ hl he⟩,hr.2 _ _ hl he⟩
    | edge hk' hm hc' hen =>
      rw [hc] at hk'
      cases hk'
      have hat := hsa _ hm hen
      exact ⟨⟨_,_,hc',h.block hc' hat⟩,hQ hc' hat⟩

theorem Floyd.demands (h : Floyd target allowed code enters At) {k : K} (hk : code k = some (ops,succs)) (hs : At k s) {c : Config K O S}
    (hrun : Relation.ReflTransGen (Step target allowed code enters) ⟨k,ops,s⟩ c) {o : O}
    {rest : List O} (hc : c.rest = o :: rest) : target.demands o c.state := by
  have hsa := h.safe (fun hk hs => (h.block hk hs).mono fun _ _ => trivial) hk hs hrun (Q := fun _ _ => True)
  rw [hc] at hsa
  exact hsa.1

end Paths

section Follow
variable {K : Type*} [DecidableEq K] (exec : O → L → S → Option S) (code : K → Option (List O × List K))

/-- A run of a machine that can be executed: the labels of its operations and the blocks it goes
to. -/
def follow : List (L ⊕ K) → Config K O S → Option (Config K O S)
  | [], c => some c
  | .inl l :: path, c =>
    match c.rest with
    | [] => none
    | o :: rest => (exec o l c.state).bind fun s => follow path ⟨c.block,rest,s⟩
  | .inr m :: path, c =>
    match c.rest, code c.block, code m with
    | [], some (_,succs), some (ops,_) => if m ∈ succs then follow path ⟨m,ops,c.state⟩ else none
    | _, _, _ => none

variable {exec code}

theorem follow_run (h : follow exec code path c = some c') (ha : ∀ l, .inl l ∈ path → allowed l)
    (he : ∀ m, .inr m ∈ path → ∀ k s, enters k m s) :
    Relation.ReflTransGen (Step ⟨fun o l s s' => exec o l s = some s',demands⟩ allowed code enters) c c' := by
  induction path generalizing c with
  | nil =>
    obtain rfl : c = c' := by simpa [follow] using h
    exact .refl
  | cons p path ih =>
    have hla : ∀ l, .inl l ∈ path → allowed l := fun l hl => ha l (mem_cons_of_mem p hl)
    have hb : ∀ m, .inr m ∈ path → ∀ k s, enters k m s := fun m hm => he m (mem_cons_of_mem p hm)
    cases p with
    | inl l =>
      obtain ⟨k,ops,s⟩ := c
      cases ops with
      | nil => simp [follow] at h
      | cons =>
        obtain ⟨s',hs',h'⟩ := Option.bind_eq_some_iff.mp h
        exact .head (.op (ha l mem_cons_self) hs') (ih h' hla hb)
    | inr m =>
      obtain ⟨k,ops,s⟩ := c
      unfold follow at h
      split at h
      · rename_i succs ops' succs' hops hk hm
        split at h
        · rename_i hmem
          obtain rfl : ops = [] := hops
          exact .head (.edge hk hmem hm (he m mem_cons_self k s)) (ih h hla hb)
        · cases h
      · cases h

end Follow

end SmalltalkJit.Emission
