import SmalltalkJit.Classes.ExtensionCommit

/-! # Method dictionaries that several workers update

`extendClass` and `classRemoveSelector` read the live dictionaries, build a
replacement outside the pause and store it inside. Between the first read and
the store other workers may store replacements of their own, which the store then
undoes. Updates whose dictionaries nobody has replaced in between happen in the
order of their stores.
-/
namespace SmalltalkJit.Classes
open OpenAddressing Interleaving Function List Option

variable {W Sym E : Type} [DecidableEq W] [DecidableEq Sym] {hash : Sym → ℕ}

def dictionaryRemoving (live : MethodDictionary hash) (selector : Sym) : MethodDictionary hash :=
  let total := live.size+8
  let fresh : MethodDictionary hash := .new (capacityExponent total (total*2) 4)
  fresh.copySlots (live.table.slots.filter fun slot => slot.map Prod.fst ≠ some selector)

def removeSelectorMutate (t : ClassTable hash) (holder : Oop) (replacement : MethodDictionary hash) :
    ClassTable hash :=
  t.modify holder fun k => { k with methodDictionary := some replacement }

def ClassTable.dictionaryOf (t : ClassTable hash) (o : Oop) : Option (MethodDictionary hash) :=
  (t.classAt o).bind RawClass.methodDictionary

def classRemoveSelector (t : ClassTable hash) (holder : Oop) (selector : Sym) : ClassTable hash × Bool :=
  match t.dictionaryOf holder with
  | none => (t,false)
  | some live =>
    if (live.at? selector).isNone then (t,false)
    else (removeSelectorMutate t holder (dictionaryRemoving live selector),true)

inductive Update (Sym : Type)
  | extend (name : Sym) (methods : List (MethodNode Sym))
  | remove (holder : Oop) (selector : Sym)

def Update.run (ctx : Context hash E) (t : ClassTable hash) : Update Sym → Option (ClassTable hash × Bool)
  | .extend name methods => (extendClass ctx t name methods).map fun
    | (t',.ok _) => (t',true)
    | (t',.error _) => (t',false)
  | .remove holder selector => some (classRemoveSelector t holder selector)

def Update.succeed (ctx : Context hash E) (t : ClassTable hash) (u : Update Sym) : Option (ClassTable hash) :=
  (u.run ctx t).bind fun r => if r.2 then some r.1 else none

/-- How far an update is: the methods that are still to be checked and compiled, the replacements
that have been built, or the live dictionary that a removal has read. -/
inductive Progress {Sym : Type} [DecidableEq Sym] (hash : Sym → ℕ)
  | idle
  | checking (target metaClass : Oop) (rest : List (MethodNode Sym))
      (adds : Bool → MethodDictionary hash)
  | merged (target metaClass : Oop) (adds : Bool → MethodDictionary hash)
      (instDict : MethodDictionary hash)
  | extending (c : ExtendContext hash)
  | copying (holder : Oop) (live : MethodDictionary hash) (selector : Sym)
  | removing (holder : Oop) (replacement : MethodDictionary hash)
  | succeeded
  | failed

/-- The updates of several workers. `stale w` records that another update has been committed since
`w` began to read. -/
structure Updates (W : Type) {Sym : Type} [DecidableEq Sym] (hash : Sym → ℕ) where
  table : ClassTable hash
  progress : W → Progress hash
  stale : W → Bool

def resolveTarget (ctx : Context hash E) (t : ClassTable hash) (name : Sym) : Option (Option (Oop × Oop)) :=
  match t.resolve name with
  | none => some none
  | some (.immediate _) => none
  | some (.pointer target) =>
    if target = ctx.handles.nil then some none
    else
      match t.classAt target with
      | none => some none
      | some k =>
        match t.classAt k.cls with
        | none => some none
        | some m => if m.cls ≠ ctx.handles.metaClass then some none else some (some (target,k.cls))

def Progress.next (ctx : Context hash E) (t : ClassTable hash) : Update Sym → Progress hash → Option (Progress hash)
  | .extend name methods,.idle => (resolveTarget ctx t name).map fun
    | none => .failed
    | some (target,metaClass) => .checking target metaClass methods (bySide (.new 4) (.new 3))
  | .remove holder selector,.idle =>
    match t.dictionaryOf holder with
    | none => some .failed
    | some live => some (if (live.at? selector).isNone then .failed else .copying holder live selector)
  | _,.checking target metaClass (node :: rest) adds =>
    (installMethods ctx t (bySide target metaClass)
      (bySide (t.dictionaryOf target) (t.dictionaryOf metaClass)) [node] adds).map fun
      | .error _ => .failed
      | .ok adds => .checking target metaClass rest adds
  | _,.checking target metaClass [] adds =>
    some (.merged target metaClass adds (dictionaryMerging (t.dictionaryOf target) (adds false)))
  | _,.merged target metaClass adds instDict =>
    some (.extending ⟨target,metaClass,instDict,
      dictionaryMerging (t.dictionaryOf metaClass) (adds true)⟩)
  | _,.copying holder live selector => some (.removing holder (dictionaryRemoving live selector))
  | _,_ => none

def Progress.commit (t : ClassTable hash) : Progress hash → Option (ClassTable hash)
  | .extending c => some (extendMutate c t)
  | .removing holder replacement => some (removeSelectorMutate t holder replacement)
  | _ => none

def Progress.started : Progress hash → Bool
  | .idle | .succeeded | .failed => false
  | _ => true

def Updates.step (ctx : Context hash E) (updates : W → Update Sym) (s : Updates W hash) (w : W) :
    Option (Updates W hash) :=
  match (s.progress w).commit s.table with
  | some table => some
      { table := table
        progress := Function.update s.progress w .succeeded
        stale := fun v => s.stale v || (s.progress v).started }
  | none => ((s.progress w).next ctx s.table (updates w)).map fun p =>
      { s with progress := Function.update s.progress w p }

def Updates.start (t : ClassTable hash) : Updates W hash := ⟨t,fun _ => .idle,fun _ => false⟩

/-- A worker that commits has read the dictionaries it replaces. -/
def Updates.Current (s : Updates W hash) (w : W) : Prop := ((s.progress w).commit s.table).isSome → s.stale w = false

section Alone
variable {ctx : Context hash E} {t t' : ClassTable hash} {u : Update Sym} {p p' : Progress hash}

def extensionOf (t : ClassTable hash) (target metaClass : Oop) :
    Except (CompileError Sym E) (Bool → MethodDictionary hash) →
    Except (CompileError Sym E) (ExtendContext hash)
  | .error e => .error e
  | .ok adds => .ok ⟨target,metaClass,dictionaryMerging (t.dictionaryOf target) (adds false),
      dictionaryMerging (t.dictionaryOf metaClass) (adds true)⟩

theorem prepareExtension_eq (ctx : Context hash E) (t : ClassTable hash) (name : Sym)
    (methods : List (MethodNode Sym)) : prepareExtension ctx t name methods = (resolveTarget ctx t name).bind fun
      | none => some (.error (.undefinedVariable name))
      | some (target,metaClass) => (installMethods ctx t (bySide target metaClass)
          (bySide (t.dictionaryOf target) (t.dictionaryOf metaClass)) methods
          (bySide (.new 4) (.new 3))).map (extensionOf t target metaClass) := by
  unfold prepareExtension resolveTarget
  cases t.resolve name with
  | none => rfl
  | some v =>
    cases v with
    | immediate => rfl
    | pointer target =>
      dsimp only
      by_cases hnil : target = ctx.handles.nil
      · rw [if_pos hnil,if_pos hnil]
        rfl
      · rw [if_neg hnil,if_neg hnil]
        cases hk : t.classAt target with
        | none => rfl
        | some k =>
          dsimp only
          cases hm : t.classAt k.cls with
          | none => rfl
          | some m =>
            dsimp only
            by_cases hmet : m.cls ≠ ctx.handles.metaClass
            · rw [if_pos hmet,if_pos hmet]
              rfl
            · have hi : t.dictionaryOf target = k.methodDictionary := by simp [ClassTable.dictionaryOf,hk]
              have hcls : t.dictionaryOf k.cls = m.methodDictionary := by simp [ClassTable.dictionaryOf,hm]
              rw [if_neg hmet,if_neg hmet,bind_some]
              dsimp only
              rw [hi,hcls]
              apply Option.map_congr
              intro r _
              cases r with
              | error => rfl
              | ok => simp only [extensionOf,hi,hcls]

theorem installMethods_cons_eq (owner : Bool → Oop) (live : Bool → Option (MethodDictionary hash))
    (node : MethodNode Sym) (rest : List (MethodNode Sym)) (adds : Bool → MethodDictionary hash) :
    installMethods ctx t owner live (node :: rest) adds =
      (installMethods ctx t owner live [node] adds).bind fun
        | .error e => some (.error e)
        | .ok adds => installMethods ctx t owner live rest adds := by
  simp only [installMethods]
  split
  · rfl
  · cases compileAndInstallMethod ctx t (owner node.classSide) (adds node.classSide) node with
    | none => rfl
    | some r => cases r <;> rfl

/-- What an update still does is what it does by itself, as long as the table is `t`. -/
def Tracks (ctx : Context hash E) (t : ClassTable hash) : Update Sym → Progress hash → Prop
  | .extend name methods,.checking target metaClass rest adds =>
    prepareExtension ctx t name methods = (installMethods ctx t (bySide target metaClass)
      (bySide (t.dictionaryOf target) (t.dictionaryOf metaClass)) rest adds).map
      (extensionOf t target metaClass)
  | .extend name methods,.merged target metaClass adds instDict =>
    prepareExtension ctx t name methods = some (.ok ⟨target,metaClass,instDict,
      dictionaryMerging (t.dictionaryOf metaClass) (adds true)⟩)
  | .extend name methods,.extending c => prepareExtension ctx t name methods = some (.ok c)
  | .remove holder selector,.copying o live sel => classRemoveSelector t holder selector =
      (removeSelectorMutate t o (dictionaryRemoving live sel),true)
  | .remove holder selector,.removing o replacement => classRemoveSelector t holder selector =
      (removeSelectorMutate t o replacement,true)
  | _,p => p.started = false

theorem tracks_of_not_started (h : p.started = false) : Tracks ctx t u p := by
  cases u <;> cases p <;> first | exact h | cases h

theorem Tracks.next_idle (h : Progress.next ctx t u .idle = some p') : Tracks ctx t u p' := by
  cases u with
  | extend n ms =>
    simp only [Progress.next,map_eq_some_iff] at h
    obtain ⟨r,hr,rfl⟩ := h
    cases r with
    | none => exact tracks_of_not_started rfl
    | some =>
      change prepareExtension ctx t n ms = _
      rw [prepareExtension_eq,hr,bind_some]
  | remove holder sel =>
    simp only [Progress.next] at h
    cases hl : t.dictionaryOf holder with
    | none =>
      rw [hl] at h
      cases h
      exact tracks_of_not_started rfl
    | some l =>
      rw [hl] at h
      dsimp only at h
      by_cases hsel : (l.at? sel).isNone = true
      · rw [if_pos hsel] at h
        cases h
        exact tracks_of_not_started rfl
      · rw [if_neg hsel] at h
        cases h
        change classRemoveSelector t holder sel = _
        simp only [classRemoveSelector,hl]
        exact if_neg hsel

theorem Tracks.next (h : Tracks ctx t u p) (hn : p.next ctx t u = some p') : Tracks ctx t u p' := by
  cases p with
  | idle => exact Tracks.next_idle hn
  | checking _ _ l =>
    cases u with
    | remove => cases h
    | extend n ms =>
      cases l with
      | nil =>
        cases hn
        exact h
      | cons =>
        simp only [Progress.next,map_eq_some_iff] at hn
        obtain ⟨r,hr,rfl⟩ := hn
        cases r with
        | error => exact tracks_of_not_started rfl
        | ok =>
          change prepareExtension ctx t n ms = _ at h
          rw [installMethods_cons_eq,hr,bind_some] at h
          exact h
  | merged =>
    cases u with
    | remove => cases h
    | extend =>
      cases hn
      exact h
  | copying =>
    cases u with
    | extend => cases h
    | remove =>
      cases hn
      exact h
  | extending | removing | succeeded | failed => cases u <;> cases hn

theorem next_ne_succeeded (h : p.next ctx t u = some p') : p ≠ .succeeded ∧ p' ≠ .succeeded := by
  cases p with
  | idle =>
    refine ⟨by simp,?_⟩
    cases u with
    | extend =>
      simp only [Progress.next,map_eq_some_iff] at h
      obtain ⟨r,-,rfl⟩ := h
      cases r <;> simp
    | remove =>
      simp only [Progress.next] at h
      split at h
      · cases h
        simp
      · cases h
        split <;> simp
  | checking _ _ rest =>
    refine ⟨by simp,?_⟩
    cases rest with
    | nil => cases u <;> cases h <;> simp
    | cons =>
      cases u <;> simp only [Progress.next,map_eq_some_iff] at h <;>
        obtain ⟨r,-,rfl⟩ := h <;> cases r <;> simp
  | merged | copying => cases u <;> cases h <;> simp
  | extending | removing | succeeded | failed => cases u <;> cases h

theorem Tracks.commit (h : Tracks ctx t u p) (hc : p.commit t = some t') : u.succeed ctx t = some t' := by
  cases p with
  | extending =>
    cases hc
    cases u with
    | remove => cases h
    | extend n ms =>
      change prepareExtension ctx t n ms = _ at h
      simp [Update.succeed,Update.run,extendClass,h]
  | removing =>
    cases hc
    cases u with
    | extend => cases h
    | remove o sel =>
      change classRemoveSelector t o sel = _ at h
      simp [Update.succeed,Update.run,h]
  | _ => cases hc

end Alone

structure Serialized (ctx : Context hash E) (updates : W → Update Sym) (t0 : ClassTable hash)
    (s : Updates W hash) : Prop where
  tracks : ∀ w, s.stale w = false → Tracks ctx s.table (updates w) (s.progress w)
  order : ∃ order : List W, order.Nodup ∧ (∀ w, w ∈ order ↔ s.progress w = .succeeded) ∧
    (order.map updates).foldlM (Update.succeed ctx) t0 = some s.table

section Workers
variable {ctx : Context hash E} {updates : W → Update Sym} {t0 : ClassTable hash}
variable {s s' : Updates W hash} {w : W}

theorem Serialized.commit (h : Serialized ctx updates t0 s) (hok : s.Current w)
    {t : ClassTable hash} (hc : (s.progress w).commit s.table = some t) : Serialized ctx updates t0
      { table := t
        progress := Function.update s.progress w .succeeded
        stale := fun v => s.stale v || (s.progress v).started } := by
  have hf : s.stale w = false := hok (by rw [hc]; rfl)
  have hl := (h.tracks w hf).commit hc
  obtain ⟨order,hn,hmem,hs⟩ := h.order
  have hnot : w ∉ order := by
    intro hw
    rw [(hmem w).mp hw] at hc
    cases hc
  refine ⟨fun v hv => ?_,order ++ [w],?_,fun v => ?_,?_⟩
  · apply tracks_of_not_started
    dsimp only
    by_cases hvw : v = w
    · subst hvw
      rw [update_self]
      rfl
    · rw [update_of_ne hvw]
      exact (Bool.or_eq_false_iff.mp hv).2
  · simpa [nodup_append] using ⟨hn,fun v hv hvw => hnot (hvw ▸ hv)⟩
  · by_cases hvw : v = w
    · subst hvw
      simp
    · simp [hvw,hmem v]
  · rw [map_append,foldlM_append,hs]
    simpa using hl

theorem Serialized.step (h : Serialized ctx updates t0 s) (hok : s.Current w)
    (hs : s.step ctx updates w = some s') : Serialized ctx updates t0 s' := by
  unfold Updates.step at hs
  split at hs
  · rename_i t hc
    cases hs
    exact h.commit hok hc
  · obtain ⟨p,hp,rfl⟩ := map_eq_some_iff.mp hs
    obtain ⟨order,hn,hmem,hse⟩ := h.order
    obtain ⟨hb,ha⟩ := next_ne_succeeded hp
    refine ⟨fun v hv => ?_,order,hn,fun v => ?_,hse⟩ <;> dsimp only
    · by_cases hvw : v = w
      · subst hvw
        rw [update_self]
        exact (h.tracks v hv).next hp
      · rw [update_of_ne hvw]
        exact h.tracks v hv
    · by_cases hvw : v = w
      · subst hvw
        rw [update_self,hmem v]
        exact iff_of_false hb ha
      · rw [update_of_ne hvw]
        exact hmem v

omit [DecidableEq W] in
theorem serialized_start (ctx : Context hash E) (updates : W → Update Sym) (t0 : ClassTable hash) :
    Serialized ctx updates t0 (.start t0) where
  tracks _ _ := tracks_of_not_started rfl
  order := ⟨[],nodup_nil,by simp [Updates.start],rfl⟩

end Workers

/-- For any number of updates and every interleaving of their steps in which each commit finds the
dictionaries that its update has read: the dictionaries are those that the updates that reported
success leave when they run one after the other. -/
theorem updates_serializable (ctx : Context hash E) (updates : W → Update Sym)
    (t0 : ClassTable hash) (as : List W) (s : Updates W hash)
    (hok : Meets (Updates.step ctx updates) Updates.Current (.start t0) as)
    (hrun : perform (Updates.step ctx updates) (.start t0) as = some s) :
    ∃ order : List W, order.Nodup ∧ (∀ w, w ∈ order ↔ s.progress w = .succeeded) ∧
      (order.map updates).foldlM (Update.succeed ctx) t0 = some s.table := by
  have hs : Serialized ctx updates t0 s := invariant_of_meets (P := Serialized ctx updates t0)
    (fun _ _ _ h hok hs => h.step hok hs) (serialized_start ctx updates t0) hok hrun
  exact hs.order

section Kernel

def additions (w : Bool) : Update ℕ := .extend 0 [⟨if w then 6 else 5,none,[]⟩]

def steps (w : Bool) : List Bool := List.replicate 4 w

instance (s : Updates Bool (id : ℕ → ℕ)) (w : Bool) : Decidable (s.Current w) := by
  unfold Updates.Current
  infer_instance

theorem updates_serializable_in_turn : ∃ s : Updates Bool (id : ℕ → ℕ),
    perform (Updates.step kernelContext additions) (.start kernel)
      (steps false ++ [false] ++ steps true ++ [true]) = some s ∧
    (s.table.methodAt 10 5).isSome ∧ (s.table.methodAt 10 6).isSome ∧
    ∃ order : List Bool, order.Nodup ∧ (∀ w, w ∈ order ↔ s.progress w = .succeeded) ∧
      (order.map additions).foldlM (Update.succeed kernelContext) kernel = some s.table := by
  refine ⟨_,rfl,rfl,rfl,?_⟩
  exact updates_serializable kernelContext additions kernel (steps false ++ [false] ++ steps true ++ [true]) _
    (by decide) rfl

/-- Both replacements are built before the first one is stored: the second store loses the method of
the first. -/
theorem updates_lose_methods : ∃ s : Updates Bool (id : ℕ → ℕ),
    perform (Updates.step kernelContext additions) (.start kernel)
      (steps false ++ steps true ++ [false,true]) = some s ∧
    (∀ w, s.progress w = .succeeded) ∧ s.table.methodAt 10 5 = none ∧
    ¬ ∃ order : List Bool, order.Nodup ∧ (∀ w, w ∈ order ↔ s.progress w = .succeeded) ∧
      (order.map additions).foldlM (Update.succeed kernelContext) kernel = some s.table := by
  have hrun : ∃ s : Updates Bool (id : ℕ → ℕ), perform (Updates.step kernelContext additions) (.start kernel)
        (steps false ++ steps true ++ [false,true]) = some s ∧
      s.progress false = .succeeded ∧ s.progress true = .succeeded ∧ s.table.methodAt 10 5 = none :=
    ⟨_,rfl,rfl,rfl,rfl⟩
  obtain ⟨s,hs,hf,htr,h5⟩ := hrun
  have hall : ∀ w, s.progress w = .succeeded := Bool.forall_bool.mpr ⟨hf,htr⟩
  refine ⟨s,hs,hall,h5,?_⟩
  rintro ⟨order,hn,hmem,hse⟩
  have hp : order.Perm [false,true] := by
    apply (perm_ext_iff_of_nodup hn (by decide)).mpr
    intro w
    rw [hmem w,hall w]
    cases w <;> simp
  have hl : ∀ t, s.table = t → t.methodAt 10 5 = none := by
    rintro t rfl
    exact h5
  obtain ⟨a,b,rfl⟩ := length_eq_two.mp hp.length_eq
  have hab : b = !a := by cases a <;> cases b <;> simp_all
  subst hab
  have hk : ∃ t, ([a,!a].map additions).foldlM (Update.succeed kernelContext) kernel = some t ∧
      (t.methodAt 10 5).isSome := by
    cases a <;> exact ⟨_,rfl,rfl⟩
  obtain ⟨t,ht,hk⟩ := hk
  rw [ht] at hse
  rw [hl t (some.inj hse).symm] at hk
  cases hk

end Kernel

end SmalltalkJit.Classes
