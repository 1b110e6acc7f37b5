import SmalltalkJit.Lib.PostOrder
import SmalltalkJit.Packages.PackageLoader

/-! # The load order

A finite collection of packages in which every requirement is found, under its
name and with its version. A package is put among the known ones before its
requirements are walked, so the walk never meets a package that is on the stack:
it is the depth-first walk over the packages, and it reports no cycle.
-/
namespace SmalltalkJit.Packages
open PostOrder List

structure Finds (env : Environment) (spec : PackageSpec) (req : PackageRequirement)
    (child : PackageSpec) : Prop where
  name : child.name = req.name
  dir : resolveRequirement env req spec = .ok child.rootPath
  spec : specFrom env child.rootPath = .ok child
  version : ∀ v, req.version = some v → child.version = some v

structure PackageGraph (env : Environment) where
  all : List PackageSpec
  distinct : ∀ p ∈ all, ∀ q ∈ all, p.name = q.name → p = q
  found : ∀ p ∈ all, ∀ req ∈ p.requirements, req.name ≠ "Core" → ∃ q ∈ all, Finds env p req q

variable {env : Environment} (graph : PackageGraph env)

variable {req : PackageRequirement} {child : PackageSpec}

namespace PackageGraph

def named (name : String) : Option PackageSpec := graph.all.find? fun p => p.name = name

def required (reqs : List PackageRequirement) : List PackageSpec :=
  reqs.filterMap fun req => if req.name = "Core" then none else graph.named req.name

def requires (spec : PackageSpec) : List PackageSpec := graph.required spec.requirements

variable {graph}

theorem named_eq (hp : p ∈ graph.all) : graph.named p.name = some p := by
  cases h : graph.named p.name with
  | none =>
    rw [named,List.find?_eq_none] at h
    simpa using h p hp
  | some q =>
    have hn : q.name = p.name := by simpa using List.find?_some h
    rw [graph.distinct q (mem_of_find?_eq_some h) p hp hn]

theorem required_core (h : req.name = "Core") (rest : List PackageRequirement) :
    graph.required (req :: rest) = graph.required rest :=
  filterMap_cons_none (by rw [if_pos h])

theorem required_child (h : req.name ≠ "Core") (hn : child.name = req.name) (hc : child ∈ graph.all)
    (rest : List PackageRequirement) : graph.required (req :: rest) = child :: graph.required rest :=
  filterMap_cons_some (by rw [if_neg h,← hn,named_eq hc])

theorem requires_closed : ∀ p ∈ graph.all, ∀ q ∈ graph.requires p, q ∈ graph.all := by
  intro p _ q hq
  obtain ⟨req,-,heq⟩ := mem_filterMap.mp hq
  split at heq
  · cases heq
  · exact mem_of_find?_eq_some heq

end PackageGraph

variable {spec : PackageSpec}

theorem check_ok (h : ∀ v, req.version = some v → spec.version = some v) : check req spec = .ok () := by
  unfold check
  split
  · rfl
  · rename_i v hv
    rw [if_pos (h v hv)]

theorem Finds.fetch_eq (h : Finds env spec req child) : fetch env spec req = .ok child := by
  simp only [fetch,h.dir,h.spec,h.name,if_true,check_ok h.version]

theorem Finds.recheck_eq (h : Finds env spec req child) : recheck env spec req child = .ok () := by
  unfold recheck
  split
  · simp only [h.dir,if_true,check_ok h.version]
  · exact check_ok h.version

section Walk
variable {graph} {loader : PackageLoader} {s : Marks PackageSpec}

structure Knows (graph : PackageGraph env) (loader : PackageLoader) (s : Marks PackageSpec) : Prop where
  specs : ∀ p ∈ graph.all, loader.specs p.name = if p ∈ s.seen then some p else none
  order : loader.loadOrder = s.order

variable {p : PackageSpec}

theorem Knows.register (h : Knows graph loader s) (hp : p ∈ graph.all) :
    Knows graph (loader.register p.name p) { s with seen := p :: s.seen } where
  specs := by
    intro q hq
    by_cases hqp : q.name = p.name
    · obtain rfl := graph.distinct q hq p hp hqp
      simp [PackageLoader.register]
    · have hne : q ≠ p := fun heq => hqp (heq ▸ rfl)
      simp [PackageLoader.register,Function.update_of_ne hqp,h.specs q hq,hne]
  order := h.order

inductive Answers (graph : PackageGraph env) : Walk → Option (Marks PackageSpec) → Prop
  | none : Answers graph none none
  | ok {loader : PackageLoader} {s : Marks PackageSpec} (h : Knows graph loader s) :
      Answers graph (some (.ok loader)) (some s)

theorem Answers.andThen {next : PackageLoader → Walk} (h : Answers graph walk o)
    (hn : ∀ loader s, o = some s → Knows graph loader s → Answers graph (next loader) (next' s)) :
    Answers graph (walk.andThen next) (o.bind next') := by
  cases h with
  | none => exact .none
  | ok h => exact hn _ _ rfl h

def OnStack (graph : PackageGraph env) (stack : List String) (s : Marks PackageSpec) : Prop :=
  ∀ name ∈ stack, ∃ p ∈ graph.all, p.name = name ∧ p ∈ s.seen

variable {stack : List String}

theorem OnStack.mono (h : OnStack graph stack s) (hs : ∀ p ∈ s.seen, p ∈ s'.seen) : OnStack graph stack s' := by
  intro n hn
  obtain ⟨p,hp,heq,hmem⟩ := h n hn
  exact ⟨p,hp,heq,hs p hmem⟩

theorem OnStack.push (h : OnStack graph stack s) (hp : p ∈ graph.all) (hs : p ∈ s.seen) :
    OnStack graph (stack ++ [p.name]) s := by
  intro name hn
  rcases mem_append.mp hn with hn | hn
  · exact h name hn
  · exact ⟨p,hp,(mem_singleton.mp hn).symm,hs⟩

theorem OnStack.not_mem (h : OnStack graph stack s) (hp : p ∈ graph.all) (hs : p ∉ s.seen) : p.name ∉ stack := by
  intro hmem
  obtain ⟨q,hq,heq,hse⟩ := h p.name hmem
  exact hs (graph.distinct q hq p hp heq ▸ hse)

theorem requireAll_answers
    {visit : PackageSpec → Marks PackageSpec → Option (Marks PackageSpec)}
    (hw : ∀ p loader s, p ∈ graph.all → p.name ∉ stack → OnStack graph stack s → p ∈ s.seen →
      Knows graph loader s → Answers graph (walk p loader) (visit p s))
    (hv : ∀ p s s', visit p s = some s' → ∀ q ∈ s.seen, q ∈ s'.seen) (hspec : spec ∈ graph.all) (hreq : ∀ req ∈ reqs, req ∈ spec.requirements) (hs : OnStack graph stack s)
    (hk : Knows graph loader s) :
    Answers graph (requireAll env walk spec reqs loader)
      (visitAll visit (graph.required reqs) s) := by
  induction reqs generalizing loader s with
  | nil => exact .ok hk
  | cons req l ih =>
    have hres : ∀ r ∈ l, r ∈ spec.requirements := fun r hr => hreq r (mem_cons_of_mem _ hr)
    by_cases hco : req.name = "Core"
    · rw [PackageGraph.required_core hco,requireAll,require,if_pos hco]
      exact ih hres hs hk
    · obtain ⟨child,hc,hf⟩ := graph.found spec hspec req (hreq req mem_cons_self) hco
      have hsp := hk.specs child hc
      rw [hf.name] at hsp
      rw [PackageGraph.required_child hco hf.name hc,requireAll,require,if_neg hco,hsp,visitAll]
      by_cases hse : child ∈ s.seen
      · simp only [if_pos hse,hf.recheck_eq]
        exact ih hres hs hk
      · have hm : ∀ p ∈ s.seen, p ∈ child :: s.seen := fun p hp => mem_cons_of_mem _ hp
        simp only [if_neg hse,hf.fetch_eq,← hf.name]
        have hpu : OnStack graph stack { s with seen := child :: s.seen } := hs.mono hm
        refine (hw _ _ _ hc (hs.not_mem hc hse) hpu mem_cons_self (hk.register hc)).andThen ?_
        intro ld' s' heq hk'
        exact ih hres (hs.mono fun p hp => hv _ _ _ heq p (hm p hp)) hk'

theorem resolve_answers (hsp : spec ∈ graph.all) (hnew : spec.name ∉ stack)
    (hs : OnStack graph stack s) (hse : spec ∈ s.seen) (hk : Knows graph loader s) :
    Answers graph (resolve env fuel spec stack loader) (visit graph.requires fuel spec s) := by
  induction fuel generalizing spec stack loader s with
  | zero => exact .none
  | succ fuel ih =>
    rw [resolve,if_neg hnew,visit]
    have hall : Answers graph (requireAll env (fun child => resolve env fuel child (stack ++ [spec.name])) spec
          spec.requirements loader)
        (visitAll (visit graph.requires fuel) (graph.requires spec) s) := by
      refine requireAll_answers ?_ ?_ hsp (fun _ h => h) (hs.push hsp hse) hk
      · exact fun _ _ _ hp hnew hs hse hk => ih hp hnew hs hse hk
      · exact fun _ _ _ h => visit_seen h
    rw [Option.map_eq_bind]
    refine hall.andThen ?_
    intro ld' s' _ hk'
    exact .ok ⟨hk'.specs,by rw [hk'.order]⟩

theorem resolution_spec (graph : PackageGraph env) (hr : root ∈ graph.all)
    (hf : graph.all.length < fuel) : ∃ loader, resolution env fuel root = some (.ok loader) ∧
      loader.loadOrder.Nodup ∧ (∀ p, p ∈ loader.loadOrder ↔ Reaches graph.requires root p) ∧
      (Acyclic graph.requires root → Ordered graph.requires loader.loadOrder) := by
  obtain ⟨s,hrun,hn,hre,ho⟩ := visit_root PackageGraph.requires_closed hr hf
  have hk : Knows graph (PackageLoader.register ⟨fun _ => none,[]⟩ root.name root) ⟨[root],[]⟩ :=
    Knows.register (s := ⟨[],[]⟩) ⟨by simp,rfl⟩ hr
  have ha : Answers graph (resolution env fuel root) (visit graph.requires fuel root ⟨[root],[]⟩) :=
    resolve_answers hr (by simp) (by simp [OnStack]) mem_cons_self hk
  rw [hrun] at ha
  generalize resolution env fuel root = walk at ha ⊢
  cases ha with
  | ok h => exact ⟨_,rfl,h.order ▸ hn,by rwa [h.order],by rwa [h.order]⟩

end Walk

theorem loadPackages_ne_dependencyCycle (h : loadPackages env specs image = .error e) (stack : List String)
    (name : String) : e ≠ .dependencyCycle stack name := by
  induction specs generalizing image with
  | nil => cases h
  | cons _ _ ih =>
    simp only [loadPackages] at h
    split at h
    · rename_i e' he
      cases h
      unfold loadPackage at he
      split at he
      · cases he
      · split at he
        · cases he
        · split at he
          · cases he
            simp
          · split at he
            · cases he
              simp
            · cases he
    · exact ih h

/-- The answer of `load:` is that of a topological sort of what `root` requires. -/
structure Sorts (graph : PackageGraph env) (root : PackageSpec)
    (result : Except LoadError (PackageLoader × Image)) : Prop where
  order : ∀ loader image, result = .ok (loader,image) → loader.loadOrder.Nodup ∧
    (∀ p, p ∈ loader.loadOrder ↔ Reaches graph.requires root p) ∧
    Ordered graph.requires loader.loadOrder
  cycle : (∃ stack name, result = .error (.dependencyCycle stack name)) ↔
    ¬ Acyclic graph.requires root

/-- Loading sorts the packages exactly when no cycle of requirements can be reached: a cycle is not
reported. -/
theorem load_sorts_iff {root : PackageSpec} (hroot : root ∈ graph.all) {projectDir : String}
    (hspec : specFrom env (env.realpath projectDir) = .ok root) (image : Image) :
    (∃ bound, ∀ fuel ≥ bound, ∃ result, load env fuel projectDir image = some result ∧
      Sorts graph root result) ↔ Acyclic graph.requires root := by
  have hl : ∀ fuel > graph.all.length, ∃ loader, loader.loadOrder.Nodup ∧
      (∀ p, p ∈ loader.loadOrder ↔ Reaches graph.requires root p) ∧
      (Acyclic graph.requires root → Ordered graph.requires loader.loadOrder) ∧
      load env fuel projectDir image =
        some ((loadPackages env loader.loadOrder image).map fun image => (loader,image)) := by
    intro fuel hf
    obtain ⟨loader,hrun,hn,hre,ho⟩ := resolution_spec graph hroot hf
    exact ⟨loader,hn,hre,ho,by simp only [load,hspec,hrun]⟩
  have hs : ∀ (loader : PackageLoader) (stack : List String) (n : String),
      (loadPackages env loader.loadOrder image).map (fun image => (loader,image)) ≠
        .error (.dependencyCycle stack n) := by
    intro loader stack n heq
    cases hr : loadPackages env loader.loadOrder image with
    | error =>
      rw [hr] at heq
      cases heq
      exact loadPackages_ne_dependencyCycle hr stack n rfl
    | ok =>
      rw [hr] at heq
      cases heq
  constructor
  · rintro ⟨bound,h⟩
    obtain ⟨loader,-,-,-,hrun⟩ := hl (max bound (graph.all.length+1)) (by omega)
    obtain ⟨result,hres,hso⟩ := h (max bound (graph.all.length+1)) (by omega)
    by_contra hc
    obtain ⟨stack,n,heq⟩ := hso.cycle.mpr hc
    rw [hrun] at hres
    exact hs loader stack n (Option.some.inj hres ▸ heq)
  · intro ha
    refine ⟨graph.all.length+1,?_⟩
    intro fuel hf
    obtain ⟨loader,hn,hre,ho,hrun⟩ := hl fuel hf
    refine ⟨_,hrun,?_,?_⟩
    · intro ld' image' heq
      cases hr : loadPackages env loader.loadOrder image with
      | error =>
        rw [hr] at heq
        cases heq
      | ok =>
        rw [hr] at heq
        cases heq
        exact ⟨hn,hre,ho ha⟩
    · constructor
      · rintro ⟨stack,n,heq⟩
        exact absurd heq (hs loader stack n)
      · exact fun h => absurd ha h

section Pair
variable (back : Bool)

def requirement (name : String) : PackageRequirement := ⟨name,none,none⟩

def pair : Environment where
  packageRoots := ["packages"]
  fileExists _ := true
  realpath path := path
  evaluate path :=
    if path = "packages/app/package.st" then
      some ⟨some "app",none,[requirement "Core",requirement "lib"]⟩
    else if path = "packages/lib/package.st" then
      some ⟨some "lib",none,if back then [requirement "app"] else []⟩
    else none
  compile _ := none

def app : PackageSpec := ⟨"app",none,[requirement "Core",requirement "lib"],"packages/app"⟩

def lib : PackageSpec := ⟨"lib",none,if back then [requirement "app"] else [],"packages/lib"⟩

theorem finds_lib : Finds (pair back) app (requirement "lib") (lib back) :=
  ⟨rfl,rfl,by cases back <;> rfl,by simp [requirement]⟩

theorem finds_app : Finds (pair back) (lib back) (requirement "app") app :=
  ⟨rfl,rfl,by cases back <;> rfl,by simp [requirement]⟩

def pairGraph : PackageGraph (pair back) where
  all := [app,lib back]
  distinct := by
    intro p hp q hq
    simp only [mem_cons,not_mem_nil,or_false] at hp hq
    rcases hp with rfl | rfl <;> rcases hq with rfl | rfl <;> simp [app,lib]
  found := by
    intro p hp req hreq hcore
    simp only [mem_cons,not_mem_nil,or_false] at hp
    rcases hp with rfl | rfl
    · have hlib : req = requirement "lib" := by
        simp only [app,mem_cons,not_mem_nil,or_false] at hreq
        exact hreq.resolve_left fun h => hcore (h ▸ rfl)
      exact ⟨lib back,by simp,hlib ▸ finds_lib back⟩
    · have happ : req = requirement "app" := by
        cases back with
        | false => simp [lib] at hreq
        | true => simpa [lib] using hreq
      exact ⟨app,by simp,happ ▸ finds_app back⟩

theorem specFrom_app : specFrom (pair back) ((pair back).realpath "packages/app") = .ok app := by cases back <;> rfl

theorem acyclic_pair : Acyclic (pairGraph false).requires app := by
  have ho : Ordered (pairGraph false).requires [lib false,app] :=
    (Ordered.nil.append (a := lib false) (by decide)).append (by decide)
  refine ho.acyclic (by decide) ?_
  intro p hp
  induction hp with
  | refl => simp
  | tail _ he ih =>
    simp only [mem_cons,not_mem_nil,or_false] at ih
    rcases ih with rfl | rfl
    · exact absurd he (by rw [Edge,show (pairGraph false).requires (lib false) = [] by decide]; simp)
    · rw [Edge,show (pairGraph false).requires app = [lib false] by decide,mem_singleton] at he
      simp [he]

end Pair

theorem load_sorts_pair : ∃ bound, ∀ fuel ≥ bound, ∃ result, load (pair false) fuel "packages/app" ⟨[],[]⟩ =
      some result ∧ Sorts (pairGraph false) app result :=
  (load_sorts_iff (pairGraph false) mem_cons_self (specFrom_app false) ⟨[],[]⟩).mpr acyclic_pair

/-- The library is put before the application that it requires; loading it then fails for want of
the application's namespace. -/
theorem load_misses_cycle : Relation.TransGen (Edge (pairGraph true).requires) app app ∧ ∀ fuel,
      (∃ loader, resolution (pair true) (fuel+3) app = some (.ok loader) ∧ loader.loadOrder = [lib true,app]) ∧
      load (pair true) (fuel+3) "packages/app" ⟨[],[]⟩ = some (.error (.noNamespace "app")) ∧
      ¬ Sorts (pairGraph true) app (.error (.noNamespace "app")) := by
  have hc : Relation.TransGen (Edge (pairGraph true).requires) app app :=
    .tail (.single (by decide : lib true ∈ (pairGraph true).requires app)) (by decide)
  refine ⟨hc,fun fuel => ⟨⟨_,rfl,rfl⟩,rfl,?_⟩⟩
  intro hs
  obtain ⟨stack,n,h⟩ := hs.cycle.mpr fun ha => ha app .refl hc
  cases h

end SmalltalkJit.Packages
