import SmalltalkJit.Classes.Building

/-! # What an extension adds to the two dictionaries of its target

The loop over the methods of an extension stops at the first one whose selector
is taken or whose body does not compile; nothing has been stored by then. When
it runs to its end the merged dictionaries map the old selectors as before and
the new ones to their compiled methods.
-/
namespace SmalltalkJit.Classes
open OpenAddressing List Option

variable {Sym E : Type} [DecidableEq Sym] {hash : Sym → ℕ}

def ClassTable.methodAt (t : ClassTable hash) (o : Oop) (selector : Sym) : Option (CompiledMethod Sym) :=
  (t.classAt o).bind fun k => k.methodDictionary.bind fun d => d.at? selector

def MethodNode.Clashes (a b : MethodNode Sym) : Prop := a.classSide = b.classSide ∧ a.selector = b.selector

def compiled (t : ClassTable hash) (owner : Bool → Oop) (node : MethodNode Sym) : CompiledMethod Sym :=
  ⟨node,owner node.classSide,compileInstVars
    ((t.classAt (owner node.classSide)).elim [] RawClass.instanceVariables) node.mentions⟩

def methodFor (methods : List (MethodNode Sym)) (classSide : Bool) (selector : Sym) : Option (MethodNode Sym) :=
  methods.find? fun node => node.classSide = classSide && node.selector = selector

variable {adds : Bool → MethodDictionary hash}

section Loop
variable (ctx : Context hash E) (t : ClassTable hash) (owner : Bool → Oop)
variable (live : Bool → Option (MethodDictionary hash))

structure Installable (methods : List (MethodNode Sym)) : Prop where
  free : ∀ node ∈ methods, isDefined (live node.classSide) node.selector = false
  compiles : ∀ node ∈ methods, ∃ literals, ctx.analyze t (owner node.classSide) node = .ok literals
  distinct : methods.Pairwise fun a b => ¬ a.Clashes b

def Oversized (node : MethodNode Sym) : Prop :=
  ∃ literals, ctx.analyze t (owner node.classSide) node = .ok literals ∧ literals > 65535

def Installed (methods : List (MethodNode Sym)) (adds : Bool → MethodDictionary hash) : Prop :=
  ∀ side selector, (adds side).at? selector =
    (methodFor methods side selector).map (compiled t owner)

variable {ctx t owner live}

theorem Installable.left
    (h : Installable ctx t owner live (pre ++ post)) : Installable ctx t owner live pre where
  free node hn := h.free node (mem_append_left _ hn)
  compiles node hn := h.compiles node (mem_append_left _ hn)
  distinct := (pairwise_append.mp h.distinct).1

variable {methods : List (MethodNode Sym)} {node : MethodNode Sym}

theorem methodFor_eq_none_iff :
    methodFor methods node.classSide node.selector = none ↔ ∀ m ∈ methods, ¬ m.Clashes node := by
  simp [methodFor,MethodNode.Clashes]

theorem installable_snoc : Installable ctx t owner live (methods ++ [node]) ↔ Installable ctx t owner live methods ∧
      isDefined (live node.classSide) node.selector = false ∧
      (∃ literals, ctx.analyze t (owner node.classSide) node = .ok literals) ∧ ∀ m ∈ methods, ¬ m.Clashes node := by
  constructor
  · intro h
    refine ⟨h.left,h.free node (by simp),h.compiles node (by simp),?_⟩
    intro m hm
    exact (pairwise_append.mp h.distinct).2.2 m hm node (by simp)
  · rintro ⟨h,hf,hc,hnew⟩
    constructor
    · intro m hm
      rcases mem_append.mp hm with hm | hm
      · exact h.free m hm
      · rw [mem_singleton.mp hm]
        exact hf
    · intro m hm
      rcases mem_append.mp hm with hm | hm
      · exact h.compiles m hm
      · rw [mem_singleton.mp hm]
        exact hc
    · rw [pairwise_append]
      exact ⟨h.distinct,pairwise_singleton _ _,by simpa using hnew⟩

theorem Installed.snoc (h : Installed t owner methods adds)
    (hnew : methodFor methods node.classSide node.selector = none) :
    Installed t owner (methods ++ [node]) (Function.update adds node.classSide
      ((adds node.classSide).atPut node.selector (compiled t owner node))) := by
  intro side selector
  have hsp : methodFor (methods ++ [node]) side selector = (methodFor methods side selector).or
      (if node.classSide = side ∧ node.selector = selector then some node else none) := by
    by_cases hn : node.classSide = side ∧ node.selector = selector
    · simp [methodFor,List.find?_append,hn]
    · have hf : List.find? (fun n : MethodNode Sym =>
          n.classSide = side && n.selector = selector) [node] = none := by
        simpa using hn
      rw [methodFor,List.find?_append,hf,if_neg hn]
      rfl
  rw [hsp]
  by_cases hs : node.classSide = side
  · subst hs
    rw [Function.update_self,HashMap.at?_atPut]
    by_cases hsel : selector = node.selector
    · subst hsel
      simp [hnew]
    · rw [if_neg hsel,h,if_neg (fun hc => hsel hc.2.symm),or_none]
  · rw [Function.update_of_ne (fun hc => hs hc.symm),h,if_neg (fun hc => hs hc.1),or_none]

section
variable (hown : ∀ side, (t.classAt (owner side)).isSome)
include hown

theorem compileMethodIn_of_ok (h : ctx.analyze t (owner node.classSide) node = .ok literals) :
    compileMethodIn ctx t (owner node.classSide) node =
      if literals > 65535 then none else some (.ok (compiled t owner node)) := by
  obtain ⟨k,hk⟩ := isSome_iff_exists.mp (hown node.classSide)
  simp [compileMethodIn,compiled,h,hk]

theorem installMethods_cons (node : MethodNode Sym)
    (rest : List (MethodNode Sym)) (hd : Installable ctx t owner live done) (ha : Installed t owner done adds) :
    ((∃ e, installMethods ctx t owner live (node :: rest) adds = some (.error e)) ∧
      ¬ Installable ctx t owner live (done ++ [node])) ∨
    (installMethods ctx t owner live (node :: rest) adds = none ∧
      Installable ctx t owner live (done ++ [node]) ∧ Oversized ctx t owner node) ∨
    ∃ adds', installMethods ctx t owner live (node :: rest) adds =
        installMethods ctx t owner live rest adds' ∧ Installed t owner (done ++ [node]) adds' ∧
      Installable ctx t owner live (done ++ [node]) ∧ ¬ Oversized ctx t owner node := by
  rw [installable_snoc]
  by_cases hdef : isDefined (live node.classSide) node.selector
  · exact .inl ⟨⟨.redefinition node.selector,by simp [installMethods,hdef]⟩,fun h => by simp [hdef] at h⟩
  have hf : isDefined (live node.classSide) node.selector = false := by simpa using hdef
  have hat := ha node.classSide node.selector
  cases hfor : methodFor done node.classSide node.selector with
  | some =>
    refine .inl ⟨⟨.redefinition node.selector,?_⟩,fun h => ?_⟩
    · simp [installMethods,hf,compileAndInstallMethod,hat,hfor]
    · rw [methodFor_eq_none_iff.mpr h.2.2.2] at hfor
      cases hfor
  | none =>
    have hnew := methodFor_eq_none_iff.mp hfor
    cases hana : ctx.analyze t (owner node.classSide) node with
    | error e =>
      refine .inl ⟨⟨.body e,?_⟩,fun h => ?_⟩
      · simp [installMethods,hf,compileAndInstallMethod,hat,hfor,compileMethodIn,hana]
      · obtain ⟨lits,hl⟩ := h.2.2.1
        cases hl
    | ok lits =>
      have hi : Installable ctx t owner live done ∧ isDefined (live node.classSide) node.selector = false ∧
          (∃ l, Except.ok lits = (Except.ok l : Except E ℕ)) ∧
          ∀ m ∈ done, ¬ m.Clashes node := ⟨hd,hf,⟨lits,rfl⟩,hnew⟩
      have hc := compileMethodIn_of_ok hown hana
      by_cases hla : lits > 65535
      · refine .inr (.inl ⟨?_,hi,lits,hana,hla⟩)
        simp [installMethods,hf,compileAndInstallMethod,hat,hfor,hc,hla]
      · refine .inr (.inr ⟨_,?_,ha.snoc hfor,hi,?_⟩)
        · simp [installMethods,hf,compileAndInstallMethod,hat,hfor,hc,hla,compiled]
        · rintro ⟨l,hl,hbig⟩
          rw [hana] at hl
          cases hl
          exact hla hbig

/-- The loop from the methods `done` on: an error comes from the first method that cannot be
installed, the end of the machine from the first one that is too large, and else all methods have
been installed. -/
theorem installMethods_spec (rest : List (MethodNode Sym)) (hd : Installable ctx t owner live done) (ha : Installed t owner done adds) :
    (installMethods ctx t owner live rest adds = none ∧ ∃ pre node post, rest = pre ++ node :: post ∧
      Installable ctx t owner live (done ++ pre ++ [node]) ∧ Oversized ctx t owner node) ∨
    ((∃ e, installMethods ctx t owner live rest adds = some (.error e)) ∧ ∃ pre node post,
      rest = pre ++ node :: post ∧ ¬ Installable ctx t owner live (done ++ pre ++ [node]) ∧
      ∀ m ∈ pre, ¬ Oversized ctx t owner m) ∨
    ∃ adds', installMethods ctx t owner live rest adds = some (.ok adds') ∧
      Installed t owner (done ++ rest) adds' ∧ Installable ctx t owner live (done ++ rest) ∧
      ∀ m ∈ rest, ¬ Oversized ctx t owner m := by
  induction rest generalizing done adds with
  | nil => exact .inr (.inr ⟨adds,rfl,by simpa using ha,by simpa using hd,by simp⟩)
  | cons node rest ih =>
    rcases installMethods_cons hown node rest hd ha with ⟨he,hnot⟩ | ⟨hn,hinst,hbig⟩ | ⟨adds',hs,ha',hinst,hfit⟩
    · exact .inr (.inl ⟨he,[],node,rest,rfl,by simpa using hnot,by simp⟩)
    · exact .inl ⟨hn,[],node,rest,rfl,by simpa using hinst,hbig⟩
    · rw [hs]
      have hc : ∀ pre : List (MethodNode Sym), (∀ m ∈ pre, ¬ Oversized ctx t owner m) →
          ∀ m ∈ node :: pre, ¬ Oversized ctx t owner m := by
        intro pre hpre m hm
        rcases mem_cons.mp hm with rfl | hm
        · exact hfit
        · exact hpre m hm
      rcases ih hinst ha' with ⟨hn,pre,n,post,rfl,hi,hbig⟩ | ⟨he,pre,n,post,rfl,hi,hpre⟩ | ⟨all,hrun,hins,hi,hall⟩
      · exact .inl ⟨hn,node :: pre,n,post,rfl,by simpa using hi,hbig⟩
      · exact .inr (.inl ⟨he,node :: pre,n,post,rfl,by simpa using hi,hc pre hpre⟩)
      · exact .inr (.inr ⟨all,hrun,by simpa using hins,by simpa using hi,hc rest hall⟩)

end

end Loop

section Extending
variable (ctx : Context hash E) (t : ClassTable hash) (name : Sym) (methods : List (MethodNode Sym))

structure Target (target : Oop) (k m : RawClass hash) : Prop where
  bound : t.resolve name = some (.pointer target)
  notNil : target ≠ ctx.handles.nil
  record : t.classAt target = some k
  metaRecord : t.classAt k.cls = some m
  isClass : m.cls = ctx.handles.metaClass

variable {ctx t name methods}

theorem installed_nil (owner : Bool → Oop) (m n : ℕ) :
    Installed t owner [] (bySide (HashMap.new m) (HashMap.new n)) := by
  intro side sel
  cases side <;> simp [bySide,methodFor]

section Commit
variable {k m : RawClass hash}

end Commit

end Extending

end SmalltalkJit.Classes
