import Mathlib.Data.Nat.Basic
import Mathlib.Logic.Function.Basic
import SmalltalkJit.Bytecode.Instr
import SmalltalkJit.Lib.Interleaving

/-! # Global names and the associations they are compiled to

A namespace has bindings of its own, sees those of its imports and falls back on
the core. A compiled occurrence of a global name keeps the association that the
name resolved to when its method was compiled. A name that resolves nowhere is
bound to nil in the namespace being loaded. Bindings are only ever added, so an
occurrence goes wrong exactly when its name is bound later in a dictionary that
is asked before the one it was found in.
-/
namespace SmalltalkJit.Globals
open Interleaving List Option Function

variable {Ns Sym : Type} [DecidableEq Ns]

structure Context (Ns Sym : Type) where
  core : Ns
  imports : Ns → List Ns
  isUppercase : Sym → Bool

/-- A global name in a compiled method, with the association in the literals of the method. -/
structure Occurrence (Ns Sym : Type) where
  ns : Ns
  name : Sym
  assoc : Oop
  deriving DecidableEq

inductive Global
  | nil
  | cls
  | other
  deriving DecidableEq

/-- The dictionaries of the namespaces, the values of the associations, and the occurrences in the
methods that have been compiled and installed. -/
structure Globals (Ns Sym : Type) where
  bindings : Ns → Sym → Option Oop
  value : Oop → Global
  next : ℕ
  occurrences : List (Occurrence Ns Sym)

section Operations
variable [DecidableEq Sym] (ctx : Context Ns Sym)

def namespaceResolveAssoc (g : Globals Ns Sym) (ns : Ns) (name : Sym) : Option Oop :=
  if ns = ctx.core then g.bindings ctx.core name
  else
    match g.bindings ns name with
    | some assoc => some assoc
    | none =>
      match (ctx.imports ns).findSome? fun d => g.bindings d name with
      | some assoc => some assoc
      | none => g.bindings ctx.core name

/-- An association that exists keeps its identity. -/
def namespaceAtPutObject (g : Globals Ns Sym) (ns : Ns) (name : Sym) (value : Global) : Oop × Globals Ns Sym :=
  match g.bindings ns name with
  | some assoc => (assoc,{ g with value := update g.value assoc value })
  | none => (g.next,
      { g with
        bindings := update g.bindings ns
          (update (g.bindings ns) name (some g.next))
        value := update g.value g.next value
        next := g.next+1 })

/-- No result is an undefined variable. -/
def analyzeGlobalVar (g : Globals Ns Sym) (ns : Ns) (name : Sym) : Option (Oop × Globals Ns Sym) :=
  match namespaceResolveAssoc ctx g ns name with
  | some assoc => some (assoc,g)
  | none => if ctx.isUppercase name then some (namespaceAtPutObject g ns name .nil) else none

/-- What the compiler does with the methods of a definition, as far as it touches globals: it calls
`analyzeGlobalVar` with a name, goes on in one way if the name is bound and in another if it is
undefined, and ends with the methods or with an error. -/
inductive Analysis (Sym : Type)
  | done (compiled : Bool)
  | analyzeVar (name : Sym) (bound undefined : Analysis Sym)

namespace Analysis

def names (defined : Sym → Bool) : Analysis Sym → List Sym
  | done _ => []
  | analyzeVar name bound undefined => name :: if defined name then bound.names defined else undefined.names defined

def compiles (defined : Sym → Bool) : Analysis Sym → Bool
  | done compiled => compiled
  | analyzeVar name bound undefined => if defined name then bound.compiles defined else undefined.compiles defined

end Analysis

/-- The occurrences that `bindAssociation` puts in the methods, and whether the methods compile. -/
def analyze (ctx : Context Ns Sym) (ns : Ns) (g : Globals Ns Sym) :
    Analysis Sym → Globals Ns Sym × List (Occurrence Ns Sym) × Bool
  | .done compiled => (g,[],compiled)
  | .analyzeVar name bound undefined =>
    match analyzeGlobalVar ctx g ns name with
    | some (assoc,g) =>
      let (g,occurrences,compiled) := analyze ctx ns g bound
      (g,⟨ns,name,assoc⟩ :: occurrences,compiled)
    | none => analyze ctx ns g undefined

inductive Header (Sym : Type)
  | definition (name : Sym) (superName : Option Sym)
  | extension (name : Sym)

/-- A class definition or an extension that is loaded into a namespace. What its methods ask for
depends on the variables of the classes that exist. -/
structure ClassNode (Ns Sym : Type) where
  ns : Ns
  header : Header Sym
  methods : Globals Ns Sym → Analysis Sym

/-- `resolveSuperClass`, and the tests at the start of `extendClass`. -/
def resolves (g : Globals Ns Sym) (ns : Ns) : Header Sym → Bool
  | .definition _ none => true
  | .definition _ (some superName) =>
    match namespaceResolveAssoc ctx g ns superName with
    | none => false
    | some assoc => g.value assoc ≠ .nil
  | .extension name =>
    match namespaceResolveAssoc ctx g ns name with
    | none => false
    | some assoc => g.value assoc = .cls

/-- A redefinition copies the new class over the old one and leaves the binding alone. -/
def installClass (g : Globals Ns Sym) (ns : Ns) : Header Sym → Globals Ns Sym
  | .extension _ => g
  | .definition name _ =>
    match g.bindings ns name with
    | none => (namespaceAtPutObject g ns name .cls).2
    | some assoc => if g.value assoc = .nil then (namespaceAtPutObject g ns name .cls).2 else g

/-- The methods of a definition with an error are dropped, but not the names that were bound to nil
for them. -/
def buildClassIn (g : Globals Ns Sym) (node : ClassNode Ns Sym) : Globals Ns Sym :=
  if resolves ctx g node.ns node.header then
    match analyze ctx node.ns g (node.methods g) with
    | (g,_,false) => g
    | (g,occurrences,true) =>
      let g := installClass g node.ns node.header
      { g with occurrences := g.occurrences ++ occurrences }
  else g

def Right (g : Globals Ns Sym) (o : Occurrence Ns Sym) : Prop :=
  namespaceResolveAssoc ctx g o.ns o.name = some o.assoc

instance (ctx : Context Ns Sym) (g : Globals Ns Sym) (o : Occurrence Ns Sym) :
    Decidable (Right ctx g o) := inferInstanceAs (Decidable (_ = _))

def chain (ns : Ns) : List Ns := if ns = ctx.core then [ctx.core] else ns :: (ctx.imports ns ++ [ctx.core])

/-- The dictionaries that are asked before the one that holds the association of an occurrence. -/
def before (g : Globals Ns Sym) (o : Occurrence Ns Sym) : List Ns :=
  (chain ctx o.ns).takeWhile fun d => g.bindings d o.name ≠ some o.assoc

def defined (g : Globals Ns Sym) (ns : Ns) (name : Sym) : Bool :=
  ctx.isUppercase name || (namespaceResolveAssoc ctx g ns name).isSome

def mentioned (g : Globals Ns Sym) (node : ClassNode Ns Sym) : List Sym :=
  if resolves ctx g node.ns node.header then (node.methods g).names (defined ctx g node.ns) else []

def Compiles (g : Globals Ns Sym) (node : ClassNode Ns Sym) : Prop :=
  resolves ctx g node.ns node.header ∧ (node.methods g).compiles (defined ctx g node.ns)

/-- The name has no binding in the namespace and gets one: it is mentioned and resolves nowhere, or a
class is installed under it. -/
def Binds (g : Globals Ns Sym) (node : ClassNode Ns Sym) (name : Sym) : Prop :=
  g.bindings node.ns name = none ∧
    ((name ∈ mentioned ctx g node ∧ ctx.isUppercase name ∧
        namespaceResolveAssoc ctx g node.ns name = none) ∨
      (∃ superName, node.header = .definition name superName) ∧ Compiles ctx g node)

/-- No name is bound ahead of the association of an occurrence: neither of a compiled one nor of one
in the methods of the definition itself. -/
def Unshadowed (g : Globals Ns Sym) (node : ClassNode Ns Sym) : Prop :=
  ∀ name, Binds ctx g node name →
    (∀ o ∈ g.occurrences, o.name = name → node.ns ∉ before ctx g o) ∧
      (name ∈ mentioned ctx g node → namespaceResolveAssoc ctx g node.ns name = none)

end Operations

section Lookup
variable {ctx : Context Ns Sym} {g : Globals Ns Sym} {ns : Ns} {name : Sym}

theorem namespaceResolveAssoc_eq_findSome :
    namespaceResolveAssoc ctx g ns name = (chain ctx ns).findSome? fun d => g.bindings d name := by
  unfold namespaceResolveAssoc chain
  split
  · cases h : g.bindings ctx.core name <;> simp [h]
  · cases hown : g.bindings ns name with
    | some => simp [hown]
    | none =>
      rw [List.findSome?_cons,hown,List.findSome?_append]
      cases hi : (ctx.imports ns).findSome? fun d => g.bindings d name with
      | some => rfl
      | none => cases hc : g.bindings ctx.core name <;> simp [hc]

/-- A name resolves to an association that is in one of the dictionaries, with nothing in those that
are asked before. -/
theorem findSome?_eq_some_iff_takeWhile [DecidableEq β] {b : β} {l : List α} :
    l.findSome? f = some b ↔ (∃ a ∈ l, f a = some b) ∧ ∀ a ∈ l.takeWhile fun a => f a ≠ some b, f a = none := by
  induction l with
  | nil => simp
  | cons a _ ih =>
    cases hf : f a with
    | none => simpa [List.findSome?_cons,takeWhile_cons,hf] using ih
    | some c =>
      by_cases hc : c = b
      · simp [hf,hc]
      · simp [hf,hc]

theorem right_iff {o : Occurrence Ns Sym} : Right ctx g o ↔
    (∃ d ∈ chain ctx o.ns, g.bindings d o.name = some o.assoc) ∧
      ∀ d ∈ before ctx g o, g.bindings d o.name = none := by
  unfold Right before
  rw [namespaceResolveAssoc_eq_findSome,findSome?_eq_some_iff_takeWhile]

end Lookup

structure WellFormed (g : Globals Ns Sym) : Prop where
  bindings : ∀ d name assoc, g.bindings d name = some assoc → assoc < g.next
  occurrences : ∀ o ∈ g.occurrences, o.assoc < g.next

structure Grows (g g' : Globals Ns Sym) (ns : Ns) (B : Sym → Prop) : Prop where
  next_le : g.next ≤ g'.next
  kept : ∀ d name assoc, assoc < g.next →
    (g'.bindings d name = some assoc ↔ g.bindings d name = some assoc)
  unbound : ∀ d name, g'.bindings d name = none ↔ g.bindings d name = none ∧ ¬ (d = ns ∧ B name)
  bindings : ∀ d name assoc, g'.bindings d name = some assoc → assoc < g'.next

namespace Grows
variable {ctx : Context Ns Sym} {g g' g'' : Globals Ns Sym} {ns : Ns} {B C : Sym → Prop}
  {o : Occurrence Ns Sym} {name : Sym}

section
omit [DecidableEq Ns]

theorem refl (hg : WellFormed g) (hB : ∀ name, B name → g.bindings ns name ≠ none) : Grows g g ns B where
  next_le := le_rfl
  kept _ _ _ _ := Iff.rfl
  unbound d name := by
    refine ⟨fun h => ⟨h,?_⟩,And.left⟩
    rintro ⟨rfl,hn⟩
    exact hB name hn h
  bindings := hg.bindings

variable (h : Grows g g' ns B)
include h

theorem wellFormed (hg : WellFormed g) (hoc : g'.occurrences = g.occurrences) : WellFormed g' where
  bindings := h.bindings
  occurrences o ho := by
    rw [hoc] at ho
    exact lt_of_lt_of_le (hg.occurrences o ho) h.next_le

theorem trans (h' : Grows g' g'' ns C) : Grows g g'' ns fun name => B name ∨ C name where
  next_le := le_trans h.next_le h'.next_le
  kept d name assoc ha := (h'.kept d name assoc (lt_of_lt_of_le ha h.next_le)).trans (h.kept d name assoc ha)
  unbound d name := by
    rw [h'.unbound,h.unbound]
    tauto
  bindings := h'.bindings

theorem congr (hBC : ∀ name, g.bindings ns name = none → (C name ↔ B name)) :
    Grows g g' ns C where
  next_le := h.next_le
  kept := h.kept
  unbound d name := by
    rw [h.unbound]
    refine and_congr_right fun hn => not_congr (and_congr_right ?_)
    rintro rfl
    exact (hBC name hn).symm
  bindings := h.bindings

end

variable (h : Grows g g' ns B)
include h

theorem before_eq (ho : o.assoc < g.next) : before ctx g' o = before ctx g o := by
  unfold before
  congr 1
  funext d
  simp only [ne_eq,h.kept d o.name o.assoc ho]

theorem right_iff (ho : o.assoc < g.next) (hr : Right ctx g o) :
    Right ctx g' o ↔ (B o.name → ns ∉ before ctx g o) := by
  obtain ⟨⟨d,hd,ha⟩,hb⟩ := Globals.right_iff.mp hr
  rw [Globals.right_iff,h.before_eq ho]
  constructor
  · rintro ⟨-,hn⟩ hB hns
    exact ((h.unbound ns o.name).mp (hn ns hns)).2 ⟨rfl,hB⟩
  · intro hB
    refine ⟨⟨d,hd,(h.kept d o.name o.assoc ho).mpr ha⟩,fun e he => ?_⟩
    refine (h.unbound e o.name).mpr ⟨hb e he,?_⟩
    rintro ⟨rfl,hna⟩
    exact hB hna he

end Grows

variable [DecidableEq Sym]

section Loading
variable {ctx : Context Ns Sym} {g : Globals Ns Sym} {ns : Ns} {name : Sym}

def Vivified (ctx : Context Ns Sym) (g : Globals Ns Sym) (ns : Ns) (names : List Sym) (name : Sym) : Prop :=
  name ∈ names ∧ ctx.isUppercase name ∧ namespaceResolveAssoc ctx g ns name = none

structure Analyzed (ctx : Context Ns Sym) (ns : Ns) (g : Globals Ns Sym) (a : Analysis Sym)
    (r : Globals Ns Sym × List (Occurrence Ns Sym) × Bool) : Prop where
  grows : Grows g r.1 ns (Vivified ctx g ns (a.names (defined ctx g ns)))
  occurrences : r.1.occurrences = g.occurrences
  right : ∀ o ∈ r.2.1, o.ns = ns ∧ o.name ∈ a.names (defined ctx g ns) ∧ defined ctx g ns o.name ∧
    Right ctx r.1 o
  found : ∀ name ∈ a.names (defined ctx g ns), defined ctx g ns name → ∃ o ∈ r.2.1, o.name = name
  compiled : r.2.2 = a.compiles (defined ctx g ns)

omit [DecidableEq Sym] in
theorem Analyzed.head (hr : Analyzed ctx ns g' a r)
    (hg' : WellFormed g') (hdef : defined ctx g' ns = defined ctx g ns)
    (hname : defined ctx g ns name) (ha : namespaceResolveAssoc ctx g' ns name = some assoc)
    (hg : Grows g r.1 ns (Vivified ctx g ns (name :: a.names (defined ctx g ns))))
    (hoc : g'.occurrences = g.occurrences) :
    Analyzed ctx ns g (.analyzeVar name a b) (r.1,⟨ns,name,assoc⟩ :: r.2.1,r.2.2) := by
  have hna : (Analysis.analyzeVar name a b).names (defined ctx g ns) = name :: a.names (defined ctx g ns) := by
    simp [Analysis.names,hname]
  have hri : Right ctx g' ⟨ns,name,assoc⟩ := ha
  obtain ⟨⟨d,-,hd⟩,-⟩ := right_iff.mp hri
  refine ⟨by rwa [hna],hr.occurrences.trans hoc,?_,?_,?_⟩
  · rw [hna]
    rintro o (_ | ⟨_,ho⟩)
    · refine ⟨rfl,mem_cons_self,hname,(hr.grows.right_iff (hg'.bindings _ _ _ hd) hri).mpr ?_⟩
      rintro ⟨-,-,hno⟩
      simp [ha] at hno
    · obtain ⟨hns,hmem,hdefined,hri⟩ := hr.right o ho
      rw [hdef] at hmem hdefined
      exact ⟨hns,mem_cons_of_mem _ hmem,hdefined,hri⟩
  · rw [hna]
    intro n hn hdefined
    obtain rfl | hn := mem_cons.mp hn
    · exact ⟨_,mem_cons_self,rfl⟩
    · obtain ⟨o,ho,hon⟩ := hr.found n (by rwa [hdef]) (by rwa [hdef])
      exact ⟨o,mem_cons_of_mem _ ho,hon⟩
  · rw [Analysis.compiles,if_pos hname,← hdef]
    exact hr.compiled

def Header.Defines (name : Sym) (header : Header Sym) : Prop := ∃ superName, header = .definition name superName

variable {node : ClassNode Ns Sym}

/-- What loading a definition does: names are bound, and the methods of a definition without an error
are there, with an occurrence for every name they mention. -/
structure Built (ctx : Context Ns Sym) (g : Globals Ns Sym) (node : ClassNode Ns Sym)
    (g' : Globals Ns Sym) (new : List (Occurrence Ns Sym)) : Prop where
  grows : Grows g g' node.ns (Binds ctx g node)
  occurrences : g'.occurrences = g.occurrences ++ new
  added : ∀ o ∈ new, o.name ∈ mentioned ctx g node ∧ o.assoc < g'.next ∧
    (Right ctx g' o ↔
      (Binds ctx g node o.name → namespaceResolveAssoc ctx g node.ns o.name = none))
  found : Compiles ctx g node → ∀ name ∈ mentioned ctx g node,
    namespaceResolveAssoc ctx g node.ns name ≠ none → ∃ o ∈ new, o.name = name

theorem Built.wellFormed
    (h : Built ctx g node g' new) (hg : WellFormed g) : WellFormed g' where
  bindings := h.grows.bindings
  occurrences o ho := by
    rw [h.occurrences,mem_append] at ho
    obtain ho | ho := ho
    · exact lt_of_lt_of_le (hg.occurrences o ho) h.grows.next_le
    · exact (h.added o ho).2.1

theorem Built.right_iff (h : Built ctx g node g' new) (hg : WellFormed g) (hri : ∀ o ∈ g.occurrences, Right ctx g o) :
    (∀ o ∈ g'.occurrences, Right ctx g' o) ↔ Unshadowed ctx g node := by
  have hold : ∀ o ∈ g.occurrences, (Right ctx g' o ↔ (Binds ctx g node o.name → node.ns ∉ before ctx g o)) :=
    fun o ho => h.grows.right_iff (hg.occurrences o ho) (hri o ho)
  rw [h.occurrences]
  constructor
  · intro hall name hb
    constructor
    · rintro o ho rfl
      exact (hold o ho).mp (hall o (mem_append_left _ ho)) hb
    · intro hn
      obtain hviv | ⟨-,hc⟩ := hb.2
      · exact hviv.2.2
      · by_contra hr
        obtain ⟨o,ho,rfl⟩ := h.found hc name hn hr
        exact hr ((h.added o ho).2.2.mp (hall o (mem_append_right _ ho)) hb)
  · intro hok o ho
    obtain ho | ho := mem_append.mp ho
    · exact (hold o ho).mpr fun hb => (hok o.name hb).1 o ho rfl
    · obtain ⟨hn,-,hiff⟩ := h.added o ho
      exact hiff.mpr fun hb => (hok o.name hb).2 hn

end Loading

end SmalltalkJit.Globals
