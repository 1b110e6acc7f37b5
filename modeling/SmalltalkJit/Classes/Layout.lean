import Mathlib.Data.List.Pairwise
import SmalltalkJit.Memory.Objects
import SmalltalkJit.Classes.Redefinition

/-! # Instance layouts along the hierarchy

A method reaches an instance variable of its class by an index, in instances of
every subclass too. The variables, the shape and the methods of a class are its
layout; a subclass fits when the superclass's variables are a prefix of its own
and stand in the same slots. A definition computes the layout of its class from
the superclass once, and a redefinition does not look at the subclasses. The
copy also carries the header tags of the new class object to the old one.
-/
namespace SmalltalkJit.Classes
open OpenAddressing Interleaving Memory Option List

variable {Sym E : Type} [DecidableEq Sym] {hash : Sym → ℕ}

def InstanceShape.slot (shape : InstanceShape) (index : ℕ) : ℕ := shape.offset + index

structure Layout (hash : Sym → ℕ) where
  instVars : List Sym
  shape : InstanceShape
  methods : Option (MethodDictionary hash)

def RawClass.layout (k : RawClass hash) : Layout hash := ⟨k.instanceVariables,k.instanceShape,k.methodDictionary⟩

def ClassTable.layoutOf (t : ClassTable hash) : Oop → Option (Layout hash) := t.field fun k => some k.layout

namespace Layout

def Uses (l : Layout hash) (x : ℕ × Sym) : Prop :=
  ∃ dict selector method, l.methods = some dict ∧ dict.at? selector = some method ∧
    x ∈ method.instVars

def Sized (l : Layout hash) : Prop := l.shape.varsSize.toNat = l.instVars.length

/-- The methods of `s` find their variables in instances of `c`. -/
structure Fits (c s : Layout hash) : Prop where
  vars : s.instVars <+: c.instVars
  sized : c.Sized
  slots : ∀ x, s.Uses x → c.shape.slot x.1 = s.shape.slot x.1 ∧ c.instVars[x.1]? = some x.2

def Own (l : Layout hash) : Prop := ∀ x, l.Uses x → l.instVars[x.1]? = some x.2

theorem fits_iff {c s : Layout hash} (hs : s.Own) : c.Fits s ↔ s.instVars <+: c.instVars ∧ c.Sized ∧
      (c.shape.offset = s.shape.offset ∨ ∀ x, ¬ s.Uses x) := by
  constructor
  · intro h
    refine ⟨h.vars,h.sized,?_⟩
    by_cases huse : ∃ x, s.Uses x
    · obtain ⟨x,hx⟩ := huse
      exact .inl (Nat.add_right_cancel (h.slots x hx).1)
    · exact .inr (not_exists.mp huse)
  · rintro ⟨hv,hsi,hoff⟩
    refine ⟨hv,hsi,fun x hx => ?_⟩
    rcases hoff with hoff | hn
    · refine ⟨congrArg (· + x.1) hoff,?_⟩
      obtain ⟨r,hr⟩ := hv
      have hlt := (List.getElem?_eq_some_iff.mp (hs x hx)).1
      rw [← hr,getElem?_append_left hlt]
      exact hs x hx
    · exact absurd hx (hn x)

end Layout

variable {methods : List (MethodNode Sym)}

section Compiling
variable {ctx : Context hash E} {t : ClassTable hash} {node : ClassNode Sym} {s : Super hash}
variable {p : Prepared hash}

theorem instVarIndex_eq_some {name : Sym} (h : instVarIndex vars name = some i) : vars[i]? = some name := by
  induction vars generalizing i with
  | nil => cases h
  | cons v r ih =>
    simp only [instVarIndex] at h
    cases hr : instVarIndex r name with
    | some =>
      rw [hr] at h
      cases h
      exact ih hr
    | none =>
      rw [hr] at h
      obtain ⟨rfl,rfl⟩ : v = name ∧ 0 = i := by simpa using h
      rfl

theorem instVarIndex_eq_none_iff {name : Sym} : instVarIndex vars name = none ↔ name ∉ vars := by
  induction vars with
  | nil => simp [instVarIndex]
  | cons _ r ih =>
    cases hr : instVarIndex r name with
    | some =>
      have hmem := mem_of_getElem? (instVarIndex_eq_some hr)
      simp [instVarIndex,hr,hmem]
    | none => simp [instVarIndex,hr,ih.mp hr,eq_comm]

theorem mem_compileInstVars {x : ℕ × Sym} :
    x ∈ compileInstVars vars mentions ↔ x.2 ∈ mentions ∧ instVarIndex vars x.2 = some x.1 := by
  simp only [compileInstVars,mem_filterMap,map_eq_some_iff]
  constructor
  · rintro ⟨n,hn,i,hi,rfl⟩
    exact ⟨hn,hi⟩
  · rintro ⟨hn,hi⟩
    exact ⟨x.2,hn,x.1,hi,rfl⟩

def ClassNode.MentionsNone (node : ClassNode Sym) (vars : List Sym) : Prop :=
  ∀ m ∈ node.methods, m.classSide = false → ∀ name ∈ m.mentions, name ∉ vars

structure Computes (ctx : Context hash E) (node : ClassNode Sym) (s : Super hash)
    (shape : InstanceShape) (inst cls : Layout hash) : Prop where
  vars : inst.instVars = declareVariables ctx node.vars s.record.instanceVariables
  shape : inst.shape = shape.withVars inst.instVars.length
  metaVars : cls.instVars = s.metaRecord.instanceVariables
  metaShape : cls.shape = s.metaRecord.instanceShape
  own : inst.Own
  metaOwn : cls.Own
  uses : (∀ x, ¬ inst.Uses x) ↔ node.MentionsNone inst.instVars

theorem compileMethods_ok {m : RawClass hash} (hc : t.classAt cls = some k) (hm : t.classAt metaClass = some m)
    (h : compileMethods ctx t cls metaClass methods = some (.ok dicts)) :
    methods.Pairwise (fun a b => ¬ a.Clashes b) ∧ ∀ side selector, (dicts side).at? selector =
      (methodFor methods side selector).map (compiled t (bySide cls metaClass)) := by
  have hown : ∀ side, (t.classAt (bySide cls metaClass side)).isSome := by
    intro side
    cases side
    · simp [bySide,hc]
    · simp [bySide,hm]
  have hno : Installable ctx t (bySide cls metaClass) (fun _ => none) [] := ⟨by simp,by simp,.nil⟩
  unfold compileMethods at h
  rcases installMethods_spec hown methods hno (installed_nil _ 6 5) with ⟨hn,-⟩ | ⟨⟨e,he⟩,-⟩ | ⟨adds,hrun,hins,hi,-⟩
  · rw [hn] at h
    cases h
  · rw [he] at h
    cases h
  · rw [hrun] at h
    cases h
    exact ⟨hi.distinct,hins⟩

theorem methodFor_eq_some
    (h : methodFor methods side selector = some m) : m ∈ methods ∧ m.classSide = side ∧ m.selector = selector := by
  have hp := find?_some h
  simp only [Bool.and_eq_true,decide_eq_true_eq] at hp
  exact ⟨mem_of_find?_eq_some h,hp⟩

theorem methodFor_self (hdis : methods.Pairwise fun a b => ¬ a.Clashes b) (hm : m ∈ methods) :
    methodFor methods m.classSide m.selector = some m := by
  cases hf : methodFor methods m.classSide m.selector with
  | none => exact absurd ⟨rfl,rfl⟩ (methodFor_eq_none_iff.mp hf m hm)
  | some =>
    obtain ⟨hm',hs,hsel⟩ := methodFor_eq_some hf
    have : Std.Symm fun a b : MethodNode Sym => ¬ a.Clashes b := ⟨fun a b hab hba => hab ⟨hba.1.symm,hba.2.symm⟩⟩
    by_contra hne
    exact hdis.forall hm' hm (fun he => hne (congrArg some he)) ⟨hs,hsel⟩

theorem uses_compiled_iff {l : Layout hash} {dict : MethodDictionary hash}
    (hl : l.methods = some dict) (hk : t.classAt (owner side) = some k) (hv : l.instVars = k.instanceVariables)
    (hdis : methods.Pairwise fun a b => ¬ a.Clashes b)
    (hat : ∀ selector, dict.at? selector = (methodFor methods side selector).map (compiled t owner)) {x : ℕ × Sym} :
    l.Uses x ↔ ∃ m ∈ methods, m.classSide = side ∧ x.2 ∈ m.mentions ∧ instVarIndex l.instVars x.2 = some x.1 := by
  have hc : ∀ m : MethodNode Sym, m.classSide = side → (x ∈ (compiled t owner m).instVars ↔ x.2 ∈ m.mentions ∧
        instVarIndex l.instVars x.2 = some x.1) := by
    intro m hs
    simp [compiled,hs,hk,hv,mem_compileInstVars]
  constructor
  · rintro ⟨dict',selector,method,hd,hm,hx⟩
    obtain rfl : dict = dict' := by simpa [hl] using hd
    rw [hat] at hm
    obtain ⟨m,hfor,rfl⟩ := map_eq_some_iff.mp hm
    obtain ⟨hmem,hs,-⟩ := methodFor_eq_some hfor
    exact ⟨m,hmem,hs,(hc m hs).mp hx⟩
  · rintro ⟨m,hmem,hs,hx⟩
    refine ⟨dict,m.selector,compiled t owner m,hl,?_,(hc m hs).mpr hx⟩
    rw [hat,← hs,methodFor_self hdis hmem,map_some]

theorem prepare_computes (h : prepare ctx t node s = some (.ok p)) : ∃ shape,
      processPragmas t node.pragmas s.record.instanceShape = (.ok shape : Except (CompileError Sym E) InstanceShape) ∧
      Computes ctx node s shape p.record.layout p.metaRecord.layout := by
  unfold prepare at h
  split at h
  · cases h
  · rename_i shape hsh
    refine ⟨shape,hsh,?_⟩
    obtain ⟨r,hr,hp⟩ := map_eq_some_iff.mp h
    cases r with
    | error => cases hp
    | ok dicts =>
      cases hp
      have hmet := (set_classAt_other ({ t with next := t.next+2 }.set t.next
        (newMetaClass ctx s (t.next+1))) _ (newClass s t.next node.name shape
        (declareVariables ctx node.vars s.record.instanceVariables))
        (Nat.succ_ne_self t.next).symm).trans (set_classAt_self _ _ _)
      obtain ⟨hdis,hat⟩ := compileMethods_ok (set_classAt_self _ _ _) hmet hr
      have hu : ∀ {l : Layout hash} {x}, l.methods = some (dicts false) →
          l.instVars = declareVariables ctx node.vars s.record.instanceVariables →
          (l.Uses x ↔ ∃ m ∈ node.methods, m.classSide = false ∧ x.2 ∈ m.mentions ∧
            instVarIndex l.instVars x.2 = some x.1) := fun hl hv =>
        uses_compiled_iff hl (set_classAt_self _ _ _) hv hdis (hat false)
      refine ⟨rfl,rfl,rfl,rfl,?_,?_,?_⟩
      · intro x hx
        obtain ⟨m,-,-,-,hi⟩ := (hu rfl rfl).mp hx
        exact instVarIndex_eq_some hi
      · intro x hx
        obtain ⟨m,-,-,-,hi⟩ := (uses_compiled_iff rfl hmet rfl hdis (hat true)).mp hx
        exact instVarIndex_eq_some hi
      · constructor
        · intro hno m hm hs n hna hmem
          obtain ⟨i,hi⟩ := ne_none_iff_exists'.mp (fun hn => instVarIndex_eq_none_iff.mp hn hmem)
          exact hno (i,n) ((hu rfl rfl).mpr ⟨m,hm,hs,hna,hi⟩)
        · intro hme x hx
          obtain ⟨m,hm,hs,hna,hi⟩ := (hu rfl rfl).mp hx
          exact hme m hm hs x.2 hna (mem_of_getElem? (instVarIndex_eq_some hi))

section Computed
variable {shape : InstanceShape} {inst cls l : Layout hash} (h : Computes ctx node s shape inst cls)
include h

theorem Computes.sized_iff : inst.Sized ↔ inst.instVars.length < 256 := by
  rw [Layout.Sized,h.shape]
  simp only [InstanceShape.withVars,UInt8.toNat_ofNat']
  omega

theorem Computes.offset : inst.shape.offset = shape.offset := by
  rw [h.shape]
  rfl

theorem Computes.fits_superClass_iff (hs : s.record.layout.Own) :
    inst.Fits s.record.layout ↔ inst.instVars.length < 256 ∧
      (shape.offset = s.record.instanceShape.offset ∨ ∀ x, ¬ s.record.layout.Uses x) := by
  have hv : s.record.layout.instVars <+: inst.instVars := by
    rw [h.vars]
    exact prefix_append _ _
  rw [Layout.fits_iff hs,h.sized_iff,h.offset]
  exact and_iff_right hv

theorem Computes.fits_self_iff : inst.Fits inst ↔ inst.instVars.length < 256 := by
  rw [Layout.fits_iff h.own,h.sized_iff]
  simp

theorem Computes.fits_iff : l.Fits inst ↔ l.Sized ∧ inst.instVars <+: l.instVars ∧
    (l.shape.offset = shape.offset ∨ node.MentionsNone inst.instVars) := by
  rw [Layout.fits_iff h.own,h.offset,h.uses,and_left_comm]

theorem Computes.meta_sized_iff : cls.Sized ↔ s.metaRecord.layout.Sized := by
  rw [Layout.Sized,h.metaVars,h.metaShape]
  rfl

theorem Computes.meta_fits_iff (hs : s.metaRecord.layout.Own) :
    cls.Fits s.metaRecord.layout ↔ s.metaRecord.layout.Sized := by
  rw [Layout.fits_iff hs,h.meta_sized_iff,h.metaVars,h.metaShape]
  constructor
  · exact fun hfit => hfit.2.1
  · exact fun hsi => ⟨prefix_refl _,hsi,.inl rfl⟩

end Computed

end Compiling

def ClassTable.Live (t : ClassTable hash) (c : Oop) : Prop := t.IsClass c ∨ ∃ c', t.IsClass c' ∧ t.metaOf c' = some c

/-- The classes and metaclasses below `d` that a redefinition of `d` leaves in place. -/
def ClassTable.Child (t : ClassTable hash) (d c : Oop) : Prop :=
  (t.IsClass c ∧ c ≠ d ∨ ∃ c', t.IsClass c' ∧ c' ≠ d ∧ t.metaOf c' = some c) ∧ t.superOf c = some d

structure Consistent (t : ClassTable hash) : Prop where
  fits : ∀ c x, t.Live c → t.superOf c = some x →
    ∃ l m, t.layoutOf c = some l ∧ t.layoutOf x = some m ∧ l.Fits m
  own : ∀ o l, t.layoutOf o = some l → l.Own

section Definitions
variable {ctx : Context hash E} {t t' : ClassTable hash} {node : ClassNode Sym} {s : Super hash}
variable {d : Oop} {dicts : Bool → MethodDictionary hash}

theorem Consistent.vars_prefix (h : Consistent t) (hc : t.Live c)
    (hx : t.superOf c = some x) (hlow : (t.layoutOf c).map Layout.instVars = some low)
    (hup : (t.layoutOf x).map Layout.instVars = some up) : up <+: low := by
  obtain ⟨l,m,hl,hm,hfit⟩ := h.fits c x hc hx
  rw [hl,map_some,some.injEq] at hlow
  rw [hm,map_some,some.injEq] at hup
  rw [← hlow,← hup]
  exact hfit.vars

theorem ClassTable.Child.live (h : t.Child d c) : t.Live c := by
  rcases h.1 with ⟨hc,-⟩ | ⟨c',hc',-,hm⟩
  · exact .inl hc
  · exact .inr ⟨c',hc',hm⟩

def Lays (t t' : ClassTable hash) (d : Oop) (inst cls : Layout hash) : Prop :=
  ∀ o, t'.layoutOf o = if o = d ∨ o = t.next+1 then some inst
    else if o = t.next then some cls else t.layoutOf o

theorem lays_of_installs (h : Installs ctx t p name t3 d) :
    Lays t (linkClass t3 s t.next d) d p.record.layout p.metaRecord.layout := by
  intro o
  have hk := field_linkClass (g := fun k : RawClass hash => some k.layout) (fun _ _ => rfl)
    (fun _ _ => rfl) (fun _ _ => rfl) t3 s t.next d o
  exact hk.trans (h.field _ o)

section Effect
variable {inst cls : Layout hash} (hreg : Regular ctx.handles t) (hb : Built ctx t t' s d dicts)
variable (hp : Placed ctx t s d) (hlays : Lays t t' d inst cls)
include hreg hlays

theorem Lays.keep (ho : (t.classAt o).isSome) (hd : o ≠ d) : t'.layoutOf o = t.layoutOf o := by
  obtain ⟨h0,h1⟩ := ne_new (hreg.lt_next ho)
  rw [hlays,if_neg (by simp [hd,h1]),if_neg h0]

omit hlays in
include hp in
theorem Placed.metaClass_lt : s.metaClass < t.next := by
  cases hr : s.isRoot with
  | true =>
    rw [hp.root hr]
    exact hreg.class_lt hreg.classClass
  | false =>
    obtain ⟨hs,hm⟩ := hp.superClass hr
    exact hreg.meta_lt hs hm

theorem Consistent.fits_keep (hcon : Consistent t) (hc : t.Live c) (hd : c ≠ d) (hx : t.superOf c = some x)
    (hxd : x ≠ d) : ∃ l m, t'.layoutOf c = some l ∧ t'.layoutOf x = some m ∧ l.Fits m := by
  obtain ⟨l,m,hl,hm,hfit⟩ := hcon.fits c x hc hx
  refine ⟨l,m,?_,?_,hfit⟩
  · exact (Lays.keep hreg hlays (isSome_of_field hl) hd).trans hl
  · exact (Lays.keep hreg hlays (isSome_of_field hm) hxd).trans hm

include hb hp in
theorem Consistent.step_iff (hcon : Consistent t) (hi : inst.Own) (hcls : cls.Own) : Consistent t' ↔
      (s.isRoot = false → ∃ m, (if s.superClass = d then some inst else t.layoutOf s.superClass) =
        some m ∧ inst.Fits m) ∧
      (∃ m, (if s.metaClass = d then some inst else t.layoutOf s.metaClass) = some m ∧ cls.Fits m) ∧
      ∀ c, t.Child d c → ∃ l, t.layoutOf c = some l ∧ l.Fits inst := by
  have hdn := hp.ne_next hreg
  have hs : t'.layoutOf d = some inst := by simp [hlays d]
  have hnew : t'.layoutOf t.next = some cls := by simp [hlays t.next,hdn.symm]
  have hbe : ∀ x, x < t.next → t'.layoutOf x = if x = d then some inst else t.layoutOf x := by
    intro x hx
    obtain ⟨h0,h1⟩ := ne_new hx
    rw [hlays]
    by_cases hxd : x = d
    · simp [hxd]
    · simp [hxd,h0,h1]
  have hch : ∀ c, t.Child d c → t'.Live c ∧ t'.superOf c = some d ∧ t'.layoutOf c = t.layoutOf c := by
    rintro c ⟨⟨hc,hcd⟩ | ⟨c',hc',hcd,hm⟩,hsup⟩
    · refine ⟨.inl ((hb.isClass_iff hreg hp).mpr (.inl hc)),?_,Lays.keep hreg hlays (isSome_of_field hsup) hcd⟩
      rw [hb.superOf_class hreg hc hcd,hsup]
    · refine ⟨.inr ⟨c',(hb.isClass_iff hreg hp).mpr (.inl hc'),?_⟩,?_,?_⟩
      · rw [hb.metaOf_class hreg hc' hcd,hm]
      · rw [hb.superOf_meta hreg hp hc' hm,hsup]
      · exact Lays.keep hreg hlays (isSome_of_field hsup) (hb.meta_ne hreg hp hc' hm).1
  constructor
  · intro h
    refine ⟨fun hr => ?_,?_,fun c hc => ?_⟩
    · obtain ⟨l,m,hl,hm,hfit⟩ := h.fits d s.superClass
        (.inl ((hb.isClass_iff hreg hp).mpr (.inr rfl))) (hb.superOf_self hr)
      rw [hbe _ (hreg.class_lt (hp.superClass hr).1)] at hm
      obtain rfl : inst = l := by simpa [hs] using hl
      exact ⟨m,hm,hfit⟩
    · obtain ⟨l,m,hl,hm,hfit⟩ := h.fits t.next s.metaClass
        (.inr ⟨d,(hb.isClass_iff hreg hp).mpr (.inr rfl),by simp [hb.metaOf]⟩)
        (by simp [hb.superOf,hdn.symm])
      rw [hbe _ (hp.metaClass_lt hreg)] at hm
      obtain rfl : cls = l := by simpa [hnew] using hl
      exact ⟨m,hm,hfit⟩
    · obtain ⟨hli,hsup,hsa⟩ := hch c hc
      obtain ⟨l,m,hl,hm,hfit⟩ := h.fits c d hli hsup
      obtain rfl : inst = m := by simpa [hs] using hm
      exact ⟨l,hsa ▸ hl,hfit⟩
  · rintro ⟨hsuper,hmet,hchildren⟩
    have hbelowD : ∀ c, t.Child d c → ∃ l m, t'.layoutOf c = some l ∧ t'.layoutOf d = some m ∧ l.Fits m := by
      intro c hc
      obtain ⟨l,hl,hfit⟩ := hchildren c hc
      exact ⟨l,inst,(hch c hc).2.2.trans hl,hs,hfit⟩
    constructor
    · intro c x hc hx
      rcases hc with hc | ⟨c',hc',hm⟩
      · by_cases hcd : c = d
        · subst hcd
          obtain ⟨hr,rfl⟩ := hb.superOf_eq_some hx
          obtain ⟨m,hm,hfit⟩ := hsuper hr
          exact ⟨inst,m,hs,(hbe _ (hreg.class_lt (hp.superClass hr).1)).trans hm,hfit⟩
        · obtain ⟨hold,heq⟩ := hb.class_of_ne hreg hp hc hcd
          rw [heq] at hx
          by_cases hxd : x = d
          · subst hxd
            exact hbelowD c ⟨.inl ⟨hold,hcd⟩,hx⟩
          · exact hcon.fits_keep hreg hlays (.inl hold) hcd hx hxd
      · by_cases hcd : c' = d
        · subst hcd
          obtain rfl : t.next = c := by simpa [hb.metaOf] using hm
          obtain rfl : s.metaClass = x := by simpa [hb.superOf,hdn.symm] using hx
          obtain ⟨m,hm,hfit⟩ := hmet
          exact ⟨cls,m,hnew,(hbe _ (hp.metaClass_lt hreg)).trans hm,hfit⟩
        · have hold := (hb.class_of_ne hreg hp hc' hcd).1
          rw [hb.metaOf_class hreg hold hcd] at hm
          rw [hb.superOf_meta hreg hp hold hm] at hx
          by_cases hxd : x = d
          · subst hxd
            exact hbelowD c ⟨.inr ⟨c',hold,hcd,hm⟩,hx⟩
          · exact hcon.fits_keep hreg hlays (.inr ⟨c',hold,hm⟩) (hb.meta_ne hreg hp hold hm).1 hx hxd
    · intro o l hl
      rw [hlays] at hl
      split at hl
      · cases hl
        exact hi
      · split at hl
        · cases hl
          exact hcls
        · exact hcon.own o l hl

end Effect

/-- A definition whose layout agrees with the superclass and with the classes below. `vars` and
`shape` are what the definition declares. -/
structure Agrees (ctx : Context hash E) (t : ClassTable hash) (node : ClassNode Sym) (s : Super hash)
    (shape : InstanceShape) (vars : List Sym) : Prop where
  count : s.isRoot = false → vars.length < 256
  offset : s.isRoot = false → t.redefines ctx.handles node.name ≠ some s.superClass →
    shape.offset = s.record.instanceShape.offset ∨ ∀ x, ¬ s.record.layout.Uses x
  metaSized : s.metaRecord.layout.Sized
  below : ∀ d, t.redefines ctx.handles node.name = some d → ∀ c l, t.Child d c →
    t.layoutOf c = some l →
    vars <+: l.instVars ∧ (l.shape.offset = shape.offset ∨ node.MentionsNone vars)
  metaBelow : t.redefines ctx.handles node.name = some s.metaClass →
    vars <+: s.metaRecord.instanceVariables ∧
      (s.metaRecord.instanceShape.offset = shape.offset ∨ node.MentionsNone vars)

def Compatible (ctx : Context hash E) (t : ClassTable hash) (node : ClassNode Sym) : Prop :=
  ∀ s shape, resolveSuperClass ctx t node = some (.ok s) →
    processPragmas t node.pragmas s.record.instanceShape =
      (.ok shape : Except (CompileError Sym E) InstanceShape) →
    Agrees ctx t node s shape (declareVariables ctx node.vars s.record.instanceVariables)

theorem layoutOf_record (h : t.classAt o = some k) : t.layoutOf o = some k.layout := by
  simp [ClassTable.layoutOf,ClassTable.field,h]

theorem definition_consistent_iff (hreg : Regular ctx.handles t) (hcon : Consistent t)
    (h : defineClass ctx t node = some (t',.ok d)) : Consistent t' ↔ Compatible ctx t node := by
  obtain ⟨s,p,dicts,hs,hpre,-,-,hp,hb,hpl,-⟩ := exists_built hreg h
  have hlays : Lays t t' d p.record.layout p.metaRecord.layout := by
    obtain ⟨s',p',t3,hs',hpre',hi,rfl⟩ := defineClass_ok h
    obtain rfl : s = s' := by simpa [hs] using hs'
    obtain rfl : p = p' := by simpa [hpre] using hpre'
    exact lays_of_installs (installClass_ok hi)
  obtain ⟨shape,hsh,hco⟩ := prepare_computes hpre
  have hu : Compatible ctx t node ↔ Agrees ctx t node s shape p.record.layout.instVars := by
    rw [hco.vars]
    constructor
    · exact fun hall => hall s shape hs hsh
    · intro ha s' shape' hs' hsh'
      obtain rfl : s = s' := by simpa [hs] using hs'
      obtain rfl : shape = shape' := by simpa [hsh] using hsh'
      exact ha
  have hre : ∀ x, x < t.next → (x = d ↔ t.redefines ctx.handles node.name = some x) := by
    intro x hx
    rcases hpl with hd | ⟨hd,rfl⟩
    · simp [hd,eq_comm]
    · simpa [hd] using (ne_new hx).2
  have hmeta : t.classAt s.metaClass = some s.metaRecord := by
    rcases resolveSuperClass_ok hs with ⟨-,-,-,hm⟩ | ⟨_,-,-,-,-,-,-,hm⟩
    · exact hm
    · exact hm
  have hsup : s.isRoot = false → t.classAt s.superClass = some s.record := by
    intro hr
    rcases resolveSuperClass_ok hs with ⟨-,hro,-⟩ | ⟨_,-,-,-,-,hrec,-⟩
    · simp [hr] at hro
    · exact hrec
  have hmet := hcon.own _ _ (layoutOf_record hmeta)
  rw [hu,hcon.step_iff hreg hb hp hlays hco.own hco.metaOwn]
  have hf : (s.isRoot = false → ∃ m, (if s.superClass = d then some p.record.layout
      else t.layoutOf s.superClass) = some m ∧ p.record.layout.Fits m) ↔
      (s.isRoot = false → p.record.layout.instVars.length < 256 ∧
        (t.redefines ctx.handles node.name ≠ some s.superClass →
          shape.offset = s.record.instanceShape.offset ∨ ∀ x, ¬ s.record.layout.Uses x)) := by
    refine forall_congr' fun hr => ?_
    have hlt := hreg.class_lt (hp.superClass hr).1
    by_cases hd : s.superClass = d
    · rw [if_pos hd]
      simp only [some.injEq,exists_eq_left',hco.fits_self_iff]
      exact ⟨fun hlen => ⟨hlen,fun hne => absurd ((hre _ hlt).mp hd) hne⟩,And.left⟩
    · rw [if_neg hd,layoutOf_record (hsup hr)]
      simp only [some.injEq,exists_eq_left',hco.fits_superClass_iff (hcon.own _ _ (layoutOf_record (hsup hr)))]
      have hne := (hre _ hlt).not.mp hd
      exact ⟨fun hfit => ⟨hfit.1,fun _ => hfit.2⟩,fun hfit => ⟨hfit.1,hfit.2 hne⟩⟩
  have hse : (∃ m, (if s.metaClass = d then some p.record.layout
      else t.layoutOf s.metaClass) = some m ∧ p.metaRecord.layout.Fits m) ↔
      s.metaRecord.layout.Sized ∧ (t.redefines ctx.handles node.name = some s.metaClass →
        p.record.layout.instVars <+: s.metaRecord.instanceVariables ∧
          (s.metaRecord.instanceShape.offset = shape.offset ∨ node.MentionsNone p.record.layout.instVars)) := by
    have hlt := hp.metaClass_lt hreg
    by_cases hd : s.metaClass = d
    · rw [if_pos hd]
      simp only [some.injEq,exists_eq_left',hco.fits_iff,hco.meta_sized_iff,hco.metaVars,hco.metaShape]
      have hred := (hre _ hlt).mp hd
      exact ⟨fun hfit => ⟨hfit.1,fun _ => hfit.2⟩,fun hfit => ⟨hfit.1,hfit.2 hred⟩⟩
    · rw [if_neg hd,layoutOf_record hmeta]
      simp only [some.injEq,exists_eq_left',hco.meta_fits_iff hmet]
      have hne := (hre _ hlt).not.mp hd
      exact ⟨fun hsi => ⟨hsi,fun hred => absurd hred hne⟩,And.left⟩
  have ht : (∀ c, t.Child d c → ∃ l, t.layoutOf c = some l ∧ l.Fits p.record.layout) ↔
      ∀ d', t.redefines ctx.handles node.name = some d' → ∀ c l, t.Child d' c →
        t.layoutOf c = some l → p.record.layout.instVars <+: l.instVars ∧
          (l.shape.offset = shape.offset ∨ node.MentionsNone p.record.layout.instVars) := by
    constructor
    · intro hall d' hd' c l hc hl
      obtain rfl : d = d' := by
        rcases hpl with hd | ⟨hd,-⟩
        · simpa [hd] using hd'
        · simp [hd] at hd'
      obtain ⟨l',hl',hfit⟩ := hall c hc
      obtain rfl : l = l' := by simpa [hl] using hl'
      exact (hco.fits_iff.mp hfit).2
    · -- an object below `d` shows that `d` is there already
      intro hall c hc
      obtain ⟨l,m,hl,hm,hfit⟩ := hcon.fits c d hc.live hc.2
      have hred := (hre d (hreg.lt_next (isSome_of_field hm))).mp rfl
      exact ⟨l,hl,hco.fits_iff.mpr ⟨hfit.sized,hall d hred c l hc hl⟩⟩
  rw [hf,hse,ht]
  constructor
  · rintro ⟨h1,⟨h2,h3⟩,h4⟩
    exact ⟨fun hr => (h1 hr).1,fun hr => (h1 hr).2,h2,h4,h3⟩
  · intro ha
    exact ⟨fun hr => ⟨ha.count hr,ha.offset hr⟩,⟨ha.metaSized,ha.metaBelow⟩, ha.below⟩

def define (ctx : Context hash E) (t : ClassTable hash) (node : ClassNode Sym) : Option (ClassTable hash) :=
  (defineClass ctx t node).map Prod.fst

def CompatibleStep (ctx : Context hash E) (t : ClassTable hash) (node : ClassNode Sym) : Prop :=
  ∀ t' d, defineClass ctx t node = some (t',.ok d) → Compatible ctx t node

theorem Consistent.define (h : Regular ctx.handles t ∧ Consistent t) (hok : CompatibleStep ctx t node)
    (hs : Classes.define ctx t node = some t') : Regular ctx.handles t' ∧ Consistent t' := by
  obtain ⟨⟨t'',r⟩,hr,rfl⟩ := map_eq_some_iff.mp hs
  cases r with
  | error =>
    rw [defineClass_error hr]
    exact h
  | ok =>
    obtain ⟨s,p,dicts,-,-,-,-,hp,hb,-,hbi⟩ := exists_built h.1 hr
    exact ⟨hb.regular h.1 hp hbi,(definition_consistent_iff h.1 h.2 hr).mpr (hok _ _ hr)⟩

end Definitions

section Headers
variable {T : Type}

/-- The words of a `RawClass` behind its header. -/
def rawClassWords : ℕ := 10

def redefineMutate (h : Heap T) (target replacement : Oop) : Option (Heap T) :=
  (h.objects target).bind fun old => (h.objects replacement).bind fun new =>
    if rawClassWords ≤ old.body.length ∧ rawClassWords ≤ new.body.length then
      some (h.set target
        { new with body := new.body.take rawClassWords ++ old.body.drop rawClassWords })
    else none

def refersToYoung (object : RawObject) : Bool :=
  isNewObject object.cls ||
    (object.body.take rawClassWords).any fun w => isPointer w && isNewObject (asObject w)

structure HeaderSound (h : Heap T) (o : Oop) (object : RawObject) : Prop where
  tag : object.tags.remembered = true ↔ h.Remembers o
  edge : isOldObject o → refersToYoung object → h.Remembers o

def HeadersSound (h : Heap T) (classes : Set Oop) : Prop :=
  ∀ o ∈ classes, ∀ object, h.objects o = some object → HeaderSound h o object

/-- The copied header says of the target what is true of it. -/
def CopiesHeader (h : Heap T) (target replacement : Oop) : Prop :=
  ∀ old new, h.objects target = some old → h.objects replacement = some new →
    new.tags.remembered = old.tags.remembered ∧
      (isOldObject target → refersToYoung new → new.tags.remembered = true)

theorem redefineMutate_headers_iff
    (ht : target ∈ classes) (hso : HeadersSound h classes) (hc : redefineMutate h target replacement = some h') :
    HeadersSound h' classes ↔ CopiesHeader h target replacement := by
  obtain ⟨old,hold,hc⟩ := bind_eq_some_iff.mp hc
  obtain ⟨new,hnew,hc⟩ := bind_eq_some_iff.mp hc
  simp only [ite_none_right_eq_some,some.injEq] at hc
  obtain ⟨⟨-,hlen⟩,rfl⟩ := hc
  have hyo : refersToYoung { new with body := new.body.take rawClassWords ++ old.body.drop rawClassWords } =
      refersToYoung new := by
    have hta : (new.body.take rawClassWords ++ old.body.drop rawClassWords).take rawClassWords =
        new.body.take rawClassWords := take_left' (length_take_of_le hlen)
    simp only [refersToYoung,hta]
  have htag := (hso target ht old hold).tag
  constructor
  · intro ha old' new' hold' hnew'
    obtain rfl : old = old' := by simpa [hold] using hold'
    obtain rfl : new = new' := by simpa [hnew] using hnew'
    have hsel := ha target ht _ (set_objects_self _ _ _)
    have hs : new.tags.remembered = true ↔ old.tags.remembered = true :=
      hsel.tag.trans ((set_remembers _ _ _ _).trans htag.symm)
    refine ⟨Bool.eq_iff_iff.mpr hs,fun hO hy => ?_⟩
    exact hsel.tag.mpr (hsel.edge hO (hyo ▸ hy))
  · intro hcon o ho object hobj
    obtain ⟨hs,he⟩ := hcon old new hold hnew
    by_cases hot : o = target
    · subst hot
      rw [set_objects_self] at hobj
      cases hobj
      refine ⟨?_,fun hO hy => ?_⟩
      · rw [set_remembers,← htag,← hs]
      · rw [set_remembers,← htag,← hs]
        exact he hO (hyo ▸ hy)
    · rw [set_objects_other _ _ hot] at hobj
      obtain ⟨htag',he'⟩ := hso o ho object hobj
      exact ⟨htag',he'⟩

end Headers

/-- In every sequence of compatible definitions the layouts stay consistent, a further definition
keeps them so exactly when it is compatible, and the copy of a redefinition keeps the header
invariants of the class objects exactly when the copied header is true of the target. -/
theorem definitions_keep_layouts {T : Type} {ctx : Context hash E} {t t1 : ClassTable hash}
    {nodes : List (ClassNode Sym)} (hreg : Regular ctx.handles t) (hcon : Consistent t)
    (hok : Meets (define ctx) (CompatibleStep ctx) t nodes) (hrun : perform (define ctx) t nodes = some t1) :
    Consistent t1 ∧
    (∀ node t2 d, defineClass ctx t1 node = some (t2,.ok d) →
      (Consistent t2 ↔ Compatible ctx t1 node)) ∧
    ∀ (h h' : Heap T) (classes : Set Oop) (target replacement : Oop), target ∈ classes →
      HeadersSound h classes → redefineMutate h target replacement = some h' →
      (HeadersSound h' classes ↔ CopiesHeader h target replacement) := by
  obtain ⟨hreg1,hcon1⟩ := invariant_of_meets (P := fun t => Regular ctx.handles t ∧ Consistent t)
    (fun _ _ _ h hx hs => Consistent.define h hx hs) ⟨hreg,hcon⟩ hok hrun
  refine ⟨hcon1,?_,?_⟩
  · intro node t2 d h
    exact definition_consistent_iff hreg1 hcon1 h
  · intro h h' classes target replacement ht hso hc
    exact redefineMutate_headers_iff ht hso hc

section Seed

def varsNode (name superName : ℕ) (vars : List ℕ) : ClassNode ℕ := ⟨name,some superName,[],vars,[]⟩

theorem seed_consistent : Consistent seed := by
  have hla : ∀ o l, seed.layoutOf o = some l → l = ⟨[],⟨0,0,0,0,0,16⟩,some (.new 3)⟩ := by
    intro o l hl
    obtain ⟨k,hk,hl⟩ := bind_eq_some_iff.mp hl
    simp only [seed] at hk
    split at hk <;> cases hk <;> cases hl <;> rfl
  have hu : ∀ o l, seed.layoutOf o = some l → ∀ x, ¬ l.Uses x := by
    rintro o l hl x ⟨dict,sel,method,hd,hm,-⟩
    rw [hla o l hl] at hd
    cases hd
    simp at hm
  have hs : ∀ c x, seed.superOf c = some x → (seed.layoutOf c).isSome ∧ (seed.layoutOf x).isSome := by
    intro c x hx
    obtain ⟨k,hk,hx⟩ := bind_eq_some_iff.mp hx
    simp only [seed] at hk
    split at hk <;> cases hk <;> cases hx <;> exact ⟨rfl,rfl⟩
  constructor
  · intro c x _ hx
    obtain ⟨hc,hx⟩ := hs c x hx
    obtain ⟨l,hl⟩ := isSome_iff_exists.mp hc
    obtain ⟨m,hm⟩ := isSome_iff_exists.mp hx
    refine ⟨l,m,hl,hm,?_⟩
    rw [Layout.fits_iff fun y hy => absurd hy (hu x m hm y),hla c l hl,hla x m hm]
    exact ⟨prefix_refl _,rfl,.inl rfl⟩
  · intro o l hl x hx
    exact absurd hx (hu o l hl x)

/-- The class 1 gets the variable 20, and its new subclass 2 the variable 21 behind it. -/
theorem definitions_keep_layouts_subclass : ∃ t1 t2, perform (define seedContext) seed [varsNode 1 0 [20]] = some t1 ∧
      defineClass seedContext t1 (varsNode 2 1 [21]) = some (t2,.ok 19) ∧
      (t2.layoutOf 19).map Layout.instVars = some [20,21] ∧ Consistent t2 := by
  have hrun : ∃ t1 t2, perform (define seedContext) seed [varsNode 1 0 [20]] = some t1 ∧
      defineClass seedContext t1 (varsNode 2 1 [21]) = some (t2,.ok 19) ∧
      (t2.layoutOf 19).map Layout.instVars = some [20,21] ∧
      Compatible seedContext t1 (varsNode 2 1 [21]) := by
    refine ⟨_,_,rfl,rfl,rfl,?_⟩
    intro s shape hs hsh
    cases hs
    cases hsh
    refine ⟨fun _ => ?_,fun _ _ => .inl rfl,rfl,fun d hd => ?_,fun hd => ?_⟩
    · decide
    · cases hd
    · cases hd
  obtain ⟨t1,t2,hrun,hdef,hv,hc⟩ := hrun
  have hok : Meets (define seedContext) (CompatibleStep seedContext) seed [varsNode 1 0 [20]] := by
    refine ⟨fun t' d _ s shape hs hsh => ?_,trivial⟩
    cases hs
    cases hsh
    refine ⟨fun _ => ?_,fun _ _ => .inl rfl,rfl,fun d hd => ?_,fun hd => ?_⟩
    · decide
    · cases hd
    · cases hd
  have hall := definitions_keep_layouts (T := Unit) seed_wellFormed.toRegular seed_consistent hok hrun
  exact ⟨t1,t2,hrun,hdef,hv,(hall.2.1 _ _ _ hdef).mpr hc⟩

/-- The class 1 is redefined with two other variables above its subclass 2: its method 6 was compiled
to the index 1 for its variable 23, which is the subclass's own variable 21. And an old class object
gets the young class word of its replacement without being remembered. -/
theorem redefinition_tears_layouts :
    (∃ t1 t2, perform (define seedContext) seed [varsNode 1 0 [20],varsNode 2 1 [21]] = some t1 ∧
      defineClass seedContext t1 ⟨1,some 0,[],[22,23],[⟨6,none,[23]⟩]⟩ = some (t2,.ok 17) ∧
      t2.IsClass 19 ∧ t2.superOf 19 = some 17 ∧
      (t2.layoutOf 19).map Layout.instVars = some [20,21] ∧
      (t2.layoutOf 17).map Layout.instVars = some [22,23] ∧
      t2.instMethod 6 17 = some ⟨⟨6,none,[23]⟩,21,[(1,23)]⟩ ∧ ¬ Consistent t2) ∧
    ∃ h h' : Heap Unit, HeadersSound h {16} ∧ redefineMutate h 16 40 = some h' ∧
      ¬ HeadersSound h' {16} := by
  constructor
  · refine ⟨_,_,rfl,rfl,⟨18,rfl,rfl⟩,rfl,rfl,rfl,rfl,fun hcon => ?_⟩
    have hv := hcon.vars_prefix (c := 19) (.inl ⟨18,rfl,rfl⟩) rfl rfl rfl
    exact absurd hv (by decide)
  · refine ⟨⟨fun o => if o = 16 then some ⟨32,0,.none,replicate 10 0⟩
      else if o = 40 then some ⟨56,0,.none,replicate 10 0⟩ else none,.empty,fun _ => some .empty⟩,
      _,?_,rfl,?_⟩
    · rintro o rfl object hobj
      cases hobj
      exact ⟨by simp [Heap.Remembers,Tags.none],fun _ hy => absurd hy (by decide)⟩
    · intro hs
      have hmem := (hs 16 rfl _ rfl).edge (by decide) (by decide)
      simp [Heap.Remembers,Heap.set] at hmem

end Seed

end SmalltalkJit.Classes
