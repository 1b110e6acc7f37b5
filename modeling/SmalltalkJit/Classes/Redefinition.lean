import SmalltalkJit.Lib.Interleaving
import SmalltalkJit.Classes.Extension
import SmalltalkJit.Classes.Hierarchy

/-! # What a redefinition does to the subtree of a class

A definition builds a class and a metaclass, and a redefinition copies the new
class over the old one. Its effect on the class objects is written down once,
field by field. A hierarchy stays well formed, and the subtree of a redefined
class sees the new dictionaries on both sides, exactly when the class had no
subclasses and gets a superclass that is neither the class itself nor the one
that already lists it.
-/
namespace SmalltalkJit.Classes
open OpenAddressing AncestorSearch Interleaving List Classes Function Nat

variable {Sym E : Type} [DecidableEq Sym] {hash : Sym → ℕ}

section Parts
variable {ctx : Context hash E} {t : ClassTable hash} {node : ClassNode Sym} {s : Super hash}
variable {p : Prepared hash}

theorem resolveSuperClass_ok (h : resolveSuperClass ctx t node = some (.ok s)) :
    (node.superName = none ∧ s.isRoot = true ∧ s.metaClass = ctx.handles.classClass ∧
      t.classAt s.metaClass = some s.metaRecord) ∨
    ∃ name, node.superName = some name ∧ t.resolve name = some (.pointer s.superClass) ∧
      s.superClass ≠ ctx.handles.nil ∧ s.isRoot = false ∧ t.classAt s.superClass = some s.record ∧
      s.metaClass = s.record.cls ∧ t.classAt s.metaClass = some s.metaRecord := by
  unfold resolveSuperClass at h
  split at h
  · rename_i hn
    simp only [Option.bind_eq_some_iff,Option.map_eq_some_iff,Except.ok.injEq] at h
    obtain ⟨m,hm,k,-,rfl⟩ := h
    exact .inl ⟨hn,rfl,rfl,hm⟩
  · rename_i name hn
    split at h
    · cases h
    · cases h
    · rename_i o ho
      split at h
      · cases h
      · rename_i hnil
        simp only [Option.bind_eq_some_iff,Option.map_eq_some_iff,Except.ok.injEq] at h
        obtain ⟨k,hk,m,hm,rfl⟩ := h
        exact .inr ⟨name,hn,ho,hnil,rfl,hk,rfl,hm⟩

structure Allocates (ctx : Context hash E) (t : ClassTable hash) (s : Super hash) (p : Prepared hash)
    (dicts : Bool → MethodDictionary hash) : Prop where
  metaCls : p.metaRecord.cls = ctx.handles.metaClass
  metaSuper : p.metaRecord.superClass = some s.metaClass
  metaSubClasses : p.metaRecord.subClasses = []
  metaDict : p.metaRecord.methodDictionary = some (dicts true)
  cls : p.record.cls = t.next
  superClass : p.record.superClass = some s.superClass
  subClasses : p.record.subClasses = []
  dict : p.record.methodDictionary = some (dicts false)
  instanceClass : p.record.instanceClass = none

theorem prepare_ok (h : prepare ctx t node s = some (.ok p)) : ∃ dicts, Allocates ctx t s p dicts := by
  unfold prepare at h
  split at h
  · cases h
  · obtain ⟨r,-,hr⟩ := Option.map_eq_some_iff.mp h
    cases r with
    | error => cases hr
    | ok dicts =>
      cases hr
      exact ⟨dicts,rfl,rfl,rfl,rfl,rfl,rfl,rfl,rfl,rfl⟩

theorem defineClass_ok (h : defineClass ctx t node = some (t',.ok d)) : ∃ s p t3,
      resolveSuperClass ctx t node = some (.ok s) ∧ prepare ctx t node s = some (.ok p) ∧
      installClass ctx (allocate t p) node.name (t.next+1) p.record = some (t3,d) ∧ t' = linkClass t3 s t.next d := by
  unfold defineClass at h
  obtain ⟨rs,hs,h⟩ := Option.bind_eq_some_iff.mp h
  cases rs with
  | error => cases h
  | ok s =>
    obtain ⟨rp,hp,h⟩ := Option.bind_eq_some_iff.mp h
    cases rp with
    | error => cases h
    | ok p =>
      obtain ⟨⟨t3,d'⟩,hi,h⟩ := Option.map_eq_some_iff.mp h
      cases h
      exact ⟨s,p,t3,hs,hp,hi,rfl⟩

theorem defineClass_error (h : defineClass ctx t node = some (t',.error e)) : t' = t := by
  unfold defineClass at h
  obtain ⟨rs,-,h⟩ := Option.bind_eq_some_iff.mp h
  cases rs with
  | error =>
    cases h
    rfl
  | ok =>
    obtain ⟨rp,-,h⟩ := Option.bind_eq_some_iff.mp h
    cases rp with
    | error =>
      cases h
      rfl
    | ok =>
      obtain ⟨_,-,h⟩ := Option.map_eq_some_iff.mp h
      cases h

def ClassTable.redefines (t : ClassTable hash) (h : Handles) (name : Sym) : Option Oop :=
  match t.bindings name with
  | some (.pointer o) => if o = h.nil then none else some o
  | _ => none

theorem redefines_eq_some (hd : t.redefines h name = some d) : t.bindings name = some (.pointer d) ∧ d ≠ h.nil := by
  unfold ClassTable.redefines at hd
  split at hd
  · rename_i o ho
    split at hd
    · cases hd
    · rename_i hnil
      cases hd
      exact ⟨ho,hnil⟩
  · cases hd

/-- The class object is new, or a class that exists is overwritten. -/
structure Installs (ctx : Context hash E) (t : ClassTable hash) (p : Prepared hash) (name : Sym)
    (t3 : ClassTable hash) (d : Oop) : Prop where
  place : t.redefines ctx.handles name = none ∧ d = t.next+1 ∧
      t3.bindings = update t.bindings name (some (.pointer d)) ∨
    t.redefines ctx.handles name = some d ∧ ((allocate t p).classAt d).isSome ∧
      t3.bindings = t.bindings
  classAt : ∀ o, t3.classAt o = if o = d ∨ o = t.next+1 then some p.record
    else if o = t.next then some p.metaRecord else t.classAt o
  next : t3.next = t.next+2
  imported : t3.imported = t.imported

theorem allocate_classAt (t : ClassTable hash) (p : Prepared hash) (o : Oop) : (allocate t p).classAt o = if o =
      t.next+1 then some p.record else if o = t.next then some p.metaRecord else t.classAt o := by
  by_cases h1 : o = t.next+1
  · simp [allocate,h1]
  · by_cases h0 : o = t.next
    · simp [allocate,h0]
    · simp [allocate,h0,h1]

variable {t3 : ClassTable hash}

theorem installClass_ok
    (h : installClass ctx (allocate t p) name (t.next+1) p.record = some (t3,d)) : Installs ctx t p name t3 d := by
  have hb : (allocate t p).bindings = t.bindings := rfl
  have hnew : t.redefines ctx.handles name = none → t3 = { allocate t p with
      bindings := update t.bindings name (some (.pointer (t.next+1))) } →
      d = t.next+1 → Installs ctx t p name t3 d := by
    rintro hr rfl rfl
    refine ⟨.inl ⟨hr,rfl,rfl⟩,?_,rfl,rfl⟩
    intro o
    simp [allocate_classAt]
  unfold installClass at h
  rw [hb] at h
  split at h
  · rename_i hn
    simp only [Option.some.injEq,Prod.mk.injEq] at h
    exact hnew (by simp [ClassTable.redefines,hn]) h.1.symm h.2.symm
  · cases h
  · rename_i o ho
    split at h
    · rename_i hnil
      simp only [Option.some.injEq,Prod.mk.injEq] at h
      exact hnew (by simp [ClassTable.redefines,ho,hnil]) h.1.symm h.2.symm
    · rename_i hnil
      obtain ⟨k,hk,heq⟩ := Option.map_eq_some_iff.mp h
      cases heq
      refine ⟨.inr ⟨by simp [ClassTable.redefines,ho,hnil],by simp [hk],rfl⟩,?_,rfl,rfl⟩
      intro x
      by_cases hx : x = d
      · simp [hx]
      · simp [hx,allocate_classAt]

section Linking
variable {α : Type}

theorem field_addSubClass (hg : ∀ k l, g { k with subClasses := l } = g k) (t : ClassTable hash)
    (superClass cls o : Oop) : (addSubClass t superClass cls).field g o = t.field g o := by
  unfold addSubClass
  dsimp only
  split
  · rw [field_modify_of_eq _ _ (fun k => hg k _),field_modify_of_eq _ _ (fun k => hg k _)]
  · rw [field_modify_of_eq _ _ (fun k => hg k _)]

theorem subClassesOf_modify_of_ne (h : x ≠ o)
    (t : ClassTable hash) : (t.modify o f).subClassesOf x = t.subClassesOf x := by
  simp [ClassTable.subClassesOf,h]

theorem subClassesOf_addSubClass (hs : (t.classAt superClass).isSome) (ho : t.metaOf superClass ≠ some o) :
    (addSubClass t superClass cls).subClassesOf o = t.subClassesOf o ++ if o = superClass then [cls] else [] := by
  obtain ⟨k,hk⟩ := Option.isSome_iff_exists.mp hs
  have hm : o ≠ k.cls := by
    rintro rfl
    simp [ClassTable.metaOf,ClassTable.field,hk] at ho
  have hf : (t.modify superClass fun k => { k with subClasses := k.subClasses ++ [cls] }).subClassesOf o =
      t.subClassesOf o ++ if o = superClass then [cls] else [] := by
    by_cases h : o = superClass
    · subst h
      simp [ClassTable.subClassesOf,ClassTable.field,hk]
    · simp [subClassesOf_modify_of_ne h,h]
  rw [← hf]
  unfold addSubClass
  simp only [modify_classAt_self,hk,Option.map_some]
  split
  · rename_i k' _ hk' _
    cases hk'
    exact subClassesOf_modify_of_ne hm _
  · rfl

theorem field_enter (hsub : ∀ k l, g { k with subClasses := l } = g k)
    (hs : ∀ k o, g { k with superClass := o } = g k) (t : ClassTable hash) (s : Super hash) (cls o : Oop) :
    (if s.isRoot then t.modify cls fun k => { k with superClass := none }
      else addSubClass t s.superClass cls).field g o = t.field g o := by
  split
  · exact field_modify_of_eq _ _ (fun k => hs k _) o
  · exact field_addSubClass hsub t _ _ o

theorem field_linkClass (hsub : ∀ k l, g { k with subClasses := l } = g k)
    (hs : ∀ k o, g { k with superClass := o } = g k)
    (hi : ∀ k o, g { k with instanceClass := o } = g k) (t : ClassTable hash) (s : Super hash)
    (metaClass cls o : Oop) : (linkClass t s metaClass cls).field g o = t.field g o := by
  unfold linkClass
  rw [field_modify_of_eq _ _ (fun k => hi k _),field_enter hsub hs]

theorem superOf_linkClass (t : ClassTable hash) (s : Super hash) (metaClass cls o : Oop) :
    (linkClass t s metaClass cls).superOf o = if s.isRoot = true ∧ o = cls then none else t.superOf o := by
  have hk : ∀ k : RawClass hash, { k with instanceClass := some cls }.superClass = k.superClass := fun _ => rfl
  unfold linkClass ClassTable.superOf
  rw [field_modify_of_eq _ _ hk]
  cases s.isRoot with
  | false => simpa using field_addSubClass (fun _ _ => rfl) t s.superClass cls o
  | true =>
    by_cases ho : o = cls
    · subst ho
      simp [ClassTable.field]
    · simp [ho]

theorem instanceOf_linkClass (hm : (t.classAt metaClass).isSome) (s : Super hash) (cls o : Oop) :
    (linkClass t s metaClass cls).instanceOf o = if o = metaClass then some cls else t.instanceOf o := by
  obtain ⟨k,hk⟩ := Option.isSome_iff_exists.mp hm
  unfold linkClass ClassTable.instanceOf
  by_cases ho : o = metaClass
  · subst ho
    rw [field_modify_self,field_enter (fun _ _ => rfl) (fun _ _ => rfl)]
    simp [ClassTable.field,hk]
  · rw [field_modify_other _ _ _ ho,field_enter (fun _ _ => rfl) (fun _ _ => rfl),if_neg ho]

theorem subClassesOf_modify_of_eq (hf : ∀ k, (f k).subClasses = k.subClasses) (t : ClassTable hash) (x : Oop) :
    (t.modify o f).subClassesOf x = t.subClassesOf x := by
  have hk : ∀ k, some (f k).subClasses = some k.subClasses := fun k => congrArg some (hf k)
  rw [ClassTable.subClassesOf,field_modify_of_eq t (fun k => some k.subClasses) hk]
  rfl

theorem subClassesOf_linkClass
    (hs : s.isRoot = false → (t.classAt s.superClass).isSome ∧ t.metaOf s.superClass ≠ some o)
    (metaClass : Oop) : (linkClass t s metaClass cls).subClassesOf o =
      t.subClassesOf o ++ if s.isRoot = false ∧ o = s.superClass then [cls] else [] := by
  have hk : ∀ k : RawClass hash, { k with instanceClass := some cls }.subClasses = k.subClasses := fun _ => rfl
  unfold linkClass
  rw [subClassesOf_modify_of_eq hk]
  cases hr : s.isRoot with
  | true => simp [subClassesOf_modify_of_eq]
  | false => simpa using subClassesOf_addSubClass (hs hr).1 (hs hr).2

theorem classAt_isSome_linkClass (t : ClassTable hash) (s : Super hash) (metaClass cls o : Oop) :
    ((linkClass t s metaClass cls).classAt o).isSome = (t.classAt o).isSome := by
  have h := field_linkClass (g := fun _ => some ()) (fun _ _ => rfl) (fun _ _ => rfl) (fun _ _ => rfl)
    t s metaClass cls o
  have hs : ∀ t : ClassTable hash, (t.classAt o).isSome = (t.field (fun _ => some ()) o).isSome := by
    intro t
    cases hk : t.classAt o <;> simp [ClassTable.field,hk]
  rw [hs,hs,h]

end Linking

/-- Everything that a definition changes. The metaclass is `t.next`, the object behind it is the new
class, and `d` is what the name is bound to. -/
structure Built (ctx : Context hash E) (t t' : ClassTable hash) (s : Super hash) (d : Oop)
    (dicts : Bool → MethodDictionary hash) : Prop where
  metaOf : ∀ o, t'.metaOf o = if o = d ∨ o = t.next+1 then some t.next
    else if o = t.next then some ctx.handles.metaClass else t.metaOf o
  superOf : ∀ o, t'.superOf o = if o = d then (if s.isRoot then none else some s.superClass)
    else if o = t.next+1 then some s.superClass
    else if o = t.next then some s.metaClass else t.superOf o
  instanceOf : ∀ o, t'.instanceOf o = if o = t.next then some d
    else if o = d ∨ o = t.next+1 then none else t.instanceOf o
  dictOf : ∀ o, t'.dictOf o = if o = d ∨ o = t.next+1 then some (dicts false)
    else if o = t.next then some (dicts true) else t.dictOf o
  subClassesOf : ∀ o, o ≠ t.next → (s.isRoot = false → o ≠ s.metaClass) →
    t'.subClassesOf o = (if o = d ∨ o = t.next+1 then [] else t.subClassesOf o) ++
      if s.isRoot = false ∧ o = s.superClass then [d] else []
  present : ∀ o, (t'.classAt o).isSome = (decide (o = d ∨ o = t.next+1 ∨ o = t.next) ||
    (t.classAt o).isSome)
  next : t'.next = t.next+2
  imported : t'.imported = t.imported

theorem Installs.field (h : Installs ctx t p name t3 d) (g : RawClass hash → Option α) (o : Oop) : t3.field g o =
      if o = d ∨ o = t.next+1 then g p.record else if o = t.next then g p.metaRecord else t.field g o := by
  simp only [ClassTable.field,h.classAt]
  split
  · rfl
  · split <;> rfl

theorem linkClass_rest (t : ClassTable hash) (s : Super hash) (metaClass cls : Oop) :
    (linkClass t s metaClass cls).next = t.next ∧ (linkClass t s metaClass cls).imported = t.imported ∧
      (linkClass t s metaClass cls).bindings = t.bindings := by
  unfold linkClass addSubClass
  dsimp only
  split
  · exact ⟨rfl,rfl,rfl⟩
  · split <;> exact ⟨rfl,rfl,rfl⟩

theorem built_of_installs (hi : Installs ctx t p name t3 d) (ha : Allocates ctx t s p dicts) (hd : d ≠ t.next)
    (hs : s.isRoot = false → t.metaOf s.superClass = some s.metaClass ∧ s.superClass ≠ t.next) :
    Built ctx t (linkClass t3 s t.next d) s d dicts := by
  have hmet : t3.metaOf = fun o => if o = d ∨ o = t.next+1 then some t.next
      else if o = t.next then some ctx.handles.metaClass else t.metaOf o := by
    funext o
    simp [ClassTable.metaOf,hi.field,ha.cls,ha.metaCls]
  have hrec : (t3.classAt t.next).isSome := by simp [hi.classAt,hd.symm]
  constructor
  · intro o
    have h := field_linkClass (g := fun k => some k.cls) (fun _ _ => rfl) (fun _ _ => rfl)
      (fun _ _ => rfl) t3 s t.next d o
    exact h.trans (congrFun hmet o)
  · intro o
    rw [superOf_linkClass]
    by_cases hod : o = d
    · subst hod
      cases hr : s.isRoot <;> simp [ClassTable.superOf,hi.field,ha.superClass]
    · simp only [hod,and_false,if_false,ClassTable.superOf,hi.field,false_or,ha.superClass,ha.metaSuper]
  · intro o
    rw [instanceOf_linkClass hrec]
    by_cases ho : o = t.next
    · simp [ho]
    · simp [ho,ClassTable.instanceOf,hi.field,ha.instanceClass]
  · intro o
    have h := field_linkClass (g := RawClass.methodDictionary) (fun _ _ => rfl) (fun _ _ => rfl)
      (fun _ _ => rfl) t3 s t.next d o
    rw [ClassTable.dictOf,h,hi.field,ha.dict,ha.metaDict]
    rfl
  · intro o hn hm
    have hsub : t3.subClassesOf o = if o = d ∨ o = t.next+1 then [] else t.subClassesOf o := by
      simp only [ClassTable.subClassesOf,hi.field,ha.subClasses,hn,if_false]
      split <;> rfl
    rw [subClassesOf_linkClass,hsub]
    intro hr
    obtain ⟨hms,hne⟩ := hs hr
    have hpre : (t.classAt s.superClass).isSome := by
      cases hk : t.classAt s.superClass with
      | none => simp [ClassTable.metaOf,ClassTable.field,hk] at hms
      | some => rfl
    constructor
    · rw [hi.classAt]
      split
      · rfl
      · simpa [hne] using hpre
    · rw [hmet]
      simp only [hms,hne,if_false]
      split <;> simp [hn.symm,(hm hr).symm]
  · intro o
    rw [classAt_isSome_linkClass,hi.classAt]
    by_cases h1 : o = d ∨ o = t.next+1
    · rcases h1 with rfl | rfl <;> simp
    · obtain ⟨hod,ho1⟩ := not_or.mp h1
      by_cases h2 : o = t.next
      · simp [h2,hd.symm]
      · simp [hod,ho1,h2]
  · exact (linkClass_rest t3 s t.next d).1.trans hi.next
  · exact (linkClass_rest t3 s t.next d).2.1.trans hi.imported

end Parts

section WellFormed
variable {ctx : Context hash E} {t t' : ClassTable hash} {s : Super hash} {d : Oop}
variable {dicts : Bool → MethodDictionary hash}

variable {o : Oop}

theorem isSome_of_field (h : t.field g o = some a) : (t.classAt o).isSome := by
  obtain ⟨k,hk,-⟩ := Option.bind_eq_some_iff.mp h
  simp [hk]

theorem instanceOf_meta (hc : t.IsClass c) (hm : t.metaOf c = some m) : t.instanceOf m = some c := by
  obtain ⟨m',hm',hi⟩ := hc
  obtain rfl : m' = m := by simpa [hm'] using hm
  exact hi

theorem ne_new (h : o < t.next) : o ≠ t.next ∧ o ≠ t.next+1 := ⟨Nat.ne_of_lt h,Nat.ne_of_lt (Nat.lt_succ_of_lt h)⟩

section Regular
variable {h : Handles} (hwf : Regular h t)
include hwf

theorem Regular.lt_next (ho : (t.classAt o).isSome) : o < t.next := by
  by_contra hge
  simp [hwf.fresh o (Nat.le_of_not_lt hge)] at ho

variable (hc : t.IsClass c)
include hc

theorem Regular.class_lt : c < t.next := by
  obtain ⟨m,hm,-⟩ := hc
  exact hwf.lt_next (isSome_of_field hm)

theorem Regular.meta_lt (hm : t.metaOf c = some m) : m < t.next :=
  hwf.lt_next (isSome_of_field (instanceOf_meta hc hm))

theorem Regular.meta_ne (hm : t.metaOf c = some m) (hc' : t.IsClass c') : m ≠ c' := by
  rintro rfl
  have hi := instanceOf_meta hc hm
  simp [hwf.plain m hc'] at hi

end Regular

/-- Where a definition puts its class and what it knows of the superclass. -/
structure Placed (ctx : Context hash E) (t : ClassTable hash) (s : Super hash) (d : Oop) : Prop where
  place : d = t.next+1 ∨ t.IsClass d
  root : s.isRoot = true → s.metaClass = ctx.handles.classClass
  superClass : s.isRoot = false → t.IsClass s.superClass ∧ t.metaOf s.superClass = some s.metaClass

/-- The class is nobody's superclass, its superclass is another one and does not list it. -/
structure Detached (t : ClassTable hash) (s : Super hash) (d : Oop) : Prop where
  leaf : ∀ c, t.IsClass c → t.superOf c ≠ some d
  superClass : s.isRoot = false → s.superClass ≠ d ∧ d ∉ t.subClassesOf s.superClass

section Build
variable (hwf : Regular ctx.handles t) (hb : Built ctx t t' s d dicts)
include hwf hb

section Other
variable {c : Oop} (hc : t.IsClass c) (hne : c ≠ d)
include hc hne

theorem Built.metaOf_class : t'.metaOf c = t.metaOf c := by
  obtain ⟨h0,h1⟩ := ne_new (hwf.class_lt hc)
  simp [hb.metaOf,hne,h0,h1]

theorem Built.superOf_class : t'.superOf c = t.superOf c := by
  obtain ⟨h0,h1⟩ := ne_new (hwf.class_lt hc)
  simp [hb.superOf,hne,h0,h1]

theorem Built.dictOf_class : t'.dictOf c = t.dictOf c := by
  obtain ⟨h0,h1⟩ := ne_new (hwf.class_lt hc)
  simp [hb.dictOf,hne,h0,h1]

end Other

variable (hp : Placed ctx t s d)
include hp

omit hb in
theorem Placed.ne_next : d ≠ t.next := by
  rcases hp.place with rfl | hd
  · exact succ_ne_self t.next
  · exact Nat.ne_of_lt (hwf.class_lt hd)

theorem Built.meta_ne (hc : t.IsClass c) (hm : t.metaOf c = some m) : m ≠ d ∧ m ≠ t.next+1 ∧ m ≠ t.next := by
  obtain ⟨h0,h1⟩ := ne_new (hwf.meta_lt hc hm)
  refine ⟨?_,h1,h0⟩
  rcases hp.place with rfl | hd
  · exact h1
  · exact hwf.meta_ne hc hm hd

theorem Built.isClass_iff : t'.IsClass c ↔ t.IsClass c ∨ c = d := by
  have hd := hp.ne_next hwf
  constructor
  · rintro ⟨m,hm,hi⟩
    rw [hb.instanceOf] at hi
    by_cases hmn : m = t.next
    · rw [if_pos hmn,Option.some.injEq] at hi
      exact .inr hi.symm
    rw [if_neg hmn] at hi
    rw [hb.metaOf] at hm
    split at hm
    · exact absurd (Option.some.inj hm).symm hmn
    split at hm
    · -- the class of the new metaclass is a class, which has no instance class
      obtain rfl := Option.some.inj hm
      simp [hwf.plain _ hwf.metaClass] at hi
    · split at hi
      · cases hi
      · exact .inl ⟨m,hm,hi⟩
  · intro hor
    by_cases hcd : c = d
    · subst hcd
      exact ⟨t.next,by simp [hb.metaOf],by simp [hb.instanceOf]⟩
    · have hc := hor.resolve_right hcd
      obtain ⟨m,hm,hi⟩ := id hc
      obtain ⟨h1,h2,h3⟩ := hb.meta_ne hwf hp hc hm
      refine ⟨m,(hb.metaOf_class hwf hc hcd).trans hm,?_⟩
      rw [hb.instanceOf,if_neg h3,if_neg (by simp [h1,h2])]
      exact hi

theorem Built.subClassesOf_class (hc : t'.IsClass c) : t'.subClassesOf c = (if c = d then [] else t.subClassesOf c) ++
      if s.isRoot = false ∧ c = s.superClass then [d] else [] := by
  have hor := (hb.isClass_iff hwf hp).mp hc
  have hcn : c ≠ t.next := by
    rcases hor with hc | rfl
    · exact Nat.ne_of_lt (hwf.class_lt hc)
    · exact hp.ne_next hwf
  have hmet : s.isRoot = false → c ≠ s.metaClass := by
    intro hr
    obtain ⟨hs,hm⟩ := hp.superClass hr
    rcases hor with hc | rfl
    · exact (hwf.meta_ne hs hm hc).symm
    · exact (hb.meta_ne hwf hp hs hm).1.symm
  rw [hb.subClassesOf c hcn hmet]
  congr 1
  by_cases hcd : c = d
  · simp [hcd]
  · simp [hcd,(ne_new (hwf.class_lt (hor.resolve_right hcd))).2]

theorem Built.dictOf_meta (hc : t.IsClass c) (hm : t.metaOf c = some m) : t'.dictOf m = t.dictOf m := by
  obtain ⟨h1,h2,h3⟩ := hb.meta_ne hwf hp hc hm
  rw [hb.dictOf,if_neg (by simp [h1,h2]),if_neg h3]

theorem Built.superOf_meta (hc : t.IsClass c) (hm : t.metaOf c = some m) : t'.superOf m = t.superOf m := by
  obtain ⟨h1,h2,h3⟩ := hb.meta_ne hwf hp hc hm
  rw [hb.superOf,if_neg h1,if_neg h2,if_neg h3]

omit hwf hp in
theorem Built.superOf_self (hr : s.isRoot = false) : t'.superOf d = some s.superClass := by simp [hb.superOf,hr]

omit hwf hp in
theorem Built.superOf_root (hr : s.isRoot = true) : t'.superOf d = none := by simp [hb.superOf,hr]

omit hwf hp in
theorem Built.superOf_eq_some (hx : t'.superOf d = some x) : s.isRoot = false ∧ s.superClass = x := by
  cases hr : s.isRoot with
  | true => simp [hb.superOf_root hr] at hx
  | false => exact ⟨rfl,by simpa [hb.superOf_self hr] using hx⟩

theorem Built.class_of_ne (hc : t'.IsClass c) (hne : c ≠ d) : t.IsClass c ∧ t'.superOf c = t.superOf c := by
  have hold := ((hb.isClass_iff hwf hp).mp hc).resolve_right hne
  exact ⟨hold,hb.superOf_class hwf hold hne⟩

theorem Built.regular
    (hbi : ∀ name o, t'.bindings name = some (.pointer o) → t.bindings name = some (.pointer o) ∨ o = d) :
    Regular ctx.handles t' := by
  have hd := hp.ne_next hwf
  have hiff := fun {c} => hb.isClass_iff hwf hp (c := c)
  have hdle : d < t.next+2 := by
    rcases hp.place with rfl | hd
    · exact lt_succ_self _
    · exact lt_of_lt_of_le (hwf.class_lt hd) (le_add_right _ 2)
  have hn : ∀ name o, t'.bindings name = some (.pointer o) ∨
      t'.imported name = some (.pointer o) → (t.bindings name = some (.pointer o) ∨
        t.imported name = some (.pointer o)) ∨ o = d := by
    intro name o ho
    rw [hb.imported] at ho
    rcases ho with ho | ho
    · rcases hbi name o ho with ho | ho
      · exact .inl (.inl ho)
      · exact .inr ho
    · exact .inl (.inr ho)
  constructor
  · intro o ho
    rw [hb.next] at ho
    have h := hb.present o
    have ho0 : o ≠ t.next := fun h => by subst h; exact absurd ho (by simp)
    have ho1 : o ≠ t.next+1 := fun h => by subst h; exact absurd ho (by simp)
    have hod : o ≠ d := fun h => absurd (h ▸ hdle) (not_lt.mpr ho)
    rw [hwf.fresh o (le_trans (le_add_right _ 2) ho)] at h
    simpa [ho0,ho1,hod] using h
  · exact hiff.mpr (.inl hwf.classClass)
  · exact hiff.mpr (.inl hwf.metaClass)
  · intro c hc
    by_cases hcd : c = d
    · simp [hb.instanceOf,hcd,hd]
    · have hold := (hb.class_of_ne hwf hp hc hcd).1
      obtain ⟨h0,h1⟩ := ne_new (hwf.class_lt hold)
      simpa [hb.instanceOf,hcd,h0,h1] using hwf.plain c hold
  · intro c m hc hm
    by_cases hcd : c = d
    · subst hcd
      obtain rfl : t.next = m := by simpa [hb.metaOf] using hm
      simp [hb.dictOf,hd.symm]
    · have hold := (hb.class_of_ne hwf hp hc hcd).1
      rw [hb.metaOf_class hwf hold hcd] at hm
      rw [hb.dictOf_class hwf hold hcd,hb.dictOf_meta hwf hp hold hm]
      exact hwf.dictionaries c m hold hm
  · intro c x hc hx
    by_cases hcd : c = d
    · subst hcd
      obtain ⟨hr,rfl⟩ := hb.superOf_eq_some hx
      exact hiff.mpr (.inl (hp.superClass hr).1)
    · obtain ⟨hold,heq⟩ := hb.class_of_ne hwf hp hc hcd
      exact hiff.mpr (.inl (hwf.superClass c x hold (heq ▸ hx)))
  · intro x hx c hc
    rw [hb.subClassesOf_class hwf hp hx] at hc
    rw [hb.next]
    rcases mem_append.mp hc with hc | hc
    · by_cases hxd : x = d
      · simp [hxd] at hc
      · rw [if_neg hxd] at hc
        exact lt_of_lt_of_le (hwf.lists x (hb.class_of_ne hwf hp hx hxd).1 c hc) (le_add_right _ 2)
    · split at hc
      · rw [mem_singleton.mp hc]
        exact hdle
      · simp at hc
  · intro name o ho
    rw [hb.next]
    rcases hn name o ho with ho | rfl
    · exact lt_of_lt_of_le (hwf.known name o ho) (le_add_right _ 2)
    · exact hdle
  · intro name o ho hnil hs
    by_cases hod : o = d
    · exact hiff.mpr (.inr hod)
    · have hold := (hn name o ho).resolve_right hod
      obtain ⟨h0,h1⟩ := ne_new (hwf.known name o hold)
      rw [hb.present] at hs
      exact hiff.mpr (.inl (hwf.bound name o hold hnil (by simpa [hod,h0,h1] using hs)))

omit hwf in
theorem Built.wellFormed (hwf : WellFormed ctx.handles t) (hdet : Detached t s d)
    (hbi : ∀ name o, t'.bindings name = some (.pointer o) → t.bindings name = some (.pointer o) ∨ o = d) :
    WellFormed ctx.handles t' := by
  have hreg := hwf.toRegular
  have hd := hp.ne_next hreg
  have hiff := fun {c} => hb.isClass_iff hreg hp (c := c)
  have hsel : t'.superOf d ≠ some d := by
    intro hx
    obtain ⟨hr,heq⟩ := hb.superOf_eq_some hx
    exact (hdet.superClass hr).1 heq
  refine ⟨hb.regular hreg hp hbi,?_,?_,?_⟩
  · intro c m hc hm
    by_cases hcd : c = d
    · subst hcd
      obtain rfl : t.next = m := by simpa [hb.metaOf] using hm
      have hmet : t'.superOf t.next = some s.metaClass := by simp [hb.superOf,hd.symm]
      rw [hmet]
      cases hr : s.isRoot with
      | true => simp [hb.superOf_root hr,hp.root hr]
      | false =>
        obtain ⟨hs,hsm⟩ := hp.superClass hr
        simp [hb.superOf_self hr,hb.metaOf_class hreg hs (hdet.superClass hr).1,hsm]
    · obtain ⟨hold,heq⟩ := hb.class_of_ne hreg hp hc hcd
      rw [hb.metaOf_class hreg hold hcd] at hm
      rw [heq,hb.superOf_meta hreg hp hold hm,hwf.parallel c m hold hm]
      cases hsup : t.superOf c with
      | none => rfl
      | some x =>
        have hxd : x ≠ d := by
          rintro rfl
          exact hdet.leaf c hold hsup
        exact (hb.metaOf_class hreg (hwf.superClass c x hold hsup) hxd).symm
  · exact hwf.acyclic.update (fun a => hb.class_of_ne hreg hp) hdet.leaf hsel
  · intro c x hc hx
    by_cases hcd : c = d
    · subst hcd
      obtain ⟨hr,rfl⟩ := hb.superOf_eq_some hx
      obtain ⟨hne,hnot⟩ := hdet.superClass hr
      rw [hb.subClassesOf_class hreg hp (hiff.mpr (.inl (hp.superClass hr).1))]
      simp [hne,hr,count_eq_zero_of_not_mem hnot]
    · obtain ⟨hold,heq⟩ := hb.class_of_ne hreg hp hc hcd
      rw [heq] at hx
      have hxd : x ≠ d := by
        rintro rfl
        exact hdet.leaf c hold hx
      rw [hb.subClassesOf_class hreg hp (hiff.mpr (.inl (hwf.superClass c x hold hx))),if_neg hxd,
        count_append,hwf.listed c x hold hx]
      split <;> simp [Ne.symm hcd]

end Build

end WellFormed

section Sequences
variable {ctx : Context hash E} {t t' : ClassTable hash}

theorem exists_built (hwf : Regular ctx.handles t)
    (h : defineClass ctx t node = some (t',.ok d)) : ∃ s p dicts, resolveSuperClass ctx t node = some (.ok s) ∧
      prepare ctx t node s = some (.ok p) ∧ p.record.methodDictionary = some (dicts false) ∧
      p.metaRecord.methodDictionary = some (dicts true) ∧ Placed ctx t s d ∧ Built ctx t t' s d dicts ∧
      (t.redefines ctx.handles node.name = some d ∨ t.redefines ctx.handles node.name = none ∧ d = t.next+1) ∧
      ∀ name o, t'.bindings name = some (.pointer o) → t.bindings name = some (.pointer o) ∨ o = d := by
  obtain ⟨s,p,t3,hs,hp,hi,rfl⟩ := defineClass_ok h
  obtain ⟨dicts,ha⟩ := prepare_ok hp
  have hin := installClass_ok hi
  have hpl : Placed ctx t s d := by
    refine ⟨?_,?_,?_⟩
    · rcases hin.place with ⟨-,hd,-⟩ | ⟨hd,hso,-⟩
      · exact .inl hd
      · have hbo := redefines_eq_some hd
        obtain ⟨h0,h1⟩ := ne_new (hwf.known node.name d (.inl hbo.1))
        rw [allocate_classAt,if_neg h1,if_neg h0] at hso
        exact .inr (hwf.bound node.name d (.inl hbo.1) hbo.2 hso)
    · intro hr
      rcases resolveSuperClass_ok hs with ⟨-,-,hm,-⟩ | ⟨_,-,-,-,hnot,-⟩
      · exact hm
      · simp [hr] at hnot
    · intro hr
      rcases resolveSuperClass_ok hs with ⟨-,hnot,-⟩ | ⟨name,-,hres,hnil,-,hrec,hm,-⟩
      · simp [hr] at hnot
      · have hor : t.bindings name = some (.pointer s.superClass) ∨
            t.imported name = some (.pointer s.superClass) := by
          rcases Option.or_eq_some_iff.mp hres with hb | ⟨-,hb⟩
          · exact .inl hb
          · exact .inr hb
        refine ⟨hwf.bound name _ hor hnil (by simp [hrec]),?_⟩
        simp [ClassTable.metaOf,ClassTable.field,hrec,hm]
  refine ⟨s,p,dicts,hs,hp,ha.dict,ha.metaDict,hpl,built_of_installs hin ha (hpl.ne_next hwf) fun hr => ?_,?_,?_⟩
  · obtain ⟨hc,hm⟩ := hpl.superClass hr
    exact ⟨hm,Nat.ne_of_lt (hwf.class_lt hc)⟩
  · rcases hin.place with ⟨hn,hd,-⟩ | ⟨hd,-⟩
    · exact .inr ⟨hn,hd⟩
    · exact .inl hd
  · intro name o ho
    rw [(linkClass_rest ..).2.2] at ho
    rcases hin.place with ⟨-,-,hb⟩ | ⟨-,-,hb⟩
    · rw [hb] at ho
      by_cases hna : name = node.name
      · subst hna
        exact .inr (by simpa [eq_comm] using ho)
      · exact .inl (by simpa [hna] using ho)
    · exact .inl (hb ▸ ho)

theorem WellFormed.of_dicts (hwf : WellFormed h t) (hmet : t'.metaOf = t.metaOf)
    (hsup : t'.superOf = t.superOf) (hi : t'.instanceOf = t.instanceOf)
    (hsub : t'.subClassesOf = t.subClassesOf) (hdi : ∀ o, (t.dictOf o).isSome → (t'.dictOf o).isSome)
    (hpre : ∀ o, (t'.classAt o).isSome = (t.classAt o).isSome) (hn : t'.next = t.next)
    (hbi : t'.bindings = t.bindings) (himp : t'.imported = t.imported) : WellFormed h t' := by
  have hcl : t'.IsClass = t.IsClass := by
    funext c
    simp [ClassTable.IsClass,hmet,hi]
  refine ⟨⟨?_,?_,?_,?_,?_,?_,?_,?_,?_⟩,?_,?_,?_⟩
  · intro o ho
    have hs := hpre o
    rw [hwf.fresh o (hn ▸ ho)] at hs
    simpa using hs
  · exact hcl ▸ hwf.classClass
  · exact hcl ▸ hwf.metaClass
  · rw [hcl,hi]
    exact hwf.plain
  · rw [hcl,hmet]
    intro c m hc hm
    obtain ⟨h1,h2⟩ := hwf.dictionaries c m hc hm
    exact ⟨hdi c h1,hdi m h2⟩
  · rw [hcl,hsup]
    exact hwf.superClass
  · rw [hcl,hsub,hn]
    exact hwf.lists
  · rw [hbi,himp,hn]
    exact hwf.known
  · rw [hcl,hbi,himp]
    intro n o ho hnil hs
    exact hwf.bound n o ho hnil (hpre o ▸ hs)
  · rw [hcl,hmet,hsup]
    exact hwf.parallel
  · rw [hcl,hsup]
    exact hwf.acyclic
  · rw [hcl,hsup,hsub]
    exact hwf.listed

theorem WellFormed.storeDict (hwf : WellFormed h t) (o : Oop) (d : MethodDictionary hash) :
    WellFormed h (t.modify o fun k => { k with methodDictionary := some d }) := by
  have hke : ∀ {α : Type} {g : RawClass hash → Option α}, (∀ k, g { k with methodDictionary := some d } = g k) →
      (t.modify o fun k => { k with methodDictionary := some d }).field g = t.field g := by
    intro α g hg
    funext x
    exact field_modify_of_eq t g hg x
  refine hwf.of_dicts (hke fun _ => rfl) (hke fun _ => rfl) (hke fun _ => rfl) ?_ ?_ ?_ rfl rfl rfl
  · funext x
    apply subClassesOf_modify_of_eq
    exact fun _ => rfl
  · intro x hx
    by_cases hxo : x = o
    · subst hxo
      obtain ⟨k,hk⟩ := Option.isSome_iff_exists.mp (isSome_of_field (Option.some_get hx).symm)
      simp [ClassTable.dictOf,ClassTable.field,hk]
    · simpa [ClassTable.dictOf,hxo] using hx
  · intro x
    by_cases hxo : x = o
    · simp [hxo]
    · simp [hxo]

/-- A redefinition replaces a class that has no subclasses by one below another superclass, which
does not list it yet. -/
def Accepted (ctx : Context hash E) (t : ClassTable hash) : Node Sym → Prop
  | .definition node => ∀ d, t.redefines ctx.handles node.name = some d →
      (∀ c, t.IsClass c → t.superOf c ≠ some d) ∧
      ∀ name o, node.superName = some name → t.resolve name = some (.pointer o) →
        o ≠ d ∧ d ∉ t.subClassesOf o
  | .extension _ _ => True

theorem detached_iff (hs : resolveSuperClass ctx t node = some (.ok s))
    (hd : t.redefines ctx.handles node.name = some d) : Detached t s d ↔ Accepted ctx t (.definition node) := by
  constructor
  · intro h d' hd'
    obtain rfl : d = d' := by simpa [hd] using hd'
    refine ⟨h.leaf,?_⟩
    intro name o hn ho
    rcases resolveSuperClass_ok hs with ⟨hno,-⟩ | ⟨name',hn',hres,-,hr,-⟩
    · simp [hn] at hno
    · obtain rfl : name = name' := by simpa [hn] using hn'
      obtain rfl : s.superClass = o := by simpa [hres] using ho
      exact h.superClass hr
  · intro h
    obtain ⟨hl,hsup⟩ := h d hd
    refine ⟨hl,?_⟩
    intro hr
    rcases resolveSuperClass_ok hs with ⟨-,hro,-⟩ | ⟨name,hn,hres,-⟩
    · simp [hr] at hro
    · exact hsup name _ hn hres

theorem WellFormed.build (hwf : WellFormed ctx.handles t)
    (hok : Accepted ctx t node) (h : build ctx t node = some t') : WellFormed ctx.handles t' := by
  obtain ⟨⟨t'',r⟩,hr,rfl⟩ := Option.map_eq_some_iff.mp h
  cases node with
  | definition =>
    cases r with
    | error =>
      rw [defineClass_error hr]
      exact hwf
    | ok =>
      obtain ⟨s,p,dicts,hs,-,-,-,hpl,hb,hplace,hbi⟩ := exists_built hwf.toRegular hr
      refine hb.wellFormed hpl hwf ?_ hbi
      rcases hplace with hd | ⟨-,rfl⟩
      · exact (detached_iff hs hd).mpr hok
      · -- a new object is nobody's superclass and stands in no list
        refine ⟨fun c hc hsup => ?_,fun hro => ⟨fun he => ?_,fun hm => ?_⟩⟩
        · exact (ne_new (hwf.class_lt (hwf.superClass c _ hc hsup))).2 rfl
        · exact (ne_new (hwf.class_lt (hpl.superClass hro).1)).2 he
        · exact (ne_new (hwf.lists _ (hpl.superClass hro).1 _ hm)).2 rfl
  | extension =>
    obtain ⟨rc,-,hrc⟩ := Option.map_eq_some_iff.mp hr
    cases rc with
    | error =>
      cases hrc
      exact hwf
    | ok c =>
      cases hrc
      exact (hwf.storeDict c.target c.instDict).storeDict c.metaClass c.classDict

def newSuper (t : ClassTable hash) (s : Super hash) (d : Oop) : Oop → Option Oop :=
  update t.superOf d (if s.isRoot then none else some s.superClass)

def newInst (t : ClassTable hash) (dicts : Bool → MethodDictionary hash) (d : Oop) (selector : Sym) :
    Oop → Option (CompiledMethod Sym) :=
  update (t.instMethod selector) d ((dicts false).at? selector)

def newClassSide (t : ClassTable hash) (dicts : Bool → MethodDictionary hash) (d : Oop)
    (selector : Sym) : Oop → Option (CompiledMethod Sym) :=
  update (t.classMethod selector) d ((dicts true).at? selector)

/-- The redefinition of `d` reaches the subtree of `d`: both sides of every class below are looked up
along the superclass chain with the new dictionaries, every subclass still stands once in the list
of `d`, and `d` stands once in the list of its superclass. -/
structure Reaches (h : Handles) (t t' : ClassTable hash) (s : Super hash)
    (dicts : Bool → MethodDictionary hash) (d : Oop) : Prop where
  inst : ∀ c, t.IsClass c → Relation.ReflTransGen (fun a b => newSuper t s d a = some b) c d →
    ∀ selector, ∃ r, t'.Answers c selector r ∧
      Search (newSuper t s d) (newInst t dicts d selector) (· = none) c r
  classSide : ∀ c, t.IsClass c → Relation.ReflTransGen (fun a b => newSuper t s d a = some b) c d →
    ∀ selector, ∃ m r, t'.metaOf c = some m ∧ t'.Answers m selector r ∧
      Search (newSuper t s d) (newClassSide t dicts d selector)
        (Search (newSuper t s d) (newInst t dicts d selector) (· = none) h.classClass) c r
  subClasses : ∀ c, t.IsClass c → t.superOf c = some d → (t'.subClassesOf d).count c = 1
  listed : s.isRoot = false → (t'.subClassesOf s.superClass).count d = 1

theorem not_answers_of_loop (hd : t.dictOf c = some dict) (hs : t.superOf c = some c) (hm : dict.at? selector = none)
    (answer : Option (CompiledMethod Sym)) : ¬ t.Answers c selector answer := by
  obtain ⟨k,hk,hkd,hks⟩ := exists_record hd
  rintro ⟨fuel,h⟩
  induction fuel with
  | zero => cases h
  | succ _ ih =>
    apply ih
    simpa [ClassTable.lookupSelector,hk,hkd,hm,hks,hs] using h

section Redefined
variable {s : Super hash} {d : Oop} {dicts : Bool → MethodDictionary hash}

section
variable (hwf : WellFormed ctx.handles t) (hp : Placed ctx t s d) (hd : t.IsClass d)
  (hb : Built ctx t t' s d dicts)
include hwf hp hd hb

theorem Built.reaches (hdet : Detached t s d) (hwf' : WellFormed ctx.handles t') :
    Reaches ctx.handles t t' s dicts d := by
  have hreg := hwf.toRegular
  have hdn := hp.ne_next hreg
  have hcl : ∀ {c}, t.IsClass c → t'.IsClass c := fun hc => (hb.isClass_iff hreg hp).mpr (.inl hc)
  have hold : ∀ {c}, t'.IsClass c → t.IsClass c := by
    intro c hc
    rcases (hb.isClass_iff hreg hp).mp hc with hc | rfl
    · exact hc
    · exact hd
  have hsuper : ∀ a, t'.IsClass a → newSuper t s d a = t'.superOf a := by
    intro a ha
    by_cases had : a = d
    · simp [newSuper,hb.superOf,had]
    · simp [newSuper,had,hb.superOf_class hreg (hold ha) had]
  have hi : ∀ sel a, t'.IsClass a → newInst t dicts d sel a = t'.instMethod sel a := by
    intro sel a ha
    by_cases had : a = d
    · simp [newInst,ClassTable.instMethod,hb.dictOf,had]
    · simp [newInst,ClassTable.instMethod,had,hb.dictOf_class hreg (hold ha) had]
  have hcls : ∀ sel a, t'.IsClass a → newClassSide t dicts d sel a = t'.classMethod sel a := by
    intro sel a ha
    by_cases had : a = d
    · simp [newClassSide,ClassTable.classMethod,ClassTable.instMethod,hb.metaOf,hb.dictOf,had,hdn.symm]
    · obtain ⟨m,hm⟩ := Regular.metaOf_isSome (hold ha)
      simp [newClassSide,ClassTable.classMethod,ClassTable.instMethod,had,
        hb.metaOf_class hreg (hold ha) had,hm,hb.dictOf_meta hreg hp (hold ha) hm]
  have hs : ∀ sel a r, t'.IsClass a → t'.InstSearch sel a r →
      Search (newSuper t s d) (newInst t dicts d sel) (· = none) a r := fun sel a r ha =>
    Search.congr hwf'.superClass hsuper (hi sel) (fun _ => id) ha
  refine ⟨?_,?_,?_,?_⟩
  · intro c hc _ sel
    obtain ⟨r,hans,hr⟩ := hwf'.lookup_inst sel (hcl hc)
    exact ⟨r,hans,hs sel c r (hcl hc) hr⟩
  · intro c hc _ sel
    obtain ⟨m,r,hm,hans,hr⟩ := hwf'.lookup_class sel (hcl hc)
    exact ⟨m,r,hm,hans,Search.congr hwf'.superClass hsuper (hcls sel)
      (fun r => hs sel _ r hwf'.classClass) (hcl hc) hr⟩
  · intro c hc hsup
    exact absurd hsup (hdet.leaf c hc)
  · intro hr
    exact hwf'.listed d _ (hcl hd) (by simp [hb.superOf,hr])

theorem Built.detached [Infinite Sym] (h : Reaches ctx.handles t t' s dicts d) : Detached t s d := by
  have hreg := hwf.toRegular
  have hd' : t'.IsClass d := (hb.isClass_iff hreg hp).mpr (.inr rfl)
  have hsub := hb.subClassesOf_class hreg hp hd'
  refine ⟨?_,fun hr => ?_⟩
  · -- the fresh list of `d` holds at most `d` itself
    intro c hc hsup
    have hone := h.subClasses c hc hsup
    have hmem : c ∈ t'.subClassesOf d := count_pos_iff.mp (by rw [hone]; exact one_pos)
    rw [hsub] at hmem
    have hcd : c = d := by
      simp only [if_true,nil_append] at hmem
      split at hmem
      · exact mem_singleton.mp hmem
      · simp at hmem
    exact hwf.acyclic.parent_ne hc (hcd ▸ hsup)
  · have hne : s.superClass ≠ d := by
      intro he
      obtain ⟨sel,hn⟩ := (dicts false).exists_at?_eq_none
      obtain ⟨r,hans,-⟩ := h.inst d hd .refl sel
      exact not_answers_of_loop (t := t') (by simp [hb.dictOf]) (by simp [hb.superOf,hr,he]) hn r hans
    refine ⟨hne,fun hmem => ?_⟩
    have hone := h.listed hr
    have hs' : t'.IsClass s.superClass := (hb.isClass_iff hreg hp).mpr (.inl (hp.superClass hr).1)
    have hpos := count_pos_iff.mpr hmem
    rw [hb.subClassesOf_class hreg hp hs'] at hone
    simp only [hne,hr,if_false,and_self,if_true,count_append,count_singleton_self,add_eq_right] at hone
    exact absurd hone (ne_of_gt hpos)

end

end Redefined

/-- In every sequence of accepted definitions and extensions of a well-formed hierarchy, a further
redefinition of a class reaches the whole subtree of the class exactly when it is accepted. -/
theorem redefinition_reaches_subtree [Infinite Sym] {nodes : List (Node Sym)} {t1 t2 : ClassTable hash}
    (hwf : WellFormed ctx.handles t) (hok : Meets (build ctx) (Accepted ctx) t nodes)
    (hrun : perform (build ctx) t nodes = some t1) {node : ClassNode Sym} {d : Oop}
    (hd : t1.redefines ctx.handles node.name = some d)
    (hdef : buildClassIn ctx t1 (.definition node) = some (t2,.ok d)) : ∃ s p dicts, resolveSuperClass ctx t1 node =
      some (.ok s) ∧ prepare ctx t1 node s = some (.ok p) ∧ p.record.methodDictionary = some (dicts false) ∧
      p.metaRecord.methodDictionary = some (dicts true) ∧
      (Reaches ctx.handles t1 t2 s dicts d ↔ Accepted ctx t1 (.definition node)) := by
  have hwf1 : WellFormed ctx.handles t1 := invariant_of_meets (P := WellFormed ctx.handles)
    (fun _ _ _ h hx hs => h.build hx hs) hwf hok hrun
  obtain ⟨s,p,dicts,hs,hpre,hdi,hm,hp,hb,hpl,hbi⟩ := exists_built hwf1.toRegular hdef
  have hcl : t1.IsClass d := by
    rcases hp.place with rfl | hc
    · exact absurd rfl (ne_new (hwf1.known _ _ (.inl (redefines_eq_some hd).1))).2
    · exact hc
  refine ⟨s,p,dicts,hs,hpre,hdi,hm,?_⟩
  rw [← detached_iff hs hd]
  exact ⟨fun h => hb.detached hwf1 hp hcl h,fun h => hb.reaches hwf1 hp hcl h (hb.wellFormed hp hwf1 h hbi)⟩

end Sequences


section Seed

def seedClass (cls : Oop) (superClass instanceClass : Option Oop) (subClasses : List Oop) :
    RawClass (id : ℕ → ℕ) where
  cls := cls
  superClass := superClass
  subClasses := subClasses
  methodDictionary := some (.new 3)
  instanceShape := ⟨0,0,0,0,0,16⟩
  instanceVariables := []
  name := none
  instanceClass := instanceClass

/-- Object (10), Class (12), MetaClass (14) and their metaclasses; the name 0 is bound to Object. -/
def seed : ClassTable (id : ℕ → ℕ) where
  classAt
    | 10 => some (seedClass 11 none none [12,14])
    | 11 => some (seedClass 14 (some 12) (some 10) [13,15])
    | 12 => some (seedClass 13 (some 10) none [])
    | 13 => some (seedClass 14 (some 11) (some 12) [])
    | 14 => some (seedClass 15 (some 10) none [])
    | 15 => some (seedClass 14 (some 11) (some 14) [])
    | _ => none
  next := 16
  bindings
    | 0 => some (.pointer 10)
    | _ => none
  imported _ := none

def seedContext : Context (id : ℕ → ℕ) Unit where
  handles := ⟨1,14,12,10⟩
  isClassVar _ := false
  analyze _ _ _ := .ok 0

theorem seed_isClass (h : seed.IsClass c) : c = 10 ∨ c = 12 ∨ c = 14 := by
  obtain ⟨m,hm,hi⟩ := h
  obtain ⟨k,hk,hkm⟩ := Option.bind_eq_some_iff.mp hm
  simp only [seed] at hk
  split at hk <;> cases hk <;> cases hkm <;> simp_all [ClassTable.instanceOf,ClassTable.field,seed,seedClass]

theorem seed_wellFormed : WellFormed seedContext.handles seed where
  fresh o ho := by
    simp only [seed]
    split <;> first | rfl | exact absurd ho (by decide)
  classClass := ⟨13,rfl,rfl⟩
  metaClass := ⟨15,rfl,rfl⟩
  plain c hc := by rcases seed_isClass hc with rfl | rfl | rfl <;> rfl
  dictionaries c m hc hm := by rcases seed_isClass hc with rfl | rfl | rfl <;> cases hm <;> exact ⟨rfl,rfl⟩
  superClass c s hc hs := by rcases seed_isClass hc with rfl | rfl | rfl <;> cases hs <;> exact ⟨11,rfl,rfl⟩
  parallel c m hc hm := by rcases seed_isClass hc with rfl | rfl | rfl <;> cases hm <;> rfl
  acyclic := by
    refine ⟨id,fun c s hc hs => ?_⟩
    rcases seed_isClass hc with rfl | rfl | rfl <;> cases hs <;> decide
  listed c s hc hs := by rcases seed_isClass hc with rfl | rfl | rfl <;> cases hs <;> rfl
  lists s hs c hc := by rcases seed_isClass hs with rfl | rfl | rfl <;> revert hc c <;> decide
  known name o h := by
    rcases h with h | h
    · simp only [seed] at h
      split at h <;> cases h
      decide
    · cases h
  bound name o h _ _ := by
    rcases h with h | h
    · simp only [seed] at h
      split at h <;> cases h
      exact ⟨11,rfl,rfl⟩
    · cases h

def seedNode (name superName selector : ℕ) : ClassNode ℕ := ⟨name,some superName,[],[],[⟨selector,some 0,[]⟩]⟩

/-- The class 1 is moved from Object to the class 2. -/
theorem redefinition_reaches_moved_class : ∃ t1 t2 s dicts,
      perform (build seedContext) seed [.definition (seedNode 1 0 5),.definition (seedNode 2 0 5)] = some t1 ∧
      t1.redefines seedContext.handles 1 = some 17 ∧ buildClassIn seedContext t1 (.definition (seedNode 1 2 6)) =
      some (t2,.ok 17) ∧ Reaches seedContext.handles t1 t2 s dicts 17 := by
  have hrun : ∃ t1, perform (build seedContext) seed
      [.definition (seedNode 1 0 5),.definition (seedNode 2 0 5)] = some t1 ∧
      t1.redefines seedContext.handles 1 = some 17 ∧
      (∃ t2, buildClassIn seedContext t1 (.definition (seedNode 1 2 6)) = some (t2,.ok 17)) ∧
      t1.next = 20 ∧ (∀ c < 20, t1.superOf c ≠ some 17) ∧ t1.resolve 2 = some (.pointer 19) ∧
      17 ∉ t1.subClassesOf 19 := by
    refine ⟨_,rfl,rfl,⟨_,rfl⟩,rfl,?_,rfl,?_⟩ <;> decide
  obtain ⟨t1,hrun,hd,⟨t2,hdef⟩,hn,hl,hres,hli⟩ := hrun
  have hok : Meets (build seedContext) (Accepted seedContext) seed
      [.definition (seedNode 1 0 5),.definition (seedNode 2 0 5)] := by
    refine ⟨fun d hd => ?_,fun d hd => ?_,trivial⟩ <;> cases hd
  have hwf1 : WellFormed seedContext.handles t1 := invariant_of_meets
    (P := WellFormed seedContext.handles) (fun _ _ _ h hx hs => h.build hx hs) seed_wellFormed hok hrun
  obtain ⟨s,p,dicts,-,-,-,-,hiff⟩ := redefinition_reaches_subtree seed_wellFormed hok hrun hd hdef
  refine ⟨t1,t2,s,dicts,hrun,hd,hdef,hiff.mpr ?_⟩
  intro d hd'
  obtain rfl : 17 = d := Option.some.inj (hd.symm.trans hd')
  refine ⟨fun c hc => hl c (hn ▸ hwf1.class_lt hc),?_⟩
  rintro n o hna ho
  cases hna
  obtain rfl : 19 = o := by simpa [hres] using ho
  exact ⟨by decide,hli⟩

/-- The class 1 is redefined in place above its subclass 2: the subclass disappears from its list,
Object lists it twice, and the class side of the subclass still has the replaced method 5 and does
not understand the new 6. -/
theorem redefinition_loses_subclass : ∃ t1 t2,
      perform (build seedContext) seed [.definition (seedNode 1 0 5),.definition (seedNode 2 1 7)] = some t1 ∧
      t1.IsClass 19 ∧ t1.superOf 19 = some 17 ∧ t1.redefines seedContext.handles 1 = some 17 ∧
      buildClassIn seedContext t1 (.definition (seedNode 1 0 6)) = some (t2,.ok 17) ∧ t2.subClassesOf 17 = [] ∧
      (t2.subClassesOf 10).count 17 = 2 ∧ t2.metaOf 19 = some 18 ∧ t2.lookupSelector 5 4 18 =
      some (some ⟨⟨5,some 0,[]⟩,16,[]⟩) ∧ t2.lookupSelector 6 5 18 = some none ∧
      (t2.metaOf 17).bind (t2.lookupSelector 6 1) = some (some ⟨⟨6,some 0,[]⟩,20,[]⟩) ∧ ∀ s dicts,
      ¬ Reaches seedContext.handles t1 t2 s dicts 17 := by
  refine ⟨_,_,rfl,⟨18,rfl,rfl⟩,rfl,rfl,rfl,rfl,by decide,rfl,rfl,rfl,rfl,fun s dicts h => ?_⟩
  exact absurd (h.subClasses 19 ⟨18,rfl,rfl⟩ rfl) (by decide)

end Seed

end SmalltalkJit.Classes
