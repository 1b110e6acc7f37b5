import Mathlib.Data.List.Nodup
import SmalltalkJit.Memory.Barrier

/-! # become:

`objectBecome` copies the new object over the old one when their sizes agree,
and else rewrites pointers: in the fields of every object of new space, in those
of every object of old space, and in the arguments and the live slots of the
stacks. The scan of old space gets its two objects the other way round. The
walk of new space needs every TLAB tail to be parseable, and the context that a
call into C spills on the stack is not scanned.
-/
namespace SmalltalkJit.Memory
open Option Classes.InstanceShape

/-- The arguments of an activation, and its slots with the bit of the stackmap. -/
structure Frame where
  args : List ℕ
  slots : List (Bool × ℕ)
  deriving DecidableEq

/-- The activations between an entry from C and the exit to C, where the context was spilled. -/
structure EntryFrame where
  exitSlot : ℕ
  frames : List Frame
  deriving DecidableEq

abbrev Stack := List EntryFrame

structure Fiber where
  running : Bool
  stack : Stack

/-- The saved stack of a fiber that runs is stale: its worker has the live one. -/
def Fiber.mapStack (f : Stack → Stack) (fiber : Fiber) : Fiber :=
  if fiber.running then fiber else { fiber with stack := f fiber.stack }

/-- What `objectBecome` finds when the world has stopped. `newSpace` and `oldSpace` are the objects
in the order of the walks, `tails` the bytes left in the TLABs, `peers` the stacks of the other
mutators. -/
structure World (T : Type) where
  heap : Heap T
  newSpace : List Oop
  oldSpace : List Oop
  tails : List ℕ
  current : T
  stack : Stack
  schedulerActive : Bool
  peers : List Stack
  fibers : List Fiber

def redirect (old new : Oop) (w : ℕ) : ℕ := if w = tagPtr old then tagPtr new else w

def swapSlot (old new : Oop) (slot : Bool × ℕ) : Bool × ℕ := if slot.1 then (slot.1,redirect old new slot.2) else slot

def swapFrame (old new : Oop) (frame : Frame) : Frame :=
  ⟨frame.args.map (redirect old new),frame.slots.map (swapSlot old new)⟩

def swapStackFrames (old new : Oop) (stack : Stack) : Stack :=
  stack.map fun e => { e with frames := e.frames.map (swapFrame old new) }

section Become
variable {T : Type} [DecidableEq T]

def swapField (t : T) (o old new : Oop) (h : Heap T) (i : ℕ) : Heap T :=
  if (h.objects o).any fun object => object.body[i]? = some (tagPtr old) then h.storePtr t o i new
  else h

def iterateObject (h : Heap T) (t : T) (o old new : Oop) : Heap T :=
  match h.objects o with
  | none => h
  | some object => (h.fields object).foldl (swapField t o old new) h

def walk (t : T) (old new : Oop) (objs : List Oop) (h : Heap T) : Heap T :=
  objs.foldl (fun h o => iterateObject h t o old new) h

/-- No result is a walk over a tail that holds neither an object nor a filler. -/
def swapObjectInNewSpace (w : World T) (old new : Oop) : Option (Heap T) :=
  if w.tails.any fun n => 0 < n && n < 16 then none
  else some (walk w.current old new w.newSpace w.heap)

def swapObjectInOldSpace (w : World T) (h : Heap T) (old new : Oop) : Heap T := walk w.current new old w.oldSpace h

def swapObjectOnStack (w : World T) (old new : Oop) : World T :=
  let w := { w with stack := swapStackFrames old new w.stack }
  if w.schedulerActive then
    { w with
      peers := w.peers.map (swapStackFrames old new)
      fibers := w.fibers.map (Fiber.mapStack (swapStackFrames old new)) }
  else w

def objectBecome (w : World T) (old new : Oop) : Option (World T) :=
  (w.heap.objects old).bind fun a => (w.heap.objects new).bind fun b =>
    if w.heap.computeRawObjectSize a = w.heap.computeRawObjectSize b then
      some { w with heap := w.heap.set old b }
    else (swapObjectInNewSpace w old new).map fun h =>
      swapObjectOnStack { w with heap := swapObjectInOldSpace w h old new } old new

end Become

def redirectedBody (shape : Classes.InstanceShape) (object : RawObject) (old new : Oop) : List ℕ :=
  object.body.mapIdx fun i w => if isField shape object i then redirect old new w else w

def redirectedStack (old new : Oop) (stack : Stack) : Stack :=
  stack.map fun e => ⟨redirect old new e.exitSlot,e.frames.map (swapFrame old new)⟩

section Specification
variable {T : Type}

/-- Every field, argument and live slot that pointed to `old` points to `new`, everything else is
what it was, and the remembered sets are sound. -/
structure Redirected (w w' : World T) (old new : Oop) : Prop where
  objects : ∀ o object, w.heap.objects o = some object → ∃ tags, w'.heap.objects o = some
    { object with
      tags := tags, body := redirectedBody (w.heap.shapeOf object) object old new }
  stack : w'.stack = redirectedStack old new w.stack
  peers : w'.peers = w.peers.map (redirectedStack old new)
  fibers : w'.fibers = w.fibers.map (Fiber.mapStack (redirectedStack old new))
  remembered : w'.heap.Remembered

/-- The walks meet every object once, and the shape of every object is an immediate word. -/
structure Walkable (w : World T) : Prop where
  newSpace : ∀ o, o ∈ w.newSpace ↔ (w.heap.objects o).isSome ∧ isNewObject o = true
  oldSpace : ∀ o, o ∈ w.oldSpace ↔ (w.heap.objects o).isSome ∧ isOldObject o = true
  newNodup : w.newSpace.Nodup
  oldNodup : w.oldSpace.Nodup
  aligned : ∀ o, (w.heap.objects o).isSome → o % 4 = 0
  shapes : w.heap.PlainShapes

def World.otherStacks (w : World T) : List Stack := w.peers ++ (w.fibers.filter fun f => !f.running).map Fiber.stack

def ExitsFree (o : Oop) (stack : Stack) : Prop := ∀ e ∈ stack, e.exitSlot ≠ tagPtr o

def FramesFree (o : Oop) (stack : Stack) : Prop :=
  ∀ e ∈ stack, ∀ f ∈ e.frames, tagPtr o ∉ f.args ∧ (true,tagPtr o) ∉ f.slots

/-- Sizes differ: the condition under which rewriting the pointers is right. -/
structure ScanSafe (w : World T) (old new : Oop) : Prop where
  tails : ∀ n ∈ w.tails, n = 0 ∨ 16 ≤ n
  oldFields : ∀ o object i x, w.heap.objects o = some object → isOldObject o = true →
    isField (w.heap.shapeOf object) object i = true → object.body[i]? = some x →
    x ≠ tagPtr old ∧ x ≠ tagPtr new
  exits : ∀ s ∈ w.stack :: w.otherStacks, ExitsFree old s
  frames : w.schedulerActive = false → ∀ s ∈ w.otherStacks, FramesFree old s

/-- Sizes agree: the condition under which the copy is right. -/
structure CopySafe (w : World T) (old new : Oop) (a b : RawObject) : Prop where
  fields : ∀ o object i x, w.heap.objects o = some object → o ≠ old →
    isField (w.heap.shapeOf object) object i = true → object.body[i]? = some x → x ≠ tagPtr old
  onStack : ∀ s ∈ w.stack :: w.otherStacks, ExitsFree old s ∧ FramesFree old s
  cls : b.cls = a.cls
  hash : b.hash = a.hash
  body : b.body = redirectedBody (w.heap.shapeOf a) a old new
  tag : b.tags.remembered = a.tags.remembered
  edge : isOldObject old = true → w.heap.RefersToYoung b → b.tags.remembered = true

end Specification

section Words
variable {old new : Oop} {object : RawObject}

theorem map_eq_self_iff {l : List α} : l.map f = l ↔ ∀ x ∈ l, f x = x := by
  have h : l.map f = l.map id ↔ ∀ x ∈ l, f x = id x := List.map_inj_left
  rwa [List.map_id] at h

theorem tagPtr_injective (h : tagPtr a = tagPtr b) : a = b := Nat.succ_injective h

theorem redirect_eq_self_iff (hne : old ≠ new) : redirect old new w = w ↔ w ≠ tagPtr old := by
  unfold redirect
  split
  · rename_i h
    subst h
    simpa using fun h => hne (tagPtr_injective h).symm
  · rename_i h
    simp [h]

theorem getElem?_redirectedBody (i : ℕ) : (redirectedBody shape object old new)[i]? =
    object.body[i]?.map fun w => if isField shape object i then redirect old new w else w := by
  simp [redirectedBody]

theorem getElem?_redirectedBody_of_ne (h : isField shape object i = true → object.body[i]? ≠ some (tagPtr old)) :
    (redirectedBody shape object old new)[i]? = object.body[i]? := by
  rw [getElem?_redirectedBody]
  cases hw : object.body[i]? with
  | none => rfl
  | some w =>
    by_cases hf : isField shape object i = true
    · have hne : w ≠ tagPtr old := fun he => h hf (he ▸ hw)
      simp [hf,redirect,hne]
    · simp [hf]

theorem redirectedBody_eq_self_iff (hne : old ≠ new) : redirectedBody shape object old new = object.body ↔
      ∀ i x, isField shape object i = true → object.body[i]? = some x → x ≠ tagPtr old := by
  constructor
  · intro h i x hf hx
    have hi : object.body[i]? = object.body[i]?.map fun w =>
        if isField shape object i then redirect old new w else w := by
      rw [← getElem?_redirectedBody,h]
    rw [hx,map_some,if_pos hf,some.injEq] at hi
    exact (redirect_eq_self_iff hne).mp hi.symm
  · intro h
    apply List.ext_getElem?
    intro i
    apply getElem?_redirectedBody_of_ne
    intro hf hx
    exact h i _ hf hx rfl

theorem shapeWord_redirected (hold : old % 4 = 0) (hw : isPointer (shapeWord object) = false) (tags : Tags) :
    shapeWord { object with tags := tags, body := redirectedBody shape object old new } = shapeWord object := by
  have hne : object.body[3]? ≠ some (tagPtr old) := by
    intro h
    have hwo : shapeWord object = tagPtr old := by simp [shapeWord,List.getD_eq_getElem?_getD,h]
    rw [hwo,isPointer_tagPtr hold] at hw
    cases hw
  simp only [shapeWord,List.getD_eq_getElem?_getD,getElem?_redirectedBody_of_ne fun _ => hne]

variable (hne : old ≠ new)
include hne

theorem map_swapSlot_eq_self_iff {slots : List (Bool × ℕ)} :
    slots.map (swapSlot old new) = slots ↔ (true,tagPtr old) ∉ slots := by
  rw [map_eq_self_iff]
  constructor
  · intro h hmem
    have hs := h _ hmem
    simp only [swapSlot,if_true,Prod.mk.injEq,true_and] at hs
    exact (redirect_eq_self_iff hne).mp hs rfl
  · rintro h ⟨l,w⟩ hmem
    cases l with
    | false => rfl
    | true =>
      have hw : w ≠ tagPtr old := fun he => h (he ▸ hmem)
      simp [swapSlot,redirect,hw]

theorem swapFrame_eq_self_iff {frame : Frame} :
    swapFrame old new frame = frame ↔ tagPtr old ∉ frame.args ∧ (true,tagPtr old) ∉ frame.slots := by
  have ha : frame.args.map (redirect old new) = frame.args ↔ tagPtr old ∉ frame.args := by
    rw [map_eq_self_iff]
    constructor
    · exact fun h hmem => (redirect_eq_self_iff hne).mp (h _ hmem) rfl
    · exact fun h w hw => (redirect_eq_self_iff hne).mpr fun he => h (he ▸ hw)
  rw [← ha,← map_swapSlot_eq_self_iff hne]
  cases frame
  simp [swapFrame]

theorem redirectedStack_eq_self_iff :
    redirectedStack old new stack = stack ↔ ExitsFree old stack ∧ FramesFree old stack := by
  have he : ∀ e : EntryFrame, (⟨redirect old new e.exitSlot,e.frames.map (swapFrame old new)⟩ :
      EntryFrame) = e ↔ e.exitSlot ≠ tagPtr old ∧
        ∀ f ∈ e.frames, tagPtr old ∉ f.args ∧ (true,tagPtr old) ∉ f.slots := by
    intro e
    rw [← redirect_eq_self_iff hne]
    simp only [← swapFrame_eq_self_iff hne,← map_eq_self_iff]
    cases e
    simp
  unfold redirectedStack
  rw [map_eq_self_iff]
  simp only [he,ExitsFree,FramesFree,forall_and]

theorem swapStackFrames_eq_redirected_iff :
    swapStackFrames old new stack = redirectedStack old new stack ↔ ExitsFree old stack := by
  unfold swapStackFrames redirectedStack
  rw [List.map_inj_left]
  simp only [EntryFrame.mk.injEq,and_true,ExitsFree,← redirect_eq_self_iff hne,eq_comm]

end Words

theorem sameShapes_of_redirected {h h' : Heap T} (ha : a % 4 = 0)
    (hp : h.PlainShapes) (ho : h.objects o = some object) (ho' : h'.objects o = some object')
    (hcls : object'.cls = object.cls) (hb : object'.body = redirectedBody (h.shapeOf object) object a b)
    (hot : ∀ x ≠ o, h'.objects x = h.objects x) : h.SameShapes h' := by
  refine ⟨fun x => ?_,fun x c hx => ?_⟩
  · by_cases hxo : x = o
    · rw [hxo,ho',ho,map_some,map_some,hcls]
    · rw [hot x hxo]
  · by_cases hco : c = o
    · subst hco
      have hwo : isPointer (shapeWord object) = false := hp x c _ hx (by rw [ho]; rfl)
      rw [ho',ho,map_some,map_some,← shapeWord_redirected ha hwo object.tags,shapeWord,hb]
      rfl
    · rw [hot c hco]

section Passes
variable {T : Type} [DecidableEq T] {h : Heap T} {t : T} {o a b : Oop} {object : RawObject}

theorem swapField_objects_other (hx : x ≠ o) (i : ℕ) : (swapField t o a b h i).objects x = h.objects x := by
  unfold swapField
  split
  · exact storePtr_objects_other hx
  · rfl

theorem storePtr_remembers_of_new (hn : isNewObject o = true) (i : ℕ) (value x : Oop) :
    (h.storePtr t o i value).Remembers x ↔ h.Remembers x := by
  unfold Heap.storePtr
  split
  · exact Iff.rfl
  · simp [isOldObject,hn]

theorem swapField_objects_self (ho : h.objects o = some object) (i : ℕ) :
    ∃ tags, (swapField t o a b h i).objects o = some { object with
      tags := tags
      body := if object.body[i]? = some (tagPtr a) then object.body.set i (tagPtr b)
        else object.body } ∧ (isNewObject o = true → tags = object.tags) := by
  unfold swapField
  by_cases hw : object.body[i]? = some (tagPtr a)
  · rw [if_pos (by simp [ho,hw]),storePtr_objects_self ho]
    simp only [hw,if_true]
    exact ⟨_,rfl,fun hn => by simp [isOldObject,hn]⟩
  · rw [if_neg (by simp [ho,hw]),ho]
    simp only [hw,if_false]
    exact ⟨object.tags,rfl,fun _ => rfl⟩

def redirectedAt (is : List ℕ) (a b : Oop) (body : List ℕ) : List ℕ :=
  body.mapIdx fun i w => if i ∈ is then redirect a b w else w

theorem redirectedAt_nil (body : List ℕ) : redirectedAt [] a b body = body := by
  apply List.ext_getElem?
  intro j
  simp [redirectedAt]

theorem redirectedAt_cons (i : ℕ) (is : List ℕ) (body : List ℕ) : redirectedAt (i :: is) a b body =
      redirectedAt is a b (if body[i]? = some (tagPtr a) then body.set i (tagPtr b) else body) := by
  have ht : ∀ w, redirect a b (redirect a b w) = redirect a b w := by
    intro w
    unfold redirect
    split
    · split <;> rfl
    · rfl
  have hs : (if body[i]? = some (tagPtr a) then body.set i (tagPtr b) else body) = redirectedAt [i] a b body := by
    apply List.ext_getElem?
    intro j
    simp only [redirectedAt,List.getElem?_mapIdx,List.mem_singleton]
    by_cases hj : j = i
    · subst hj
      split
      · rename_i hw
        have hlt := (List.getElem?_eq_some_iff.mp hw).1
        simp [hw,redirect,List.getElem?_set_self hlt]
      · rename_i hw
        cases hb : body[j]? with
        | none => rfl
        | some w =>
          have hne : w ≠ tagPtr a := fun he => hw (he ▸ hb)
          simp [redirect,hne]
    · split
      · rw [List.getElem?_set_ne (Ne.symm hj)]
        simp
      · simp
  rw [hs]
  apply List.ext_getElem?
  intro j
  simp only [redirectedAt,List.getElem?_mapIdx,map_map,List.mem_cons,List.not_mem_nil,or_false]
  congr 1
  funext w
  by_cases hj : j = i
  · subst hj
    by_cases hmem : j ∈ is <;> simp [hmem,ht]
  · simp [hj]

theorem swapField_foldl (is : List ℕ) (ho : h.objects o = some object) :
    (∃ tags, (is.foldl (swapField t o a b) h).objects o = some { object with
      tags := tags, body := redirectedAt is a b object.body } ∧
      (isNewObject o = true → tags = object.tags)) ∧
    (∀ x ≠ o, (is.foldl (swapField t o a b) h).objects x = h.objects x) ∧
    (isNewObject o = true → ∀ x, (is.foldl (swapField t o a b) h).Remembers x ↔ h.Remembers x) := by
  induction is generalizing h object with
  | nil =>
    refine ⟨⟨object.tags,?_,fun _ => rfl⟩,fun _ _ => rfl,fun _ _ => Iff.rfl⟩
    rw [List.foldl_nil,ho,redirectedAt_nil]
  | cons i _ ih =>
    obtain ⟨tags,hobj,ht⟩ := swapField_objects_self (t := t) (a := a) (b := b) ho i
    obtain ⟨⟨tags',hobj',ht'⟩,hot,hrem⟩ := ih hobj
    rw [List.foldl_cons]
    refine ⟨⟨tags',?_,fun hn => (ht' hn).trans (ht hn)⟩,fun x hx => ?_,fun hn x => ?_⟩
    · rw [hobj',redirectedAt_cons]
    · rw [hot x hx,swapField_objects_other hx]
    · rw [hrem hn]
      unfold swapField
      split
      · exact storePtr_remembers_of_new hn i b x
      · exact Iff.rfl

theorem iterateObject_spec (ho : h.objects o = some object) :
    (∃ tags, (iterateObject h t o a b).objects o = some { object with
      tags := tags, body := redirectedBody (h.shapeOf object) object a b } ∧
      (isNewObject o = true → tags = object.tags)) ∧
    (∀ x ≠ o, (iterateObject h t o a b).objects x = h.objects x) ∧
    (isNewObject o = true → ∀ x, (iterateObject h t o a b).Remembers x ↔ h.Remembers x) := by
  have hb : redirectedAt (h.fields object) a b object.body = redirectedBody (h.shapeOf object) object a b := by
    simp [redirectedAt,redirectedBody,mem_fields]
  have hall := swapField_foldl (t := t) (a := a) (b := b) (h.fields object) ho
  rw [hb] at hall
  unfold iterateObject
  rw [ho]
  exact hall

theorem iterateObject_eq_self (hn : ∀ object, h.objects o = some object → ∀ i x,
      isField (h.shapeOf object) object i = true → object.body[i]? = some x → x ≠ tagPtr a) :
    iterateObject h t o a b = h := by
  unfold iterateObject
  split
  · rfl
  · rename_i object ho
    have hf : ∀ i ∈ h.fields object, object.body[i]? ≠ some (tagPtr a) := by
      intro i hi hx
      exact hn object ho i _ (mem_fields.mp hi) hx rfl
    generalize h.fields object = is at hf
    induction is with
    | nil => rfl
    | cons i _ ih =>
      have hs : swapField t o a b h i = h := by
        have hi := hf i List.mem_cons_self
        unfold swapField
        rw [if_neg (by simpa [ho] using hi)]
      rw [List.foldl_cons,hs]
      exact ih fun j hj => hf j (List.mem_cons_of_mem i hj)

theorem iterateObject_objects_other (hx : x ≠ o) : (iterateObject h t o a b).objects x = h.objects x := by
  cases ho : h.objects o with
  | none => simp [iterateObject,ho]
  | some => exact (iterateObject_spec ho).2.1 x hx

theorem iterateObject_sameShapes (ha : a % 4 = 0) (hp : h.PlainShapes) : h.SameShapes (iterateObject h t o a b) := by
  cases ho : h.objects o with
  | none =>
    have hs : iterateObject h t o a b = h := by simp [iterateObject,ho]
    rw [hs]
    exact .refl h
  | some =>
    obtain ⟨⟨tags,hobj,-⟩,hot,-⟩ := iterateObject_spec (t := t) (a := a) (b := b) ho
    exact sameShapes_of_redirected ha hp ho hobj rfl rfl hot

variable (objs : List Oop)

theorem walk_sameShapes (ha : a % 4 = 0) (hp : h.PlainShapes) : h.SameShapes (walk t a b objs h) := by
  induction objs generalizing h with
  | nil => exact .refl h
  | cons o1 _ ih =>
    have hone := iterateObject_sameShapes (t := t) (o := o1) (b := b) ha hp
    exact hone.trans (ih (hone.plain hp))

theorem walk_objects (hnd : objs.Nodup) (ha : a % 4 = 0)
    (hp : h.PlainShapes) (ho : h.objects o = some object) : ∃ tags,
    (walk t a b objs h).objects o = some { object with
      tags := tags
      body := if o ∈ objs then redirectedBody (h.shapeOf object) object a b else object.body } ∧
    ((∀ x ∈ objs, isNewObject x = true) → tags = object.tags) := by
  induction objs generalizing h object with
  | nil => exact ⟨object.tags,ho,fun _ => rfl⟩
  | cons o1 _ ih =>
    obtain ⟨hnot,hr⟩ := List.nodup_cons.mp hnd
    have hone := iterateObject_sameShapes (t := t) (o := o1) (b := b) ha hp
    by_cases heq : o = o1
    · subst heq
      obtain ⟨tags,hobj,ht⟩ := (iterateObject_spec (t := t) (a := a) (b := b) ho).1
      obtain ⟨tags',hobj',ht'⟩ := ih hr (hone.plain hp) hobj
      rw [if_neg hnot] at hobj'
      rw [if_pos List.mem_cons_self]
      refine ⟨tags',hobj',fun hy => ?_⟩
      rw [ht' fun x hx => hy x (List.mem_cons_of_mem o hx),ht (hy o List.mem_cons_self)]
    · obtain ⟨tags,hobj,ht⟩ := ih hr (hone.plain hp) ((iterateObject_objects_other heq).trans ho)
      rw [hone.shapeOf ho rfl] at hobj
      refine ⟨tags,?_,fun hy => ht fun x hx => hy x (List.mem_cons_of_mem o1 hx)⟩
      simp only [List.mem_cons,heq,false_or]
      exact hobj

theorem walk_remembers (hy : ∀ x ∈ objs, isNewObject x = true) (x : Oop) :
    (walk t a b objs h).Remembers x ↔ h.Remembers x := by
  induction objs generalizing h with
  | nil => exact Iff.rfl
  | cons o1 _ ih =>
    have hone : (iterateObject h t o1 a b).Remembers x ↔ h.Remembers x := by
      cases ho : h.objects o1 with
      | none => simp [iterateObject,ho]
      | some => exact (iterateObject_spec ho).2.2 (hy o1 List.mem_cons_self) x
    exact (ih fun y hmem => hy y (List.mem_cons_of_mem o1 hmem)).trans hone

theorem walk_eq_self (hn : ∀ o ∈ objs, ∀ object, h.objects o = some object →
      ∀ i x, isField (h.shapeOf object) object i = true → object.body[i]? = some x →
        x ≠ tagPtr a) :
    walk t a b objs h = h := by
  induction objs with
  | nil => rfl
  | cons o1 _ ih =>
    have hone := iterateObject_eq_self (t := t) (b := b) (hn o1 List.mem_cons_self)
    have hr := ih fun o ho => hn o (List.mem_cons_of_mem o1 ho)
    unfold walk at hr ⊢
    rw [List.foldl_cons,hone,hr]

end Passes

section Stacks
variable {T : Type} {w : World T} {old new : Oop}

theorem map_otherStacks_inj :
    (w.peers.map f = w.peers.map g ∧ w.fibers.map (Fiber.mapStack f) = w.fibers.map (Fiber.mapStack g)) ↔
      ∀ s ∈ w.otherStacks, f s = g s := by
  have hf : ∀ x : Fiber, x.mapStack f = x.mapStack g ↔ (x.running = false → f x.stack = g x.stack) := by
    rintro ⟨r,st⟩
    cases r <;> simp [Fiber.mapStack]
  simp only [List.map_inj_left,hf,World.otherStacks,List.mem_append,List.mem_map,
    List.mem_filter,Bool.not_eq_true',or_imp,forall_and,forall_exists_index,and_imp]
  refine and_congr Iff.rfl ⟨?_,?_⟩
  · rintro h s x hx hr rfl
    exact h x hx hr
  · intro h x hx hr
    exact h _ x hx hr rfl

theorem otherStacks_eq_map_iff :
    (w.peers = w.peers.map g ∧ w.fibers = w.fibers.map (Fiber.mapStack g)) ↔ ∀ s ∈ w.otherStacks, g s = s := by
  have hid : Fiber.mapStack id = id := by
    funext x
    simp [Fiber.mapStack]
  have h := map_otherStacks_inj (w := w) (f := id) (g := g)
  rw [hid,List.map_id,List.map_id] at h
  rw [h]
  exact forall₂_congr fun s _ => eq_comm

/-- The scan of the stacks leaves the spilled contexts alone, and without a scheduler the stacks of
the other threads. -/
theorem swapObjectOnStack_iff (hne : old ≠ new) :
    ((swapObjectOnStack w old new).stack = redirectedStack old new w.stack ∧
      (swapObjectOnStack w old new).peers = w.peers.map (redirectedStack old new) ∧
      (swapObjectOnStack w old new).fibers = w.fibers.map (Fiber.mapStack (redirectedStack old new))) ↔
    (∀ s ∈ w.stack :: w.otherStacks, ExitsFree old s) ∧
      (w.schedulerActive = false → ∀ s ∈ w.otherStacks, FramesFree old s) := by
  rw [List.forall_mem_cons,← swapStackFrames_eq_redirected_iff hne]
  cases ha : w.schedulerActive with
  | true =>
    simp only [swapObjectOnStack,ha,if_true,map_otherStacks_inj,
      swapStackFrames_eq_redirected_iff hne,reduceCtorEq,false_imp_iff,and_true]
  | false =>
    simp only [swapObjectOnStack,ha,Bool.false_eq_true,if_false,otherStacks_eq_map_iff,
      redirectedStack_eq_self_iff hne,forall_true_left,forall_and,and_assoc]

end Stacks

section Scan
variable {T : Type} [DecidableEq T] {w : World T} {old new : Oop} {a b : RawObject}

theorem redirect_swap_iff (hne : old ≠ new) :
    redirect new old x = redirect old new x ↔ x ≠ tagPtr old ∧ x ≠ tagPtr new := by
  have hptr : tagPtr old ≠ tagPtr new := fun h => hne (tagPtr_injective h)
  unfold redirect
  by_cases hold : x = tagPtr old
  · simp [hold,hptr]
  · by_cases hnew : x = tagPtr new
    · simp [hnew,hptr,hptr.symm]
    · simp [hold,hnew]

def scanned (w : World T) (old new : Oop) : Heap T := walk w.current old new w.newSpace w.heap

section Scanned
variable (hw : Walkable w) (hold : w.heap.objects old = some a)
include hw hold

theorem scanned_sameShapes : w.heap.SameShapes (scanned w old new) :=
  walk_sameShapes _ (hw.aligned old (by simp [hold])) hw.shapes

theorem scanned_objects (ho : w.heap.objects o = some object) : (scanned w old new).objects o = some { object with
      body := if isNewObject o then redirectedBody (w.heap.shapeOf object) object old new else object.body } := by
  have hmem : o ∈ w.newSpace ↔ isNewObject o = true := by simp [hw.newSpace o,ho]
  obtain ⟨tags,hobj,ht⟩ := walk_objects (t := w.current) (b := new) w.newSpace hw.newNodup
    (hw.aligned old (by simp [hold])) hw.shapes ho
  rw [ht fun x hx => ((hw.newSpace x).mp hx).2] at hobj
  simp only [hmem] at hobj
  exact hobj

theorem scanned_objects_old (ho : w.heap.objects o = some object)
    (hn : isOldObject o = true) : (scanned w old new).objects o = some object := by
  rw [scanned_objects hw hold ho,if_neg (by simpa [isOldObject] using hn)]

theorem swapObjectInOldSpace_eq_self
    (hfi : ∀ o object i x, w.heap.objects o = some object → isOldObject o = true →
      isField (w.heap.shapeOf object) object i = true → object.body[i]? = some x →
      x ≠ tagPtr old ∧ x ≠ tagPtr new) :
    swapObjectInOldSpace w (scanned w old new) old new = scanned w old new := by
  apply walk_eq_self
  intro o hmem object ho i x hf hx
  obtain ⟨hs,holdSpace⟩ := (hw.oldSpace o).mp hmem
  obtain ⟨o',ho'⟩ := isSome_iff_exists.mp hs
  cases ho.symm.trans (scanned_objects_old hw hold ho' holdSpace)
  rw [(scanned_sameShapes hw hold).shapeOf ho' rfl] at hf
  exact (hfi o object i x ho' holdSpace hf hx).2

theorem scanned_remembered (hrem : w.heap.Remembered) : (scanned w old new).Remembered := by
  have hsa : w.heap.SameShapes (scanned w old new) := scanned_sameShapes hw hold
  have hm : ∀ x, (scanned w old new).Remembers x ↔ w.heap.Remembers x :=
    walk_remembers w.newSpace fun x hx => ((hw.newSpace x).mp hx).2
  refine ⟨fun o o' ho' => ?_,fun o o' ho' hs hy => ?_⟩
  · obtain ⟨object,ho,-⟩ := hsa.exists_object ho'
    cases ho'.symm.trans (scanned_objects hw hold ho)
    rw [hm]
    exact hrem.tag o object ho
  · obtain ⟨object,ho,-⟩ := hsa.exists_object ho'
    cases ho'.symm.trans (scanned_objects_old hw hold ho hs)
    rw [hm]
    exact hrem.edge o o' ho hs ((hsa.refersToYoung ho rfl).mp hy)

end Scanned

omit [DecidableEq T] in
theorem swapObjectOnStack_heap : (swapObjectOnStack w old new).heap = w.heap := by
  unfold swapObjectOnStack
  dsimp only
  split <;> rfl

theorem objectBecome_scan (hold : w.heap.objects old = some a) (hnew : w.heap.objects new = some b)
    (hs : w.heap.computeRawObjectSize a ≠ w.heap.computeRawObjectSize b) :
    objectBecome w old new = if ∀ n ∈ w.tails, n = 0 ∨ 16 ≤ n then
      some (swapObjectOnStack
        { w with heap := swapObjectInOldSpace w (scanned w old new) old new } old new) else none := by
  have ht : (w.tails.any fun n => 0 < n && n < 16) = true ↔ ¬ ∀ n ∈ w.tails, n = 0 ∨ 16 ≤ n := by
    simp only [List.any_eq_true,Bool.and_eq_true,decide_eq_true_eq,not_forall]
    constructor
    · rintro ⟨n,hn,hpos,hlt⟩
      exact ⟨n,hn,by omega⟩
    · rintro ⟨n,hn,hbad⟩
      exact ⟨n,hn,by omega⟩
  simp only [objectBecome,hold,hnew,bind_some,hs,if_false,swapObjectInNewSpace,ht,ite_not,scanned]
  split <;> rfl

theorem objectBecome_scan_iff (hw : Walkable w) (hrem : w.heap.Remembered)
    (hold : w.heap.objects old = some a) (hnew : w.heap.objects new = some b) (hne : old ≠ new)
    (hsi : w.heap.computeRawObjectSize a ≠ w.heap.computeRawObjectSize b) :
    (∃ w', objectBecome w old new = some w' ∧ Redirected w w' old new) ↔ ScanSafe w old new := by
  have hsam : w.heap.SameShapes (scanned w old new) := scanned_sameShapes hw hold
  rw [objectBecome_scan hold hnew hsi]
  constructor
  · rintro ⟨w',hbe,hr⟩
    rw [ite_none_right_eq_some,some.injEq] at hbe
    obtain ⟨ht,rfl⟩ := hbe
    obtain ⟨he,hfr⟩ := (swapObjectOnStack_iff hne).mp ⟨hr.stack,hr.peers,hr.fibers⟩
    refine ⟨ht,fun o object i x ho hs hf hx => ?_,he,hfr⟩
    -- the walk of old space took the field to `old` where `new` was due
    have ho' : (scanned w old new).objects o = some object := scanned_objects_old hw hold ho hs
    obtain ⟨tags,hobj,-⟩ := walk_objects (t := w.current) (b := old) w.oldSpace hw.oldNodup
      (hw.aligned new (by simp [hnew])) (hsam.plain hw.shapes) ho'
    obtain ⟨tags',hobj'⟩ := hr.objects o object ho
    rw [swapObjectOnStack_heap,show (swapObjectInOldSpace w _ old new).objects o = _ from hobj,
      if_pos ((hw.oldSpace o).mpr ⟨by simp [ho],hs⟩),hsam.shapeOf ho rfl] at hobj'
    have hb := congrArg (fun l => l[i]?) (RawObject.mk.inj (some.inj hobj')).2.2.2
    simp only [getElem?_redirectedBody,hx,hf,if_true,map_some,some.injEq] at hb
    exact (redirect_swap_iff hne).mp hb
  · intro hsa
    rw [if_pos hsa.tails,swapObjectInOldSpace_eq_self hw hold hsa.oldFields]
    obtain ⟨hst,hp,hfi⟩ := (swapObjectOnStack_iff (w := { w with heap := scanned w old new })
      hne).mpr ⟨hsa.exits,hsa.frames⟩
    refine ⟨_,rfl,?_,hst,hp,hfi,?_⟩
    · intro o object ho
      rw [swapObjectOnStack_heap]
      cases hn : isNewObject o with
      | true => exact ⟨_,by rw [scanned_objects hw hold ho,if_pos hn]⟩
      | false =>
        have hs : isOldObject o = true := by simp [isOldObject,hn]
        have hb : redirectedBody (w.heap.shapeOf object) object old new = object.body :=
          (redirectedBody_eq_self_iff hne).mpr fun i x hf hx => (hsa.oldFields o object i x ho hs hf hx).1
        rw [scanned_objects_old hw hold ho hs,hb]
        exact ⟨object.tags,rfl⟩
    · rw [swapObjectOnStack_heap]
      exact scanned_remembered hw hold hrem

end Scan

section Copy
variable {T : Type} [DecidableEq T] {w : World T} {old new : Oop} {a b : RawObject}

omit [DecidableEq T] in
theorem set_sameShapes (hw : Walkable w) (hold : w.heap.objects old = some a) (hcls : b.cls = a.cls)
    (hb : b.body = redirectedBody (w.heap.shapeOf a) a old new) : w.heap.SameShapes (w.heap.set old b) :=
  sameShapes_of_redirected (hw.aligned old (by simp [hold])) hw.shapes hold (set_objects_self _ _ _) hcls hb
    fun _ hx => set_objects_other _ _ hx

theorem objectBecome_copy_iff (hw : Walkable w) (hrem : w.heap.Remembered) (hold : w.heap.objects old = some a)
    (hnew : w.heap.objects new = some b) (hne : old ≠ new)
    (hsi : w.heap.computeRawObjectSize a = w.heap.computeRawObjectSize b) :
    (∃ w', objectBecome w old new = some w' ∧ Redirected w w' old new) ↔ CopySafe w old new a b := by
  have hbe : objectBecome w old new = some { w with heap := w.heap.set old b } := by simp [objectBecome,hold,hnew,hsi]
  rw [hbe]
  constructor
  · rintro ⟨w',hw',hr⟩
    cases hw'
    obtain ⟨tags,hobj⟩ := hr.objects old a hold
    rw [set_objects_self] at hobj
    obtain ⟨hcls,hh,-,hb⟩ := RawObject.mk.inj (some.inj hobj)
    have htag := hr.remembered.tag old b (set_objects_self _ _ _)
    refine ⟨fun o object i x ho hxo => ?_,?_,hcls,hh,hb,?_,fun hs hy => ?_⟩
    · obtain ⟨tags',hobj'⟩ := hr.objects o object ho
      rw [set_objects_other _ _ hxo,ho] at hobj'
      have heq := (RawObject.mk.inj (some.inj hobj')).2.2.2
      exact (redirectedBody_eq_self_iff hne).mp heq.symm i x
    · rw [List.forall_mem_cons,← redirectedStack_eq_self_iff hne]
      refine ⟨hr.stack.symm,fun s hs => ?_⟩
      exact (redirectedStack_eq_self_iff hne).mp (otherStacks_eq_map_iff.mp ⟨hr.peers,hr.fibers⟩ s hs)
    · rw [Bool.eq_iff_iff,htag,hrem.tag old a hold]
      exact Iff.rfl
    · have hsam := set_sameShapes hw hold hcls hb
      rw [htag]
      apply hr.remembered.edge old b (set_objects_self _ _ _) hs
      exact (hsam.refersToYoung hnew rfl).mpr hy
  · intro hsa
    have hsam := set_sameShapes hw hold hsa.cls hsa.body
    obtain ⟨hst,hot⟩ := List.forall_mem_cons.mp hsa.onStack
    obtain ⟨hp,hf⟩ := otherStacks_eq_map_iff.mpr fun s hs => (redirectedStack_eq_self_iff hne).mpr (hot s hs)
    have htag : ∀ o object, (w.heap.set old b).objects o = some object →
        (object.tags.remembered = true ↔ w.heap.Remembers o) := by
      intro o object ho
      by_cases hxo : o = old
      · subst hxo
        rw [set_objects_self] at ho
        cases ho
        rw [hsa.tag,hrem.tag o a hold]
      · rw [set_objects_other _ _ hxo] at ho
        exact hrem.tag o object ho
    refine ⟨_,rfl,fun o object ho => ?_,((redirectedStack_eq_self_iff hne).mpr hst).symm,hp,
      hf,htag,fun o object ho hs hy => ?_⟩
    · by_cases hxo : o = old
      · subst hxo
        rw [hold] at ho
        cases ho
        refine ⟨b.tags,?_⟩
        rw [set_objects_self,← hsa.cls,← hsa.hash,← hsa.body]
      · have hb : redirectedBody (w.heap.shapeOf object) object old new = object.body :=
          (redirectedBody_eq_self_iff hne).mpr fun i x => hsa.fields o object i x ho hxo
        rw [set_objects_other _ _ hxo,ho,hb]
        exact ⟨object.tags,rfl⟩
    · by_cases hxo : o = old
      · subst hxo
        rw [set_objects_self] at ho
        cases ho
        refine (htag o b (set_objects_self _ _ _)).mp (hsa.edge hs ?_)
        exact (hsam.refersToYoung hnew rfl).mp hy
      · rw [set_objects_other _ _ hxo] at ho
        exact hrem.edge o object ho hs ((hsam.refersToYoung ho rfl).mp hy)

/-- When `objectBecome` redirects the references to `old`, and those only. -/
theorem objectBecome_redirects_iff (hw : Walkable w) (hrem : w.heap.Remembered) (hold : w.heap.objects old = some a)
    (hnew : w.heap.objects new = some b) (hne : old ≠ new) :
    (∃ w', objectBecome w old new = some w' ∧ Redirected w w' old new) ↔ if w.heap.computeRawObjectSize a =
      w.heap.computeRawObjectSize b then CopySafe w old new a b else ScanSafe w old new := by
  split
  · rename_i hs
    exact objectBecome_copy_iff hw hrem hold hnew hne hs
  · rename_i hs
    exact objectBecome_scan_iff hw hrem hold hnew hne hs

end Copy

section Boxes

def box (remembered : Bool) (elements : List ℕ) : RawObject :=
  ⟨16,0,{ Tags.none with remembered := remembered },elements.length :: elements⟩

/-- The class of arrays at 16, an empty array at 24, an array of `n` at 40, and at `holder` one that
refers to the first. -/
def boxes (holder : Oop) (n : ℕ) : World Unit where
  heap :=
    { objects := fun o =>
        if o = 16 then some ⟨16,0,Tags.none,[0,0,0,24*2^48+2^24]⟩
        else if o = 24 then some (box false [])
        else if o = 40 then some (box false (List.replicate n 0))
        else if o = holder then some (box (isOldObject holder) [tagPtr 24])
        else none
      rememberedSet := ⟨if isOldObject holder then [holder] else [],[]⟩
      threadSets := fun _ => none }
  newSpace := [16,24,40,holder].filter isNewObject
  oldSpace := [16,24,40,holder].filter isOldObject
  tails := [32]
  current := ()
  stack := [⟨0,[⟨[tagPtr 24],[(true,tagPtr 40)]⟩]⟩]
  schedulerActive := true
  peers := []
  fibers := []

variable {holder o : Oop} {n i x : ℕ} {object : RawObject}

theorem boxes_objects (ho : (boxes holder n).heap.objects o = some object) :
    o = 16 ∧ object = ⟨16,0,Tags.none,[0,0,0,24*2^48+2^24]⟩ ∨ o = 24 ∧ object = box false [] ∨
    o = 40 ∧ object = box false (List.replicate n 0) ∨
    o = holder ∧ object = box (isOldObject holder) [tagPtr 24] := by
  simp only [boxes] at ho
  split at ho
  · exact .inl ⟨‹_›,(some.inj ho).symm⟩
  · split at ho
    · exact .inr (.inl ⟨‹_›,(some.inj ho).symm⟩)
    · split at ho
      · exact .inr (.inr (.inl ⟨‹_›,(some.inj ho).symm⟩))
      · simp only [ite_none_right_eq_some,some.injEq] at ho
        exact .inr (.inr (.inr ⟨ho.1,ho.2.symm⟩))

theorem boxes_shapeOf (hc : object.cls = 16) : (boxes holder n).heap.shapeOf object = ⟨0,0,1,0,0,24⟩ := by
  simp only [Heap.shapeOf,hc,boxes,if_true,map_some,getD_some]
  decide

theorem boxes_field (ho : (boxes holder n).heap.objects o = some object)
    (hf : isField ((boxes holder n).heap.shapeOf object) object i = true)
    (hx : object.body[i]? = some x) : x = 0 ∨ o = holder ∧ x = tagPtr 24 := by
  obtain ⟨-,rfl⟩ | ⟨-,rfl⟩ | ⟨-,rfl⟩ | ⟨hh,rfl⟩ := boxes_objects ho
  · rw [boxes_shapeOf rfl] at hf
    simp [isField,varsCount,rawObjectSize,offset] at hf
    omega
  · rw [boxes_shapeOf rfl] at hf
    simp [box,isField,varsCount,rawObjectSize,offset] at hf
    omega
  · rw [boxes_shapeOf rfl] at hf
    obtain _ | i := i
    · simp [isField,offset] at hf
    · simp only [box,List.getElem?_cons_succ] at hx
      exact .inl (List.eq_of_mem_replicate (List.mem_of_getElem? hx))
  · rw [boxes_shapeOf rfl] at hf
    obtain _ | _ | i := i
    · simp [isField,offset] at hf
    · simp [box] at hx
      exact .inr ⟨hh,hx.symm⟩
    · simp [box] at hx

theorem boxes_walkable (hh : holder = 32 ∨ holder = 56) : Walkable (boxes holder n) := by
  have hs : ∀ o, ((boxes holder n).heap.objects o).isSome ↔ o ∈ [16,24,40,holder] := by
    intro o
    simp only [boxes,List.mem_cons,List.not_mem_nil,or_false]
    split_ifs <;> simp_all
  have hn : [16,24,40,holder].Nodup := by obtain rfl | rfl := hh <;> decide
  refine ⟨fun o => ?_,fun o => ?_,hn.filter isNewObject,hn.filter isOldObject,fun o ho => ?_,fun o c w hc hw => ?_⟩
  · rw [hs]
    exact List.mem_filter
  · rw [hs]
    exact List.mem_filter
  · have ha : ∀ o ∈ [16,24,40,holder], o % 4 = 0 := by obtain rfl | rfl := hh <;> decide
    exact ha o ((hs o).mp ho)
  · obtain ⟨object,ho,rfl⟩ := map_eq_some_iff.mp hc
    have hcls : object.cls = 16 := by obtain ⟨-,rfl⟩ | ⟨-,rfl⟩ | ⟨-,rfl⟩ | ⟨-,rfl⟩ := boxes_objects ho <;> rfl
    rw [hcls] at hw
    simp only [boxes,if_true,map_some,some.injEq] at hw
    subst hw
    decide

theorem boxes_remembered (hh : holder = 32 ∨ holder = 56) : (boxes holder n).heap.Remembered := by
  have hmem : ∀ o, (boxes holder n).heap.Remembers o ↔ o = holder ∧ isOldObject holder = true := by
    intro o
    cases hs : isOldObject holder <;> simp [Heap.Remembers,boxes,RememberedSet.members,hs]
  have hne : holder ≠ 16 ∧ holder ≠ 24 ∧ holder ≠ 40 := by obtain rfl | rfl := hh <;> decide
  refine ⟨fun o object ho => ?_,fun o object ho hs hy => ?_⟩
  · rw [hmem]
    obtain ⟨rfl,rfl⟩ | ⟨rfl,rfl⟩ | ⟨rfl,rfl⟩ | ⟨rfl,rfl⟩ := boxes_objects ho
    · simp [Tags.none,hne.1.symm]
    · simp [box,Tags.none,hne.2.1.symm]
    · simp [box,Tags.none,hne.2.2.symm]
    · simp [box]
  · rw [hmem]
    obtain hcls | ⟨i,x,hf,hx,hp,hn⟩ := hy
    · have h16 : object.cls = 16 := by obtain ⟨-,rfl⟩ | ⟨-,rfl⟩ | ⟨-,rfl⟩ | ⟨-,rfl⟩ := boxes_objects ho <;> rfl
      rw [h16] at hcls
      cases hcls
    · obtain rfl | ⟨rfl,-⟩ := boxes_field ho hf hx
      · cases hp
      · exact ⟨rfl,hs⟩

/-- Arrays of different sizes that only young objects refer to. -/
theorem objectBecome_redirects_boxes :
    ∃ w', objectBecome (boxes 56 1) 24 40 = some w' ∧ Redirected (boxes 56 1) w' 24 40 := by
  have hsa : ScanSafe (boxes 56 1) 24 40 := by
    refine ⟨by decide,fun o object i x ho hs hf hx => ?_,fun s hs e he => ?_,fun ha => ?_⟩
    · obtain rfl | ⟨rfl,-⟩ := boxes_field ho hf hx
      · decide
      · cases hs
    · obtain rfl := List.mem_singleton.mp hs
      obtain rfl := List.mem_singleton.mp he
      decide
    · cases ha
  refine (objectBecome_redirects_iff (boxes_walkable (.inr rfl)) (boxes_remembered (.inr rfl)) rfl rfl
    (by decide)).mpr ?_
  exact hsa

/-- A field in old space that pointed to `old` is not redirected, and neither is an argument when the
sizes agree. -/
theorem objectBecome_loses_references : (Walkable (boxes 32 1) ∧ (boxes 32 1).heap.Remembered ∧
      ¬ ∃ w', objectBecome (boxes 32 1) 24 40 = some w' ∧ Redirected (boxes 32 1) w' 24 40) ∧
    (Walkable (boxes 56 0) ∧ (boxes 56 0).heap.Remembered ∧
      ¬ ∃ w', objectBecome (boxes 56 0) 24 40 = some w' ∧ Redirected (boxes 56 0) w' 24 40) := by
  constructor
  · have hw : Walkable (boxes 32 1) := boxes_walkable (.inl rfl)
    have hrem : (boxes 32 1).heap.Remembered := boxes_remembered (.inl rfl)
    refine ⟨hw,hrem,fun h => ?_⟩
    have hs := (objectBecome_scan_iff hw hrem rfl rfl (by decide) (by decide)).mp h
    exact (hs.oldFields 32 _ 1 (tagPtr 24) rfl rfl (by decide) rfl).1 rfl
  · have hw : Walkable (boxes 56 0) := boxes_walkable (.inr rfl)
    have hrem : (boxes 56 0).heap.Remembered := boxes_remembered (.inr rfl)
    refine ⟨hw,hrem,fun h => ?_⟩
    have hs := (objectBecome_copy_iff hw hrem rfl rfl (by decide) (by decide)).mp h
    exact ((hs.onStack _ List.mem_cons_self).2 _ List.mem_cons_self _ List.mem_cons_self).1 List.mem_cons_self

end Boxes

end SmalltalkJit.Memory
