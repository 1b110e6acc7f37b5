import SmalltalkJit.Collections.Window
import SmalltalkJit.Lib.Interleaving

/-! # Ordered collections as lists

What each operation does to a list, and in which collections the code does the
same. An answer is observed together with the elements afterwards; of an error it
is observed that it is signalled. The operations that search mix positions in the
window with positions in the array, and insertion checks no index.
-/
namespace SmalltalkJit.Collections
open Interleaving List Option

variable {α β γ : Type}

inductive Operation (α : Type)
  | addFirst (object : α)
  | addLast (object : α)
  | addBeforeIndex (object : α) (index : ℤ)
  | addAfterIndex (object : α) (index : ℤ)
  | addBefore (object old : α)
  | addAfter (object old : α)
  | removeFirst
  | removeLast
  | remove (object : α)
  | removeIndex (index : ℤ)
  | atIndex (index : ℤ)
  | atPut (index : ℤ) (object : α)
  | after (object : α)
  | before (object : α)
  | enumerate

inductive Answer (α : Type)
  | object (x : α)
  | objects (l : List α)
  -- The block of `remove:ifAbsent:` was evaluated.
  | absent
  deriving DecidableEq

section Operations
variable (nil : α) (equals : α → α → Bool)

def Operation.perform : Operation α → Action α (Answer α)
  | .addFirst x => .object <$> Collections.addFirst nil x
  | .addLast x => .object <$> Collections.addLast nil x
  | .addBeforeIndex x i => .object <$> Collections.addBeforeIndex nil x i
  | .addAfterIndex x i => .object <$> Collections.addAfterIndex nil x i
  | .addBefore x old => .object <$> Collections.addBefore nil equals x old
  | .addAfter x old => .object <$> Collections.addAfter nil equals x old
  | .removeFirst => .object <$> Collections.removeFirst nil
  | .removeLast => .object <$> Collections.removeLast nil
  | .remove x => (fun r => r.elim .absent .object) <$> Collections.remove nil equals x
  | .removeIndex i => .object <$> Collections.removeIndex nil i
  | .atIndex i => .object <$> Collections.atIndex i
  | .atPut i x => .object <$> Collections.atPut i x
  | .after x => .object <$> Collections.after equals x
  | .before x => .object <$> Collections.before equals x
  | .enumerate => .objects <$> Collections.enumerate

def Operation.onList : Operation α → List α → Option (Answer α × List α)
  | .addFirst x, l => some (.object x,x :: l)
  | .addLast x, l => some (.object x,l ++ [x])
  | .addBeforeIndex x i, l => if 1 ≤ i ∧ i ≤ l.length+1 then some (.object x,l.insertIdx (i-1).toNat x) else none
  | .addAfterIndex x i, l => if 0 ≤ i ∧ i ≤ l.length then some (.object x,l.insertIdx i.toNat x) else none
  | .addBefore x old, l => (l.findIdx? (equals · old)).map fun k => (.object x,l.insertIdx k x)
  | .addAfter x old, l => (l.findIdx? (equals · old)).map fun k => (.object x,l.insertIdx (k+1) x)
  | .removeFirst, l => l.head?.map fun x => (.object x,l.tail)
  | .removeLast, l => l.getLast?.map fun x => (.object x,l.dropLast)
  | .remove x, l =>
    match l.findIdx? (equals · x) with
    | some k => l[k]?.map fun y => (.object y,l.eraseIdx k)
    | none => some (.absent,l)
  | .removeIndex i, l => (arrayAt l i).map fun x => (.object x,l.eraseIdx (i-1).toNat)
  | .atIndex i, l => (arrayAt l i).map fun x => (.object x,l)
  | .atPut i x, l => (arrayAtPut l i x).map fun l' => (.object x,l')
  | .after x, l => (l.findIdx? (equals · x)).bind fun k => l[k+1]?.map fun y => (.object y,l)
  | .before x, l => (l.findIdx? (equals · x)).bind fun k => if k = 0 then none else l[k-1]?.map fun y => (.object y,l)
  | .enumerate, l => some (.objects l,l)

/-- What is observed of the operation on a list; an error leaves the list. -/
def Operation.expected (op : Operation α) (l : List α) : Option (Answer α) × List α :=
  match op.onList equals l with
  | some (answer,l') => (some answer,l')
  | none => (none,l)

def observe (r : Except (Signal α) β × OrderedCollection α) : Option β × List α := (r.1.toOption,r.2.elements)

def trace : OrderedCollection α → List (Operation α) → List (Option (Answer α) × List α)
  | _, [] => []
  | c, op :: ops => observe (op.perform nil equals c) :: trace (op.perform nil equals c).2 ops

def listTrace : List α → List (Operation α) → List (Option (Answer α) × List α)
  | _, [] => []
  | l, op :: ops => op.expected equals l :: listTrace (op.expected equals l).2 ops

/-- The collections in which the operation does what it does to a list: an index to insert at
exists, and the slots that `after:` and `before:` look at hold the neighbours. -/
def Handled (c : OrderedCollection α) : Operation α → Prop
  | .addBeforeIndex _ i => 1 ≤ i ∧ i ≤ c.size+1
  | .addAfterIndex _ i => 0 ≤ i ∧ i ≤ c.size
  | .after x => ∀ k ∈ c.elements.findIdx? (equals · x),
      c.firstIndex = 1 ∨ k+1 < c.size ∧ arrayAt c.contents (k+2) = arrayAt c.contents (c.firstIndex + k+1)
  | .before x => ∀ k ∈ c.elements.findIdx? (equals · x),
      k = 0 ∨ k+1 ≠ c.firstIndex ∧ arrayAt c.contents k = arrayAt c.contents (c.firstIndex + k-1)
  | _ => True

instance [DecidableEq α] (c : OrderedCollection α) (op : Operation α) : Decidable (Handled equals c op) := by
  cases op <;> unfold Handled <;> infer_instance

end Operations

variable {k : ℕ}

section Lists
variable {l l1 l2 : List α} {x : α}

theorem insertIdx_length : (l1 ++ l2).insertIdx l1.length x = l1 ++ x :: l2 := by
  induction l1 with
  | nil => simp
  | cons _ _ ih => simpa using ih

theorem eraseIdx_length : (l1 ++ x :: l2).eraseIdx l1.length = l1 ++ l2 := by
  rw [eraseIdx_append_of_length_le (Nat.le_refl _)]
  simp

theorem exists_append (h : n ≤ l.length) : ∃ l1 l2, l = l1 ++ l2 ∧ n = l1.length :=
  ⟨l.take n,l.drop n,(take_append_drop n l).symm,by rw [length_take]; omega⟩

theorem split_of_findIdx? (h : l.findIdx? p = some k) : ∃ l1 y l2, l = l1 ++ y :: l2 ∧ k = l1.length := by
  obtain ⟨hlt,-⟩ := List.findIdx?_eq_some_iff_findIdx_eq.mp h
  refine ⟨l.take k,l[k],l.drop (k+1),by simp,?_⟩
  rw [length_take]
  omega

end Lists

/-- The operation does this as far as one can observe, and leaves a window. -/
def Agrees (r : Except (Signal α) β × OrderedCollection α) (e : Option β × List α) : Prop :=
  ∃ pre post, r.2 = window pre e.2 post ∧ r.1.toOption = e.1

variable {r : Except (Signal α) β × OrderedCollection α} {op : Operation α}

section Steps
variable {pre l post l1 l2 : List α} {x y : α} {i : ℤ}

theorem Agrees.observe_eq (h : Agrees r e) : observe r = e := by
  obtain ⟨pre,post,hc,hr⟩ := h
  rw [observe,hc,hr,elements_window]

theorem Agrees.valid (h : Agrees r e) : r.2.Valid := by
  obtain ⟨pre,post,hc,-⟩ := h
  rw [hc]
  exact valid_window

theorem Leaves.agrees (f : β → γ) (h : Leaves r b l) :
    Agrees (Action.andThen r fun b => pure (f b)) (some (f b),l) := by
  obtain ⟨pre,post,rfl⟩ := h
  exact ⟨pre,post,rfl,rfl⟩

theorem agrees_error (e : Signal α) (f : β → γ) :
    Agrees (Action.andThen (.error e,window pre l post) fun b => pure (f b)) (none,l) :=
  ⟨pre,post,rfl,rfl⟩

theorem addBeforeIndex_window (nil : α) (hi : i = l1.length+1) :
    Leaves (addBeforeIndex nil x i (window pre (l1 ++ l2) post)) x (l1 ++ x :: l2) := by
  obtain ⟨pre',q',heq⟩ : Leaves (insert nil x i (window pre (l1 ++ l2) post)) () (l1 ++ x :: l2) :=
    insert_window nil hi
  refine ⟨pre',q',?_⟩
  simp only [addBeforeIndex,bind_apply,heq,andThen_ok,pure_apply]

theorem agrees_addBeforeIndex (nil : α) (hk : k ≤ l.length) (hi : i = k+1) :
    Agrees ((Answer.object <$> addBeforeIndex nil x i) (window pre l post)) (some (.object x),l.insertIdx k x) := by
  obtain ⟨l1,l2,rfl,rfl⟩ := exists_append hk
  rw [insertIdx_length]
  exact (addBeforeIndex_window nil hi).agrees Answer.object

theorem removeIndex_getElem (nil : α) (hy : l[k]? = some y) (hi : i = k+1) :
    Leaves (removeIndex nil i (window pre l post)) y (l.eraseIdx k) := by
  obtain ⟨hk,rfl⟩ := List.getElem?_eq_some_iff.mp hy
  obtain ⟨l1,z,l2,hl,hlen⟩ := exists_split (l := l) (i := i) (by omega) (by omega)
  obtain rfl : k = l1.length := by omega
  subst hl
  rw [eraseIdx_length]
  have hr : Leaves (removeIndex nil i (window pre (l1 ++ z :: l2) post)) z (l1 ++ l2) := removeIndex_window nil hlen
  simpa using hr

theorem agrees_query {m : Action α β} {r : Except (Signal α) β} (f : β → γ)
    (h : m (window pre l post) = (r,window pre l post)) (ho : r.toOption = o) :
    Agrees ((f <$> m) (window pre l post)) (o.map f,l) := by
  rw [map_apply,h]
  subst ho
  cases r with
  | error | ok => exact ⟨pre,post,rfl,rfl⟩

theorem answer_of_query {m : Action α β} {r : Except (Signal α) β}
    (hf : Function.Injective f) (h : m (window pre l post) = (r,window pre l post))
    (hobs : observe ((f <$> m) (window pre l post)) = (o.map f,l)) : r.toOption = o := by
  rw [(agrees_query f h rfl).observe_eq,Prod.mk.injEq] at hobs
  exact map_injective hf hobs.1

theorem contentsAt_reads (i : ℤ) : ∃ r, contentsAt i (window pre l post) = (r,window pre l post) ∧
    r.toOption = arrayAt (window pre l post).contents i := by
  unfold contentsAt
  cases arrayAt (window pre l post).contents i with
  | none | some => exact ⟨_,rfl,rfl⟩

theorem arrayAt_window (hk : k < l.length) (hi : i = pre.length + k+1) :
    arrayAt (window pre l post).contents i = l[k]? := by
  obtain ⟨l1,y,l2,rfl,hlen⟩ := exists_split (l := l) (i := k+1) (by omega) (by omega)
  obtain rfl : k = l1.length := by omega
  have hs : pre ++ (l1 ++ y :: l2) ++ post = (pre ++ l1) ++ y :: (l2 ++ post) := by simp
  rw [contents_window,hs,arrayAt_append (by rw [length_append]; omega)]
  simp

theorem arrayAt_ne_none (h1 : 1 ≤ i) (h2 : i ≤ a.length) : arrayAt a i ≠ none := by
  obtain ⟨l1,y,l2,rfl,hlen⟩ := exists_split h1 h2
  rw [arrayAt_append hlen]
  exact some_ne_none y

section Neighbours
variable (equals : α → α → Bool) {k : ℕ} (pre post : List α) (hk : l.findIdx? (equals · x) = some k)
include hk

theorem after_found : ∃ r, after equals x (window pre l post) = (r,window pre l post) ∧ r.toOption = if (k : ℤ)+1 =
      (window pre l post).lastIndex then none else arrayAt (window pre l post).contents (k+2) := by
  simp only [after,bind_apply,find_window,hk,andThen_ok,self_apply]
  by_cases hl : (k : ℤ)+1 = (window pre l post).lastIndex
  · rw [if_pos hl,if_pos hl]
    exact ⟨_,rfl,rfl⟩
  · have hn : (k : ℤ)+1+1 = k+2 := by omega
    rw [if_neg hl,if_neg hl,hn]
    exact contentsAt_reads _

theorem before_found : ∃ r, before equals x (window pre l post) = (r,window pre l post) ∧ r.toOption = if (k : ℤ)+1 =
      (window pre l post).firstIndex then none else arrayAt (window pre l post).contents k := by
  simp only [before,bind_apply,find_window,hk,andThen_ok,self_apply]
  by_cases hf : (k : ℤ)+1 = (window pre l post).firstIndex
  · rw [if_pos hf,if_pos hf]
    exact ⟨_,rfl,rfl⟩
  · have hp : (k : ℤ)+1-1 = k := by omega
    rw [if_neg hf,if_neg hf,hp]
    exact contentsAt_reads _

theorem after_answer_iff : (if (k : ℤ)+1 = (window pre l post).lastIndex then none
      else arrayAt (window pre l post).contents (k+2)) = l[k+1]? ↔
    (window pre l post).firstIndex = 1 ∨ k+1 < (window pre l post).size ∧
      arrayAt (window pre l post).contents (k+2) =
        arrayAt (window pre l post).contents ((window pre l post).firstIndex + k+1) := by
  obtain ⟨hlt,-⟩ := List.findIdx?_eq_some_iff_findIdx_eq.mp hk
  have hl : (window pre l post).lastIndex = pre.length + l.length := rfl
  rw [firstIndex_window,size_window]
  by_cases hn : k+1 < l.length
  · rw [if_neg (by omega),arrayAt_window (i := pre.length+1 + k+1) hn (by omega)]
    constructor
    · intro h
      exact .inr ⟨by omega,h⟩
    · rintro (hf | ⟨-,h⟩)
      · exact arrayAt_window hn (by omega)
      · exact h
  · rw [List.getElem?_eq_none (by omega)]
    by_cases hpre : pre.length = 0
    · rw [if_pos (by omega)]
      exact iff_of_true rfl (.inl (by omega))
    · rw [if_neg (by omega)]
      refine iff_of_false (arrayAt_ne_none (by omega) ?_) (by omega)
      rw [contents_window,length_append,length_append]
      omega

theorem before_answer_iff : (if (k : ℤ)+1 = (window pre l post).firstIndex then none
      else arrayAt (window pre l post).contents k) = (if k = 0 then none else l[k-1]?) ↔
    k = 0 ∨ k+1 ≠ (window pre l post).firstIndex ∧
      arrayAt (window pre l post).contents k =
        arrayAt (window pre l post).contents ((window pre l post).firstIndex + k-1) := by
  obtain ⟨hlt,-⟩ := List.findIdx?_eq_some_iff_findIdx_eq.mp hk
  rw [firstIndex_window]
  by_cases hz : k = 0
  · subst hz
    refine iff_of_true ?_ (.inl rfl)
    split
    · rfl
    · exact arrayAt_eq_none (by omega)
  · rw [if_neg hz,arrayAt_window (k := k-1) (i := pre.length+1 + k-1) (by omega) (by omega)]
    by_cases hf : (k : ℤ)+1 = pre.length+1
    · rw [if_pos hf]
      refine iff_of_false ?_ (by omega)
      rw [List.getElem?_eq_getElem (by omega)]
      exact (some_ne_none _).symm
    · rw [if_neg hf]
      constructor
      · intro h
        exact .inr ⟨hf,h⟩
      · rintro (h | ⟨-,h⟩)
        · exact absurd h hz
        · exact h

end Neighbours

section Conformance
variable (nil : α) (equals : α → α → Bool)

theorem expected_after : (Operation.after x).expected equals l =
    (((l.findIdx? (equals · x)).bind fun k => l[k+1]?).map .object,l) := by
  simp only [Operation.expected,Operation.onList]
  cases l.findIdx? (equals · x) with
  | none => rfl
  | some k =>
    simp only [bind_some]
    cases l[k+1]? <;> rfl

theorem expected_before : (Operation.before x).expected equals l =
    (((l.findIdx? (equals · x)).bind fun k => if k = 0 then none else l[k-1]?).map .object,l) := by
  simp only [Operation.expected,Operation.onList]
  cases l.findIdx? (equals · x) with
  | none => rfl
  | some k =>
    by_cases hz : k = 0
    · simp only [bind_some,if_pos hz,map_none]
    · simp only [bind_some,if_neg hz]
      cases l[k-1]? <;> rfl

theorem agrees_after (h : Handled equals (window pre l post) (.after x)) :
    Agrees ((Operation.after x).perform nil equals (window pre l post)) ((Operation.after x).expected equals l) := by
  rw [expected_after]
  cases hk : l.findIdx? (equals · x) with
  | none =>
    have hm : after equals x (window pre l post) = (.error (.notFound x),window pre l post) := by
      simp only [after,bind_apply,find_window,hk,andThen_error]
    exact agrees_query _ hm rfl
  | some k =>
    obtain ⟨r,hr,ha⟩ := after_found equals pre post hk
    exact agrees_query _ hr (ha.trans ((after_answer_iff equals pre post hk).mpr (h k (by rwa [elements_window]))))

theorem agrees_before (h : Handled equals (window pre l post) (.before x)) :
    Agrees ((Operation.before x).perform nil equals (window pre l post)) ((Operation.before x).expected equals l) := by
  rw [expected_before]
  cases hk : l.findIdx? (equals · x) with
  | none =>
    have hm : before equals x (window pre l post) = (.error (.notFound x),window pre l post) := by
      simp only [before,bind_apply,find_window,hk,andThen_error]
    exact agrees_query _ hm rfl
  | some k =>
    obtain ⟨r,hr,ha⟩ := before_found equals pre post hk
    exact agrees_query _ hr (ha.trans ((before_answer_iff equals pre post hk).mpr (h k (by rwa [elements_window]))))

theorem agrees_remove : Agrees ((Operation.remove x).perform nil equals (window pre l post))
    ((Operation.remove x).expected equals l) := by
  simp only [Operation.perform,Operation.expected,Operation.onList,map_apply,remove,bind_apply,indexOf_window,
    andThen_ok]
  cases hk : l.findIdx? (equals · x) with
  | none => exact ⟨pre,post,rfl,rfl⟩
  | some =>
    obtain ⟨l1,y,l2,rfl,rfl⟩ := split_of_findIdx? hk
    have hr : Leaves (removeIndex nil (l1.length+1) (window pre (l1 ++ y :: l2) post)) y
        ((l1 ++ y :: l2).eraseIdx l1.length) := removeIndex_getElem nil (by simp) rfl
    obtain ⟨pre',q',heq⟩ := hr
    simp only [map_some,map_apply,heq,andThen_ok,pure_apply]
    exact ⟨pre',q',by simp,by simp [Except.toOption]⟩

theorem agrees_removeIndex : Agrees ((Operation.removeIndex i).perform nil equals (window pre l post))
    ((Operation.removeIndex i).expected equals l) := by
  simp only [Operation.perform,Operation.expected,Operation.onList,map_apply]
  cases hy : arrayAt l i with
  | none =>
    rw [removeIndex_window_outside nil hy]
    exact agrees_error _ _
  | some y =>
    have hi : 1 ≤ i ∧ l[(i-1).toNat]? = some y := by
      unfold arrayAt at hy
      split at hy
      · exact ⟨by assumption,hy⟩
      · cases hy
    exact (removeIndex_getElem nil hi.2 (by omega)).agrees Answer.object

theorem agrees_perform (h : Handled equals (window pre l post) op) :
    Agrees (op.perform nil equals (window pre l post)) (op.expected equals l) := by
  cases op with
  | addFirst => exact (addFirst_window nil).agrees Answer.object
  | addLast => exact (addLast_window nil).agrees Answer.object
  | addBeforeIndex | addAfterIndex =>
    simp only [Handled,size_window] at h
    simp only [Operation.expected,Operation.onList,if_pos h]
    exact agrees_addBeforeIndex nil (by omega) (by omega)
  | addBefore _ old | addAfter _ old =>
    simp only [Operation.perform,Operation.expected,Operation.onList,map_apply,addBefore,addAfter,bind_apply,
      find_window]
    cases hk : l.findIdx? (equals · old) with
    | none => exact agrees_error _ _
    | some =>
      obtain ⟨l1,y,l2,rfl,rfl⟩ := split_of_findIdx? hk
      exact agrees_addBeforeIndex nil (by simp) rfl
  | removeFirst =>
    cases l with
    | nil => exact agrees_query _ (removeFirst_empty nil) rfl
    | cons => exact (removeFirst_window nil).agrees Answer.object
  | removeLast =>
    induction l using List.reverseRecOn with
    | nil => exact agrees_query _ (removeLast_empty nil) rfl
    | append_singleton l x =>
      have he : Operation.removeLast.expected equals (l ++ [x]) = (some (.object x),l) := by
        simp [Operation.expected,Operation.onList]
      rw [he]
      exact (removeLast_window nil).agrees Answer.object
  | remove => exact agrees_remove nil equals
  | removeIndex => exact agrees_removeIndex nil equals
  | atIndex i =>
    simp only [Operation.perform,Operation.expected,Operation.onList,map_apply,atIndex_window]
    cases arrayAt l i with
    | none => exact agrees_error _ _
    | some => exact ⟨pre,post,rfl,rfl⟩
  | atPut i x =>
    simp only [Operation.perform,Operation.expected,Operation.onList,map_apply,atPut_window]
    cases arrayAtPut l i x with
    | none => exact agrees_error _ _
    | some => exact ⟨pre,post,rfl,rfl⟩
  | after => exact agrees_after nil equals h
  | before => exact agrees_before nil equals h
  | enumerate => exact agrees_query _ enumerate_window rfl

theorem observe_addBeforeIndex_ne :
    observe ((Operation.addBeforeIndex x i).perform nil equals (window pre l post)) ≠ (o,l) := by
  intro hobs
  have hs : ((Operation.addBeforeIndex x i).perform nil equals (window pre l post)).2 =
      (insert nil x i (window pre l post)).2 := by
    simp only [Operation.perform,map_apply,addBeforeIndex,bind_apply]
    obtain ⟨r | r,c⟩ := insert nil x i (window pre l post) <;> rfl
  have hl : (insert nil x i (window pre l post)).2.elements.length = l.length+1 := insert_longer nil i
  rw [← hs,show ((Operation.addBeforeIndex x i).perform nil equals (window pre l post)).2.elements = l from
    congrArg Prod.snd hobs] at hl
  omega

theorem handled_of_observe (hobs : observe (op.perform nil equals (window pre l post)) = op.expected equals l) :
    Handled equals (window pre l post) op := by
  cases op with
  | addBeforeIndex | addAfterIndex =>
    simp only [Handled,size_window]
    by_contra hi
    simp only [Operation.expected,Operation.onList,if_neg hi] at hobs
    exact observe_addBeforeIndex_ne nil equals hobs
  | after =>
    intro k hk
    rw [elements_window] at hk
    obtain ⟨r,hr,ha⟩ := after_found equals pre post hk
    rw [expected_after,hk,bind_some] at hobs
    refine (after_answer_iff equals pre post hk).mp (ha.symm.trans ?_)
    exact answer_of_query (fun _ _ h => Answer.object.inj h) hr hobs
  | before =>
    intro k hk
    rw [elements_window] at hk
    obtain ⟨r,hr,ha⟩ := before_found equals pre post hk
    rw [expected_before,hk,bind_some] at hobs
    refine (before_answer_iff equals pre post hk).mp (ha.symm.trans ?_)
    exact answer_of_query (fun _ _ h => Answer.object.inj h) hr hobs
  | _ => exact trivial

end Conformance

end Steps

theorem valid_new (nil : α) (n : ℕ) : (new nil n).Valid := by
  refine ⟨?_,?_,?_⟩ <;> simp only [new,OrderedCollection.capacity,length_replicate] <;> omega

variable {nil : α} {equals : α → α → Bool} {c : OrderedCollection α}

theorem observe_perform_iff (nil : α) (h : c.Valid) (op : Operation α) :
    observe (op.perform nil equals c) = op.expected equals c.elements ↔ Handled equals c op := by
  obtain ⟨pre,post,hc⟩ := h.exists_window
  rw [hc,elements_window]
  exact ⟨handled_of_observe nil equals,fun hop => (agrees_perform nil equals hop).observe_eq⟩

theorem valid_perform (h : c.Valid) (hop : Handled equals c op) : (op.perform nil equals c).2.Valid := by
  obtain ⟨pre,post,hc⟩ := h.exists_window
  rw [hc] at hop ⊢
  exact (agrees_perform nil equals hop).valid

/-- A collection behaves like the list of its elements in exactly the runs whose operations all meet
the condition. -/
theorem trace_eq_listTrace_iff (h : c.Valid) (ops : List (Operation α)) :
    trace nil equals c ops = listTrace equals c.elements ops ↔
      Meets (fun c op => some (op.perform nil equals c).2) (Handled equals) c ops := by
  induction ops generalizing c with
  | nil => exact iff_of_true rfl trivial
  | cons op _ ih =>
    simp only [trace,listTrace,Meets,List.cons.injEq,observe_perform_iff nil h]
    refine and_congr_right fun hop => ?_
    have hobs := (observe_perform_iff nil h op).mpr hop
    have he : (op.perform nil equals c).2.elements = (op.expected equals c.elements).2 := congrArg Prod.snd hobs
    rw [← he]
    exact ih (valid_perform h hop)

theorem trace_eq_listTrace_queue : (new (0 : ℤ) 4).Valid ∧
    trace 0 (· == ·) (new 0 4) [.addLast 1,.addLast 2,.addBeforeIndex 3 1,.removeFirst,.atIndex 2,.enumerate] =
      listTrace (· == ·) [] [.addLast 1,.addLast 2,.addBeforeIndex 3 1,.removeFirst,.atIndex 2,.enumerate] :=
  ⟨valid_new 0 4,(trace_eq_listTrace_iff (valid_new 0 4) _).mpr (by decide)⟩

/-- The first slots are free: `after:` and `before:` look at the wrong ones. And an insertion past the
end answers. -/
theorem trace_ne_listTrace : trace (0 : ℤ) (· == ·) (new 0 8) [.addLast 1,.addLast 2,.after 1] ≠
      listTrace (· == ·) [] [.addLast 1,.addLast 2,.after 1] ∧
    trace (0 : ℤ) (· == ·) (new 0 8) [.addLast 1,.addLast 2,.before 2] ≠
      listTrace (· == ·) [] [.addLast 1,.addLast 2,.before 2] ∧
    trace (0 : ℤ) (· == ·) (new 0 8) [.addBeforeIndex 1 3] ≠ listTrace (· == ·) [] [.addBeforeIndex 1 3] := by
  decide

end SmalltalkJit.Collections
