import SmalltalkJit.Collections.OrderedCollection
import Mathlib.Data.List.Induction

/-! # The window of an ordered collection

A collection is a list of elements between two runs of free slots. What each
operation does to the elements is read off from this form; what it leaves in the
free slots does not matter.
-/
namespace SmalltalkJit.Collections
open List OrderedCollection

variable {α β γ : Type}

section Actions
@[simp] theorem pure_apply (b : β) : (pure b : Action α β) c = (.ok b,c) := rfl

@[simp] theorem bind_apply (m : Action α β) (f : β → Action α γ) : (m >>= f) c = Action.andThen (m c) f := rfl

@[simp] theorem andThen_ok (b : β) (f : β → Action α γ) : Action.andThen (.ok b,c) f = f b c := rfl

@[simp] theorem andThen_error (e : Signal α) (f : β → Action α γ) :
    Action.andThen (.error e,c) f = (.error e,c) := rfl

@[simp] theorem self_apply : self c = (.ok c,c) := rfl

@[simp] theorem change_apply (f : OrderedCollection α → OrderedCollection α) : change f c = (.ok (),f c) := rfl

@[simp] theorem signal_apply (e : Signal α) : (signal e : Action α β) c = (.error e,c) := rfl

@[simp] theorem map_apply (f : β → γ) (m : Action α β) : (f <$> m) c = Action.andThen (m c) fun b => pure (f b) := rfl

end Actions

variable {f e : ℤ}

section Arrays
variable {a b : List α} {x y : α} {i : ℤ}

theorem arrayAt_append (h : i = a.length+1) : arrayAt (a ++ x :: b) i = some x := by
  subst h
  rw [arrayAt,if_pos (by omega)]
  simp

theorem arrayAtPut_append (h : i = a.length+1) : arrayAtPut (a ++ x :: b) i y = some (a ++ y :: b) := by
  subst h
  have hb : (1 : ℤ) ≤ a.length+1 ∧ (a.length : ℤ)+1 ≤ (a ++ x :: b).length := by
    rw [length_append,length_cons]
    omega
  rw [arrayAtPut,if_pos hb]
  simp

theorem arrayAt_eq_none (h : i < 1 ∨ a.length < i) : arrayAt a i = none := by
  unfold arrayAt
  split
  · rw [getElem?_eq_none_iff]
    omega
  · rfl

theorem contentsAt_append (h : i = a.length+1) : contentsAt i ⟨a ++ x :: b,f,l⟩ = (.ok x,⟨a ++ x :: b,f,l⟩) := by
  simp only [contentsAt,arrayAt_append h]

theorem contentsAtPut_append {l : ℤ} (h : i = a.length+1) :
    contentsAtPut i y ⟨a ++ x :: b,f,l⟩ = (.ok y,⟨a ++ y :: b,f,l⟩) := by
  simp only [contentsAtPut,arrayAtPut_append h]

theorem replaceFrom_append {j : ℤ} (hlen : mid.length = l.length) (hi : i = a.length+1)
    (hj : j = pre.length+1) : replaceFrom (pre ++ l ++ post) l.length i j (a ++ mid ++ b) = some (a ++ l ++ b) := by
  induction l generalizing a pre mid i j with
  | nil =>
    obtain rfl : mid = [] := length_eq_zero_iff.mp hlen
    rfl
  | cons x l ih =>
    cases mid with
    | nil => simp at hlen
    | cons y mid =>
      have hget : arrayAt (pre ++ (x :: l) ++ post) j = some x := by
        rw [append_assoc,cons_append]
        exact arrayAt_append hj
      have hput : arrayAtPut (a ++ (y :: mid) ++ b) i x = some ((a ++ [x]) ++ mid ++ b) := by
        rw [append_assoc,cons_append,arrayAtPut_append hi]
        simp
      have hs : pre ++ (x :: l) ++ post = (pre ++ [x]) ++ l ++ post := by simp
      rw [length_cons,replaceFrom,hget,Option.bind_some,hput,Option.bind_some,hs,
        ih (by simpa using hlen) (by simp [hi]) (by simp [hj])]
      simp

theorem moveDown_append (a gap l rest : List α) {j : ℤ} (hgap : gap ≠ []) (hi : i = a.length+1)
    (hj : j = a.length + gap.length+1) : ∃ rest', rest'.length = gap.length + rest.length ∧
      moveDown l.length i j ⟨a ++ gap ++ l ++ rest,f,e⟩ = (.ok (),⟨a ++ l ++ rest',f,e⟩) := by
  induction l generalizing a gap i j with
  | nil => exact ⟨gap ++ rest,by simp,by simp [moveDown]⟩
  | cons x l ih =>
    cases gap with
    | nil => exact absurd rfl hgap
    | cons g gap =>
      obtain ⟨rest',hlen,hrun⟩ := ih (a ++ [x]) (gap ++ [x]) (i := i+1) (j := j+1)
        (by simp) (by simp [hi]) (by simp only [hj,length_append,length_cons,length_nil]; omega)
      refine ⟨rest',by simpa using hlen,?_⟩
      have hr : contentsAt j ⟨a ++ (g :: gap) ++ (x :: l) ++ rest,f,e⟩ =
          (.ok x,⟨a ++ (g :: gap) ++ (x :: l) ++ rest,f,e⟩) := by
        rw [append_assoc,cons_append]
        exact contentsAt_append (by simp [hj])
      have hw : contentsAtPut i x ⟨a ++ (g :: gap) ++ (x :: l) ++ rest,f,e⟩ =
          (.ok x,⟨a ++ [x] ++ (gap ++ [x]) ++ l ++ rest,f,e⟩) := by
        have hf : a ++ (g :: gap) ++ (x :: l) ++ rest = a ++ g :: (gap ++ x :: l ++ rest) := by simp
        rw [hf,contentsAtPut_append hi]
        simp
      simp only [length_cons,moveDown,bind_apply,hr,andThen_ok,hw,hrun]
      simp

theorem moveUp_append (hi : i = a.length + l.length+1) :
    ∃ y, moveUp l.length i ⟨a ++ l ++ x :: b,f,e⟩ = (.ok (),⟨a ++ y :: l ++ b,f,e⟩) := by
  induction l using reverseRecOn generalizing x b i with
  | nil => exact ⟨x,by simp [moveUp]⟩
  | append_singleton l z ih =>
    rw [length_append,length_singleton] at hi
    obtain ⟨y,hrun⟩ := ih (x := z) (b := z :: b) (i := i-1) (by omega)
    refine ⟨y,?_⟩
    have hr : contentsAt (i-1) ⟨a ++ (l ++ [z]) ++ x :: b,f,e⟩ = (.ok z,⟨a ++ (l ++ [z]) ++ x :: b,f,e⟩) := by
      have hs : a ++ (l ++ [z]) ++ x :: b = (a ++ l) ++ z :: x :: b := by simp
      rw [hs]
      exact contentsAt_append (by rw [length_append]; omega)
    have hw : contentsAtPut i z ⟨a ++ (l ++ [z]) ++ x :: b,f,e⟩ = (.ok z,⟨a ++ l ++ z :: z :: b,f,e⟩) := by
      rw [contentsAtPut_append (by simp only [length_append,length_singleton]; omega)]
      simp
    simp only [length_append,length_singleton,moveUp,bind_apply,hr,andThen_ok,hw,hrun]
    simp

theorem clearFrom_append (nil : α) {l rest : List α} (hi : i = l.length+1) :
    clearFrom nil rest.length i ⟨l ++ rest,f,e⟩ = (.ok (),⟨l ++ replicate rest.length nil,f,e⟩) := by
  induction rest generalizing l i with
  | nil => rfl
  | cons _ _ ih =>
    have hn := ih (l := l ++ [nil]) (i := i+1) (by simp [hi])
    simp only [append_assoc,singleton_append] at hn
    simp only [length_cons,clearFrom,bind_apply,contentsAtPut_append hi,andThen_ok,hn,replicate_succ]

end Arrays

def window (pre l post : List α) : OrderedCollection α := ⟨pre ++ l ++ post,pre.length+1,pre.length + l.length⟩

namespace OrderedCollection

def elements (c : OrderedCollection α) : List α := (c.contents.drop (c.firstIndex-1).toNat).take c.size.toNat

structure Valid (c : OrderedCollection α) : Prop where
  first : 1 ≤ c.firstIndex
  last : c.firstIndex ≤ c.lastIndex+1
  room : c.lastIndex ≤ c.capacity

end OrderedCollection

variable {i : ℤ} {y : α}

section Windows
variable {pre l post : List α} {x : α}

@[simp] theorem contents_window : (window pre l post).contents = pre ++ l ++ post := rfl

@[simp] theorem firstIndex_window : (window pre l post).firstIndex = pre.length+1 := rfl

@[simp] theorem lastIndex_window : (window pre l post).lastIndex = pre.length + l.length := rfl

@[simp] theorem size_window : (window pre l post).size = l.length := by
  simp only [size,firstIndex_window,lastIndex_window]
  omega

@[simp] theorem capacity_window : (window pre l post).capacity = pre.length + l.length + post.length := by
  simp only [capacity,contents_window,length_append]
  omega

@[simp] theorem elements_window : (window pre l post).elements = l := by simp [elements]

theorem valid_window : (window pre l post).Valid :=
  ⟨by rw [firstIndex_window]; omega,by rw [firstIndex_window,lastIndex_window]; omega,
    by rw [lastIndex_window,capacity_window]; omega⟩

theorem OrderedCollection.Valid.exists_window (h : c.Valid) : ∃ pre post, c = window pre c.elements post := by
  obtain ⟨contents,first,last⟩ := c
  obtain ⟨h1,h2,h3⟩ := h
  simp only [capacity] at h1 h2 h3
  refine ⟨contents.take (first-1).toNat,(contents.drop (first-1).toNat).drop (last - first+1).toNat,?_⟩
  simp only [window,elements,size,mk.injEq]
  refine ⟨?_,?_,?_⟩
  · rw [append_assoc,take_append_drop,take_append_drop]
  · rw [length_take]
    omega
  · simp only [length_take,length_drop]
    omega

theorem mk_eq_window {contents : List α} {first last : ℤ} (hc : contents = pre ++ l ++ post)
    (hf : first = pre.length+1) (hl : last = pre.length + l.length) :
    (⟨contents,first,last⟩ : OrderedCollection α) = window pre l post := by
  subst hc hf hl
  rfl

theorem turns_eq {start stop : ℤ} {n : ℕ} (h : stop - start+1 = n) : turns start stop = n := by
  rw [turns,h,Int.toNat_natCast]

variable (nil : α)

theorem growBy_window (pre l post : List α) {grow shift : ℕ} (hs : shift ≤ grow) :
    growBy nil grow shift (window pre l post) = (.ok (),window (replicate (pre.length + shift) nil) l
      (replicate (post.length + grow - shift) nil)) := by
  have hf : replicate ((window pre l post).capacity + grow).toNat nil =
      replicate (pre.length + shift) nil ++ replicate l.length nil ++
        replicate (post.length + grow - shift) nil := by
    rw [replicate_append_replicate,replicate_append_replicate,capacity_window]
    congr 1
    omega
  have ht : turns ((window pre l post).firstIndex + shift) ((window pre l post).lastIndex + shift) =
      l.length := turns_eq (by rw [firstIndex_window,lastIndex_window]; omega)
  simp only [growBy,bind_apply,self_apply,andThen_ok,ht,hf,contents_window]
  rw [replaceFrom_append (by simp) (by simp only [firstIndex_window,length_replicate]; omega)
    (by rw [firstIndex_window])]
  simp only [change_apply]
  refine congrArg _ (mk_eq_window rfl ?_ ?_)
  · simp only [firstIndex_window,length_replicate]
    omega
  · simp only [lastIndex_window,length_replicate]
    omega

theorem max_capacity (pre l post : List α) : ∃ grow : ℕ, 0 < grow ∧ max (window pre l post).capacity 8 = grow := by
  refine ⟨max (pre.length + l.length + post.length) 8,by omega,?_⟩
  rw [capacity_window]
  omega

def Leaves (r : Except (Signal α) β × OrderedCollection α) (b : β) (l : List α) : Prop :=
  ∃ pre post, r = (.ok b,window pre l post)

theorem placeFirst : contentsAtPut ((window (pre ++ [y]) l post).firstIndex-1) x
      { window (pre ++ [y]) l post with firstIndex := (window (pre ++ [y]) l post).firstIndex-1 } =
      (.ok x,window pre (x :: l) post) := by
  have hs : pre ++ [y] ++ l ++ post = pre ++ y :: (l ++ post) := by simp
  simp only [window,hs]
  rw [contentsAtPut_append (by simp only [length_append,length_singleton]; omega)]
  refine congrArg _ (mk_eq_window (by simp) ?_ ?_)
  · simp only [length_append,length_singleton]
    omega
  · simp only [length_append,length_cons,length_nil]
    omega

theorem addFirst_window : Leaves (addFirst nil x (window pre l post)) x (x :: l) := by
  simp only [addFirst,bind_apply,self_apply,andThen_ok]
  induction pre using reverseRecOn with
  | nil =>
    obtain ⟨grow,hpos,hg⟩ := max_capacity [] l post
    obtain ⟨n,rfl⟩ : ∃ n, grow = n+1 := ⟨grow-1,by omega⟩
    have hr := growBy_window nil [] l post (Nat.le_refl (n+1))
    rw [length_nil,Nat.zero_add,replicate_succ'] at hr
    rw [if_pos (by simp),hg,bind_apply,hr]
    exact ⟨_,_,placeFirst⟩
  | append_singleton =>
    rw [if_neg (by simp only [firstIndex_window,length_append,length_singleton]; omega)]
    exact ⟨_,_,placeFirst⟩

theorem makeRoomAtLast_window (pre l : List α) :
    ∃ pre' y post', makeRoomAtLast nil (window pre l []) = (.ok (),window pre' l (y :: post')) := by
  simp only [makeRoomAtLast,bind_apply,self_apply,andThen_ok]
  cases pre with
  | nil =>
    obtain ⟨grow,hpos,hg⟩ := max_capacity [] l []
    obtain ⟨n,rfl⟩ : ∃ n, grow = n+1 := ⟨grow-1,by omega⟩
    have hr := growBy_window nil [] l [] (Nat.zero_le (n+1))
    rw [if_neg (by simp),hg]
    exact ⟨_,_,_,hr⟩
  | cons z pre =>
    rw [if_pos (by simp only [firstIndex_window,length_cons]; omega)]
    have hd : turns 1 (window (z :: pre) l []).size = l.length := turns_eq (by rw [size_window]; omega)
    obtain ⟨r,hlen,hm⟩ : ∃ r : List α, r.length = (z :: pre).length+0 ∧
        moveDown l.length 1 (window (z :: pre) l []).firstIndex (window (z :: pre) l []) =
          (.ok (),⟨l ++ r,(window (z :: pre) l []).firstIndex,(window (z :: pre) l []).lastIndex⟩) :=
      moveDown_append [] (z :: pre) l [] (cons_ne_nil z pre) rfl
        (by rw [firstIndex_window,length_nil]; omega)
    have hc : turns ((window (z :: pre) l []).size+1) (window (z :: pre) l []).capacity = r.length := by
      apply turns_eq
      rw [size_window,capacity_window,hlen,length_nil]
      omega
    refine ⟨[],nil,replicate pre.length nil,?_⟩
    rw [hd,hc,bind_apply,hm,andThen_ok,bind_apply,clearFrom_append nil (by rw [size_window]),andThen_ok,change_apply]
    refine congrArg _ (mk_eq_window ?_ rfl ?_)
    · simp [hlen,replicate_succ]
    · rw [size_window,length_nil]
      omega

theorem placeLast : contentsAtPut ((window pre l (y :: post)).lastIndex+1) x
      { window pre l (y :: post) with lastIndex := (window pre l (y :: post)).lastIndex+1 } =
      (.ok x,window pre (l ++ [x]) post) := by
  simp only [window]
  rw [contentsAtPut_append (by simp only [length_append]; omega)]
  refine congrArg _ (mk_eq_window (by simp) rfl ?_)
  simp only [length_append,length_singleton]
  omega

theorem addLast_window : Leaves (addLast nil x (window pre l post)) x (l ++ [x]) := by
  simp only [addLast,bind_apply,self_apply,andThen_ok]
  cases post with
  | nil =>
    obtain ⟨pre',y,q',hr⟩ := makeRoomAtLast_window nil pre l
    rw [if_pos (by simp),bind_apply,hr]
    exact ⟨_,_,placeLast⟩
  | cons =>
    rw [if_neg (by simp only [lastIndex_window,capacity_window,length_cons]; omega)]
    exact ⟨_,_,placeLast⟩

theorem exists_split (hpos : 1 ≤ i) (hle : i ≤ l.length) : ∃ l1 y l2, l = l1 ++ y :: l2 ∧ i = l1.length+1 := by
  refine ⟨l.take (i-1).toNat,l[(i-1).toNat],l.drop ((i-1).toNat+1),by simp,?_⟩
  rw [length_take]
  omega

theorem contentsAt_window {a b : List α} (h : i = pre.length + a.length+1) :
    contentsAt i (window pre (a ++ x :: b) post) = (.ok x,window pre (a ++ x :: b) post) := by
  have hs : pre ++ (a ++ x :: b) ++ post = (pre ++ a) ++ x :: (b ++ post) := by simp
  rw [window,hs]
  exact contentsAt_append (by rw [length_append]; omega)

theorem contentsAtPut_window {a b : List α} (h : i = pre.length + a.length+1) :
    contentsAtPut i y (window pre (a ++ x :: b) post) = (.ok y,window pre (a ++ y :: b) post) := by
  have hs : pre ++ (a ++ x :: b) ++ post = (pre ++ a) ++ x :: (b ++ post) := by simp
  rw [window,hs,contentsAtPut_append (by rw [length_append]; omega)]
  refine congrArg _ (mk_eq_window (by simp) rfl ?_)
  simp only [length_append,length_cons]

theorem within_window : ((window pre l post).firstIndex ≤ i + (window pre l post).firstIndex-1 ∧
    i + (window pre l post).firstIndex-1 ≤ (window pre l post).lastIndex) ↔ 1 ≤ i ∧ i ≤ l.length := by
  rw [firstIndex_window,lastIndex_window]
  omega

theorem atIndex_window (i : ℤ) : atIndex i (window pre l post) =
    match arrayAt l i with
    | some x => (.ok x,window pre l post)
    | none => (.error (.outOfRange i 1 l.length),window pre l post) := by
  simp only [atIndex,bind_apply,self_apply,andThen_ok]
  by_cases hi : 1 ≤ i ∧ i ≤ l.length
  · rw [if_pos (within_window.mpr hi)]
    obtain ⟨l1,y,l2,rfl,hlen⟩ := exists_split hi.1 hi.2
    rw [arrayAt_append hlen,contentsAt_window (by rw [firstIndex_window]; omega)]
  · rw [if_neg (within_window.not.mpr hi),arrayAt_eq_none (by omega),signal_apply,size_window]

theorem atPut_window (i : ℤ) (x : α) : atPut i x (window pre l post) =
    match arrayAtPut l i x with
    | some l' => (.ok x,window pre l' post)
    | none => (.error (.outOfRange i 1 l.length),window pre l post) := by
  simp only [atPut,bind_apply,self_apply,andThen_ok]
  by_cases hi : 1 ≤ i ∧ i ≤ l.length
  · rw [if_pos (within_window.mpr hi)]
    obtain ⟨l1,y,l2,rfl,hlen⟩ := exists_split hi.1 hi.2
    rw [arrayAtPut_append hlen,contentsAtPut_window (by rw [firstIndex_window]; omega)]
  · rw [if_neg (within_window.not.mpr hi),arrayAtPut,if_neg hi,signal_apply,size_window]

section Search
variable (equals : α → α → Bool)

theorem indexFrom_window (pre post l1 l2 : List α) :
    indexFrom equals x l2.length (l1.length+1) (window pre (l1 ++ l2) post) =
      (.ok ((l2.findIdx? (equals · x)).map fun k : ℕ => (l1.length+1 + k : ℤ)),window pre (l1 ++ l2) post) := by
  induction l2 generalizing l1 with
  | nil => rfl
  | cons y _ ih =>
    have hr := ih (l1 ++ [y])
    simp only [length_append,length_singleton,append_assoc,singleton_append,Int.natCast_add,Int.natCast_one] at hr
    simp only [length_cons,indexFrom,bind_apply,atIndex_window,arrayAt_append rfl,andThen_ok,findIdx?_cons]
    cases equals y x with
    | true => simp
    | false =>
      simp only [Bool.false_eq_true,if_false,hr,Option.map_map]
      congr 3
      funext k
      simp only [Function.comp_apply]
      omega

theorem indexOf_window : indexOf equals x (window pre l post) =
    (.ok ((l.findIdx? (equals · x)).map fun k : ℕ => (k+1 : ℤ)),window pre l post) := by
  have ht : turns 1 (window pre l post).size = l.length := turns_eq (by rw [size_window]; omega)
  simp only [indexOf,bind_apply,self_apply,andThen_ok,ht]
  have hs := indexFrom_window equals (x := x) pre post [] l
  simpa [Int.add_comm] using hs

theorem find_window : find equals x (window pre l post) =
    match l.findIdx? (equals · x) with
    | some k => (.ok (k+1 : ℤ),window pre l post)
    | none => (.error (.notFound x),window pre l post) := by
  simp only [find,bind_apply,indexOf_window,andThen_ok]
  cases l.findIdx? (equals · x) <;> rfl

end Search

theorem openSlot_window {l1 l2 : List α} (hi : i = l1.length+1) :
    openSlot x i (window pre (l1 ++ l2) (y :: post)) = (.ok (),window pre (l1 ++ x :: l2) post) := by
  have ht : turns (i + (pre.length+1)) (pre.length + (l1 ++ l2).length+1) = l2.length := by
    apply turns_eq
    rw [length_append]
    omega
  have hs : pre ++ (l1 ++ l2) ++ y :: post = (pre ++ l1) ++ l2 ++ y :: post := by simp
  obtain ⟨z,hm⟩ := moveUp_append (a := pre ++ l1) (l := l2) (x := y) (b := post)
    (i := pre.length + (l1 ++ l2).length+1) (f := pre.length+1)
    (e := pre.length + (l1 ++ l2).length+1) (by simp only [length_append]; omega)
  simp only [openSlot,bind_apply,change_apply,self_apply,andThen_ok,contents_window,firstIndex_window,
    lastIndex_window,ht,hs,hm]
  have hsl : pre ++ l1 ++ z :: l2 ++ post = (pre ++ l1) ++ z :: (l2 ++ post) := by simp
  rw [hsl,contentsAtPut_append (by rw [length_append]; omega)]
  refine congrArg _ (mk_eq_window (by simp) rfl ?_)
  simp only [length_append,length_cons]
  omega

theorem insert_window_eq (nil x : α) (i : ℤ) (pre l post : List α) :
    ∃ pre' y post', insert nil x i (window pre l post) = openSlot x i (window pre' l (y :: post')) := by
  simp only [insert,bind_apply,self_apply,andThen_ok]
  cases post with
  | nil =>
    obtain ⟨grow,hpos,hg⟩ := max_capacity pre l []
    obtain ⟨n,rfl⟩ : ∃ n, grow = n+1 := ⟨grow-1,by omega⟩
    have hr := growBy_window nil pre l [] (Nat.zero_le (n+1))
    rw [if_pos (by simp),hg,bind_apply]
    exact ⟨_,_,_,congrArg (Action.andThen · fun _ => openSlot x i) hr⟩
  | cons =>
    rw [if_neg (by simp only [lastIndex_window,capacity_window,length_cons]; omega)]
    exact ⟨_,_,_,rfl⟩

theorem insert_window (hi : i = l1.length+1) :
    Leaves (insert nil x i (window pre (l1 ++ l2) post)) () (l1 ++ x :: l2) := by
  obtain ⟨pre',y,q',heq⟩ := insert_window_eq nil x i pre (l1 ++ l2) post
  rw [heq,openSlot_window hi]
  exact ⟨_,_,rfl⟩

structure SameBounds (c c' : OrderedCollection α) : Prop where
  first : c'.firstIndex = c.firstIndex
  last : c'.lastIndex = c.lastIndex
  room : c'.contents.length = c.contents.length

namespace SameBounds
theorem refl : SameBounds c c := ⟨rfl,rfl,rfl⟩

theorem trans (h : SameBounds c c') (h' : SameBounds c' c'') : SameBounds c c'' :=
  ⟨h'.first.trans h.first,h'.last.trans h.last,h'.room.trans h.room⟩

theorem andThen {r : Except (Signal α) β × OrderedCollection α} {f : β → Action α γ}
    (h : SameBounds c r.2) (hf : ∀ b d, SameBounds d (f b d).2) : SameBounds c (Action.andThen r f).2 := by
  obtain ⟨b | b,d⟩ := r
  · exact h
  · exact h.trans (hf b d)

theorem contentsAt (i : ℤ) : SameBounds c (contentsAt i c).2 := by
  unfold Collections.contentsAt
  split <;> exact refl

theorem contentsAtPut (i : ℤ) (x : α) : SameBounds c (contentsAtPut i x c).2 := by
  unfold Collections.contentsAtPut arrayAtPut
  split
  · next heq =>
    split at heq
    · cases heq
      exact ⟨rfl,rfl,length_set⟩
    · cases heq
  · exact refl

theorem moveUp (n : ℕ) (i : ℤ) : SameBounds c (moveUp n i c).2 := by
  induction n generalizing c i with
  | zero => exact refl
  | succ _ ih => exact (contentsAt (i-1)).andThen fun b _ => (contentsAtPut i b).andThen fun _ _ => ih (i-1)

end SameBounds

theorem insert_longer (i : ℤ) : ((insert nil x i (window pre l post)).2.elements.length = l.length+1) := by
  obtain ⟨pre',y,q',heq⟩ := insert_window_eq nil x i pre l post
  have hs : SameBounds { window pre' l (y :: q') with lastIndex := (window pre' l (y :: q')).lastIndex+1 }
      (openSlot x i (window pre' l (y :: q'))).2 :=
    (SameBounds.moveUp _ _).andThen fun _ _ => (SameBounds.contentsAtPut _ x).andThen fun _ _ => SameBounds.refl
  rw [heq]
  obtain ⟨h1,h2,h3⟩ := hs
  simp only [firstIndex_window,lastIndex_window,contents_window,length_append,length_cons] at h1 h2 h3
  simp only [elements,size,length_take,length_drop,h1,h2,h3]
  omega

theorem removeIndex_window {l1 l2 : List α} (hi : i = l1.length+1) :
    Leaves (removeIndex nil i (window pre (l1 ++ x :: l2) post)) x (l1 ++ l2) := by
  have ht : turns (i + (window pre (l1 ++ x :: l2) post).firstIndex-1)
      ((window pre (l1 ++ x :: l2) post).lastIndex-1) = l2.length := by
    apply turns_eq
    simp only [firstIndex_window,lastIndex_window,length_append,length_cons]
    omega
  -- The element's slot is the gap that the elements behind it move over.
  have hs : window pre (l1 ++ x :: l2) post = ⟨(pre ++ l1) ++ [x] ++ l2 ++ post,
      (window pre (l1 ++ x :: l2) post).firstIndex,(window pre (l1 ++ x :: l2) post).lastIndex⟩ := by
    simp [window]
  obtain ⟨r,hlen,hm⟩ := moveDown_append (pre ++ l1) [x] l2 post
    (i := i + (window pre (l1 ++ x :: l2) post).firstIndex-1)
    (j := i + (window pre (l1 ++ x :: l2) post).firstIndex)
    (f := (window pre (l1 ++ x :: l2) post).firstIndex) (e := (window pre (l1 ++ x :: l2) post).lastIndex)
    (cons_ne_nil x []) (by simp only [firstIndex_window,length_append]; omega)
    (by simp only [firstIndex_window,length_append,length_singleton]; omega)
  rw [← hs] at hm
  obtain ⟨y,r,rfl⟩ : ∃ y rest', r = y :: rest' := exists_cons_of_ne_nil (by rintro rfl; simp at hlen; omega)
  simp only [removeIndex,bind_apply,atIndex_window,arrayAt_append hi,andThen_ok,self_apply,ht,hm]
  rw [contentsAtPut_append (by simp only [lastIndex_window,length_append,length_cons]; omega)]
  refine ⟨pre,nil :: r,congrArg _ (mk_eq_window (by simp) rfl ?_)⟩
  simp only [lastIndex_window,length_append,length_cons]
  omega

theorem removeIndex_window_outside (hi : arrayAt l i = none) :
    removeIndex nil i (window pre l post) = (.error (.outOfRange i 1 l.length),window pre l post) := by
  simp only [removeIndex,bind_apply,atIndex_window,hi,andThen_error]

theorem rewind_window (pre l post : List α) : Leaves (rewind (window pre l post)) () l := by
  simp only [rewind,change_apply]
  cases l with
  | nil =>
    rw [if_pos (by simp only [firstIndex_window,lastIndex_window,length_nil]; omega)]
    exact ⟨[],pre ++ [] ++ post,rfl⟩
  | cons =>
    rw [if_neg (by simp only [firstIndex_window,lastIndex_window,length_cons]; omega)]
    exact ⟨pre,post,rfl⟩

theorem emptyCheck_window : emptyCheck (window pre l post) =
    (if l = [] then .error .emptyCollection else .ok (),window pre l post) := by
  simp only [emptyCheck,bind_apply,self_apply,andThen_ok]
  cases l with
  | nil => rw [if_pos (by simp),if_pos rfl,signal_apply]
  | cons y l =>
    rw [if_neg (by simp only [size_window,length_cons]; omega),if_neg (cons_ne_nil y l),pure_apply]

theorem removeFirst_window : Leaves (removeFirst nil (window pre (x :: l) post)) x l := by
  have hre : contentsAt (window pre (x :: l) post).firstIndex (window pre (x :: l) post) =
      (.ok x,window pre (x :: l) post) :=
    contentsAt_window (a := []) (by rw [firstIndex_window,length_nil]; omega)
  have hw : contentsAtPut (window pre (x :: l) post).firstIndex nil (window pre (x :: l) post) =
      (.ok nil,window pre (nil :: l) post) :=
    contentsAtPut_window (a := []) (by rw [firstIndex_window,length_nil]; omega)
  have hs : ({ window pre (nil :: l) post with firstIndex := (window pre (nil :: l) post).firstIndex+1 } :
      OrderedCollection α) = window (pre ++ [nil]) l post := by
    refine mk_eq_window (by simp) ?_ ?_
    · simp only [firstIndex_window,length_append,length_singleton]
      omega
    · simp only [lastIndex_window,length_append,length_cons,length_nil]
      omega
  obtain ⟨pre',q',hr⟩ := rewind_window (pre ++ [nil]) l post
  refine ⟨pre',q',?_⟩
  simp only [removeFirst,bind_apply,emptyCheck_window,if_neg (cons_ne_nil x l),andThen_ok,self_apply,
    hre,hw,change_apply,hs,hr,pure_apply]

theorem removeFirst_empty : removeFirst nil (window pre [] post) = (.error .emptyCollection,window pre [] post) := by
  simp only [removeFirst,bind_apply,emptyCheck_window,if_pos,andThen_error]

theorem removeLast_empty : removeLast nil (window pre [] post) = (.error .emptyCollection,window pre [] post) := by
  simp only [removeLast,bind_apply,emptyCheck_window,if_pos,andThen_error]

theorem removeLast_window : Leaves (removeLast nil (window pre (l ++ [x]) post)) x l := by
  have hl : (window pre (l ++ [x]) post).lastIndex = pre.length + l.length+1 := by
    simp only [lastIndex_window,length_append,length_singleton]
    omega
  have hre : contentsAt (window pre (l ++ [x]) post).lastIndex (window pre (l ++ [x]) post) =
      (.ok x,window pre (l ++ [x]) post) := contentsAt_window hl
  have hw : contentsAtPut (window pre (l ++ [x]) post).lastIndex nil (window pre (l ++ [x]) post) =
      (.ok nil,window pre (l ++ [nil]) post) := contentsAtPut_window hl
  have hs : ({ window pre (l ++ [nil]) post with lastIndex := (window pre (l ++ [nil]) post).lastIndex-1 } :
      OrderedCollection α) = window pre l (nil :: post) := by
    refine mk_eq_window (by simp) rfl ?_
    simp only [lastIndex_window,length_append,length_singleton]
    omega
  obtain ⟨pre',q',hr⟩ := rewind_window pre l (nil :: post)
  refine ⟨pre',q',?_⟩
  simp only [removeLast,bind_apply,emptyCheck_window,if_neg (append_ne_nil_of_right_ne_nil l (cons_ne_nil x [])),
    andThen_ok,self_apply,hre,hw,change_apply,hs,hr,pure_apply]

theorem doFrom_window (l1 l2 : List α) (hi : i = pre.length + l1.length+1) :
    doFrom l2.length i (window pre (l1 ++ l2) post) = (.ok l2,window pre (l1 ++ l2) post) := by
  induction l2 generalizing l1 i with
  | nil => rfl
  | cons y _ ih =>
    have hr := ih (l1 ++ [y]) (i := i+1) (by rw [length_append,length_singleton]; omega)
    rw [append_assoc,singleton_append] at hr
    simp only [length_cons,doFrom,bind_apply,contentsAt_window hi,andThen_ok,hr,pure_apply]

theorem enumerate_window : enumerate (window pre l post) = (.ok l,window pre l post) := by
  have ht : turns (window pre l post).firstIndex (window pre l post).lastIndex = l.length :=
    turns_eq (by rw [firstIndex_window,lastIndex_window]; omega)
  simp only [enumerate,bind_apply,self_apply,andThen_ok,ht]
  exact doFrom_window [] l (by rw [firstIndex_window,length_nil]; omega)

end Windows

end SmalltalkJit.Collections
