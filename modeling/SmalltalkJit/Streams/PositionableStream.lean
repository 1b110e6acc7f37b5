import Mathlib.Data.List.Infix

/-! # Searching a stream

`upToAll:` reads up to a delimiter with the algorithm of Knuth, Morris and Pratt.
The table that it builds never notes a border of the delimiter: after a mismatch
the search begins again at the element that did not match, and what was matched
before is given up. A stream is the list of the elements from its position on.
-/
namespace SmalltalkJit.Streams
open List

variable {α : Type} [DecidableEq α]

def fallBack (d : List α) (table : List ℕ) (ch : Option α) : ℕ → ℕ → ℕ
  | 0,j => j
  | turns+1,j => if j ≤ 1 ∨ ch = d[j-1]? then j else fallBack d table ch turns (table.getD (j-1) 0)

def fillTable (d : List α) : ℕ → ℕ → List ℕ → List ℕ
  | 0,_,table => table
  | turns+1,i,table =>
    let j := fallBack d table d[i-1]? d.length (table.getD (i-1) 0)
    fillTable d turns (i+1) (table.set i j)

/-- There is no second entry to set for a delimiter of one element. -/
def prefixTableFor (d : List α) : Option (List ℕ) :=
  if d.length < 2 then none else some (fillTable d (d.length-2) 2 ((replicate d.length 0).set 1 1))

def advance (d : List α) (table : List ℕ) (ch : α) : ℕ → ℕ → ℕ
  | 0,j => j
  | turns+1,j =>
    if d[j-1]? = some ch then j+1
    else if table.getD (j-1) 0 = 0 then 1
    else advance d table ch turns (table.getD (j-1) 0)

def search (d : List α) (table : List ℕ) : List α → ℕ → List α → List α × List α
  | [],_,result => (result,[])
  | ch :: rest,j,result =>
    let j := advance d table ch (d.length+1) j
    let result := result ++ [ch]
    if table.length < j then (result.take (result.length - d.length),rest) else search d table rest j result

/-- The answer and the rest of the stream; none is an error. -/
def upToAll (d rest : List α) : Option (List α × List α) :=
  if rest = [] ∨ d = [] then some ([],rest) else (prefixTableFor d).map fun table => search d table rest 1 []

/-- What is up to the first occurrence, and what is behind it. -/
def UpToFirst (d l : List α) (r : List α × List α) : Prop :=
  (∃ k, d <+: l.drop k ∧ (∀ m < k, ¬d <+: l.drop m) ∧ r = (l.take k,l.drop (k + d.length))) ∨
    (∀ k, ¬d <+: l.drop k) ∧ r = (l,[])

/-- How much of the delimiter stands at the start. -/
def matched : List α → List α → ℕ
  | x :: d,y :: l => if x = y then matched d l+1 else 0
  | _,_ => 0

/-- No occurrence begins inside of what matched in part, from the start and from where the search goes on. -/
inductive Clear (d : List α) : List α → Prop
  | found (h : d <+: l) : Clear d l
  | done : Clear d []
  | next (hin : ∀ k, 0 < k → k < matched d l → ¬d <+: l.drop k) (hrest : Clear d (l.drop (max (matched d l) 1))) :
      Clear d l

section Table
variable {d : List α} {table : List ℕ}

/-- The entries after the first are ones. -/
structure Flat (n : ℕ) (table : List ℕ) : Prop where
  first : table.getD 0 0 = 0
  ones : ∀ m, 0 < m → m < n → table.getD m 0 = 1

theorem flat_fillTable (h : Flat i table) (hi : 2 ≤ i) (hd : 0 < d.length) (hlen : i + n ≤ table.length) :
    Flat (i + n) (fillTable d n i table) ∧ (fillTable d n i table).length = table.length := by
  induction n generalizing i table with
  | zero => exact ⟨h,rfl⟩
  | succ n ih =>
    have hone : fallBack d table d[i-1]? d.length (table.getD (i-1) 0) = 1 := by
      rw [h.ones (i-1) (by omega) (by omega)]
      obtain ⟨turns,ht⟩ := Nat.exists_eq_succ_of_ne_zero hd.ne'
      rw [ht,fallBack,if_pos (.inl le_rfl)]
    rw [fillTable,hone]
    have hset : Flat (i+1) (table.set i 1) := by
      constructor
      · simpa [getD_eq_getElem?_getD,getElem?_set,show i ≠ 0 by omega] using h.first
      · intro m hm hlt
        by_cases hmi : m = i
        · simp [getD_eq_getElem?_getD,hmi,show i < table.length by omega]
        · have := h.ones m hm (by omega)
          simpa [getD_eq_getElem?_getD,getElem?_set,Ne.symm hmi] using this
    have hn := ih hset (by omega) (by rw [length_set]; omega)
    rw [length_set,show i+1 + n = i + (n+1) by omega] at hn
    exact hn

theorem prefixTableFor_eq (hd : 2 ≤ d.length) :
    ∃ table, prefixTableFor d = some table ∧ Flat d.length table ∧ table.length = d.length := by
  have hs : Flat 2 ((replicate d.length 0).set 1 1) := by
    constructor
    · simp [getD_eq_getElem?_getD,show 0 < d.length by omega]
    · intro m hm hlt
      obtain rfl : m = 1 := by omega
      simp [getD_eq_getElem?_getD,show 1 < d.length by omega]
  obtain ⟨hf,hlen⟩ := flat_fillTable (n := d.length-2) hs le_rfl (d := d) (by omega) (by simp; omega)
  rw [show 2 + (d.length-2) = d.length by omega] at hf
  rw [length_set,length_replicate] at hlen
  exact ⟨_,if_neg (by omega),hf,hlen⟩

theorem advance_eq (h : Flat d.length table) (hm : m < d.length) (hd : 2 ≤ d.length) (ch : α) :
    advance d table ch (d.length+1) (m+1) =
      if d[m]? = some ch then m+2 else if m = 0 then 1 else if d[0]? = some ch then 2 else 1 := by
  obtain ⟨turns,ht⟩ : ∃ turns, d.length+1 = turns+2 := ⟨d.length-1,by omega⟩
  rw [ht,advance,Nat.add_sub_cancel]
  by_cases hma : d[m]? = some ch
  · rw [if_pos hma,if_pos hma]
  · rw [if_neg hma,if_neg hma]
    by_cases h0 : m = 0
    · rw [h0,if_pos h.first,if_pos rfl]
    · rw [h.ones m (by omega) hm,if_neg Nat.one_ne_zero,if_neg h0,advance,Nat.sub_self,if_pos h.first]

end Table

section Attempts
variable {d l rest : List α}

theorem matched_le (d l : List α) : matched d l ≤ l.length := by
  fun_induction matched d l with
  | case1 _ _ _ ih => exact Nat.succ_le_succ ih
  | case2 | case3 => exact Nat.zero_le _

theorem matched_iff : matched d l = d.length ↔ d <+: l := by
  fun_induction matched d l with
  | case1 _ _ _ ih => rw [length_cons,Nat.add_right_cancel_iff,ih,cons_prefix_cons,and_iff_right rfl]
  | case2 _ _ _ _ h => simp [h]
  | case3 d l h =>
    cases d with
    | nil => simp
    | cons x d =>
      cases l with
      | nil => simp
      | cons y l => exact absurd rfl (h x d y l rfl)

theorem matched_append (hm : m ≤ d.length) : matched d (d.take m ++ l) = m + matched (d.drop m) l := by
  induction m generalizing d with
  | zero => simp
  | succ _ ih =>
    cases d with
    | nil => simp at hm
    | cons =>
      rw [take_succ_cons,cons_append,matched,if_pos rfl,ih (Nat.le_of_succ_le_succ hm),drop_succ_cons]
      omega

/-- What the search finds, beginning anew after what matched in part. -/
def attempts (d l : List α) : List α × List α :=
  if matched d l = d.length then ([],l.drop d.length)
  else if l = [] then ([],[])
  else
    let k := max (matched d l) 1
    let r := attempts d (l.drop k)
    (l.take k ++ r.1,r.2)
termination_by l.length
decreasing_by
  have := length_pos_of_ne_nil ‹_›
  rw [length_drop]
  omega

theorem attempts_mismatch (hm : m < d.length) (h : d[m]? ≠ some ch) :
    attempts d (d.take m ++ ch :: rest) = ((d.take m ++ ch :: rest).take (max m 1) ++
      (attempts d ((d.take m ++ ch :: rest).drop (max m 1))).1,
      (attempts d ((d.take m ++ ch :: rest).drop (max m 1))).2) := by
  have hma : matched d (d.take m ++ ch :: rest) = m := by
    rw [matched_append hm.le,drop_eq_getElem_cons hm,matched,if_neg,Nat.add_zero]
    rintro rfl
    exact h (getElem?_eq_getElem hm)
  conv_lhs => rw [attempts,hma,if_neg hm.ne,if_neg (by simp)]

theorem attempts_later (hm : m < d.length) (h0 : m ≠ 0) (h : d[m]? ≠ some ch) :
    attempts d (d.take m ++ ch :: rest) =
      (d.take m ++ (attempts d (ch :: rest)).1,(attempts d (ch :: rest)).2) := by
  have hlen : (d.take m).length = m := by rw [length_take]; omega
  have hmi : attempts d (d.take m ++ ch :: rest) = _ := attempts_mismatch hm h
  rwa [show max m 1 = m by omega,take_left' hlen,drop_left' hlen] at hmi

theorem attempts_end (hm : m < d.length) : attempts d (d.take m) = (d.take m,[]) := by
  have hma : matched d (d.take m) = m := by
    have := matched_append (l := []) hm.le
    rwa [append_nil,show matched (d.drop m) [] = 0 by cases d.drop m <;> rfl] at this
  have hnil : attempts d [] = ([],[]) := by
    rw [attempts,if_neg,if_pos rfl]
    cases d with
    | nil => simp at hm
    | cons => simp [matched]
  obtain rfl | h0 := Nat.eq_zero_or_pos m
  · exact hnil
  · have hne : d.take m ≠ [] := by
      rw [Ne,take_eq_nil_iff]
      rintro (h | rfl)
      · omega
      · simp at hm
    rw [attempts,hma,if_neg hm.ne,if_neg hne]
    dsimp only
    rw [show max m 1 = m by omega,take_take,Nat.min_self,drop_take_self,hnil,append_nil]

theorem search_eq (h : Flat d.length table) (hlen : table.length = d.length) (hd : 2 ≤ d.length) (hm : m < d.length) :
    search d table rest (m+1) (out ++ d.take m) =
      (out ++ (attempts d (d.take m ++ rest)).1,(attempts d (d.take m ++ rest)).2) := by
  induction rest generalizing m out with
  | nil => rw [search,append_nil,attempts_end hm]
  | cons ch rest ih =>
    rw [search,advance_eq h hm hd,hlen]
    have hf : d[0]? ≠ some ch → search d table rest 1 (out ++ d.take m ++ [ch]) =
        (out ++ d.take m ++ (attempts d (ch :: rest)).1,(attempts d (ch :: rest)).2) := by
      intro h0
      have hih := @ih 0 (out ++ d.take m ++ [ch]) (by omega)
      rw [take_zero,append_nil,nil_append] at hih
      have hmi : attempts d (d.take 0 ++ ch :: rest) = _ := attempts_mismatch (by omega) h0
      rw [take_zero,nil_append] at hmi
      rw [hih,hmi]
      simp
    by_cases hma : d[m]? = some ch
    · have ht : d.take m ++ [ch] = d.take (m+1) := by rw [take_add_one,hma]; rfl
      rw [if_pos hma,append_assoc,ht,show d.take m ++ ch :: rest = d.take (m+1) ++ rest by rw [← ht]; simp]
      by_cases hend : m+1 = d.length
      · rw [if_pos (by omega),hend,take_length,length_append,Nat.add_sub_cancel,take_left,attempts,
          if_pos (matched_iff.mpr (prefix_append d rest)),drop_left]
        simp
      · rw [if_neg (by omega)]
        exact ih (by omega)
    · rw [if_neg hma]
      by_cases h0 : m = 0
      · subst h0
        rw [if_pos rfl,if_neg (by omega)]
        simpa using hf hma
      · rw [if_neg h0,attempts_later hm h0 hma,← append_assoc]
        split
        · next hch =>
          have hih := @ih 1 (out ++ d.take m) (by omega)
          have ht : d.take 1 = [ch] := by rw [take_add_one,hch]; rfl
          rw [ht] at hih
          rw [if_neg (by omega)]
          exact hih
        · next hch =>
          rw [if_neg (by omega)]
          exact hf hch

omit [DecidableEq α] in
theorem upToFirst_shift (hn : ∀ m < k, ¬d <+: l.drop m) :
    UpToFirst d l (l.take k ++ a,b) ↔ UpToFirst d (l.drop k) (a,b) := by
  refine or_congr ⟨?_,?_⟩ (and_congr ⟨fun h m => ?_,fun h m => ?_⟩ ?_)
  · rintro ⟨m,hm,hf,heq⟩
    have hle : k ≤ m := not_lt.mp fun hlt => hn m hlt hm
    obtain ⟨j,rfl⟩ := Nat.exists_eq_add_of_le hle
    rw [Prod.mk.injEq,take_add,append_cancel_left_eq] at heq
    refine ⟨j,by rwa [drop_drop],fun i hi => ?_,by rw [heq.1,heq.2,drop_drop,Nat.add_assoc]⟩
    rw [drop_drop]
    exact hf _ (by omega)
  · rintro ⟨j,hj,hf,heq⟩
    rw [Prod.mk.injEq] at heq
    rw [drop_drop] at hj
    refine ⟨k + j,hj,fun m hm => ?_,by rw [take_add,heq.1,heq.2,drop_drop,Nat.add_assoc]⟩
    by_cases hlt : m < k
    · exact hn m hlt
    · have := hf (m - k) (by omega)
      rwa [drop_drop,show k + (m - k) = m by omega] at this
  · rw [drop_drop]
    exact h _
  · by_cases hlt : m < k
    · exact hn m hlt
    · have := h (m - k)
      rwa [drop_drop,show k + (m - k) = m by omega] at this
  · rw [Prod.mk.injEq,Prod.mk.injEq]
    refine and_congr_left fun _ => ⟨fun h => ?_,fun h => ?_⟩
    · exact append_cancel_left (h.trans (take_append_drop k l).symm)
    · rw [h,take_append_drop]

theorem upToFirst_attempts (hd : d ≠ []) : UpToFirst d l (attempts d l) ↔ Clear d l := by
  fun_induction attempts d l with
  | case1 _ h =>
    have hp := matched_iff.mp h
    exact iff_of_true (.inl ⟨0,hp,fun m hm => absurd hm m.not_lt_zero,by simp⟩) (.found hp)
  | case2 => exact iff_of_true (.inr ⟨fun k hk => hd (by simpa using hk),rfl⟩) .done
  | case3 l h hne k r ih =>
    have hnot : ¬d <+: l := fun hp => h (matched_iff.mpr hp)
    by_cases hin : ∀ m, 0 < m → m < matched d l → ¬d <+: l.drop m
    · have hno : ∀ m < k, ¬d <+: l.drop m := by
        intro m hm
        obtain rfl | h0 := Nat.eq_zero_or_pos m
        · exact hnot
        · exact hin m h0 (by omega)
      rw [upToFirst_shift hno]
      refine ih.trans ⟨.next hin,fun hc => ?_⟩
      cases hc with
      | found hp => exact absurd hp hnot
      | done => exact absurd rfl hne
      | next _ hr => exact hr
    · simp only [not_forall,not_not] at hin
      obtain ⟨m,h0,hlt,hm⟩ := hin
      refine iff_of_false ?_ fun hc => ?_
      · rintro (⟨j,-,hf,heq⟩ | ⟨hn,-⟩)
        · have hjm : j ≤ m := not_lt.mp fun hlt => hf m hlt hm
          have hlen := congrArg (fun r => r.1.length) heq
          have hle := matched_le d l
          simp only [length_append,length_take] at hlen
          omega
        · exact hn m hm
      · cases hc with
        | found hp => exact hnot hp
        | done => exact hne rfl
        | next hin => exact hin m h0 hlt hm

end Attempts

/-- The search is right where the first occurrence does not begin inside of what matched in part before; a
delimiter of one element is an error unless the stream is at its end. -/
theorem upToAll_iff (d : List α) (hd : d ≠ []) (c : List α) (p : ℕ) :
    (∃ r, upToAll d (c.drop p) = some r ∧ UpToFirst d (c.drop p) r) ↔
      c.drop p = [] ∨ 2 ≤ d.length ∧ Clear d (c.drop p) := by
  generalize c.drop p = l
  unfold upToAll
  by_cases hl : l = []
  · rw [if_pos (.inl hl),hl]
    exact iff_of_true ⟨_,rfl,.inr ⟨fun k hk => hd (by simpa using hk),rfl⟩⟩ (.inl rfl)
  · rw [if_neg (by simp [hl,hd]),or_iff_right hl]
    by_cases h2 : 2 ≤ d.length
    · obtain ⟨table,ht,hf,hlen⟩ := prefixTableFor_eq h2
      have hs : search d table l (0 + 1) ([] ++ d.take 0) = _ := search_eq hf hlen h2 (by omega)
      simp only [take_zero,nil_append,append_nil,Nat.zero_add] at hs
      rw [ht,Option.map_some,hs,and_iff_right h2,← upToFirst_attempts hd]
      simp
    · rw [prefixTableFor,if_pos (by omega)]
      simp [h2]

theorem upToAll_crlf : [13,10] ≠ [] ∧ ((∃ r, upToAll [13,10] (drop 1 [7,8,13,13,10,9]) = some r ∧
      UpToFirst [13,10] (drop 1 [7,8,13,13,10,9]) r) ↔ drop 1 [7,8,13,13,10,9] = [] ∨ 2 ≤ [13,10].length ∧
      Clear [13,10] (drop 1 [7,8,13,13,10,9])) :=
  ⟨by decide,upToAll_iff [13,10] (by decide) [7,8,13,13,10,9] 1⟩

/-- The delimiter stands behind its own first element, and is not found. One element is too few for the table. -/
theorem upToAll_overlapping : upToAll [1,1,2] [1,1,1,2] = some ([1,1,1,2],[]) ∧
    ¬UpToFirst [1,1,2] [1,1,1,2] ([1,1,1,2],[]) ∧ upToAll [1] [2,1] = none := by
  refine ⟨by decide,?_,by decide⟩
  rintro (⟨k,-,hf,heq⟩ | ⟨hn,-⟩)
  · have hlen := congrArg (fun r => r.1.length) heq
    simp only [length_take,length_cons,length_nil] at hlen
    exact hf 1 (by omega) (by decide)
  · exact hn 1 (by decide)

end SmalltalkJit.Streams
