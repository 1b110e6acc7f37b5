import SmalltalkJit.Compiler.Tokenizer
import Mathlib.Data.List.TakeWhile

/-! # Scanning inside the buffer

What each loop of the tokenizer consumes of a buffer that ends with a NUL, the texts at
which a call has no defined outcome, and that the other calls reach the end of input.
-/
namespace SmalltalkJit.Tokenizing
open ByteStream List Option Nat

def Reader.text (r : Reader) : List Byte := r.ch :: r.rest

/-- A text whose only NUL is its last character. -/
def Ended (l : List Byte) : Prop := ∃ text, 0 ∉ text ∧ l = text ++ [0]

/-- The content fits, and a token that is full can be doubled. -/
structure Room (token : Token) : Prop where
  fits : token.content.length ≤ token.contentSize
  sized : 0 < token.contentSize

def Token.fill (token : Token) (text : List Byte) : Token := text.foldl Token.push token

variable {p : Byte → Bool}

theorem ne_zero_of_pos (hp : p 0 = false) {ch : Byte} (hch : p ch = true) : ch ≠ 0 := by
  rintro rfl
  rw [hp] at hch
  cases hch

theorem Ended.cases {ch : Byte} {l : List Byte} (h : Ended (ch :: l)) : (ch = 0 ∧ l = []) ∨ (ch ≠ 0 ∧ Ended l) := by
  obtain ⟨t,hmem,heq⟩ := h
  cases t with
  | nil => exact .inl (by simpa using heq)
  | cons _ t =>
    obtain ⟨rfl,rfl⟩ := cons.inj heq
    rw [mem_cons,not_or] at hmem
    exact .inr ⟨Ne.symm hmem.1,t,hmem.2,rfl⟩

theorem Ended.tail {ch : Byte} (h : Ended (ch :: l)) (hch : ch ≠ 0) : Ended l :=
  (h.cases.resolve_left fun h => hch h.1).2

theorem Ended.exists_cons {l : List Byte} (h : Ended l) : ∃ ch l', l = ch :: l' := by
  obtain ⟨text,-,rfl⟩ := h
  cases text <;> exact ⟨_,_,rfl⟩

theorem Ended.rest_eq_nil (h : Ended (0 :: l)) : l = [] := (h.cases.resolve_right fun h => h.1 rfl).2

theorem Ended.dropWhile (hp : p 0 = false) {l : List Byte} (h : Ended l) : Ended (l.dropWhile p) := by
  induction l with
  | nil => exact h
  | cons ch _ ih =>
    by_cases hch : p ch = true
    · rw [dropWhile_cons_of_pos hch]
      exact ih (h.tail (ne_zero_of_pos hp hch))
    · rwa [dropWhile_cons_of_neg hch]

theorem Room.push (h : Room token) (ch : Byte) : Room (token.push ch) := by
  obtain ⟨hf,hs⟩ := h
  constructor <;> simp only [Token.push,length_append,length_singleton] <;> split <;> omega

theorem Room.fill {token : Token} (h : Room token) (text : List Byte) : Room (token.fill text) := by
  induction text generalizing token with
  | nil => exact h
  | cons ch _ ih => exact ih (h.push ch)

theorem Room.appendChar (h : Room token) (ch : Byte) : appendChar token ch = some (token.push ch) := by
  have hf := (h.push ch).fits
  rw [Token.push,length_append] at hf
  exact if_pos (lt_of_succ_le hf)

theorem Room.terminate {token : Token} (h : Room token) : ∃ token', terminate token = some token' ∧
      0 < token'.contentSize ∧ token'.type = token.type ∧ token'.content = token.content := by
  rw [Tokenizing.terminate,h.appendChar]
  exact ⟨_,rfl,(h.push 0).sized,rfl,rfl⟩

theorem content_fill (token : Token) (text : List Byte) : (token.fill text).content = token.content ++ text := by
  induction text generalizing token with
  | nil => exact (append_nil _).symm
  | cons ch _ ih => exact (ih (token.push ch)).trans (append_assoc _ _ _)

/-- The room for a content is the first double of the size that is large enough. -/
theorem contentSize_fill (token : Token) (text : List Byte) : ∃ k, (token.fill text).contentSize =
      token.contentSize*2^k ∧ (k = 0 ∨ (token.fill text).contentSize < 2*(token.content.length + text.length)) := by
  induction text generalizing token with
  | nil => exact ⟨0,(mul_one _).symm,.inl rfl⟩
  | cons ch text ih =>
    obtain ⟨k,hs,hk⟩ := ih (token.push ch)
    have hl : (token.push ch).content.length = token.content.length+1 := length_append
    have hfi : token.fill (ch :: text) = (token.push ch).fill text := rfl
    rw [hfi,length_cons]
    by_cases hf : token.content.length = token.contentSize
    · have hp : (token.push ch).contentSize = 2*token.contentSize := if_pos hf
      rw [hp] at hs
      refine ⟨k+1,by rw [hs,pow_succ]; ac_rfl,.inr ?_⟩
      rcases hk with rfl | hk <;> omega
    · have hp : (token.push ch).contentSize = token.contentSize := if_neg hf
      rw [hp] at hs
      exact ⟨k,hs,hk.imp_right fun hk => by omega⟩

theorem full_iff {token : Token} (h : 0 < token.contentSize) (he : token.content = []) (text : List Byte) :
    (token.fill text).content.length < (token.fill text).contentSize ↔
      ¬ ∃ k, text.length = token.contentSize*2^k := by
  obtain ⟨k,hs,hk⟩ := contentSize_fill token text
  have hr : Room token := ⟨by rw [he]; exact zero_le _,h⟩
  have hf := (hr.fill text).fits
  rw [content_fill,he,nil_append] at hf ⊢
  rw [he,length_nil,zero_add] at hk
  constructor
  · rintro hlt ⟨j,hj⟩
    have hpow : 2^j < 2^k := Nat.lt_of_mul_lt_mul_left (hj ▸ hs ▸ hlt)
    have hjk : j < k := (Nat.pow_lt_pow_iff_right (by decide)).mp hpow
    have hd : token.contentSize*2^(j+1) ≤ token.contentSize*2^k :=
      Nat.mul_le_mul_left _ (Nat.pow_le_pow_right (by decide) hjk)
    rw [pow_succ,← mul_assoc,← hj,← hs] at hd
    omega
  · intro hnot
    exact lt_of_le_of_ne hf fun heq => hnot ⟨k,heq.trans hs⟩

variable {rounds : ℕ}

structure Ready (s : Scan) : Prop where
  ended : Ended s.reader.text
  room : Room s.token

section Loops
variable {r : Reader} {s : Scan}

theorem nextChar_some (h : Ended r.text) (hch : r.ch ≠ 0) : ∃ r', nextChar r = some r' ∧ r'.text = r.rest := by
  obtain ⟨_,_,hr⟩ := (h.tail hch).exists_cons
  rw [nextChar,hr]
  exact ⟨_,rfl,rfl⟩

theorem append_some (h : Ready s) (hch : s.reader.ch ≠ 0) : ∃ r', append s = some ⟨r',s.token.push s.reader.ch⟩ ∧
    r'.text = s.reader.rest ∧ Ready ⟨r',s.token.push s.reader.ch⟩ := by
  obtain ⟨r',hn,ht⟩ := nextChar_some h.ended hch
  refine ⟨r',?_,ht,ht ▸ h.ended.tail hch,h.room.push _⟩
  rw [append,h.room.appendChar,hn]
  rfl

theorem append_none (h : Ready s) (hch : s.reader.ch = 0) : append s = none := by
  have hr : s.reader.rest = [] := Ended.rest_eq_nil (hch ▸ h.ended)
  cases ht : appendChar s.token s.reader.ch <;> simp [append,ht,nextChar,hr]

theorem Reader.length_text (r : Reader) : r.text.length = r.rest.length+1 := rfl

theorem length_rest {r' : Reader} (h : r'.text = l) : r'.rest.length+1 = l.length := by rw [← h]; rfl

theorem skipRounds_some (hp : p 0 = false) (h : Ended r.text) (hr : r.rest.length < rounds) :
    ∃ r', skipRounds p rounds r = some r' ∧ r'.text = r.text.dropWhile p := by
  induction rounds generalizing r with
  | zero => cases hr
  | succ _ ih =>
    by_cases hch : p r.ch = true
    · have hne := ne_zero_of_pos hp hch
      obtain ⟨r1,hn,ht⟩ := nextChar_some h hne
      have hl := length_rest ht
      obtain ⟨r',hs,ht'⟩ := ih (ht ▸ h.tail hne) (by omega)
      refine ⟨r',?_,?_⟩
      · rw [skipRounds,if_pos hch,hn]; exact hs
      · rw [ht',ht,Reader.text,dropWhile_cons_of_pos hch]
    · exact ⟨r,by rw [skipRounds,if_neg hch],(dropWhile_cons_of_neg hch).symm⟩

theorem appendRounds_some (hp : p 0 = false) (h : Ready s) (hr : s.reader.rest.length < rounds) :
    ∃ r', appendRounds p rounds s = some ⟨r',s.token.fill (s.reader.text.takeWhile p)⟩ ∧
      r'.text = s.reader.text.dropWhile p := by
  induction rounds generalizing s with
  | zero => cases hr
  | succ _ ih =>
    by_cases hch : p s.reader.ch = true
    · have hne := ne_zero_of_pos hp hch
      obtain ⟨r1,ha,ht,h1⟩ := append_some h hne
      have hlen := length_rest ht
      obtain ⟨r',hl,ht'⟩ := ih h1 (by dsimp only; omega)
      refine ⟨r',?_,?_⟩
      · rw [appendRounds,if_pos hch,ha,Reader.text,takeWhile_cons_of_pos hch,← ht]; exact hl
      · rw [ht',ht,Reader.text,dropWhile_cons_of_pos hch]
    · refine ⟨s.reader,?_,(dropWhile_cons_of_neg hch).symm⟩
      rw [appendRounds,if_neg hch,Reader.text,takeWhile_cons_of_neg hch]
      rfl

theorem appendRounds_none (hp : ∀ ch, p ch = true) (h : Ready s) : appendRounds p rounds s = none := by
  induction rounds generalizing s with
  | zero => rfl
  | succ _ ih =>
    rw [appendRounds,if_pos (hp _)]
    by_cases hch : s.reader.ch = 0
    · rw [append_none h hch]; rfl
    · obtain ⟨r1,ha,-,h1⟩ := append_some h hch
      rw [ha]
      exact ih h1

theorem appendThenWhile_some (hp : p 0 = false) (h : Ready s) (hch : s.reader.ch ≠ 0) : ∃ r', appendThenWhile p s =
      some ⟨r',s.token.fill (s.reader.ch :: s.reader.rest.takeWhile p)⟩ ∧ r'.text = s.reader.rest.dropWhile p := by
  obtain ⟨r1,ha,ht,h1⟩ := append_some h hch
  obtain ⟨r',hl,ht'⟩ := appendRounds_some hp h1 (lt_succ_self _)
  rw [ht] at hl ht'
  exact ⟨r',by rw [appendThenWhile,ha]; exact hl,ht'⟩

/-- The text of a quotation, without its doubled quotes, and what follows it. -/
def quotation (quote : Byte) : List Byte → List Byte × List Byte
  | [] => ([],[])
  | ch :: l =>
    if ch = 0 then ([],ch :: l)
    else if ch ≠ quote then (ch :: (quotation quote l).1,(quotation quote l).2)
    else match l with
      | [] => ([],[])
      | ch :: l => if ch = quote then (ch :: (quotation quote l).1,(quotation quote l).2) else ([],ch :: l)

theorem quotation_zero (quote : Byte) (l : List Byte) : quotation quote (0 :: l) = ([],0 :: l) := by cases l <;> rfl

theorem quotation_other (hz : ch ≠ 0) (hch : ch ≠ quote) (l : List Byte) :
    quotation quote (ch :: l) = (ch :: (quotation quote l).1,(quotation quote l).2) := by
  cases l <;> exact (if_neg hz).trans (if_pos hch)

theorem quotation_quote (hq : quote ≠ 0) (ch : Byte) (l : List Byte) : quotation quote (quote :: ch :: l) =
      if ch = quote then (ch :: (quotation quote l).1,(quotation quote l).2) else ([],ch :: l) := by
  exact (if_neg hq).trans (if_neg (not_not_intro rfl))

theorem quoteRounds_some (quote : Byte) (hqu : quote ≠ 0) (h : Ready s) (hr : s.reader.rest.length < rounds) :
    ∃ r', quoteRounds quote rounds s = some ⟨r',s.token.fill (quotation quote s.reader.text).1⟩ ∧
      r'.text = (quotation quote s.reader.text).2 ∧ Ended r'.text ∧ r'.rest.length ≤ s.reader.rest.length := by
  induction rounds generalizing s with
  | zero => cases hr
  | succ _ ih =>
    by_cases hz : s.reader.ch = 0
    · refine ⟨s.reader,?_⟩
      rw [quoteRounds,if_pos hz,Reader.text,hz,quotation_zero,← hz]
      exact ⟨rfl,rfl,h.ended,le_refl _⟩
    by_cases hch : s.reader.ch = quote
    · obtain ⟨r1,hn,ht⟩ := nextChar_some h.ended hz
      have hl := length_rest ht
      have he : Ended r1.text := ht ▸ h.ended.tail hz
      rw [quoteRounds,if_neg hz,if_neg (not_not_intro hch),hn,bind_some]
      have hq := quotation_quote hqu r1.ch r1.rest
      rw [← Reader.text,ht,← hch,← Reader.text,hch] at hq
      rw [hq]
      by_cases hs : r1.ch = quote
      · obtain ⟨r2,ha,ht2,h2⟩ := append_some (s := ⟨r1,s.token⟩) ⟨he,h.room⟩ (hs ▸ hqu)
        have hl2 := length_rest ht2
        obtain ⟨r',hlo,ht',he',hsh⟩ := ih h2 (by dsimp only at hl2 ⊢; omega)
        rw [ht2] at hlo ht'
        rw [if_pos hs,if_pos hs,ha]
        exact ⟨r',hlo,ht',he',by dsimp only at hl2 hsh; omega⟩
      · rw [if_neg hs,if_neg hs]
        exact ⟨r1,rfl,ht,he,by omega⟩
    · obtain ⟨r1,ha,ht,h1⟩ := append_some h hz
      have hl := length_rest ht
      obtain ⟨r',hlo,ht',he',hsh⟩ := ih h1 (by dsimp only; omega)
      rw [ht] at hlo ht'
      rw [quoteRounds,if_neg hz,if_pos hch,ha,Reader.text,quotation_other hz hch]
      exact ⟨r',hlo,ht',he',by dsimp only at hsh; omega⟩

end Loops

/-! ## The branches -/

def Moves (n : ℕ) (r : Reader) (o : Option Scan) : Prop :=
  ∃ s, o = some s ∧ Ready s ∧ s.reader.rest.length + n ≤ r.rest.length

variable {m : Mark}

section Branches
variable {s : Scan} {p : Byte → Bool}

variable {r : Reader}

theorem Moves.weaken (h : Moves n r o) : Moves 0 r o := by
  obtain ⟨s',heq,hr,hs⟩ := h
  exact ⟨s',heq,hr,le_trans (le_add_right _ n) hs⟩

theorem Moves.bind {f : Scan → Option Scan} (h : Moves n r o)
    (hf : ∀ s', o = some s' → Ready s' → Moves 0 s'.reader (f s')) : Moves n r (o.bind f) := by
  obtain ⟨s1,rfl,hr1,hs1⟩ := h
  obtain ⟨s2,heq,hr2,hs2⟩ := hf s1 rfl hr1
  exact ⟨s2,heq,hr2,by omega⟩

theorem peekAfter_some (first test : Byte → Bool) (h : Ended r.text) (hf : first 0 = false) :
    ∃ b, peekAfter first test r = some b ∧
      (b = true → first r.ch = true ∧ ∃ ch l, r.rest = ch :: l ∧ test ch = true) := by
  by_cases hch : first r.ch = true
  · obtain ⟨ch,l,hl⟩ := (h.tail (ne_zero_of_pos hf hch)).exists_cons
    refine ⟨test ch,?_,fun ht => ⟨hch,ch,l,hl,ht⟩⟩
    rw [peekAfter,if_pos hch,peekChar,hl]
    rfl
  · exact ⟨false,if_neg hch,nofun⟩

structure Numeral (digits : List Byte) : Prop where
  numeric : ∀ ch ∈ digits, isNumeric ch = true
  nonempty : digits ≠ []

theorem Numeral.head {digits l m : List Byte} (h : Numeral digits) (heq : ch :: l = digits ++ m) :
    isNumeric ch = true := by
  obtain ⟨hnum,hn⟩ := h
  cases digits with
  | nil => exact absurd rfl hn
  | cons d => exact (cons.inj heq).1 ▸ hnum d (mem_cons_self ..)

inductive Fraction : List Byte → Prop
  | none : Fraction []
  | some {digits} (h : Numeral digits) : Fraction (46 :: digits)

variable {ch : Byte}

theorem exists_numeral {l : List Byte} (h : Ended (ch :: l)) (hch : isNumeric ch = true) :
    ∃ digits c m, Numeral digits ∧ isNumeric c = false ∧ ch :: l = digits ++ c :: m := by
  obtain ⟨c,m,hd⟩ := (h.dropWhile (p := isNumeric) (by decide)).exists_cons
  refine ⟨(ch :: l).takeWhile isNumeric,c,m,⟨fun _ => mem_takeWhile_imp,?_⟩,?_,?_⟩
  · rw [takeWhile_cons_of_pos hch]
    nofun
  · have hh := head?_dropWhile_not isNumeric (ch :: l)
    rw [hd] at hh
    simpa using hh
  · rw [← hd,takeWhile_append_dropWhile]

/-- The exponent of a number has a sign, and then the buffer ends. -/
def CutExponent (l : List Byte) : Prop := ∃ e sign, (e = 101 ∨ e = 69) ∧ (sign = 43 ∨ sign = 45) ∧ l = [e,sign,0]

theorem CutExponent.head (h : CutExponent (ch :: l)) : ch = 101 ∨ ch = 69 := by
  obtain ⟨e,sign,he,-,heq⟩ := h
  rwa [(cons.inj heq).1]

theorem digitValue_le (ch : Byte) : digitValue ch ≤ 36 := by
  unfold digitValue isNumeric isUppercase
  split <;> [skip; split] <;> simp_all <;> omega

/-- The words in which the scan leaves the buffer or the content of its token. -/
inductive BadWord (size : ℕ) : List Byte → Prop
  | char : BadWord size [36,0]
  | exponent {digits fraction l} (hdigits : Numeral digits) (hfraction : Fraction fraction) (hcut : CutExponent l) :
    BadWord size (digits ++ (fraction ++ l))
  | radix {digits l} (hdigits : Numeral digits)
    (hbad : 36 < radix digits ∨ ∃ k, digits.length = size*2^k) : BadWord size (digits ++ 114 :: l)

theorem readComment_some (comment : Token) (h : Ended r.text) (hch : r.ch ≠ 0) (hs : 0 < comment.contentSize) :
    ∃ r' c, readComment r comment = some ⟨r',c⟩ ∧ Room c ∧ c.content = (quotation 34 r.rest).1 ∧
      r'.text = (quotation 34 r.rest).2 ∧ Ended r'.text ∧ r'.rest.length < r.rest.length := by
  obtain ⟨r1,hn,ht⟩ := nextChar_some h hch
  have hl := length_rest ht
  have hro : Room { comment with content := [] } := ⟨zero_le _,hs⟩
  obtain ⟨r2,hr,ht2,he,hle⟩ := quoteRounds_some (s := ⟨r1,_⟩) 34 (by decide) ⟨ht ▸ h.tail hch,hro⟩ (lt_succ_self _)
  dsimp only at hr ht2 hle
  rw [ht] at hr ht2
  refine ⟨r2,_,?_,hro.fill _,content_fill _ _,ht2,he,by omega⟩
  rw [readComment,hn]
  exact hr

theorem findMark_none (h : ∀ m ∈ ms, r.ch ≠ m.ch) : findMark r ms = some none := by
  induction ms with
  | nil => rfl
  | cons m _ ih =>
    have hm : r.ch ≠ m.ch := h m (mem_cons_self ..)
    have hs : m.starts r = some false := by
      rw [Mark.starts]
      cases m.next with
      | none => exact congrArg some (decide_eq_false hm)
      | some => exact if_neg (by simpa using hm)
    rw [findMark,hs]
    exact ih fun m' hmem => h m' (mem_cons_of_mem _ hmem)

theorem findMark_some (h : Ended r.text) (hms : ∀ m ∈ ms, m.ch ≠ 0) : ∃ o, findMark r ms = some o ∧ ∀ m, o = some m →
      m ∈ ms ∧ r.ch = m.ch ∧ ∀ test, m.next = some test → ∃ ch l, r.rest = ch :: l ∧ test ch = true := by
  induction ms with
  | nil => exact ⟨none,rfl,nofun⟩
  | cons m _ ih =>
    obtain ⟨b,hs,hb⟩ : ∃ b, m.starts r = some b ∧ (b = true → r.ch = m.ch ∧
        ∀ test, m.next = some test → ∃ ch l, r.rest = ch :: l ∧ test ch = true) := by
      rw [Mark.starts]
      cases m.next with
      | none => exact ⟨_,rfl,fun hb => ⟨of_decide_eq_true hb,nofun⟩⟩
      | some test =>
        obtain ⟨b,hp,hb⟩ := peekAfter_some (· = m.ch) test h (decide_eq_false (hms m (mem_cons_self ..)).symm)
        refine ⟨b,hp,fun hb' => ⟨of_decide_eq_true (hb hb').1,?_⟩⟩
        rintro _ ⟨⟩
        exact (hb hb').2
    rw [findMark,hs]
    cases b with
    | true =>
      refine ⟨some m,rfl,?_⟩
      rintro _ ⟨⟩
      exact ⟨mem_cons_self ..,hb rfl⟩
    | false =>
      obtain ⟨o,heq,ho⟩ := ih fun m' hmem => hms m' (mem_cons_of_mem _ hmem)
      exact ⟨o,heq,fun m' hm' => ⟨mem_cons_of_mem _ (ho m' hm').1,(ho m' hm').2⟩⟩

theorem marks_ch (h : m ∈ marks) : m.ch ≠ 0 ∧ m.ch ≠ 34 ∧ isNumeric m.ch = false := by
  simp only [marks,mem_cons,not_mem_nil,or_false] at h
  rcases h with rfl | rfl | rfl | rfl | rfl | rfl | rfl | rfl | rfl | rfl | rfl | rfl | rfl | rfl | rfl | rfl <;> decide

theorem marks_two (h : m ∈ marks) (htwo : m.two = true) :
    m.ch = 36 ∨ ∃ test, m.next = some test ∧ test 0 = false := by
  simp only [marks,mem_cons,not_mem_nil,or_false] at h
  rcases h with rfl | rfl | rfl | rfl | rfl | rfl | rfl | rfl | rfl | rfl | rfl | rfl | rfl | rfl | rfl | rfl <;>
    first
    | exact .inl rfl
    | exact .inr ⟨_,rfl,by decide⟩
    | cases htwo

variable (h : Ready s)
include h

theorem Moves.refl : Moves 0 s.reader (some s) := ⟨s,rfl,h,le_refl _⟩

theorem Ready.retype (type : TokenType) : Ready ⟨s.reader,{ s.token with type := type }⟩ :=
  ⟨h.ended,h.room.fits,h.room.sized⟩

theorem append_moves (hch : s.reader.ch ≠ 0) : Moves 1 s.reader (append s) := by
  obtain ⟨r,heq,ht,h'⟩ := append_some h hch
  exact ⟨_,heq,h',le_of_eq (length_rest ht)⟩

theorem appendWhile_moves (hp : p 0 = false) : Moves 0 s.reader (appendWhile p s) := by
  obtain ⟨r,heq,ht⟩ := appendRounds_some hp h (lt_succ_self _)
  have hl := length_rest ht
  have hle := (dropWhile_sublist (l := s.reader.text) p).length_le
  rw [Reader.length_text] at hle
  exact ⟨_,heq,⟨ht ▸ h.ended.dropWhile hp,h.room.fill _⟩,by dsimp only; omega⟩

theorem appendThenWhile_moves (hp : p 0 = false) (hch : s.reader.ch ≠ 0) : Moves 1 s.reader (appendThenWhile p s) :=
  (append_moves h hch).bind fun _ _ h' => appendWhile_moves h' hp

theorem appendIf_moves (hp : p 0 = false) : Moves 0 s.reader (appendIf p s) := by
  by_cases hch : p s.reader.ch = true
  · rw [appendIf,if_pos hch]
    exact (append_moves h (ne_zero_of_pos hp hch)).weaken
  · rw [appendIf,if_neg hch]
    exact Moves.refl h

theorem numeral_read {digits m : List Byte} {c : Byte} (hdi : Numeral digits)
    (hc : isNumeric c = false) (ht : s.reader.text = digits ++ c :: m) : ∃ r', appendThenWhile isNumeric s =
      some ⟨r',s.token.fill digits⟩ ∧ r'.text = c :: m ∧ Ready ⟨r',s.token.fill digits⟩ := by
  obtain ⟨hn,hno⟩ := hdi
  cases digits with
  | nil => exact absurd rfl hno
  | cons d digits =>
    obtain ⟨hd,hr⟩ : s.reader.ch = d ∧ s.reader.rest = digits ++ c :: m := cons.inj ht
    have hne : s.reader.ch ≠ 0 := ne_zero_of_pos (p := isNumeric) (by decide) (hd ▸ hn d (mem_cons_self ..))
    have hdi : ∀ ch ∈ digits, isNumeric ch = true := fun ch hmem => hn ch (mem_cons_of_mem _ hmem)
    have hnot : ¬ isNumeric c = true := by rw [hc]; exact Bool.false_ne_true
    obtain ⟨r',heq,ht'⟩ := appendThenWhile_some (p := isNumeric) (by decide) h hne
    rw [hr,takeWhile_append_of_pos hdi,takeWhile_cons_of_neg hnot,append_nil,hd] at heq
    rw [hr,dropWhile_append_of_pos hdi,dropWhile_cons_of_neg hnot] at ht'
    have he := (h.ended.tail hne).dropWhile (p := isNumeric) (by decide)
    rw [hr,dropWhile_append_of_pos hdi,dropWhile_cons_of_neg hnot] at he
    exact ⟨r',heq,ht',ht' ▸ he,h.room.fill _⟩

theorem readExponent_moves (he : s.reader.ch = 101 ∨ s.reader.ch = 69)
    (hr : s.reader.rest = ch :: l) (hch : isNumeric ch || ch = 43 || ch = 45) (hcut : ¬ CutExponent s.reader.text) :
    Moves 1 s.reader (readExponent s) := by
  have hne : s.reader.ch ≠ 0 := by rcases he with he | he <;> rw [he] <;> decide
  refine (append_moves h hne).bind fun s1 heq h1 => ?_
  obtain ⟨r1,ha,ht,-⟩ := append_some h hne
  obtain rfl : s1 = _ := some.inj (heq.symm.trans ha)
  obtain ⟨rfl,hl⟩ : r1.ch = ch ∧ r1.rest = l := cons.inj (ht.trans hr)
  have hne1 : r1.ch ≠ 0 := ne_zero_of_pos (p := fun ch => isNumeric ch || ch = 43 || ch = 45) (by decide) hch
  refine (appendIf_moves h1 (by decide)).bind fun s2 heq2 h2 => ?_
  refine (appendThenWhile_moves h2 (by decide) fun h0 => hcut ?_).weaken
  by_cases hs : r1.ch = 43 ∨ r1.ch = 45
  · obtain ⟨r2,ha2,ht2,-⟩ := append_some h1 hne1
    rw [appendIf,if_pos (decide_eq_true hs),ha2] at heq2
    obtain rfl := some.inj heq2
    have hend := h2.ended
    rw [Reader.text,h0] at hend
    refine ⟨s.reader.ch,r1.ch,he,hs,?_⟩
    rw [Reader.text,← ht,Reader.text,← ht2,Reader.text,hend.rest_eq_nil,h0]
  · rw [appendIf,if_neg (by simpa using hs)] at heq2
    obtain rfl := some.inj heq2
    exact absurd h0 hne1

theorem readSuffix_moves (hcut : ¬ CutExponent s.reader.text) : Moves 0 s.reader (readSuffix s) := by
  obtain ⟨exponent,he,hp⟩ := peekAfter_some
    (fun ch => ch = 101 ∨ ch = 69) (fun ch => isNumeric ch || ch = 43 || ch = 45) h.ended (by decide)
  rw [readSuffix,he]
  cases exponent with
  | true =>
    obtain ⟨hf,ch,l,hr,ht⟩ := hp rfl
    exact (readExponent_moves h (of_decide_eq_true hf) hr ht hcut).weaken
  | false =>
    obtain ⟨scale,hs,hp⟩ := peekAfter_some (· = 115) (!isIdentifierBegining ·) h.ended (by decide)
    simp only [bind_eq_bind,bind_some,Bool.false_eq_true,if_false,hs]
    cases scale with
    | false => exact Moves.refl h
    | true =>
      have hne : s.reader.ch ≠ 0 := by rw [of_decide_eq_true (hp rfl).1]; decide
      have hm : Moves 1 s.reader (readScale s) := by
        refine (append_moves h hne).bind fun s1 _ h1 => ?_
        by_cases hnum : isNumeric s1.reader.ch = true
        · rw [if_pos hnum]
          exact (appendThenWhile_moves h1 (by decide) (ne_zero_of_pos (by decide) hnum)).weaken
        · rw [if_neg hnum]
          exact Moves.refl h1
      exact hm.weaken

theorem readSuffix_none (hcut : CutExponent s.reader.text) : readSuffix s = none := by
  obtain ⟨e,sign,he,hsi,ht⟩ := hcut
  obtain ⟨hch,hr⟩ : s.reader.ch = e ∧ s.reader.rest = [sign,0] := cons.inj ht
  have hne : s.reader.ch ≠ 0 := by rcases he with he | he <;> rw [hch,he] <;> decide
  obtain ⟨r1,ha,ht1,h1⟩ := append_some h hne
  obtain ⟨hch1,hr1⟩ : r1.ch = sign ∧ r1.rest = [0] := cons.inj (ht1.trans hr)
  have hne1 : r1.ch ≠ 0 := by rcases hsi with hs | hs <;> rw [hch1,hs] <;> decide
  obtain ⟨r2,ha2,ht2,h2⟩ := append_some h1 hne1
  have hn := append_none h2 (cons.inj (ht2.trans hr1)).1
  have hp : peekAfter (fun ch => ch = 101 ∨ ch = 69) (fun ch => isNumeric ch || ch = 43 || ch = 45) s.reader =
      some true := by
    rw [peekAfter,if_pos (by rw [hch]; exact decide_eq_true he),peekChar,hr]
    rcases hsi with rfl | rfl <;> rfl
  rw [readSuffix,hp]
  have hsi1 : r1.ch = 43 ∨ r1.ch = 45 := hch1 ▸ hsi
  simp only [bind_eq_bind,bind_some,if_true,readExponent,ha,appendIf,
    if_pos (decide_eq_true hsi1),ha2,appendThenWhile,hn,bind_none]

theorem readFraction_moves
    (hcut : ¬ ∃ fraction l, Fraction fraction ∧ CutExponent l ∧ s.reader.text = fraction ++ l) :
    Moves 0 s.reader (readFraction s) := by
  obtain ⟨fraction,hf,hp⟩ := peekAfter_some (· = 46) isNumeric h.ended (by decide)
  rw [readFraction,hf]
  cases fraction with
  | false => exact readSuffix_moves h fun hc => hcut ⟨[],_,.none,hc,rfl⟩
  | true =>
    obtain ⟨hfi,ch,l,hr,ht⟩ := hp rfl
    have hdot : s.reader.ch = 46 := of_decide_eq_true hfi
    have hne : s.reader.ch ≠ 0 := by rw [hdot]; decide
    obtain ⟨r1,ha,ht1,h1⟩ := append_some h hne
    obtain ⟨ds,c,m,hd,hc,hs⟩ := exists_numeral (hr ▸ ht1 ▸ h1.ended) ht
    obtain ⟨r2,hread,ht2,h2⟩ := numeral_read h1 hd hc (ht1.trans (hr.trans hs))
    have hl : r2.rest.length ≤ s.reader.rest.length := by
      rw [hr,hs,length_append,← ht2,Reader.length_text]
      omega
    obtain ⟨s3,heq,hre,hsh⟩ := readSuffix_moves h2 fun hc => hcut
      ⟨46 :: ds,_,.some hd,hc,by rw [Reader.text,hdot,hr,hs,ht2]; rfl⟩
    refine ⟨s3,?_,hre,le_trans hsh hl⟩
    simp only [bind_eq_bind,bind_some,if_true,ha,hread]
    exact heq

theorem readFraction_none {fraction l : List Byte} (hf : Fraction fraction)
    (hcut : CutExponent l) (ht : s.reader.text = fraction ++ l) : readFraction s = none := by
  cases hf with
  | none =>
    rw [nil_append] at ht
    have hhe : s.reader.ch = 101 ∨ s.reader.ch = 69 := CutExponent.head (ht.symm ▸ hcut)
    have hp : peekAfter (· = 46) isNumeric s.reader = some false := by
      refine if_neg ?_
      rcases hhe with hh | hh <;> rw [hh] <;> decide
    rw [readFraction,hp]
    exact readSuffix_none h (ht.symm ▸ hcut)
  | @some ds hd =>
    obtain ⟨hdot,hr⟩ : s.reader.ch = 46 ∧ s.reader.rest = ds ++ l := cons.inj ht
    have hne : s.reader.ch ≠ 0 := by rw [hdot]; decide
    obtain ⟨r1,ha,ht1,h1⟩ := append_some h hne
    obtain ⟨e,sign,he,hs,rfl⟩ := hcut
    obtain ⟨r2,hre,ht2,h2⟩ := numeral_read h1 hd (by rcases he with rfl | rfl <;> decide) (ht1.trans hr)
    have hp : peekAfter (· = 46) isNumeric s.reader = some true := by
      rw [peekAfter,if_pos (decide_eq_true hdot),peekChar,hr,← ht1.trans hr]
      exact congrArg some (hd.head (ht1.trans hr))
    rw [readFraction,hp]
    simp only [bind_eq_bind,bind_some,if_true,ha,hre]
    exact readSuffix_none h2 ⟨e,sign,he,hs,ht2⟩

theorem readRadix_moves (hch : s.reader.ch = 114) (hb : radix s.token.content ≤ 36)
    (hr : s.token.content.length < s.token.contentSize) : Moves 0 s.reader (readRadix s) := by
  rw [readRadix,if_pos hr]
  exact ((append_moves h (by rw [hch]; decide)).bind fun _ _ h1 => (appendIf_moves h1 (by decide)).bind fun _ _ h2 =>
    appendWhile_moves h2 (decide_eq_false (not_lt.mpr hb))).weaken

theorem readRadix_none (hch : s.reader.ch = 114)
    (hbad : 36 < radix s.token.content ∨ ¬ s.token.content.length < s.token.contentSize) : readRadix s = none := by
  by_cases hr : s.token.content.length < s.token.contentSize
  · have hb := hbad.resolve_right (not_not_intro hr)
    obtain ⟨s1,ha,h1,-⟩ := append_moves h (by rw [hch]; decide)
    obtain ⟨s2,hs,h2,-⟩ := appendIf_moves (p := (· = 45)) h1 (by decide)
    rw [readRadix,if_pos hr,ha]
    simp only [bind_eq_bind,bind_some,hs]
    exact appendRounds_none (fun ch => decide_eq_true (lt_of_le_of_lt (digitValue_le ch) hb)) h2
  · exact if_neg hr

theorem readNumber_moves (he : s.token.content = []) (hch : isNumeric s.reader.ch = true)
    (hbad : ¬ BadWord s.token.contentSize s.reader.text) : Moves 1 s.reader (readNumber s) := by
  obtain ⟨digits,c,m,hd,hc,hs⟩ := exists_numeral h.ended hch
  obtain ⟨r1,hre,ht,-⟩ := numeral_read h hd hc hs
  have hne := ne_zero_of_pos (by decide) hch
  refine (appendThenWhile_moves h (by decide) hne).bind fun s1 heq h1 => ?_
  obtain rfl : s1 = _ := some.inj (heq.symm.trans hre)
  have hcon : (s.token.fill digits).content = digits := by rw [content_fill,he,nil_append]
  rw [Reader.text,hs] at hbad
  by_cases hr : r1.ch = 114
  · rw [if_pos hr]
    obtain rfl : c = 114 := (cons.inj ht).1.symm.trans hr
    have hnot : ¬ (36 < radix digits ∨ ∃ k, digits.length = s.token.contentSize*2^k) :=
      fun hor => hbad (.radix hd hor)
    rw [not_or] at hnot
    exact readRadix_moves h1 hr (by rw [hcon]; exact not_lt.mp hnot.1) ((full_iff h.room.sized he digits).mpr hnot.2)
  · rw [if_neg hr]
    refine readFraction_moves h1 fun ⟨fraction,l,hf,hcut,heq⟩ => hbad ?_
    rw [← ht,heq]
    exact .exponent hd hf hcut

theorem readNumber_none (he : s.token.content = []) (hch : isNumeric s.reader.ch = true)
    (hbad : BadWord s.token.contentSize s.reader.text) : readNumber s = none := by
  generalize ht : s.reader.text = text at hbad
  cases hbad with
  | char => rw [(cons.inj ht).1] at hch; exact absurd hch (by decide)
  | @exponent digits fraction l hd hf hcut =>
    obtain ⟨c,m,hm,hc,hnr⟩ : ∃ c m, fraction ++ l = c :: m ∧ isNumeric c = false ∧ c ≠ 114 := by
      cases hf with
      | none => obtain ⟨e,sign,rfl | rfl,-,rfl⟩ := hcut <;> exact ⟨_,_,rfl,by decide,by decide⟩
      | some => exact ⟨46,_,rfl,by decide,by decide⟩
    rw [hm] at ht
    obtain ⟨r1,hre,ht1,h1⟩ := numeral_read h hd hc ht
    rw [readNumber,hre]
    simp only [bind_eq_bind,bind_some,if_neg (fun h => hnr ((cons.inj ht1).1.symm.trans h))]
    exact readFraction_none h1 hf hcut (ht1.trans hm.symm)
  | @radix digits l hd hbad =>
    obtain ⟨r1,hre,ht1,h1⟩ := numeral_read h hd (by decide) ht
    have hr : r1.ch = 114 := (cons.inj ht1).1
    have hcon : (s.token.fill digits).content = digits := by rw [content_fill,he,nil_append]
    rw [readNumber,hre]
    simp only [bind_eq_bind,bind_some,if_pos hr]
    refine readRadix_none h1 hr (hbad.imp ?_ ?_)
    · rw [hcon]; exact id
    · exact fun hfu hlt => (full_iff h.room.sized he digits).mp hlt hfu

theorem readIdentifier_moves (hch : s.reader.ch ≠ 0) : Moves 1 s.reader (readIdentifier s) := by
  refine (appendThenWhile_moves h (by decide) hch).bind fun s1 _ h1 => ?_
  obtain ⟨keyword,hk,hp⟩ := peekAfter_some (· = 58) (· ≠ 61) h1.ended (by decide)
  simp only [bind_eq_bind,bind_some,hk]
  cases keyword with
  | false => exact Moves.refl (h1.retype .identifier)
  | true =>
    have hc : s1.reader.ch = 58 := of_decide_eq_true (hp rfl).1
    exact (append_moves (h1.retype .keyword) (by rw [hc]; decide)).weaken

theorem readString_some (hch : s.reader.ch ≠ 0) :
    ∃ r t, readString s = some ⟨r,{ t with type := if r.ch = 0 then .unclosedString else .string }⟩ ∧ Room t ∧
      t.content = s.token.content ++ (quotation 39 s.reader.rest).1 ∧ r.text = (quotation 39 s.reader.rest).2 ∧
      Ended r.text ∧ r.rest.length < s.reader.rest.length := by
  obtain ⟨r1,hn,ht⟩ := nextChar_some h.ended hch
  have hl := length_rest ht
  obtain ⟨r2,hr,ht2,he,hle⟩ := quoteRounds_some (s := ⟨r1,s.token⟩) 39 (by decide)
    ⟨ht ▸ h.ended.tail hch,h.room⟩ (lt_succ_self _)
  dsimp only at hr ht2 hle
  rw [ht] at hr ht2
  have hr : readQuoted 39 ⟨r1,s.token⟩ = _ := hr
  refine ⟨r2,_,?_,h.room.fill _,content_fill _ _,ht2,he,by omega⟩
  rw [readString,hn]
  simp only [bind_eq_bind,bind_some,hr]
  rfl

theorem readString_moves (hch : s.reader.ch ≠ 0) : Moves 1 s.reader (readString s) := by
  obtain ⟨r,t,hre,hr,-,-,he,hlt⟩ := readString_some h hch
  exact ⟨_,hre,⟨he,hr.fits,hr.sized⟩,hlt⟩

theorem readMark_moves (hm : m ∈ marks) (hch : s.reader.ch = m.ch)
    (hn : ∀ test, m.next = some test → ∃ ch l, s.reader.rest = ch :: l ∧ test ch = true)
    (hbad : s.reader.text ≠ [36,0]) : Moves 1 s.reader (readMark m s) := by
  have hne : s.reader.ch ≠ 0 := hch ▸ (marks_ch hm).1
  have h0 := h.retype m.type
  obtain ⟨r1,ha,ht,-⟩ := append_some h0 hne
  refine (append_moves h0 hne).bind fun s1 heq h1 => ?_
  obtain rfl : s1 = _ := some.inj (heq.symm.trans ha)
  cases htwo : m.two with
  | false => exact Moves.refl h1
  | true =>
    refine (append_moves h1 fun h0 => ?_).weaken
    rcases marks_two hm htwo with h36 | ⟨test,hte,hz⟩
    · have he := h1.ended
      rw [Reader.text,h0] at he
      apply hbad
      rw [Reader.text,hch,h36]
      exact congrArg _ (ht.symm.trans (by rw [Reader.text,h0,he.rest_eq_nil]))
    · obtain ⟨ch,l,hr,hp⟩ := hn test hte
      have hc : ch = 0 := (cons.inj (ht.trans hr)).1.symm.trans h0
      rw [hc,hz] at hp
      cases hp

theorem readWord_moves (he : s.token.content = [])
    (hbad : ¬ BadWord s.token.contentSize s.reader.text) : ∃ s', readWord s = some s' ∧ Ready s' ∧
      (s'.token.type = .endOfInput ∨ s'.reader.rest.length < s.reader.rest.length) := by
  have hmov : ∀ {o}, Moves 1 s.reader o → ∃ s', o = some s' ∧ Ready s' ∧
      (s'.token.type = .endOfInput ∨ s'.reader.rest.length < s.reader.rest.length) :=
    fun ⟨s',heq,hr,hs⟩ => ⟨s',heq,hr,.inr hs⟩
  obtain ⟨o,hma,ho⟩ := findMark_some h.ended fun m hm => (marks_ch hm).1
  rw [readWord,hma]
  cases o with
  | some m =>
    obtain ⟨hm,hch,hn⟩ := ho m rfl
    exact hmov (readMark_moves h hm hch hn fun ht => hbad (ht ▸ .char))
  | none =>
    split
    · rename_i hch
      exact hmov (readString_moves h (by rw [hch]; decide))
    split
    · exact ⟨_,rfl,h.retype .endOfInput,.inl rfl⟩
    rename_i hne
    split
    · rename_i hnum
      exact hmov (readNumber_moves (h.retype .digit) he hnum hbad)
    split
    · exact hmov (readIdentifier_moves h hne)
    split
    · exact hmov (appendThenWhile_moves (h.retype .specialChars) (by decide) hne)
    · exact hmov (append_moves (h.retype .unknown) hne)

theorem readWord_none (he : s.token.content = [])
    (hbad : BadWord s.token.contentSize s.reader.text) : readWord s = none := by
  by_cases hnum : isNumeric s.reader.ch = true
  · have hma : findMark s.reader marks = some none :=
      findMark_none fun m hm heq => by rw [heq,(marks_ch hm).2.2] at hnum; cases hnum
    have h39 : s.reader.ch ≠ 39 := by intro h39; rw [h39] at hnum; exact absurd hnum (by decide)
    have h0 : s.reader.ch ≠ 0 := ne_zero_of_pos (by decide) hnum
    rw [readWord,hma]
    simp only [bind_eq_bind,bind_some,if_neg h39,if_neg h0,if_pos hnum]
    exact readNumber_none (h.retype .digit) he hnum hbad
  · generalize ht : s.reader.text = text at hbad
    cases hbad with
    | exponent hd | radix hd => exact absurd (hd.head ht) hnum
    | char =>
      obtain ⟨hch,hr⟩ : s.reader.ch = 36 ∧ s.reader.rest = [0] := cons.inj ht
      have hma : findMark s.reader marks = some (some ⟨36,none,.char,true⟩) := by
        simp [findMark,marks,Mark.starts,peekAfter,hch]
      have h0 := h.retype .char
      obtain ⟨r1,ha,ht1,h1⟩ := append_some h0 (by rw [hch]; decide)
      rw [readWord,hma]
      simp only [bind_eq_bind,bind_some,readMark,ha,if_true]
      exact append_none h1 (cons.inj (ht1.trans hr)).1

end Branches

/-! ## The calls -/

/-- The texts at which reading a token, into a slot of the given size, has no defined outcome. -/
inductive Harmful (size : ℕ) : List Byte → Prop
  | word {l} (h : BadWord size (l.dropWhile isSeparator)) : Harmful size l
  | unclosed {l body} (h : l.dropWhile isSeparator = 34 :: body) (hopen : (quotation 34 body).2 = [0])
    (hsize : size < (quotation 34 body).1.length) : Harmful size l
  | comment {l body} (h : l.dropWhile isSeparator = 34 :: body) (hclosed : (quotation 34 body).2 ≠ [0])
    (hnext : Harmful size (quotation 34 body).2) : Harmful size l

theorem badWord_head {size : ℕ} {ch : Byte} (h : BadWord size (ch :: l)) : ch ≠ 34 := by
  rintro rfl
  generalize ht : 34 :: l = text at h
  cases h with
  | char => exact absurd (cons.inj ht).1 (by decide)
  | exponent hd | radix hd => exact absurd (hd.head ht) (by decide)

theorem Harmful.of_comment {size : ℕ} (h : Harmful size l)
    (hb : l.dropWhile isSeparator = 34 :: body) : (quotation 34 body).2 = [0] ∧
      size < (quotation 34 body).1.length ∨ (quotation 34 body).2 ≠ [0] ∧ Harmful size (quotation 34 body).2 := by
  cases h with
  | word hbad => exact absurd rfl (badWord_head (hb ▸ hbad))
  | unclosed heq ho hlt =>
    obtain rfl := (cons.inj (hb.symm.trans heq)).2
    exact .inl ⟨ho,hlt⟩
  | comment heq hc hn =>
    obtain rfl := (cons.inj (hb.symm.trans heq)).2
    exact .inr ⟨hc,hn⟩

/-- What a call leaves: a scan inside the buffer that has consumed something unless it was at the end. -/
structure Reads (r : Reader) (s : Scan) (comment : Token) : Prop where
  ended : Ended s.reader.text
  sized : 0 < s.token.contentSize
  comment : 0 < comment.contentSize
  shorter : s.token.type = .endOfInput ∨ s.reader.rest.length < r.rest.length

/-- How `readToken` ends or goes on at a comment with these contents, behind which the reader stands. -/
inductive ReadsComment (depth : ℕ) (r : Reader) (contents : List Byte) (size : ℕ) : Option (Scan × Token) → Prop
  | long (hend : r.text = [0]) (hlt : size < contents.length) : ReadsComment depth r contents size none
  | unclosed {t c : Token} (hend : r.text = [0]) (hle : contents.length ≤ size) (htype : t.type = .unclosedComment)
    (ht : 0 < t.contentSize) (hc : 0 < c.contentSize) : ReadsComment depth r contents size (some (⟨r,t⟩,c))
  | closed {c t : Token} (hclosed : r.text ≠ [0]) (htype : c.type = .comment) (hcontent : c.content = contents)
    (hc : 0 < c.contentSize) (ht : t.contentSize = size) :
    ReadsComment depth r contents size (readToken depth r c t true)

theorem readToken_comment (depth : ℕ) (separated : Bool)
    (hsk : skipWhile isSeparator r = some r1) (h : Ended r1.text) (hch : r1.ch = 34)
    (hco : 0 < comment.contentSize) (hto : 0 < token.contentSize) :
    ∃ r', r'.text = (quotation 34 r1.rest).2 ∧ Ended r'.text ∧ r'.rest.length < r1.rest.length ∧
      ReadsComment depth r' (quotation 34 r1.rest).1 token.contentSize
        (readToken (depth+1) r comment token separated) := by
  obtain ⟨r',c,hre,hr,hc,hte,he,hlt⟩ := readComment_some { comment with type := .unknown } h (by rw [hch]; decide) hco
  refine ⟨r',hte,he,hlt,?_⟩
  rw [readToken,hsk]
  simp only [bind_eq_bind,bind_some,if_pos hch,hre]
  by_cases hz : r'.ch = 0
  · have hend : r'.text = [0] := by
      rw [Reader.text,hz] at he ⊢
      rw [he.rest_eq_nil]
    rw [if_pos hz,← hc]
    split
    · rename_i hs
      have hr' : Room { token with
          type := .unclosedComment, content := c.content, isSeparated := separated || isSeparator r.ch
          position := r1.position, line := r1.line, column := r1.column-1 } := ⟨hs,hto⟩
      obtain ⟨token',ht,hpos,hty,-⟩ := hr'.terminate
      rw [ht]
      exact .unclosed hend hs hty hpos hr.sized
    · rename_i hs
      exact .long hend (not_le.mp hs)
  · rw [if_neg hz]
    have hr' : Room { c with
        type := .comment, position := r1.position, line := r1.line, column := r1.column-1 } :=
      ⟨hr.fits,hr.sized⟩
    obtain ⟨comment',ht,hpos,hty,hc'⟩ := hr'.terminate
    rw [ht]
    exact .closed (fun heq => hz (cons.inj heq).1) hty (hc'.trans hc) hpos rfl

theorem readToken_spec (separated : Bool) (h : Ended r.text)
    (hcomment : 0 < comment.contentSize) (htoken : 0 < token.contentSize) (hdepth : r.rest.length < depth) :
    (¬ Harmful token.contentSize r.text →
      ∃ s c, readToken depth r comment token separated = some (s,c) ∧ Reads r s c) ∧
    (Harmful token.contentSize r.text → readToken depth r comment token separated = none) := by
  induction depth generalizing r comment token separated with
  | zero => cases hdepth
  | succ depth ih =>
    obtain ⟨r1,hskip,htext⟩ := skipRounds_some (p := isSeparator) (by decide) h (lt_succ_self _)
    have hskip : skipWhile isSeparator r = some r1 := hskip
    have hended : Ended r1.text := htext ▸ h.dropWhile (by decide)
    have hle : r1.rest.length ≤ r.rest.length := by
      have hlength := (dropWhile_sublist (l := r.text) isSeparator).length_le
      rw [← htext,Reader.length_text,Reader.length_text] at hlength
      omega
    by_cases hquote : r1.ch = 34
    · have hbody : r.text.dropWhile isSeparator = 34 :: r1.rest := by rw [← htext,Reader.text,hquote]
      obtain ⟨r',htext',hended',hlt,hreads⟩ := readToken_comment depth separated hskip hended hquote hcomment htoken
      generalize readToken (depth+1) r comment token separated = o at hreads ⊢
      cases hreads with
      | long hend hsize => exact ⟨fun hnot => absurd (.unclosed hbody (htext' ▸ hend) hsize) hnot,fun _ => rfl⟩
      | unclosed hend hsize _ ht hc =>
        refine ⟨fun _ => ⟨_,_,rfl,hended',ht,hc,.inr (lt_of_lt_of_le hlt hle)⟩,fun hharm => ?_⟩
        rcases hharm.of_comment hbody with ⟨-,hlong⟩ | ⟨hclosed,-⟩
        · exact absurd hlong (not_lt.mpr hsize)
        · exact absurd (htext' ▸ hend) hclosed
      | closed hclosed _ _ hc ht =>
        obtain ⟨hsome,hnone⟩ := ih true hended' hc (ht ▸ htoken) (by omega)
        rw [htext'] at hclosed
        rw [htext',ht] at hsome hnone
        refine ⟨fun hnot => ?_,fun hharm => ?_⟩
        · obtain ⟨s,c,heq,hreads⟩ := hsome fun hharm => hnot (.comment hbody hclosed hharm)
          exact ⟨s,c,heq,hreads.ended,hreads.sized,hreads.comment,hreads.shorter.imp_right fun hlt => by omega⟩
        · exact hnone ((hharm.of_comment hbody).resolve_left fun hopen => hclosed hopen.1).2
    · rw [readToken,hskip]
      simp only [bind_eq_bind,bind_some]
      rw [if_neg hquote]
      have hready : Ready ⟨r1,{ token with content := [], isSeparated := separated || isSeparator r.ch
                                           position := r1.position, line := r1.line, column := r1.column-1 }⟩ :=
        ⟨hended,zero_le _,htoken⟩
      refine ⟨fun hnot => ?_,fun hharm => ?_⟩
      · obtain ⟨s,hword,hready',hshort⟩ := readWord_moves hready rfl fun hbad => hnot (.word (htext ▸ hbad))
        obtain ⟨token',hterm,hpos,htype,-⟩ := hready'.room.terminate
        rw [hword]
        simp only [bind_some,hterm]
        refine ⟨_,_,rfl,hready'.ended,hpos,hcomment,hshort.imp (fun hend => htype.trans hend) fun hlt => ?_⟩
        exact lt_of_lt_of_le hlt hle
      · cases hharm with
        | word hbad => rw [readWord_none hready rfl (htext ▸ hbad)]; rfl
        | unclosed heq | comment heq => exact absurd (cons.inj (htext.trans heq)).1 hquote

structure Valid (t : Tokenizer) : Prop where
  ended : Ended t.reader.text
  slots : ∀ i, 0 < (t.tokens i).contentSize
  comment : 0 < t.comment.contentSize
  level : t.tokenized = t.tokenIndex

/-- The next call would leave the buffer, or the slot that it fills. -/
def Tokenizer.Harmed (t : Tokenizer) : Prop := Harmful (t.tokens (t.tokenIndex % maxTokens)).contentSize t.reader.text

theorem nextToken_some (h : Valid t) (hh : ¬ t.Harmed) : ∃ token t', nextToken t =
      some (token,t') ∧ Valid t' ∧ (token.type = .endOfInput ∨ t'.reader.rest.length < t.reader.rest.length) := by
  obtain ⟨s,c,hre,hr⟩ := (readToken_spec false h.ended h.comment (h.slots _) (lt_succ_self _)).1 hh
  rw [nextToken,peekToken,if_pos (le_of_eq h.level),hre]
  refine ⟨_,_,rfl,⟨hr.ended,fun i => ?_,hr.comment,congrArg (· + 1) h.level⟩,hr.shorter⟩
  change 0 < (Function.update t.tokens (t.tokenIndex % maxTokens) s.token i).contentSize
  rw [Function.update_apply]
  split
  · exact hr.sized
  · exact h.slots i

theorem nextToken_none (h : Valid t) (hh : t.Harmed) : nextToken t = none := by
  have hr := (readToken_spec false h.ended h.comment (h.slots _) (lt_succ_self _)).2 hh
  rw [nextToken,peekToken,if_pos (le_of_eq h.level),hr]
  rfl

/-- The calls reach the end of input, and each of them before it consumes a character. -/
inductive Finishes : Tokenizer → Prop
  | last {t token t'} (h : nextToken t = some (token,t')) (hend : token.type = .endOfInput) : Finishes t
  | more {t token t'} (h : nextToken t = some (token,t')) (hne : token.type ≠ .endOfInput)
    (hshort : t'.reader.rest.length < t.reader.rest.length) (hnext : Finishes t') : Finishes t

/-- The states before the calls, up to the one that answers the end of input. -/
inductive Calls : Tokenizer → Tokenizer → Prop
  | start {t} : Calls t t
  | next {t token t' t''} (h : nextToken t = some (token,t')) (hne : token.type ≠ .endOfInput) (hnext : Calls t' t'') :
    Calls t t''

theorem finishes_of_calls (h : Valid t) (hh : ∀ t', Calls t t' → ¬ t'.Harmed) : Finishes t := by
  induction hn : t.reader.rest.length using Nat.strong_induction_on generalizing t with
  | _ _ ih =>
    obtain ⟨token,t',hca,hv,hor⟩ := nextToken_some h (hh t .start)
    by_cases hend : token.type = .endOfInput
    · exact .last hca hend
    · have hs := hor.resolve_left hend
      exact .more hca hend hs (ih _ (hn ▸ hs) hv (fun t'' hc => hh t'' (.next hca hend hc)) rfl)

theorem Finishes.calls (hf : Finishes t) (h : Valid t) (hca : Calls t t') : ¬ t'.Harmed := by
  have hh : ∀ {t token t'}, Valid t → nextToken t = some (token,t') → ¬ t.Harmed :=
    fun hv hc hha => some_ne_none _ (hc.symm.trans (nextToken_none hv hha))
  induction hf with
  | last hc hend =>
    cases hca with
    | start => exact hh h hc
    | next hc' hne => rw [hc] at hc'; cases hc'; exact absurd hend hne
  | more hc _ _ _ ih =>
    cases hca with
    | start => exact hh h hc
    | next hc' _ hn =>
      obtain ⟨_,_,hs,hv,-⟩ := nextToken_some h (hh h hc)
      rw [hc] at hc' hs
      cases hc'
      cases hs
      exact ih hv hn

def Tokenized (source : List Byte) : Prop := ∃ t, startTokenizer source = some t ∧ Finishes t

theorem sized_emptyToken : 0 < emptyToken.contentSize := by decide

theorem valid_start (h : Ended source) : ∃ t, startTokenizer source = some t ∧ Valid t := by
  obtain ⟨text,hmem,rfl⟩ := h
  cases text with
  | nil => exact ⟨_,rfl,⟨[],hmem,rfl⟩,fun _ => sized_emptyToken,sized_emptyToken,rfl⟩
  | cons ch text => exact ⟨_,rfl,⟨ch :: text,hmem,rfl⟩,fun _ => sized_emptyToken,sized_emptyToken,rfl⟩

theorem tokenized_iff (text : List Byte) (htext : 0 ∉ text) : Tokenized (text ++ [0]) ↔
      ∀ t t', startTokenizer (text ++ [0]) = some t → Calls t t' → ¬ t'.Harmed := by
  obtain ⟨t,hs,hv⟩ := valid_start ⟨text,htext,rfl⟩
  constructor
  · rintro ⟨t1,hs1,hf⟩ t2 t' hs2 hc
    rw [hs] at hs1 hs2
    obtain rfl := some.inj hs1
    obtain rfl := some.inj hs2
    exact hf.calls hv hc
  · exact fun hh => ⟨t,hs,finishes_of_calls hv fun t' hc => hh t t' hs hc⟩

theorem tokenized_name_iff : Tokenized [97,0] ↔ ∀ t t', startTokenizer [97,0] = some t → Calls t t' → ¬ t'.Harmed :=
  tokenized_iff [97] (by decide)

theorem not_tokenized (hs : startTokenizer source = some t) (hn : nextToken t = none) : ¬ Tokenized source := by
  rintro ⟨t',hs',hf⟩
  rw [hs] at hs'
  obtain rfl := some.inj hs'
  cases hf with
  | last h | more h => rw [hn] at h; cases h

/-- `$`, `1e+` and `37r` at the end of the buffer, and a comment of 65 characters that is not closed. -/
theorem endings_not_tokenized : ¬ Tokenized [36,0] ∧ ¬ Tokenized [49,101,43,0] ∧ ¬ Tokenized [51,55,114,0] ∧
    ¬ Tokenized (34 :: replicate 65 97 ++ [0]) :=
  ⟨not_tokenized rfl rfl,not_tokenized rfl rfl,not_tokenized rfl rfl,not_tokenized rfl (by decide +kernel)⟩

end SmalltalkJit.Tokenizing
