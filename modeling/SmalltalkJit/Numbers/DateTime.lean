import SmalltalkJit.Numbers.Calendar
import Mathlib.Data.List.DropRight

/-! # Times as ISO 8601 text

`printIso8601` writes the local time and its offset from UTC, and `readFrom:` computes
the time from such a text. Where the reader stands in a text is given by what is left of it.
-/
namespace SmalltalkJit.Calendar
open List Nat

structure DateTime where
  milliSeconds : ℤ
  offsetSeconds : ℤ
  deriving DecidableEq

def millisecondsPerDay : ℤ := 86400000

namespace DateTime

def localMilliSeconds (t : DateTime) : ℤ := t.milliSeconds+t.offsetSeconds*1000

def millisecond (t : DateTime) : ℤ := t.localMilliSeconds%1000

def second (t : DateTime) : ℤ := t.localMilliSeconds/1000%60

def minute (t : DateTime) : ℤ := t.localMilliSeconds/(1000*60)%60

def hour (t : DateTime) : ℤ := t.localMilliSeconds/(1000*60*60)%24

def date (t : DateTime) : Date := computeDate (t.localMilliSeconds/millisecondsPerDay)

def printString (n : ℤ) : List Char := if n < 0 then '-' :: toDigits 10 n.natAbs else toDigits 10 n.natAbs

def twoDigits (n : ℤ) : List Char := if n < 10 then '0' :: printString n else printString n

def threeDigits (n : ℤ) : List Char :=
  if n < 10 then '0' :: '0' :: printString n
  else if n < 100 then '0' :: printString n
  else printString n

def fourDigits (n : ℤ) : List Char :=
  if n < 0 then printString n else replicate (4-(printString n).length) '0' ++ printString n

def printZone (offset : ℤ) : List Char :=
  if offset = 0 then ['Z']
  else
    let absOff : ℤ := offset.natAbs
    (if offset < 0 then '-' else '+') :: twoDigits (absOff/3600) ++ ':' :: twoDigits (absOff%3600/60)

def printFraction (t : DateTime) : List Char := if 0 < t.millisecond then '.' :: threeDigits t.millisecond else []

def printTime (t : DateTime) : List Char :=
  'T' :: (twoDigits t.hour ++ ':' :: (twoDigits t.minute ++ ':' :: (twoDigits t.second ++ (t.printFraction ++
    printZone t.offsetSeconds))))

def printIso8601 (t : DateTime) : List Char :=
  fourDigits t.date.year ++ '-' :: (twoDigits t.date.month ++ '-' :: (twoDigits t.date.day ++ t.printTime))

def isSeparator (c : Char) : Bool := c ∈ ['\t','\n','\x0c','\r',' ']

def trimSeparators (s : List Char) : List Char := (s.dropWhile isSeparator).rdropWhile isSeparator

def readInt (v : ℕ) : List Char → ℕ × List Char
  | c :: s => if c.isDigit then readInt (10*v+(c.toNat-48)) s else (v,c :: s)
  | [] => (v,[])

/-- A mark that is not there is not missed. -/
def skip (mark : Char) : List Char → List Char
  | c :: s => if c = mark then s else c :: s
  | [] => []

/-- Three digits count; those that are missing are zeros. -/
def readFraction (v digits : ℕ) : List Char → ℕ × List Char
  | c :: s =>
    if c.isDigit then
      if digits < 3 then readFraction (10*v+(c.toNat-48)) (digits+1) s else readFraction v digits s
    else (v*10^(3-digits),c :: s)
  | [] => (v*10^(3-digits),[])

/-- The time of day in milliseconds. -/
def readTime : List Char → ℕ × List Char
  | c :: s =>
    if c = 'T' ∨ c = ' ' then
      let hour := readInt 0 s
      let minute := readInt 0 (skip ':' hour.2)
      let second := readInt 0 (skip ':' minute.2)
      let milli := if second.2.head? = some '.' then readFraction 0 0 second.2.tail else (0,second.2)
      (hour.1*3600000+minute.1*60000+second.1*1000+milli.1,milli.2)
    else (0,c :: s)
  | [] => (0,[])

def readZone : List Char → ℤ
  | c :: s =>
    if c = '+' ∨ c = '-' then
      let offHour := readInt 0 s
      let offMin := readInt 0 (skip ':' offHour.2)
      (if c = '-' then -1 else 1)*(offHour.1*3600+offMin.1*60)
    else 0
  | [] => 0

def readFrom (text : List Char) : DateTime :=
  let year := readInt 0 (trimSeparators text)
  let month := readInt 0 (skip '-' year.2)
  let day := readInt 0 (skip '-' month.2)
  let time := readTime day.2
  let offset := readZone time.2
  let localMs := daysFromCivil ⟨year.1,month.1,day.1⟩*millisecondsPerDay+time.1
  ⟨localMs-offset*1000,offset⟩

section Digits

/-- Digits that are read as a number. -/
structure Digits (l : List Char) (n : ℤ) : Prop where
  digit : ∀ c ∈ l, c.isDigit
  value : (ofDigitChars 10 l 0 : ℤ) = n

theorem digits_printString (h : 0 ≤ n) : Digits (printString n) n := by
  rw [printString,if_neg h.not_gt]
  exact ⟨fun c => isDigit_of_mem_toDigits (by decide) (by decide),by rw [ofDigitChars_ten_toDigits]; omega⟩

theorem Digits.zero (h : Digits l n) : Digits ('0' :: l) n := by
  refine ⟨fun c hc => ?_,h.value⟩
  obtain rfl | hc := mem_cons.mp hc
  · rfl
  · exact h.digit c hc

theorem digits_twoDigits (h : 0 ≤ n) : Digits (twoDigits n) n := by
  unfold twoDigits
  split
  · exact (digits_printString h).zero
  · exact digits_printString h

theorem digits_fourDigits (h : 0 ≤ n) : Digits (fourDigits n) n := by
  rw [fourDigits,if_neg h.not_gt]
  generalize 4-_ = k
  induction k with
  | zero => exact digits_printString h
  | succ k ih => exact ih.zero

theorem digits_threeDigits (h : 0 ≤ n) : Digits (threeDigits n) n := by
  unfold threeDigits
  split
  · exact (digits_printString h).zero.zero
  · split
    · exact (digits_printString h).zero
    · exact digits_printString h

theorem length_threeDigits (h : 0 ≤ n) (hn : n < 1000) : (threeDigits n).length = 3 := by
  have hle := fun k (hk : 0 < k) => length_toDigits_le_iff (b := 10) (k := k) (n := n.natAbs) (by decide) hk
  have hp := length_toDigits_pos (b := 10) (n := n.natAbs)
  have h1 := hle 1 (by decide)
  have h2 := hle 2 (by decide)
  have h3 := hle 3 (by decide)
  unfold threeDigits printString
  rw [if_neg h.not_gt]
  split
  · simp only [length_cons]; omega
  · split
    · simp only [length_cons]; omega
    · omega

/-- What follows a number does not go on with a digit. -/
def Stops (s : List Char) : Prop := ∀ c ∈ s.head?, c.isDigit = false

theorem readInt_append (hl : ∀ c ∈ l, c.isDigit) (hs : Stops s) : readInt v (l ++ s) = (ofDigitChars 10 l v,s) := by
  induction l generalizing v with
  | nil =>
    cases s with
    | nil => rfl
    | cons c s => rw [nil_append,readInt,if_neg (by simpa using hs c rfl)]; rfl
  | cons c l ih =>
    rw [cons_append,readInt,if_pos (hl c mem_cons_self),ih fun c hc => hl c (mem_cons_of_mem _ hc)]
    rfl

theorem Digits.readInt (h : Digits l n) (hs : Stops s) : readInt 0 (l ++ s) = (n.toNat,s) := by
  rw [readInt_append h.digit hs]
  exact Prod.ext (by dsimp only; have := h.value; omega) rfl

theorem readFraction_append (hl : ∀ c ∈ l, c.isDigit) (hk : k+l.length = 3) (hs : Stops s) :
    readFraction v k (l ++ s) = (ofDigitChars 10 l v,s) := by
  induction l generalizing v k with
  | nil =>
    obtain rfl : k = 3 := hk
    cases s with
    | nil => simp [readFraction]
    | cons c s => rw [nil_append,readFraction,if_neg (by simpa using hs c rfl)]; simp
  | cons c l ih =>
    rw [length_cons] at hk
    rw [cons_append,readFraction,if_pos (hl c mem_cons_self),if_pos (by omega),
      ih (fun c hc => hl c (mem_cons_of_mem _ hc)) (by omega)]
    rfl

end Digits

theorem stops_cons (h : c.isDigit = false) : Stops (c :: s) := by
  rintro _ ⟨⟩
  exact h

theorem printZone_eq (offset : ℤ) : ∃ c s, printZone offset = c :: s ∧ (c = 'Z' ∨ c = '+' ∨ c = '-') := by
  unfold printZone
  split
  · exact ⟨_,_,rfl,.inl rfl⟩
  · split
    · exact ⟨_,_,rfl,.inr (.inr rfl)⟩
    · exact ⟨_,_,rfl,.inr (.inl rfl)⟩

theorem stops_printZone (offset : ℤ) : Stops (printZone offset) := by
  obtain ⟨c,s,h,rfl | rfl | rfl⟩ := printZone_eq offset
  all_goals
    rw [h]
    exact stops_cons rfl

theorem readZone_printZone (offset : ℤ) : readZone (printZone offset) = offset ↔ 60 ∣ offset := by
  have hp (sign : Char) (hs : sign = '+' ∨ sign = '-') (n : ℕ) :
      readZone (sign :: twoDigits (n/3600) ++ ':' :: twoDigits (n%3600/60)) =
        (if sign = '-' then -1 else 1)*(n/60*60) := by
    have hm := (digits_twoDigits (n := n%3600/60) (by omega)).readInt (s := []) (by rintro _ ⟨⟩)
    rw [append_nil] at hm
    rw [cons_append,readZone,if_pos hs,(digits_twoDigits (by omega)).readInt (stops_cons rfl)]
    simp only [skip,hm,if_true]
    congr 1
    omega
  unfold printZone
  split
  · next h => simp [h,readZone]
  · split
    · rw [hp _ (.inr rfl),if_pos rfl]
      omega
    · rw [hp _ (.inl rfl),if_neg (by decide)]
      omega

theorem fields_nonneg (t : DateTime) : 0 ≤ t.date.month ∧ 0 ≤ t.date.day ∧ 0 ≤ t.hour ∧ 0 ≤ t.minute ∧ 0 ≤ t.second ∧
    0 ≤ t.millisecond ∧ t.millisecond < 1000 := by
  obtain ⟨⟨hday,length,hl,-⟩,-⟩ := daysFromCivil_computeDate (t.localMilliSeconds/millisecondsPerDay)
  have hm := daysInMonth_eq_some.mp hl
  simp only [date,hour,minute,second,millisecond]
  omega

theorem readTime_printTime (t : DateTime) :
    readTime t.printTime = ((t.localMilliSeconds%millisecondsPerDay).toNat,printZone t.offsetSeconds) := by
  obtain ⟨-,-,hh,hm,hc,hl⟩ := t.fields_nonneg
  have hz := stops_printZone t.offsetSeconds
  have hsum : t.hour.toNat*3600000+t.minute.toNat*60000+t.second.toNat*1000+t.millisecond.toNat =
      (t.localMilliSeconds%millisecondsPerDay).toNat := by
    simp only [hour,minute,second,millisecond,millisecondsPerDay]
    omega
  rw [printTime,readTime,if_pos (.inl rfl),(digits_twoDigits hh).readInt (stops_cons rfl)]
  simp only [skip,if_true]
  rw [(digits_twoDigits hm).readInt (stops_cons rfl)]
  simp only [if_true]
  unfold printFraction
  by_cases h0 : 0 < t.millisecond
  · rw [if_pos h0,cons_append,(digits_twoDigits hc).readInt (stops_cons rfl)]
    have hd := digits_threeDigits hl.1
    have hv := hd.value
    simp only [head?_cons,tail_cons,if_true]
    rw [readFraction_append hd.digit (by rw [length_threeDigits hl.1 hl.2]) hz,← hsum]
    congr 2
    omega
  · rw [if_neg h0,nil_append,(digits_twoDigits hc).readInt hz]
    have hne : (printZone t.offsetSeconds).head? ≠ some '.' := by
      obtain ⟨c,s,h,rfl | rfl | rfl⟩ := printZone_eq t.offsetSeconds <;> simp [h]
    simp only [if_neg hne]
    rw [← hsum]
    congr 2
    omega

theorem trimSeparators_eq (h : ∀ c ∈ s, isSeparator c = false) : trimSeparators s = s := by
  rw [trimSeparators,dropWhile_eq_self_iff.mpr,rdropWhile_eq_self_iff]
  · intro hs
    simp [h _ (getLast_mem hs)]
  · intro hs
    simp [h _ (getElem_mem hs)]

theorem Digits.not_separator (h : Digits l n) : ∀ c ∈ l, isSeparator c = false := by
  intro c hc
  have hd := h.digit c hc
  cases hs : isSeparator c with
  | false => rfl
  | true =>
    simp only [isSeparator,mem_cons,not_mem_nil,or_false,decide_eq_true_eq] at hs
    obtain rfl | rfl | rfl | rfl | rfl := hs <;> exact absurd hd (by decide)

theorem trimSeparators_printIso8601 {t : DateTime} (hy : 0 ≤ t.date.year) :
    trimSeparators t.printIso8601 = t.printIso8601 := by
  have hd {n : ℤ} (h : 0 ≤ n) := (digits_twoDigits h).not_separator
  obtain ⟨hmo,hda,hh,hm,hc,hl,-⟩ := t.fields_nonneg
  have hf : ∀ c ∈ t.printFraction, isSeparator c = false := by
    unfold printFraction
    split
    · exact forall_mem_cons.mpr ⟨rfl,(digits_threeDigits hl).not_separator⟩
    · simp
  have hz : ∀ c ∈ printZone t.offsetSeconds, isSeparator c = false := by
    unfold printZone
    split
    · exact forall_mem_cons.mpr ⟨rfl,by simp⟩
    · simp only [cons_append,forall_mem_append,forall_mem_cons]
      exact ⟨by split <;> rfl,hd (by omega),rfl,hd (by omega)⟩
  refine trimSeparators_eq ?_
  simp only [printIso8601,printTime,forall_mem_append,forall_mem_cons]
  exact ⟨(digits_fourDigits hy).not_separator,rfl,hd hmo,rfl,hd hda,rfl,hd hh,rfl,hd hm,rfl,hd hc,hf,hz⟩

/-- The text is read back as it was printed if the offset has whole minutes. -/
theorem iso8601_roundTrip_iff (t : DateTime) (hy : 0 ≤ t.date.year) :
    readFrom t.printIso8601 = t ↔ 60 ∣ t.offsetSeconds := by
  obtain ⟨hm,hd,-⟩ := t.fields_nonneg
  have hday := (daysFromCivil_computeDate (t.localMilliSeconds/millisecondsPerDay)).2
  have hdat : (⟨t.date.year.toNat,t.date.month.toNat,t.date.day.toNat⟩ : Date) =
      computeDate (t.localMilliSeconds/millisecondsPerDay) := by
    rw [Int.toNat_of_nonneg hy,Int.toNat_of_nonneg hm,Int.toNat_of_nonneg hd]
    rfl
  rw [readFrom,trimSeparators_printIso8601 hy,printIso8601,(digits_fourDigits hy).readInt (stops_cons rfl)]
  simp only [skip,if_true]
  rw [(digits_twoDigits hm).readInt (stops_cons rfl)]
  simp only [if_true]
  rw [(digits_twoDigits hd).readInt (show Stops t.printTime from stops_cons rfl)]
  simp only [readTime_printTime]
  rw [hdat,hday,← readZone_printZone]
  obtain ⟨ms,offset⟩ := t
  simp only [mk.injEq,localMilliSeconds,millisecondsPerDay]
  omega

theorem iso8601_roundTrip_west :
    0 ≤ (⟨1,-12600⟩ : DateTime).date.year ∧ readFrom (printIso8601 ⟨1,-12600⟩) = ⟨1,-12600⟩ :=
  ⟨by decide,(iso8601_roundTrip_iff ⟨1,-12600⟩ (by decide)).mpr (by decide)⟩

/-- Half a minute of the offset is lost, and the instant moves by it. -/
theorem iso8601_roundTrip_seconds :
    (⟨0,30⟩ : DateTime).date.year = 1970 ∧ readFrom (printIso8601 ⟨0,30⟩) = ⟨30000,0⟩ := by
  decide

end DateTime

end SmalltalkJit.Calendar
