import Mathlib.Tactic.IntervalCases

/-! # Day numbers and calendar dates

`DateTime` counts the days since 1970-01-01 and converts them on eras of 400
years that begin in March, so that the leap day is the last day of its year. All
the divisors are positive, for which `//` is the division of `ℤ`.
-/
namespace SmalltalkJit.Calendar

structure Date where
  year : ℤ
  month : ℤ
  day : ℤ
  deriving DecidableEq

def daysPerMonth : List ℤ := [31,28,31,30,31,30,31,31,30,31,30,31]

def isLeapYear (y : ℤ) : Prop := y % 4 = 0 ∧ (y % 100 ≠ 0 ∨ y % 400 = 0)

instance (y : ℤ) : Decidable (isLeapYear y) := inferInstanceAs (Decidable (_ ∧ _))

/-- `none` is the error of `at:` outside the table. -/
def daysInMonth (m y : ℤ) : Option ℤ :=
  if m = 2 then some (if isLeapYear y then 29 else 28)
  else if 1 ≤ m then daysPerMonth[(m-1).toNat]? else none

def daysFromCivil (date : Date) : ℤ :=
  let yy := if date.month ≤ 2 then date.year-1 else date.year
  let era := yy/400
  let yoe := yy-era*400
  let monthShift := if date.month > 2 then date.month-3 else date.month+9
  let doy := (153*monthShift+2)/5+date.day-1
  let doe := yoe*365+yoe/4-yoe/100+doy
  era*146097+doe-719468

def computeDate (days : ℤ) : Date :=
  let z := days+719468
  let era := z/146097
  let doe := z-era*146097
  let yoe := (doe-doe/1460+doe/36524-doe/146096)/365
  let y := yoe+era*400
  let doy := doe-(365*yoe+yoe/4-yoe/100)
  let mp := (5*doy+2)/153
  let d := doy-(153*mp+2)/5+1
  let m := if mp < 10 then mp+3 else mp-9
  ⟨if m ≤ 2 then y+1 else y,m,d⟩

def Date.Valid (date : Date) : Prop :=
  1 ≤ date.day ∧ ∃ length, daysInMonth date.month date.year = some length ∧ date.day ≤ length

def Date.next (date : Date) : Date :=
  if daysInMonth date.month date.year ≠ some date.day then ⟨date.year,date.month,date.day+1⟩
  else if date.month < 12 then ⟨date.year,date.month+1,1⟩ else ⟨date.year+1,1,1⟩

/-- Centuries, cycles of four years and years are equally long but for the last ones. -/
theorem yearOfEra_eq {yoe doy doe : ℤ} (hyoe : 0 ≤ yoe ∧ yoe < 400)
    (hdoy : 0 ≤ doy ∧ (doy ≤ 364 ∨ doy = 365 ∧ isLeapYear (yoe+1))) (h : doe = yoe*365+yoe/4-yoe/100+doy) :
    (doe-doe/1460+doe/36524-doe/146096)/365 = yoe ∧ 0 ≤ doe ∧ doe < 146097 := by
  obtain ⟨c,q,s,rfl,hc,hq,hs⟩ : ∃ c q s, yoe = 100*c+4*q+s ∧ (0 ≤ c ∧ c ≤ 3) ∧ (0 ≤ q ∧ q ≤ 24) ∧ 0 ≤ s ∧ s ≤ 3 :=
    ⟨yoe/100,yoe%100/4,yoe%4,by omega,by omega,by omega,by omega⟩
  have hf : (100*c+4*q+s)/4 = 25*c+q := by omega
  have hh : (100*c+4*q+s)/100 = c := by omega
  have hl : isLeapYear (100*c+4*q+s+1) → s = 3 ∧ (q < 24 ∨ c = 3) := by
    unfold isLeapYear
    omega
  obtain ⟨hpos,hla⟩ : 0 ≤ doy ∧ (doy ≤ 364 ∨ doy = 365 ∧ s = 3 ∧ (q < 24 ∨ c = 3)) :=
    hdoy.imp_right (Or.imp_right (And.imp_right hl))
  rw [hf,hh] at h
  have hce : doe/36524-doe/146096 = c := by
    obtain hx | ⟨hx,rfl⟩ : 1461*q+365*s+doy ≤ 36523 ∨ 1461*q+365*s+doy = 36524 ∧ c = 3 := by omega
    · rw [Int.ediv_eq_zero_of_lt (b := 146096)] <;> omega
    · omega
  have hcy : doe/1460 = 25*c+q ∧ doy < 365 ∨ doe/1460 = 25*c+q+1 ∧ 0 < doy := by
    clear hce
    omega
  rw [show doe-doe/1460+doe/36524-doe/146096 = doe-doe/1460+c by omega]
  obtain ⟨heq,hlt⟩ | ⟨heq,hlt⟩ := hcy <;> rw [heq] <;> omega

theorem daysInMonth_eq_some {m y length : ℤ} : daysInMonth m y = some length ↔
    m = 2 ∧ length = (if isLeapYear y then 29 else 28) ∨ (m = 4 ∨ m = 6 ∨ m = 9 ∨ m = 11) ∧ length = 30 ∨
      (m = 1 ∨ m = 3 ∨ m = 5 ∨ m = 7 ∨ m = 8 ∨ m = 10 ∨ m = 12) ∧ length = 31 := by
  constructor
  · intro h
    have hr : 1 ≤ m ∧ m ≤ 12 := by
      unfold daysInMonth at h
      split at h
      · omega
      · obtain ⟨hlow,h⟩ := Option.ite_none_right_eq_some.mp h
        obtain ⟨hh,-⟩ := List.getElem?_eq_some_iff.mp h
        change (m-1).toNat < 12 at hh
        omega
    obtain ⟨hlow,hh⟩ := hr
    interval_cases m <;> cases h <;> simp
  · rintro (⟨rfl,rfl⟩ | ⟨rfl | rfl | rfl | rfl,rfl⟩ | ⟨rfl | rfl | rfl | rfl | rfl | rfl | rfl,rfl⟩) <;> rfl

/-- The months of an era begin with March; the bound is the length of all but the last one. -/
theorem monthOfYear_eq {mp d doy : ℤ} (hmp : 0 ≤ mp ∧ mp ≤ 11) (hd : 1 ≤ d ∧ d ≤ (153*mp+155)/5-(153*mp+2)/5)
    (hl : mp = 11 → d ≤ 29) (h : doy = (153*mp+2)/5+d-1) :
    (5*doy+2)/153 = mp ∧ 0 ≤ doy ∧ (doy ≤ 364 ∨ doy = 365 ∧ mp = 11 ∧ d = 29) := by
  obtain ⟨hlow,hh⟩ := hmp
  interval_cases mp <;> omega

theorem computeDate_eq {era yoe mp d : ℤ} (hyoe : 0 ≤ yoe ∧ yoe < 400) (hmp : 0 ≤ mp ∧ mp ≤ 11)
    (hd : 1 ≤ d ∧ d ≤ (153*mp+155)/5-(153*mp+2)/5) (hl : mp = 11 → d ≤ 28 ∨ d = 29 ∧ isLeapYear (yoe+1)) :
    computeDate (era*146097+(yoe*365+yoe/4-yoe/100+((153*mp+2)/5+d-1))-719468) =
      if mp < 10 then ⟨yoe+era*400,mp+3,d⟩ else ⟨yoe+era*400+1,mp-9,d⟩ := by
  generalize hdoy : (153*mp+2)/5+d-1 = doy
  obtain ⟨hm,hpos,hlo⟩ := monthOfYear_eq hmp hd (fun h => (hl h).elim (by omega) (by omega)) hdoy.symm
  have hle : doy ≤ 364 ∨ doy = 365 ∧ isLeapYear (yoe+1) :=
    hlo.imp_right fun h => ⟨h.1,((hl h.2.1).resolve_left (by omega)).2⟩
  generalize hdoe : yoe*365+yoe/4-yoe/100+doy = doe
  obtain ⟨hy,hlow,hh⟩ := yearOfEra_eq hyoe ⟨hpos,hle⟩ hdoe.symm
  have hday : doe-(365*yoe+yoe/4-yoe/100) = doy := by omega
  have hda : doy-(153*mp+2)/5+1 = d := by omega
  have hera : (era*146097+doe-719468+719468)/146097 = era := by
    clear hy
    omega
  rw [Int.sub_add_cancel] at hera
  simp only [computeDate,Int.sub_add_cancel,hera,add_sub_cancel_left,hy,hday,hm,hda]
  by_cases hlt : mp < 10
  · rw [if_pos hlt,if_pos hlt,if_neg (by omega)]
  · rw [if_neg hlt,if_neg hlt,if_pos (by omega)]

theorem leap_mod (y : ℤ) : isLeapYear (y-1-(y-1)/400*400+1) ↔ isLeapYear y := by
  unfold isLeapYear
  omega

theorem computeDate_daysFromCivil {date : Date} (h : date.Valid) : computeDate (daysFromCivil date) = date := by
  obtain ⟨y,m,d⟩ := date
  obtain ⟨hpos,n,hl,hle⟩ := h
  have hmo := daysInMonth_eq_some.mp hl
  dsimp only at hpos hle hmo
  by_cases hm : m ≤ 2
  · simp only [daysFromCivil,if_pos hm,if_neg (not_lt_of_ge hm)]
    rw [computeDate_eq,if_neg (by omega)]
    · congr 1 <;> omega
    · omega
    · omega
    · omega
    · intro
      rw [leap_mod]
      by_cases hlea : isLeapYear y <;> simp only [hlea,if_true,if_false,and_true,and_false] at hmo ⊢ <;> omega
  · simp only [daysFromCivil,if_neg hm,if_pos (lt_of_not_ge hm)]
    rw [computeDate_eq,if_pos (by omega)]
    · congr 1 <;> omega
    all_goals omega

theorem valid_first {y m : ℤ} (h : 1 ≤ m ∧ m ≤ 12) : Date.Valid ⟨y,m,1⟩ := by
  obtain ⟨hlow,hh⟩ := h
  interval_cases m
  all_goals
    refine ⟨le_rfl,_,rfl,?_⟩
    dsimp only
    omega

theorem Date.Valid.next {date : Date} (h : date.Valid) : date.next.Valid := by
  obtain ⟨hpos,n,hl,hle⟩ := h
  have hm := daysInMonth_eq_some.mp hl
  unfold Date.next
  split
  · next hend =>
    have hlt := lt_of_le_of_ne hle fun h => hend (h ▸ hl)
    exact ⟨by dsimp only; omega,n,hl,hlt⟩
  · split
    · exact valid_first (by omega)
    · exact valid_first (by decide)

theorem daysFromCivil_next {date : Date} : daysFromCivil date.next = daysFromCivil date+1 := by
  obtain ⟨y,m,d⟩ := date
  unfold Date.next
  dsimp only
  split
  · simp only [daysFromCivil]
    omega
  · next hend =>
    obtain ⟨rfl,rfl⟩ | ⟨rfl | rfl | rfl | rfl,rfl⟩ | ⟨rfl | rfl | rfl | rfl | rfl | rfl | rfl,rfl⟩ :=
      daysInMonth_eq_some.mp (not_not.mp hend)
    · -- the leap day ends the year of the era
      by_cases hl : isLeapYear y
      all_goals
        simp only [hl,daysFromCivil,if_true,if_false,Int.reduceLT,Int.reduceLE,Int.reduceAdd]
        unfold isLeapYear at hl
        omega
    all_goals
      simp [daysFromCivil]
      try omega

theorem exists_date (n : ℤ) : ∃ date : Date, date.Valid ∧ daysFromCivil date = n := by
  -- from a date early enough, day after day
  obtain ⟨y,hs⟩ : ∃ y, daysFromCivil ⟨y,3,1⟩ ≤ n := ⟨min n 0,by simp only [daysFromCivil]; omega⟩
  obtain ⟨k,rfl⟩ := Int.le.dest hs
  clear hs
  induction k with
  | zero => exact ⟨⟨y,3,1⟩,valid_first (by decide),(Int.add_zero _).symm⟩
  | succ _ ih =>
    obtain ⟨date,hv,hd⟩ := ih
    exact ⟨date.next,hv.next,by rw [daysFromCivil_next,hd,Int.add_assoc]; rfl⟩

theorem daysFromCivil_computeDate (n : ℤ) : (computeDate n).Valid ∧ daysFromCivil (computeDate n) = n := by
  obtain ⟨date,hv,rfl⟩ := exists_date n
  rw [computeDate_daysFromCivil hv]
  exact ⟨hv,rfl⟩

/-- The two conversions are inverse to each other, and go from day to day. -/
theorem calendar_bijective : (∀ n, (computeDate n).Valid ∧ daysFromCivil (computeDate n) = n) ∧
    (∀ date : Date, date.Valid → computeDate (daysFromCivil date) = date) ∧
    ∀ n, computeDate (n+1) = (computeDate n).next := by
  refine ⟨daysFromCivil_computeDate,fun date => computeDate_daysFromCivil,fun n => ?_⟩
  obtain ⟨hv,hd⟩ := daysFromCivil_computeDate n
  have hn := computeDate_daysFromCivil hv.next
  rwa [daysFromCivil_next,hd] at hn

end SmalltalkJit.Calendar
