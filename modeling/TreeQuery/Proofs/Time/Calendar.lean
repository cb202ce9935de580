import Mathlib.Data.Prod.Lex
import Mathlib.Tactic.IntervalCases
import Mathlib.Tactic.Ring
import TreeQuery.Time.Calendar

/-!
# The calendar, day by day

`Date.next` says what the day after a date is, by the lengths of months and by leap years. Counted
days follow this rule from 1 January 1970 on and back (`ofDays_zero` and `ofDays_add_one`). The
count of days is split into eras of 400 years, years from March on (`exists_ofDays`) and months of
these (`march_eq_iff`); within each of them the next day is only the next number.

**`Date.key_ofDays_lt`**: later days have later dates.
-/

namespace TreeQuery

namespace Date

variable {era : Int} {year k m : Nat} {y : Int}

/-- Whether a year has a leap day. -/
def IsLeap (year : Int) : Prop := 4 ∣ year ∧ (¬ 100 ∣ year ∨ 400 ∣ year)

instance : DecidablePred IsLeap := fun _ => inferInstanceAs (Decidable (_ ∧ _))

/-- How many days a month has. -/
def monthDays (year : Int) (month : Nat) : Nat :=
  if month = 2 then if IsLeap year then 29 else 28
  else if month ∈ [4, 6, 9, 11] then 30
  else 31

/-- **The day after a date.** -/
def next (date : Date) : Date :=
  if date.day < monthDays date.year date.month then { date with day := date.day + 1 }
  else if date.month < 12 then ⟨date.year, date.month + 1, 1⟩
  else ⟨date.year + 1, 1, 1⟩

/-! ## Years from March on -/

/-- How many days there are from March of a year to the next February. -/
def marchDays (year : Int) : Nat := if IsLeap (year + 1) then 366 else 365

/-- A day of the year that begins in March, by its number. -/
def ofMarch (year : Int) (dayOfYear : Nat) : Date :=
  let march := (5 * dayOfYear + 2) / 153
  let month := if march < 10 then march + 3 else march - 9
  ⟨year + (if month ≤ 2 then 1 else 0), month, dayOfYear - (153 * march + 2) / 5 + 1⟩

/-- The number of the day on which a month of that year begins. -/
def monthStart (m : Nat) : Nat := (153 * m + 2) / 5

/-- A day of a month of that year. -/
def inMonth (year : Int) (m day : Nat) : Date :=
  ⟨year + if m < 10 then 0 else 1, if m < 10 then m + 3 else m - 9, day⟩

/-- How many days a month of that year has. -/
def monthLength (year : Int) (m : Nat) : Nat :=
  monthDays (inMonth year m 1).year (inMonth year m 1).month

theorem monthStart_succ (h : m < 11) : monthStart (m + 1) = monthStart m + monthLength y m := by
  interval_cases m <;> simp [monthStart, monthLength, inMonth, monthDays]

theorem marchDays_eq : marchDays y = monthStart 11 + monthLength y 11 := by
  simp only [marchDays, monthStart, monthLength, inMonth, monthDays]
  split <;> simp [*]

theorem march_eq_iff : (5 * k + 2) / 153 = m ↔ monthStart m ≤ k ∧ k < monthStart (m + 1) := by
  unfold monthStart
  omega

theorem ofMarch_eq (h : (5 * k + 2) / 153 = m) (hm : m < 12) :
    ofMarch y k = inMonth y m (k - monthStart m + 1) := by
  simp only [ofMarch, h, inMonth, monthStart, Date.mk.injEq, and_true]
  split_ifs <;> omega

theorem next_inMonth (h : m < 12) (d : Nat) : (inMonth y m d).next =
    if d < monthLength y m then inMonth y m (d + 1)
    else if m < 11 then inMonth y (m + 1) 1 else inMonth (y + 1) 0 1 := by
  unfold next monthLength inMonth
  interval_cases m <;> simp

theorem marchDays_cases (y : Int) : marchDays y = 366 ∨ marchDays y = 365 := by
  unfold marchDays
  split <;> simp

theorem next_ofMarch (h : k < marchDays y) : (ofMarch y k).next =
    if k + 1 < marchDays y then ofMarch y (k + 1) else ofMarch (y + 1) 0 := by
  have hyear := marchDays_cases y
  obtain ⟨m, hm⟩ : ∃ m, (5 * k + 2) / 153 = m := ⟨_, rfl⟩
  obtain ⟨hstart, hend⟩ := march_eq_iff.mp hm
  have hlast : m < 12 := by omega
  rw [ofMarch_eq hm hlast, next_inMonth hlast]
  rcases Nat.lt_or_ge m 11 with hm11 | hm11
  · have hlength := monthStart_succ (y := y) hm11
    have hmore : k + 1 < marchDays y := by
      unfold monthStart at hend
      omega
    rw [if_pos hmore, if_pos hm11]
    split_ifs with hday
    · rw [ofMarch_eq (march_eq_iff.mpr ⟨by omega, by omega⟩) hlast, Nat.sub_add_comm hstart]
    · have hk : k + 1 = monthStart (m + 1) := by omega
      have hnext : monthStart (m + 1) < monthStart (m + 1 + 1) := by
        unfold monthStart
        omega
      rw [hk, ofMarch_eq (march_eq_iff.mpr ⟨le_rfl, hnext⟩) (by omega), Nat.sub_self]
  · obtain rfl : m = 11 := by omega
    have hday : k - monthStart 11 + 1 < monthLength y 11 ↔ k + 1 < marchDays y := by
      rw [marchDays_eq]
      omega
    rw [if_neg (lt_irrefl 11)]
    simp only [hday]
    split_ifs with hmore
    · have hk : k + 1 < monthStart (11 + 1) := by
        unfold monthStart
        omega
      rw [ofMarch_eq (march_eq_iff.mpr ⟨by omega, hk⟩) hlast, Nat.sub_add_comm hstart]
    · rfl

/-! ## Days of an era -/

theorem yearStart_succ (era : Int) (h : year + 1 < 400) :
    yearStart (year + 1) = yearStart year + marchDays (400 * era + year) := by
  unfold yearStart marchDays
  split_ifs with hleap <;> unfold IsLeap at hleap <;> omega

theorem marchDays_last (era : Int) : marchDays (400 * era + (399 : Nat)) = 366 := by
  have hleap : IsLeap (400 * era + (399 : Nat) + 1) := by
    unfold IsLeap
    omega
  rw [marchDays, if_pos hleap]

theorem exists_yearStart_add (era : Int) {d : Nat} (h : d < 146097) :
    ∃ year k : Nat, year < 400 ∧ k < marchDays (400 * era + year) ∧ d = yearStart year + k := by
  induction d with
  | zero =>
    have hdays := marchDays_cases (400 * era + (0 : Nat))
    exact ⟨0, 0, by decide, by omega, rfl⟩
  | succ d ih =>
    obtain ⟨year, k, hyear, hk, rfl⟩ := ih (by omega)
    rcases Nat.lt_or_ge (k + 1) (marchDays (400 * era + year)) with hin | hout
    · exact ⟨year, k + 1, hyear, hin, rfl⟩
    · have hyear' : year + 1 < 400 := by
        by_contra hlast
        obtain rfl : year = 399 := by omega
        rw [marchDays_last] at hk hout
        unfold yearStart at h
        omega
      have hdays := marchDays_cases (400 * era + (year + 1 : Nat))
      refine ⟨year + 1, 0, hyear', by omega, ?_⟩
      rw [yearStart_succ era hyear']
      omega

theorem yearOfEra_add (hyear : year < 400) (hk : k < marchDays (400 * era + year)) :
    yearOfEra (yearStart year + k) = year := by
  -- the year of a century, the four years of it and the year of these
  obtain ⟨c, q, r, hc, hq, hr, rfl⟩ :
      ∃ c q r, c < 4 ∧ q < 25 ∧ r < 4 ∧ year = 100 * c + 4 * q + r :=
    ⟨year / 100, year % 100 / 4, year % 4, by omega⟩
  have hleap : k < 365 ∨ k = 365 ∧ r = 3 ∧ (q < 24 ∨ c = 3) := by
    unfold marchDays at hk
    split_ifs at hk with hleap <;> unfold IsLeap at hleap <;> omega
  have hcentury : 1461 * q + 365 * r + k < 36524 ∨ 1461 * q + 365 * r + k = 36524 ∧ c = 3 := by
    omega
  have hday : yearStart (100 * c + 4 * q + r) + k = 36524 * c + (1461 * q + 365 * r + k) := by
    unfold yearStart
    omega
  have h36524 : (36524 * c + (1461 * q + 365 * r + k)) / 36524 =
      c + (36524 * c + (1461 * q + 365 * r + k)) / 146096 := by
    generalize 1461 * q + 365 * r + k = rest at hcentury
    clear hk hday hleap
    omega
  rw [hday, yearOfEra, h36524]
  generalize hd : 36524 * c + (1461 * q + 365 * r + k) = d
  generalize hrest : 24 * c + q + 365 * r + k = rest
  have h1460 : d / 1460 = 25 * c + q + rest / 1460 := by omega
  rw [h1460]
  omega

theorem fdiv_add (hd : k < 146097) : (146097 * era + k).fdiv 146097 = era := by
  rw [Int.fdiv_eq_ediv_of_nonneg _ (by decide)]
  omega

theorem fmod_add (hd : k < 146097) : (146097 * era + k).fmod 146097 = k := by
  rw [Int.fmod_eq_emod_of_nonneg _ (by decide)]
  omega

theorem yearStart_add_lt (hyear : year < 400) (hk : k < marchDays (400 * era + year)) :
    yearStart year + k < 146097 := by
  have hdays := marchDays_cases (400 * era + year)
  unfold yearStart
  omega

/-- **The date of a day**, given by the era, the year of it and the day of that year. -/
theorem ofDays_eq (hyear : year < 400) (hk : k < marchDays (400 * era + year)) :
    ofDays (146097 * era + (yearStart year + k : Nat) - epochOffset) =
      ofMarch (400 * era + year) k := by
  have hlt := yearStart_add_lt hyear hk
  simp only [ofDays, Int.sub_add_cancel, fdiv_add hlt, fmod_add hlt, Int.toNat_natCast,
    yearOfEra_add hyear hk, Nat.add_sub_cancel_left, ofMarch, Int.mul_comm era]

theorem exists_ofDays (n : Int) : ∃ (era : Int) (year k : Nat), year < 400 ∧
    k < marchDays (400 * era + year) ∧
      n = 146097 * era + (yearStart year + k : Nat) - epochOffset := by
  have hmod : ((n + epochOffset) % 146097).toNat < 146097 := by omega
  obtain ⟨year, k, hyear, hk, hday⟩ := exists_yearStart_add ((n + epochOffset) / 146097) hmod
  exact ⟨_, year, k, hyear, hk, by omega⟩

theorem ofDays_zero : ofDays 0 = ⟨1970, 1, 1⟩ := by decide

/-- **The day after a day has the date after its date.** -/
theorem ofDays_add_one (n : Int) : ofDays (n + 1) = (ofDays n).next := by
  obtain ⟨era, year, k, hyear, hk, rfl⟩ := exists_ofDays n
  rw [ofDays_eq hyear hk, next_ofMarch hk]
  split_ifs with hmore
  · rw [← ofDays_eq hyear hmore]
    congr 1
    push_cast
    ring
  · have hlast : k + 1 = marchDays (400 * era + year) := by omega
    have hfirst (y : Int) : 0 < marchDays y := by
      have hdays := marchDays_cases y
      omega
    rcases Nat.lt_or_ge (year + 1) 400 with hyear' | hyear'
    · have hnext : ofMarch (400 * era + year + 1) 0 = ofMarch (400 * era + (year + 1 : Nat)) 0 := by
        rw [Nat.cast_succ, add_assoc]
      rw [hnext, ← ofDays_eq hyear' (hfirst _), yearStart_succ era hyear', ← hlast]
      congr 1
      push_cast
      ring
    · obtain rfl : year = 399 := by omega
      have hnext : ofMarch (400 * era + (399 : Nat) + 1) 0 =
          ofMarch (400 * (era + 1) + (0 : Nat)) 0 := by
        congr 1
        push_cast
        ring
      rw [hnext, ← ofDays_eq (by decide) (hfirst _)]
      rw [marchDays_last] at hlast
      congr 1
      unfold yearStart
      omega

/-! ## The order of dates -/

/-- Dates are ordered by their years, then by months and then by days. -/
def key (date : Date) : ℤ ×ₗ ℕ ×ₗ ℕ := toLex (date.year, toLex (date.month, date.day))

theorem key_lt_next (date : Date) : date.key < date.next.key := by
  unfold next
  split_ifs with hday hmonth <;> simp [key, Prod.Lex.toLex_lt_toLex]

/-- **Later days have later dates.** -/
theorem key_ofDays_lt {n n' : Int} (h : n < n') : (ofDays n).key < (ofDays n').key := by
  have hmono : StrictMono fun n => (ofDays n).key := strictMono_int_of_lt_succ fun n => by
    rw [ofDays_add_one]
    exact key_lt_next _
  exact hmono h

/-- Months and days have at most two digits. -/
theorem ofDays_small (n : Int) : (ofDays n).month < 13 ∧ (ofDays n).day < 32 := by
  obtain ⟨era, year, k, hyear, hk, rfl⟩ := exists_ofDays n
  have hdays := marchDays_cases (400 * era + year)
  rw [ofDays_eq hyear hk]
  unfold ofMarch
  dsimp only
  split_ifs <;> omega

end Date

end TreeQuery
