import Mathlib.Algebra.Order.Group.Int

/-!
Dates: from a time value to its fields and back. Time values and fields are integers;
no time value is NaN.
-/

namespace Dates

def mathMod (a b : Int) : Int :=
  let m := a.tmod b
  m + if m < 0 then b else 0

def floorDiv (a b : Int) : Int := (a - mathMod a b).tdiv b

def daysFromYear (y : Int) : Int :=
  365 * (y - 1970) + floorDiv (y - 1969) 4 - floorDiv (y - 1901) 100 + floorDiv (y - 1601) 400

def daysInYear (y : Int) : Int :=
  365 + (if y.tmod 4 = 0 then 1 else 0) - (if y.tmod 100 = 0 then 1 else 0) + if y.tmod 400 = 0 then 1 else 0

-- what the loop adds to `d1` is lost when it computes `d1` again
def yearLoop (d : Int) : Nat → Int → Option (Int × Int)
  | 0, _ => none
  | fuel + 1, y =>
    let d1 := d - daysFromYear y
    if d1 < 0 then yearLoop d fuel (y - 1)
    else if d1 < daysInYear y then some (y, d1)
    else yearLoop d fuel (y + 1)

/-- The year and the day in it. -/
def yearFromDays (fuel : Nat) (days : Int) : Option (Int × Int) :=
  yearLoop days fuel (floorDiv (days * 10000) 3652425 + 1970)

def monthDays : List Int := [31, 28, 31, 30, 31, 30, 31, 31, 30, 31, 30, 31]

def monthLength (y : Int) (i : Nat) : Int :=
  monthDays.getD i 0 + if i = 1 then daysInYear y - 365 else 0

/-- The fields of a date; the last two are not read back. -/
structure DateFields where
  year : Int
  month : Int
  date : Int
  hours : Int
  minutes : Int
  seconds : Int
  ms : Int
  weekday : Int
  timezone : Int
deriving DecidableEq

def monthLoop (y : Int) : Nat → Nat → Int → Nat × Int
  | 0, i, days => (i, days)
  | steps + 1, i, days =>
    if days < monthLength y i then (i, days) else monthLoop y steps (i + 1) (days - monthLength y i)

/-- `get_date_fields` with `JS_ThisTimeValue` done; no result is an exhausted loop, and no
fields are its answer for NaN. -/
def getDateFields (getTimezoneOffset : Int → Int) (fuel : Nat) (dval : Option Int) (isLocal force : Bool) :
    Option (Option DateFields) :=
  match dval, force with
  | none, false => some none
  | _, _ => do
    let tz := if isLocal then (dval.map fun d => -getTimezoneOffset d).getD 0 else 0
    let d := dval.getD 0 + tz * 60000
    let h := mathMod d 86400000
    let days := (d - h).tdiv 86400000
    let ms := h.tmod 1000
    let h := (h - ms).tdiv 1000
    let s := h.tmod 60
    let h := (h - s).tdiv 60
    let m := h.tmod 60
    let h := (h - m).tdiv 60
    let wd := mathMod (days + 4) 7
    let (y, days) ← yearFromDays fuel days
    let (i, days) := monthLoop y 11 0 days
    some (some ⟨y, i, days + 1, h, m, s, ms, wd, tz⟩)

def timeClip (t : Int) : Option Int :=
  if t ≥ -8640000000000000 ∧ t ≤ 8640000000000000 then some t else none

/-- `days` after some turns of the loop over the months. -/
def daysFromMonth (y : Int) : Nat → Int
  | 0 => daysFromYear y
  | i + 1 => daysFromMonth y i + monthLength y i

def setDateFields (getTimezoneOffset : Int → Int) (fields : DateFields) (isLocal : Bool) : Option Int :=
  let ym := fields.year + fields.month / 12
  let mn := fields.month.tmod 12
  let mn := if mn < 0 then mn + 12 else mn
  if ym < -271821 ∨ ym > 275760 then none else
    let day := daysFromMonth ym mn.toNat + fields.date - 1
    let time := fields.hours * 3600000 + fields.minutes * 60000 + fields.seconds * 1000 + fields.ms
    let tv := day * 86400000 + time
    timeClip (if isLocal then tv + getTimezoneOffset (max (-2 ^ 63) (min tv (2 ^ 63 - 1))) * 60000 else tv)

variable {b a y : Int} {fuel : Nat}

theorem mathMod_eq (positive : 0 < b) : mathMod a b = a % b := by
  have low := Int.emod_nonneg a (Int.ne_of_gt positive)
  have high := Int.emod_lt_of_pos a positive
  unfold mathMod
  simp only [Int.tmod_eq_emod]
  split <;> split <;> omega

theorem tdiv_sub_emod (a : Int) (positive : 0 < b) : (a - a % b).tdiv b = a / b := by
  have whole : a - a % b = b * (a / b) := by
    have split := Int.mul_ediv_add_emod a b
    omega
  rw [whole, Int.mul_tdiv_cancel_left _ (Int.ne_of_gt positive)]

theorem floorDiv_eq (positive : 0 < b) : floorDiv a b = a / b := by
  rw [floorDiv, mathMod_eq positive, tdiv_sub_emod a positive]

theorem daysFromYear_eq (y : Int) :
    daysFromYear y = 365 * (y - 1970) + (y - 1969) / 4 - (y - 1901) / 100 + (y - 1601) / 400 := by
  rw [daysFromYear, floorDiv_eq (by decide), floorDiv_eq (by decide), floorDiv_eq (by decide)]

theorem daysInYear_eq (y : Int) : daysInYear y = if 4 ∣ y ∧ (100 ∣ y → 400 ∣ y) then 366 else 365 := by
  simp only [daysInYear, ← Int.dvd_iff_tmod_eq_zero]
  split <;> omega

theorem daysFromYear_succ (y : Int) : daysFromYear (y + 1) = daysFromYear y + daysInYear y := by
  rw [daysInYear_eq, daysFromYear_eq, daysFromYear_eq]
  split <;> omega

theorem lt_of_daysFromYear {z : Int} (less : daysFromYear y < daysFromYear z) : y < z := by
  refine Monotone.reflect_lt (monotone_int_of_le_succ fun y => ?_) less
  rw [daysFromYear_succ, daysInYear_eq]
  split <;> omega

/-- On the average a year has `365.2425` days. -/
theorem daysFromYear_near (y : Int) :
    146097 * (y - 1970) - 700 ≤ 400 * daysFromYear y ∧ 400 * daysFromYear y ≤ 146097 * (y - 1970) + 1000 := by
  rw [daysFromYear_eq]
  omega

theorem yearLoop_spec {d start : Int} (low : daysFromYear y ≤ d) (high : d < daysFromYear (y + 1))
    (near : (start - y).natAbs < fuel) : yearLoop d fuel start = some (y, d - daysFromYear y) := by
  induction fuel generalizing start with
  | zero => omega
  | succ fuel ih =>
    have step := daysFromYear_succ start
    rw [yearLoop]
    by_cases early : d - daysFromYear start < 0
    · have above : y < start := lt_of_daysFromYear (by omega)
      rw [if_pos early]
      exact ih (by omega)
    · have below : start < y + 1 := lt_of_daysFromYear (by omega)
      rw [if_neg early]
      by_cases inside : d - daysFromYear start < daysInYear start
      · have above : y < start + 1 := lt_of_daysFromYear (by omega)
        obtain rfl : start = y := by omega
        rw [if_pos inside]
      · have before : start + 1 < y + 1 := lt_of_daysFromYear (by omega)
        rw [if_neg inside]
        exact ih (by omega)

/-- The first guess is at most one year off. -/
theorem yearFromDays_spec (enough : 2 ≤ fuel) (d : Int) :
    ∃ y, yearFromDays fuel d = some (y, d - daysFromYear y) ∧ daysFromYear y ≤ d ∧ d < daysFromYear (y + 1) := by
  rw [yearFromDays, floorDiv_eq (by decide)]
  generalize guess : d * 10000 / 3652425 + 1970 = start
  have before := daysFromYear_near (start - 1)
  have after := daysFromYear_near (start + 1 + 1)
  by_cases late : d < daysFromYear start
  · have low : daysFromYear (start - 1) ≤ d := by omega
    have high : d < daysFromYear (start - 1 + 1) := by rwa [Int.sub_add_cancel]
    exact ⟨start - 1, yearLoop_spec low high (by omega), low, high⟩
  · by_cases early : d < daysFromYear (start + 1)
    · exact ⟨start, yearLoop_spec (Int.not_lt.mp late) early (by omega), Int.not_lt.mp late, early⟩
    · have high : d < daysFromYear (start + 1 + 1) := by omega
      exact ⟨start + 1, yearLoop_spec (Int.not_lt.mp early) high (by omega), Int.not_lt.mp early, high⟩

theorem daysFromMonth_year (y : Int) : daysFromMonth y 12 = daysFromYear (y + 1) := by
  rw [daysFromYear_succ]
  simp only [daysFromMonth, monthLength, monthDays, List.getD_eq_getElem?_getD]
  simp
  omega

theorem monthLoop_spec {days : Int} {steps i : Nat} (positive : 0 ≤ days)
    (bound : daysFromMonth y i + days < daysFromMonth y (i + steps + 1)) :
    let (j, rest) := monthLoop y steps i days
    i ≤ j ∧ j ≤ i + steps ∧ 0 ≤ rest ∧ rest < monthLength y j ∧
      daysFromMonth y j + rest = daysFromMonth y i + days := by
  induction steps generalizing i days with
  | zero =>
    have inside : daysFromMonth y i + days < daysFromMonth y i + monthLength y i := bound
    exact ⟨le_rfl, le_rfl, positive, by omega, rfl⟩
  | succ steps ih =>
    rw [monthLoop]
    by_cases inside : days < monthLength y i
    · rw [if_pos inside]
      exact ⟨le_rfl, Nat.le_add_right _ _, positive, inside, rfl⟩
    · rw [if_neg inside]
      have next : daysFromMonth y (i + 1) = daysFromMonth y i + monthLength y i := rfl
      have later := @ih (days - monthLength y i) (i + 1) (by omega)
        (by rw [Nat.add_right_comm i 1 steps]; rw [← Nat.add_assoc] at bound; omega)
      revert later
      rintro ⟨first, last, low, high, total⟩
      refine ⟨?_, ?_, low, high, ?_⟩ <;> omega

/-- The range of every field of a date. -/
structure InCalendar (fields : DateFields) : Prop where
  year : -271821 ≤ fields.year ∧ fields.year ≤ 275760
  month : 0 ≤ fields.month ∧ fields.month < 12
  date : 1 ≤ fields.date ∧ fields.date ≤ monthLength fields.year fields.month.toNat
  hours : 0 ≤ fields.hours ∧ fields.hours < 24
  minutes : 0 ≤ fields.minutes ∧ fields.minutes < 60
  seconds : 0 ≤ fields.seconds ∧ fields.seconds < 60
  ms : 0 ≤ fields.ms ∧ fields.ms < 1000
  weekday : 0 ≤ fields.weekday ∧ fields.weekday < 7
  timezone : fields.timezone = 0

theorem getDateFields_utc {offset : Int → Int} {i : Nat} {t days : Int} (force : Bool)
    (year : yearFromDays fuel (t / 86400000) = some (y, t / 86400000 - daysFromYear y))
    (month : monthLoop y 11 0 (t / 86400000 - daysFromYear y) = (i, days)) :
    let h := t % 86400000
    getDateFields offset fuel (some t) false force = some (some ⟨y, i, days + 1, h / 1000 / 60 / 60,
      h / 1000 / 60 % 60, h / 1000 % 60, h % 1000, (t / 86400000 + 4) % 7, 0⟩) := by
  intro h
  have low : 0 ≤ h := Int.emod_nonneg t (by decide)
  have ms : h.tmod 1000 = h % 1000 := Int.tmod_eq_emod_of_nonneg low
  have s : (h / 1000).tmod 60 = h / 1000 % 60 := Int.tmod_eq_emod_of_nonneg (by omega)
  have m : (h / 1000 / 60).tmod 60 = h / 1000 / 60 % 60 := Int.tmod_eq_emod_of_nonneg (by omega)
  have day : (t - h).tdiv 86400000 = t / 86400000 := tdiv_sub_emod t (by decide)
  simp [getDateFields, mathMod_eq, show t % 86400000 = h from rfl, ms, tdiv_sub_emod, s, m, day, year, month]

/-- A day number has one year, which the search finds, and the fields of a time value give it back. -/
theorem dateFields_correct (d t : Int) (offset : Int → Int) (force : Bool) {fuel : Nat} (enough : 2 ≤ fuel)
    (range : t.natAbs ≤ 8640000000000000) :
    (daysFromYear 1970 = 0 ∧
      ∀ y, daysFromYear (y + 1) = daysFromYear y + if 4 ∣ y ∧ (100 ∣ y → 400 ∣ y) then 366 else 365) ∧
    (∃ y, yearFromDays fuel d = some (y, d - daysFromYear y) ∧
      ∀ z, daysFromYear z ≤ d ∧ d < daysFromYear (z + 1) ↔ z = y) ∧
    ∃ fields, getDateFields offset fuel (some t) false force = some (some fields) ∧ InCalendar fields ∧
      setDateFields offset fields false = some t := by
  refine ⟨⟨by decide, fun y => by rw [daysFromYear_succ, daysInYear_eq]⟩, ?_, ?_⟩
  · obtain ⟨y, found, low, high⟩ := yearFromDays_spec enough d
    refine ⟨y, found, fun z => ⟨?_, by rintro rfl; exact ⟨low, high⟩⟩⟩
    rintro ⟨low', high'⟩
    have above : y < z + 1 := lt_of_daysFromYear (by omega)
    have below : z < y + 1 := lt_of_daysFromYear (by omega)
    omega
  · obtain ⟨y, found, low, high⟩ := yearFromDays_spec enough (t / 86400000)
    have start := daysFromYear_near (-271821)
    have stop := daysFromYear_near 275761
    have first : -271821 < y + 1 := lt_of_daysFromYear (by omega)
    have last : y < 275761 := lt_of_daysFromYear (by omega)
    rcases split : monthLoop y 11 0 (t / 86400000 - daysFromYear y) with ⟨i, days⟩
    have months := @monthLoop_spec y (t / 86400000 - daysFromYear y) 11 0 (by omega)
      (by rw [daysFromMonth_year]; simp only [daysFromMonth]; omega)
    rw [split] at months
    obtain ⟨-, small, positive, short, total⟩ := months
    have month : (i : Int).tmod 12 = i := Int.tmod_eq_of_lt (by omega) (by omega)
    have same : (i : Int) / 12 = 0 := by omega
    simp only [daysFromMonth] at total
    refine ⟨_, getDateFields_utc force found split, ?_, ?_⟩
    · constructor <;> simp only [Int.toNat_natCast] <;> omega
    · simp only [setDateFields, month, same, Int.add_zero, Bool.false_eq_true, if_false]
      rw [if_neg (by omega), if_neg (by omega), Int.toNat_natCast, timeClip, if_pos (by omega)]
      congr 1
      omega

theorem dateFields_correct_before_epoch :
    (daysFromYear 1970 = 0 ∧
      ∀ y, daysFromYear (y + 1) = daysFromYear y + if 4 ∣ y ∧ (100 ∣ y → 400 ∣ y) then 366 else 365) ∧
    (∃ y, yearFromDays 2 (-1) = some (y, -1 - daysFromYear y) ∧
      ∀ z, daysFromYear z ≤ -1 ∧ -1 < daysFromYear (z + 1) ↔ z = y) ∧
    ∃ fields, getDateFields (fun _ => 0) 2 (some (-1)) false false = some (some fields) ∧ InCalendar fields ∧
      setDateFields (fun _ => 0) fields false = some (-1) :=
  dateFields_correct (-1) (-1) (fun _ => 0) false (by decide) (by decide)

end Dates
