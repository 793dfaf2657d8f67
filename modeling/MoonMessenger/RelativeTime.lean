import MoonMessenger.Foundation

/-!
# Relative times

`Date.relativeTime` tries its forms one after the other, by the whole minutes, hours and
days that have passed, and by whether the date was yesterday. The time that has passed says
little about calendar days, and it is negative for a date that is still to come.

`truthful_iff` gives the exact range of dates for which the form that is chosen says what
is the case. The calendar has a fixed offset from UTC.
-/

namespace MoonMessenger

/-- The forms of a relative time. -/
inductive RelativeTime where
  | justNow
  /-- "<n>m ago" -/
  | minutes (n : ℤ)
  /-- "YESTERDAY " and the time -/
  | yesterday
  /-- the time alone -/
  | time
  /-- the weekday and the time -/
  | weekday
  /-- the date and the time -/
  | short
  deriving DecidableEq

/-- What the date formatters print. -/
structure Formats where
  /-- "h:mm a", of an hour and a minute -/
  time : ℤ → ℤ → String
  /-- "EEEE", of a day; the number of 1 January 1970, a Thursday, is 0 -/
  dayOfWeek : ℤ → String
  /-- the short style, of a day -/
  shortDate : ℤ → String

namespace Date

/-- `minutesFromNow` -/
def minutesFromNow (date now : Date) : ℤ := component 60 date now

/-- `hoursFromNow` -/
def hoursFromNow (date now : Date) : ℤ := component 3600 date now

/-- `daysFromNow` -/
def daysFromNow (date now : Date) : ℤ := component 86400 date now

/-- The calendar day, by its number. -/
def day (offset : TimeInterval) (date : Date) : ℤ :=
  ⌊(date.timeIntervalSince1970 + offset) / 86400⌋

/-- Seconds since the day began. -/
def timeOfDay (offset : TimeInterval) (date : Date) : TimeInterval :=
  date.timeIntervalSince1970 + offset - date.day offset * 86400

/-- `isInYesterday` -/
def isInYesterday (offset : TimeInterval) (date now : Date) : Bool :=
  date.day offset = now.day offset - 1

/-- The form of `relativeTime`. `now` is the value of `Date()` in all the properties it
reads. -/
def relativeForm (offset : TimeInterval) (date now : Date) : RelativeTime :=
  if date.minutesFromNow now = 0 then .justNow
  else if date.hoursFromNow now < 1 then .minutes (date.minutesFromNow now)
  else if date.hoursFromNow now ≤ 48 then
    if date.isInYesterday offset now then .yesterday else .time
  else if date.daysFromNow now ≤ 7 then .weekday
  else .short

/-- `time` -/
def time (formats : Formats) (offset : TimeInterval) (date : Date) : String :=
  formats.time ⌊date.timeOfDay offset / 3600⌋ (⌊date.timeOfDay offset / 60⌋ % 60)

/-- `relativeTime` -/
def relativeTime (formats : Formats) (offset : TimeInterval) (date now : Date) : String :=
  match date.relativeForm offset now with
  | .justNow => "Just now"
  | .minutes n => toString n ++ "m ago"
  | .yesterday => "YESTERDAY " ++ date.time formats offset
  | .time => date.time formats offset
  | .weekday => formats.dayOfWeek (date.day offset % 7) ++ " " ++ date.time formats offset
  | .short => formats.shortDate (date.day offset) ++ " " ++ date.time formats offset

/-- The form says what is the case. -/
def Truthful (offset : TimeInterval) (date now : Date) : Prop :=
  match date.relativeForm offset now with
  | .minutes n => 1 ≤ n ∧ n ≤ 59
  | .time => date.day offset = now.day offset
  | .yesterday => date.day offset = now.day offset - 1
  | .weekday => now.day offset - 6 ≤ date.day offset ∧ date.day offset ≤ now.day offset - 1
  | _ => True

/-- The date is less than a minute ahead of now; if it is less than 49 hours ago, it is not
before the beginning of yesterday; and if it is at least 49 hours and less than eight
times 24 hours ago, not before the beginning of the sixth day before today. -/
structure InRange (offset : TimeInterval) (date now : Date) : Prop where
  ahead : -60 < date.elapsed now
  yesterday : date.elapsed now < 49 * 3600 → date.elapsed now ≤ now.timeOfDay offset + 86400
  week : 49 * 3600 ≤ date.elapsed now → date.elapsed now < 8 * 86400 →
    date.elapsed now ≤ now.timeOfDay offset + 6 * 86400

/-! ## Components -/

section Components

variable {a b : Date}

theorem minutesFromNow_eq_zero_iff :
    a.minutesFromNow b = 0 ↔ -60 < a.elapsed b ∧ a.elapsed b < 60 :=
  component_eq_zero_iff (by norm_num)

theorem one_le_minutesFromNow_iff : 1 ≤ a.minutesFromNow b ↔ 60 ≤ a.elapsed b := by
  rw [minutesFromNow, component, Truncation.le_trunc_iff one_pos, Int.cast_one,
    le_div_iff₀ (by norm_num), one_mul]

theorem minutesFromNow_le_iff : a.minutesFromNow b ≤ 59 ↔ a.elapsed b < 3600 := by
  rw [minutesFromNow, component_le_iff (by norm_num) (by norm_num)]
  norm_num

theorem hoursFromNow_lt_one_iff : a.hoursFromNow b < 1 ↔ a.elapsed b < 3600 := by
  rw [hoursFromNow, component_lt_iff (by norm_num) one_pos, Int.cast_one, one_mul]

theorem hoursFromNow_le_iff : a.hoursFromNow b ≤ 48 ↔ a.elapsed b < 49 * 3600 := by
  rw [hoursFromNow, component_le_iff (by norm_num) (by norm_num)]
  norm_num

theorem daysFromNow_le_iff : a.daysFromNow b ≤ 7 ↔ a.elapsed b < 8 * 86400 := by
  rw [daysFromNow, component_le_iff (by norm_num) (by norm_num)]
  norm_num

end Components

/-! ## Days -/

section Days

variable (offset : TimeInterval) (date now : Date)

theorem timeOfDay_nonneg : 0 ≤ date.timeOfDay offset := by
  have h := Int.floor_le ((date.timeIntervalSince1970 + offset) / 86400)
  rw [le_div_iff₀ (by norm_num)] at h
  exact sub_nonneg.mpr h

theorem timeOfDay_lt : date.timeOfDay offset < 86400 := by
  have h := Int.lt_floor_add_one ((date.timeIntervalSince1970 + offset) / 86400)
  rw [div_lt_iff₀ (by norm_num), add_mul, one_mul] at h
  exact sub_left_lt_of_lt_add h

/-- A date lies at most `k` days back when no more time has passed than there are seconds
in `k` days and in today so far. -/
theorem sub_le_day_iff (k : ℤ) :
    now.day offset - k ≤ date.day offset ↔ date.elapsed now ≤ now.timeOfDay offset + k * 86400 := by
  have hfloor : now.day offset - k ≤ date.day offset ↔
      ((now.day offset - k : ℤ) : ℚ) * 86400 ≤ date.timeIntervalSince1970 + offset := by
    rw [day, day, Int.le_floor, le_div_iff₀ (by norm_num)]
  rw [hfloor, elapsed, timeOfDay, Int.cast_sub]
  refine ⟨fun h => ?_, fun h => ?_⟩ <;> linarith

theorem isInYesterday_iff :
    date.isInYesterday offset now = true ↔ date.day offset = now.day offset - 1 :=
  decide_eq_true_iff

/-- A date that is not still to come lies today or before. -/
theorem day_le (h : 0 ≤ date.elapsed now) : date.day offset ≤ now.day offset := by
  refine Int.floor_le_floor (div_le_div_of_nonneg_right ?_ (by norm_num))
  rw [elapsed] at h
  linarith

/-- A date that is a whole day ago lies before today. -/
theorem day_lt (h : 86400 ≤ date.elapsed now) : date.day offset < now.day offset := by
  have htoday : now.day offset ≤ date.day offset ↔ date.elapsed now ≤ now.timeOfDay offset := by
    simpa using sub_le_day_iff offset date now 0
  rw [← not_le, htoday]
  exact not_le.mpr ((timeOfDay_lt offset now).trans_le h)

end Days

/-! ## The range -/

section Range

variable {offset : TimeInterval} {date now : Date}

/-- From an hour ago to a minute ahead, everything is in range. -/
theorem inRange_of_near (hahead : -60 < date.elapsed now) (h : date.elapsed now < 3600) :
    InRange offset date now := by
  have hbegun := timeOfDay_nonneg offset now
  refine ⟨hahead, fun _ => ?_, fun hlong => ?_⟩
  · linarith
  · linarith

/-- Of the last 49 hours, yesterday and today are in range. -/
theorem inRange_iff_yesterday (h : 0 ≤ date.elapsed now) (hhours : date.elapsed now < 49 * 3600) :
    InRange offset date now ↔ now.day offset - 1 ≤ date.day offset := by
  have hsince := sub_le_day_iff offset date now 1
  rw [Int.cast_one, one_mul] at hsince
  rw [hsince]
  refine ⟨fun hrange => hrange.yesterday hhours, fun hday => ⟨?_, fun _ => hday, fun hlong => ?_⟩⟩
  · linarith
  · linarith

/-- Of the days before, the six before today are. -/
theorem inRange_iff_week (h : 49 * 3600 ≤ date.elapsed now) (hdays : date.elapsed now < 8 * 86400) :
    InRange offset date now ↔ now.day offset - 6 ≤ date.day offset := by
  have hsince := sub_le_day_iff offset date now 6
  rw [Int.cast_ofNat] at hsince
  rw [hsince]
  refine ⟨fun hrange => hrange.week h hdays, fun hday => ⟨?_, fun hhours => ?_, fun _ _ => hday⟩⟩
  · linarith
  · linarith

/-- Eight days ago and more is in range. -/
theorem inRange_of_far (h : 8 * 86400 ≤ date.elapsed now) : InRange offset date now := by
  refine ⟨?_, fun hhours => ?_, fun _ hdays => ?_⟩
  · linarith
  · linarith
  · linarith

end Range

end Date

open Date in
/-- A text whose form is truthful: what is printed, and when. -/
theorem relativeTime_of_truthful (formats : Formats) {offset : TimeInterval} {date now : Date}
    (h : Truthful offset date now) :
    date.relativeTime formats offset now = "Just now" ∨
      (∃ n : ℤ, 1 ≤ n ∧ n ≤ 59 ∧ date.relativeTime formats offset now = toString n ++ "m ago") ∨
      date.day offset = now.day offset ∧
        date.relativeTime formats offset now = date.time formats offset ∨
      ∃ day, date.relativeTime formats offset now = day ++ " " ++ date.time formats offset ∧
        (day = "YESTERDAY" ∧ date.day offset = now.day offset - 1 ∨
          day = formats.dayOfWeek (date.day offset % 7) ∧ now.day offset - 6 ≤ date.day offset ∧
            date.day offset < now.day offset ∨
          day = formats.shortDate (date.day offset)) := by
  rw [Truthful] at h
  rw [relativeTime]
  cases hform : date.relativeForm offset now with
  | justNow => exact Or.inl rfl
  | minutes n =>
    rw [hform] at h
    exact Or.inr (Or.inl ⟨n, h.1, h.2, rfl⟩)
  | time =>
    rw [hform] at h
    exact Or.inr (Or.inr (Or.inl ⟨h, rfl⟩))
  | yesterday =>
    rw [hform] at h
    refine Or.inr (Or.inr (Or.inr ⟨"YESTERDAY", ?_, Or.inl ⟨rfl, h⟩⟩))
    exact congrArg (· ++ date.time formats offset) (by decide)
  | weekday =>
    rw [hform] at h
    exact Or.inr (Or.inr (Or.inr ⟨_, rfl, Or.inr (Or.inl ⟨rfl, h.1, Int.lt_of_le_sub_one h.2⟩)⟩))
  | short => exact Or.inr (Or.inr (Or.inr ⟨_, rfl, Or.inr (Or.inr rfl)⟩))

open Date in
/-- **Relative times are truthful in a range.** For every offset of the calendar, every
current time and every date, past or still to come: the form that is chosen says what is
the case if and only if the date is less than a minute ahead, not less than 49 hours ago and
yet before yesterday, and not between 49 hours and eight days ago and yet before the last
six days. -/
theorem truthful_iff (offset : TimeInterval) (date now : Date) :
    Truthful offset date now ↔ InRange offset date now := by
  rw [Truthful, relativeForm]
  simp only [minutesFromNow_eq_zero_iff, hoursFromNow_lt_one_iff, hoursFromNow_le_iff,
    daysFromNow_le_iff, isInYesterday_iff]
  split_ifs with hzero hhour hhours hday hdays
  · -- just now: less than a minute away
    exact iff_of_true trivial (inRange_of_near hzero.1 (by linarith))
  · -- minutes: negative for a date that is to come
    change (1 ≤ _ ∧ _ ≤ 59) ↔ _
    rw [one_le_minutesFromNow_iff, minutesFromNow_le_iff]
    refine ⟨fun ⟨hminute, _⟩ => inRange_of_near (by linarith) hhour, fun hrange => ⟨?_, hhour⟩⟩
    by_contra hlt
    exact hzero ⟨hrange.ahead, not_le.mp hlt⟩
  · -- yesterday: as it says
    rw [inRange_iff_yesterday (by linarith) hhours]
    exact iff_of_true hday hday.ge
  · -- the time alone: there is no test for today
    have hle := day_le offset date now (by linarith)
    rw [inRange_iff_yesterday (by linarith) hhours]
    change date.day offset = now.day offset ↔ _
    omega
  · -- the weekday: up to seven whole days
    have hpast := Int.le_sub_one_of_lt (day_lt offset date now (by linarith))
    rw [inRange_iff_week (not_lt.mp hhours) hdays]
    exact and_iff_left hpast
  · -- the date itself
    exact iff_of_true trivial (inRange_of_far (not_lt.mp hdays))

/-- A message of a sender whose clock is five minutes ahead is shown as "-5m ago". -/
theorem not_always_truthful :
    ¬ ∀ (offset : TimeInterval) (date now : Date), date.Truthful offset now := by
  intro hall
  have hform : Date.relativeForm 0 ⟨300⟩ ⟨0⟩ = .minutes (-5) := by decide +kernel
  have htruthful := hall 0 ⟨300⟩ ⟨0⟩
  rw [Date.Truthful, hform] at htruthful
  exact absurd htruthful.1 (by decide)

end MoonMessenger
