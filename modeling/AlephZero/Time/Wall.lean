import AlephZero.Machine.Calendar
import AlephZero.Strconv.RoundTrip

/-!
# Wall times as text

`a0_time_wall_str` and `a0_time_wall_parse`. Of `struct tm`, the fields that are used are here. The years
of `strftime` are those of four digits: how others are printed is not said, and a longer text does not fit.

## What is proved

* `timegm_gmtimeR`, `gmtimeR_timegm` — times in seconds, and the broken-down times whose fields are in their
  ranges, are the same thing.
* `timeWallStr_eq`, `timeWallParse_eq_ok` — the formatter prints the fields of a time, and the parser accepts
  the texts of all fields within its bounds.
* **`wallTime_roundTrip`** — times of the years 1000 to 9999 go through their text and back.
* **`parsed_iff_occurs`** — an accepted text is printed again if and only if there is its date and its time of
  the day. The parser also takes day 31 of every month, hour 24, minute 60 and the seconds 60 and 61.
-/

namespace AlephZero

open Calendar

/-- `struct tm` -/
@[ext]
structure Tm where
  sec : ℤ
  min : ℤ
  hour : ℤ
  mday : ℤ
  mon : ℤ
  year : ℤ
  deriving DecidableEq

/-- The seconds of a day. -/
def secPerDay : ℤ := 86400

/-- The day that times in seconds are counted from. -/
def epochDay : ℤ := dayNumber 1970 0 1

/-- `gmtime_r` -/
def gmtimeR (time : ℤ) : Tm :=
  let date := Date.ofNumber (time / secPerDay + epochDay)
  let sec := time % secPerDay
  { sec := sec % 60
    min := sec / 60 % 60
    hour := sec / 3600
    mday := date.day
    mon := date.month
    year := date.year - 1900 }

/-- `timegm`; what is more than a month, a day or an hour has is counted on. -/
def timegm (tm : Tm) : ℤ :=
  let day := dayNumber (tm.year + 1900 + tm.mon / 12) (tm.mon % 12).toNat tm.mday
  (day - epochDay) * secPerDay + tm.hour * 3600 + tm.min * 60 + tm.sec

/-- `strftime` with the format `%Y-%m-%dT%H:%M:%S` and a buffer of 20 bytes, less the null byte. -/
def strftime (tm : Tm) : Option (List UInt8) :=
  let year := tm.year + 1900
  if 1000 ≤ year ∧ year ≤ 9999 then
    some [padded 4 year.toNat, [45], padded 2 (tm.mon + 1).toNat, [45], padded 2 tm.mday.toNat, [84],
      padded 2 tm.hour.toNat, [58], padded 2 tm.min.toNat, [58], padded 2 tm.sec.toNat].flatten
  else none

/-- `%09ld` -/
def printLong (val : ℤ) : List UInt8 :=
  if val < 0 then 45 :: padded 8 val.natAbs else padded 9 val.natAbs

/-- The end of a wall time. -/
def utcOffset : List UInt8 := (CString.ofString "-00:00").bytes

/-- `a0_time_wall_str`. It is `none` where it is not said what `strftime` leaves in the buffer. -/
def timeWallStr (wallTime : Timespec) : Option (List UInt8) :=
  (strftime (gmtimeR wallTime.sec)).map fun text =>
    text ++ (46 :: printLong wallTime.nsec ++ utcOffset).take 16 ++ [0]

/-- Some columns of a text. -/
def columns (text : List UInt8) (start stop : ℕ) : List UInt8 := (text.drop start).take (stop - start)

/-- A field of `struct tm`, read as an `uint32_t`. -/
def wallField (wallStr : List UInt8) (start stop : ℕ) : Except Err ℤ :=
  toInt32 <$> strToU32 (columns wallStr start stop)

/-- Without it, the parser returns `A0_ERR_INVALID_ARG`. -/
def required (p : Prop) [Decidable p] : Except Err Unit := if p then .ok () else .error .invalidArg

/-- `a0_time_wall_parse` -/
def timeWallParse (wallStr : List UInt8) : Except Err Timespec := do
  let year ← wallField wallStr 0 4
  required (wallStr[4]? = some 45)
  let mon ← wallField wallStr 5 7
  required (1 ≤ mon ∧ mon ≤ 12)
  required (wallStr[7]? = some 45)
  let mday ← wallField wallStr 8 10
  required (1 ≤ mday ∧ mday ≤ 31)
  required (wallStr[10]? = some 84)
  let hour ← wallField wallStr 11 13
  required (hour ≤ 24)
  required (wallStr[13]? = some 58)
  let min ← wallField wallStr 14 16
  required (min ≤ 60)
  required (wallStr[16]? = some 58)
  let sec ← wallField wallStr 17 19
  required (sec ≤ 61)
  required (wallStr[19]? = some 46)
  required (memcmp (columns wallStr 29 35) utcOffset = 0)
  let tvSec := timegm { sec, min, hour, mday, mon := mon - 1, year := year - 1900 }
  let tvNsec ← strToU64 (columns wallStr 20 29)
  return ⟨tvSec, toInt64 tvNsec⟩

/-! ### Broken-down times -/

/-- The fields are in their ranges. -/
structure Tm.Valid (tm : Tm) : Prop where
  sec : 0 ≤ tm.sec ∧ tm.sec < 60
  min : 0 ≤ tm.min ∧ tm.min < 60
  hour : 0 ≤ tm.hour ∧ tm.hour < 24
  mon_nonneg : 0 ≤ tm.mon
  isDate : IsDate (tm.year + 1900) tm.mon.toNat tm.mday

/-- Nothing is counted on. -/
theorem timegm_eq {tm : Tm} (h : tm.Valid) :
    timegm tm = ((Date.mk (tm.year + 1900) tm.mon.toNat tm.mday h.isDate).number - epochDay) * secPerDay +
      (tm.hour * 3600 + tm.min * 60 + tm.sec) := by
  have hmon := h.mon_nonneg
  have hlt := h.isDate.month_lt
  have hyear : tm.year + 1900 + tm.mon / 12 = tm.year + 1900 := by omega
  have hmonth : (tm.mon % 12).toNat = tm.mon.toNat := by omega
  rw [timegm, hyear, hmonth, Date.number]
  ring

theorem gmtimeR_valid (time : ℤ) : (gmtimeR time).Valid := by
  have hdate := (Date.ofNumber (time / secPerDay + epochDay)).isDate
  refine ⟨?_, ?_, ?_, ?_, ?_⟩
  all_goals simp only [gmtimeR, secPerDay]
  · omega
  · omega
  · omega
  · exact Int.natCast_nonneg _
  · rw [sub_add_cancel, Int.toNat_natCast]
    exact hdate

/-- **`timegm` undoes `gmtime_r`.** -/
theorem timegm_gmtimeR (time : ℤ) : timegm (gmtimeR time) = time := by
  have hdate : Date.mk ((gmtimeR time).year + 1900) (gmtimeR time).mon.toNat (gmtimeR time).mday
      (gmtimeR_valid time).isDate = Date.ofNumber (time / secPerDay + epochDay) := by
    ext
    · exact sub_add_cancel ..
    · exact Int.toNat_natCast _
    · rfl
  rw [timegm_eq (gmtimeR_valid time), hdate, Date.number_ofNumber]
  simp only [gmtimeR, secPerDay]
  omega

/-- **`gmtime_r` undoes `timegm`**, on fields in their ranges. -/
theorem gmtimeR_timegm {tm : Tm} (h : tm.Valid) : gmtimeR (timegm tm) = tm := by
  have hsec := h.sec
  have hmin := h.min
  have hhour := h.hour
  have hdiv : timegm tm / secPerDay + epochDay = (Date.mk _ _ _ h.isDate).number := by
    rw [timegm_eq h, secPerDay]
    omega
  have hmod : timegm tm % secPerDay = tm.hour * 3600 + tm.min * 60 + tm.sec := by
    rw [timegm_eq h, secPerDay]
    omega
  rw [gmtimeR, hdiv, hmod, Date.ofNumber_number]
  ext
  · simp only
    omega
  · simp only
    omega
  · simp only
    omega
  · rfl
  · exact Int.toNat_of_nonneg h.mon_nonneg
  · exact add_sub_cancel_right ..

/-! ### The text -/

/-- What the text of a wall time says. -/
@[ext]
structure WallFields where
  year : ℕ
  month : ℕ
  day : ℕ
  hour : ℕ
  min : ℕ
  sec : ℕ
  nsec : ℕ
  deriving DecidableEq

namespace WallFields

/-- The text. -/
def text (f : WallFields) : List UInt8 :=
  [padded 4 f.year, [45], padded 2 f.month, [45], padded 2 f.day, [84], padded 2 f.hour, [58], padded 2 f.min, [58],
    padded 2 f.sec, [46], padded 9 f.nsec, utcOffset].flatten

/-- What a text says. -/
def ofText (text : List UInt8) : WallFields where
  year := numberOf (columns text 0 4)
  month := numberOf (columns text 5 7)
  day := numberOf (columns text 8 10)
  hour := numberOf (columns text 11 13)
  min := numberOf (columns text 14 16)
  sec := numberOf (columns text 17 19)
  nsec := numberOf (columns text 20 29)

/-- The broken-down time. -/
def tm (f : WallFields) : Tm where
  sec := f.sec
  min := f.min
  hour := f.hour
  mday := f.day
  mon := f.month - 1
  year := f.year - 1900

/-- The time. -/
def time (f : WallFields) : Timespec := ⟨timegm f.tm, f.nsec⟩

/-- The fields of a time. -/
def ofTime (ts : Timespec) : WallFields where
  year := ((gmtimeR ts.sec).year + 1900).toNat
  month := ((gmtimeR ts.sec).mon + 1).toNat
  day := (gmtimeR ts.sec).mday.toNat
  hour := (gmtimeR ts.sec).hour.toNat
  min := (gmtimeR ts.sec).min.toNat
  sec := (gmtimeR ts.sec).sec.toNat
  nsec := ts.nsec.toNat

/-- What the parser asks of the fields; the year and the nanoseconds fill their columns. -/
structure Accepted (f : WallFields) : Prop where
  year : f.year < 10 ^ 4
  month : 1 ≤ f.month ∧ f.month ≤ 12
  day : 1 ≤ f.day ∧ f.day ≤ 31
  hour : f.hour ≤ 24
  min : f.min ≤ 60
  sec : f.sec ≤ 61
  nsec : f.nsec < 10 ^ 9

/-- There is such a date and such a time of the day. -/
structure Occurs (f : WallFields) : Prop where
  month_pos : 1 ≤ f.month
  isDate : IsDate f.year (f.month - 1) f.day
  hour : f.hour < 24
  min : f.min < 60
  sec : f.sec < 60

variable {f : WallFields} {text : List UInt8}

/-- A part in front, and the rest. -/
theorem append_prefix_iff (as bs : List UInt8) :
    as ++ bs <+: text ↔ text.take as.length = as ∧ bs <+: text.drop as.length := by
  constructor
  · rintro ⟨cs, rfl⟩
    rw [List.append_assoc, List.take_left, List.drop_left]
    exact ⟨rfl, List.prefix_append ..⟩
  · rintro ⟨has, cs, hcs⟩
    refine ⟨cs, ?_⟩
    rw [List.append_assoc, hcs]
    nth_rewrite 1 [← has]
    exact List.take_append_drop ..

/-- The text, column by column. -/
structure Printed (f : WallFields) (text : List UInt8) : Prop where
  year : columns text 0 4 = padded 4 f.year
  yearEnd : text[4]? = some 45
  month : columns text 5 7 = padded 2 f.month
  monthEnd : text[7]? = some 45
  day : columns text 8 10 = padded 2 f.day
  dayEnd : text[10]? = some 84
  hour : columns text 11 13 = padded 2 f.hour
  hourEnd : text[13]? = some 58
  min : columns text 14 16 = padded 2 f.min
  minEnd : text[16]? = some 58
  sec : columns text 17 19 = padded 2 f.sec
  secEnd : text[19]? = some 46
  nsec : columns text 20 29 = padded 9 f.nsec
  offset : columns text 29 35 = utcOffset

theorem take_one_eq (c : UInt8) : text.take 1 = [c] ↔ text.head? = some c := by
  rw [List.take_one, Option.toList_eq_singleton_iff]

namespace Accepted

variable (h : f.Accepted)
include h

/-- Each number fills its columns. -/
theorem lengths : (padded 4 f.year).length = 4 ∧ (padded 2 f.month).length = 2 ∧ (padded 2 f.day).length = 2 ∧
    (padded 2 f.hour).length = 2 ∧ (padded 2 f.min).length = 2 ∧ (padded 2 f.sec).length = 2 ∧
    (padded 9 f.nsec).length = 9 := by
  obtain ⟨hyear, hmonth, hday, hhour, hmin, hsec, hnsec⟩ := h
  have htwo {n : ℕ} (hn : n ≤ 61) : (padded 2 n).length = 2 := length_padded (by norm_num) (by omega)
  exact ⟨length_padded (by norm_num) hyear, htwo (by omega), htwo (by omega), htwo (by omega), htwo (by omega),
    htwo hsec, length_padded (by norm_num) hnsec⟩

theorem length_text : f.text.length = 35 := by
  obtain ⟨hyear, hmonth, hday, hhour, hmin, hsec, hnsec⟩ := h.lengths
  simp only [WallFields.text, List.length_flatten, List.map_cons, List.map_nil, hyear, hmonth, hday, hhour, hmin,
    hsec, hnsec]
  rfl

/-- A text begins with that of the fields if and only if its columns are theirs. -/
theorem text_prefix_iff : f.text <+: text ↔ f.Printed text := by
  obtain ⟨hyear, hmonth, hday, hhour, hmin, hsec, hnsec⟩ := h.lengths
  have hoffset (rest : List UInt8) : utcOffset <+: rest ↔ rest.take 6 = utcOffset :=
    List.prefix_iff_eq_take.trans eq_comm
  simp only [WallFields.text, List.flatten_cons, List.flatten_nil, List.append_nil, append_prefix_iff, hyear, hmonth,
    hday, hhour, hmin, hsec, hnsec, hoffset, List.length_singleton, List.drop_drop, take_one_eq, List.head?_drop,
    Nat.reduceAdd]
  constructor
  · rintro ⟨hyear, hyear', hmonth, hmonth', hday, hday', hhour, hhour', hmin, hmin', hsec, hsec', hnsec, hoffset⟩
    exact ⟨hyear, hyear', hmonth, hmonth', hday, hday', hhour, hhour', hmin, hmin', hsec, hsec', hnsec, hoffset⟩
  · rintro ⟨hyear, hyear', hmonth, hmonth', hday, hday', hhour, hhour', hmin, hmin', hsec, hsec', hnsec, hoffset⟩
    exact ⟨hyear, hyear', hmonth, hmonth', hday, hday', hhour, hhour', hmin, hmin', hsec, hsec', hnsec, hoffset⟩

/-- The fields are read off their text. -/
theorem ofText_eq (htext : f.text <+: text) : ofText text = f := by
  obtain ⟨hyear, -, hmonth, -, hday, -, hhour, -, hmin, -, hsec, -, hnsec, -⟩ := h.text_prefix_iff.mp htext
  rw [ofText, hyear, hmonth, hday, hhour, hmin, hsec, hnsec]
  simp only [numberOf_padded]

end Accepted

end WallFields

/-! ### Parsing -/

open WallFields

variable {text : List UInt8} {ts : Timespec} {start stop : ℕ}

theorem bind_eq_ok {α β : Type} {x : Except Err α} {g : α → Except Err β} {b : β} :
    x >>= g = .ok b ↔ ∃ a, x = .ok a ∧ g a = .ok b := by
  cases x with
  | error e =>
    constructor
    · intro h
      cases h
    · rintro ⟨a, h, -⟩
      cases h
  | ok a =>
    constructor
    · exact fun h => ⟨a, rfl, h⟩
    · rintro ⟨a', h, hb⟩
      cases h
      exact hb

theorem required_eq_ok {p : Prop} [Decidable p] (u : Unit) : required p = .ok u ↔ p := by
  rw [required]
  split_ifs with hp
  · exact iff_of_true rfl hp
  · constructor
    · intro h
      cases h
    · exact fun h => absurd h hp

theorem length_columns (hstop : stop ≤ text.length) : (columns text start stop).length = stop - start := by
  rw [columns, List.length_take, List.length_drop]
  omega

theorem toInt32_eq {val : ℕ} (h : val < 2 ^ 31) : toInt32 val = val := by
  have hlo : -(((2 ^ 32 : ℕ) : ℤ) / 2) ≤ val := by omega
  have hhi : (val : ℤ) < (((2 ^ 32 : ℕ) : ℤ) + 1) / 2 := by omega
  exact Int.bmod_eq_of_le hlo hhi

/-- A field that is read is a number in its columns. -/
theorem wallField_eq_ok (hstop : stop ≤ text.length) (hlo : start < stop) (hhi : stop ≤ start + 9) (x : ℤ) :
    wallField text start stop = .ok x ↔
      ∃ val : ℕ, x = val ∧ val < 10 ^ (stop - start) ∧ columns text start stop = padded (stop - start) val := by
  have hwidth : stop - start ≤ 9 := Nat.sub_le_iff_le_add'.mpr hhi
  have hread (val : ℕ) : strToU32 (columns text start stop) = .ok val ↔
      val < 10 ^ (stop - start) ∧ columns text start stop = padded (stop - start) val :=
    strToU32_eq_ok (length_columns hstop) (Nat.sub_pos_of_lt hlo) hwidth
  have hint {val : ℕ} (h : val < 10 ^ (stop - start)) : toInt32 val = val :=
    toInt32_eq (h.trans_le ((Nat.pow_le_pow_right (by norm_num) hwidth).trans (by norm_num)))
  constructor
  · intro h
    cases hval : strToU32 (columns text start stop) with
    | error e =>
      rw [wallField, hval] at h
      cases h
    | ok val =>
      obtain ⟨hlt, hcols⟩ := (hread val).mp hval
      rw [wallField, hval] at h
      refine ⟨val, ?_, hlt, hcols⟩
      calc
        x = toInt32 val := (Except.ok.inj h).symm
        _ = val := hint hlt
  · rintro ⟨val, rfl, hlt, hcols⟩
    rw [wallField, (hread val).mpr ⟨hlt, hcols⟩]
    exact congrArg Except.ok (hint hlt)

/-- **The parser accepts** the texts of the fields within its bounds. -/
theorem timeWallParse_eq_ok (hlen : 35 ≤ text.length) :
    timeWallParse text = .ok ts ↔ ∃ f : WallFields, f.Accepted ∧ f.text <+: text ∧ ts = f.time := by
  have hnsec (val : ℕ) : strToU64 (columns text 20 29) = .ok val ↔
      val < 10 ^ 9 ∧ columns text 20 29 = padded 9 val :=
    strToU64_eq_ok (length_columns (by omega)) (by norm_num) (by norm_num)
  have hoffset : memcmp (columns text 29 35) utcOffset = 0 ↔ columns text 29 35 = utcOffset :=
    memcmp_eq_zero (length_columns hlen)
  simp (disch := omega) only [timeWallParse, bind_eq_ok, required_eq_ok, exists_const, wallField_eq_ok, hnsec, hoffset,
    Nat.reduceSub]
  constructor
  · rintro ⟨_, ⟨year, rfl, hyear, hcyear⟩, hyear', _, ⟨month, rfl, -, hcmonth⟩, hmonth, hmonth', _,
      ⟨day, rfl, -, hcday⟩, hday, hday', _, ⟨hour, rfl, -, hchour⟩, hhour, hhour', _, ⟨min, rfl, -, hcmin⟩, hmin, hmin',
      _, ⟨sec, rfl, -, hcsec⟩, hsec, hsec', hcoffset, nsec, ⟨hnsec, hcnsec⟩, hts⟩
    have haccepted : (WallFields.mk year month day hour min sec nsec).Accepted := by
      constructor
      all_goals
        simp only
        omega
    refine ⟨_, haccepted, haccepted.text_prefix_iff.mpr ?_, ?_⟩
    · exact ⟨hcyear, hyear', hcmonth, hmonth', hcday, hday', hchour, hhour', hcmin, hmin', hcsec, hsec', hcnsec,
        hcoffset⟩
    · rw [← Except.ok.inj hts, toInt64_eq (by rw [FitsInt64]; omega)]
      rfl
  · rintro ⟨⟨year, month, day, hour, min, sec, nsec⟩, haccepted, htext, rfl⟩
    obtain ⟨hcyear, hyear', hcmonth, hmonth', hcday, hday', hchour, hhour', hcmin, hmin', hcsec, hsec', hcnsec,
      hcoffset⟩ := haccepted.text_prefix_iff.mp htext
    obtain ⟨hyear, hmonth, hday, hhour, hmin, hsec, hnsec⟩ := haccepted
    simp only at *
    refine ⟨_, ⟨year, rfl, hyear, hcyear⟩, hyear', _, ⟨month, rfl, by omega, hcmonth⟩, by omega, hmonth', _,
      ⟨day, rfl, by omega, hcday⟩, by omega, hday', _, ⟨hour, rfl, by omega, hchour⟩, by omega, hhour', _,
      ⟨min, rfl, by omega, hcmin⟩, by omega, hmin', _, ⟨sec, rfl, by omega, hcsec⟩, by omega, hsec', hcoffset, nsec,
      ⟨hnsec, hcnsec⟩, ?_⟩
    rw [toInt64_eq (by rw [FitsInt64]; omega)]
    rfl

/-! ### Wall times -/

/-- The year of a time, and the nanoseconds. -/
structure FourDigits (ts : Timespec) : Prop where
  year_ge : 1000 ≤ (gmtimeR ts.sec).year + 1900
  year_le : (gmtimeR ts.sec).year + 1900 ≤ 9999
  nsec_nonneg : 0 ≤ ts.nsec
  nsec_lt : ts.nsec < nsPerSec

variable {f : WallFields}

/-- **The formatter prints** the fields of the time. -/
theorem timeWallStr_eq (h : FourDigits ts) : timeWallStr ts = some ((ofTime ts).text ++ [0]) := by
  have hnsec := h.nsec_nonneg
  have hlt := h.nsec_lt
  have hval : (ofTime ts).nsec = ts.nsec.toNat := rfl
  have hprint : printLong ts.nsec = padded 9 (ofTime ts).nsec := by
    rw [printLong, if_neg (not_lt.mpr hnsec), hval]
    congr 1
    omega
  have hwidth : (46 :: padded 9 (ofTime ts).nsec ++ utcOffset).length = 16 := by
    rw [List.length_append, List.length_cons, length_padded (by norm_num)]
    · rfl
    · rw [nsPerSec] at hlt
      omega
  rw [timeWallStr, strftime, if_pos ⟨h.year_ge, h.year_le⟩, Option.map_some, hprint,
    List.take_of_length_le hwidth.le]
  simp [WallFields.text, ofTime]

namespace WallFields.Occurs

variable (h : f.Occurs)
include h

/-- The parser asks no more. -/
theorem accepted (hyear : f.year < 10 ^ 4) (hnsec : f.nsec < 10 ^ 9) : f.Accepted := by
  obtain ⟨hmonth, ⟨hmonth', hday, hday'⟩, hhour, hmin, hsec⟩ := h
  have hlen := daysInMonth_le f.year (f.month - 1)
  constructor
  all_goals omega

theorem valid : f.tm.Valid := by
  obtain ⟨hmonth, hdate, hhour, hmin, hsec⟩ := h
  have hyear : (f.year : ℤ) - 1900 + 1900 = f.year := sub_add_cancel ..
  have hmon : ((f.month : ℤ) - 1).toNat = f.month - 1 := by omega
  constructor
  · simp only [WallFields.tm]
    omega
  · simp only [WallFields.tm]
    omega
  · simp only [WallFields.tm]
    omega
  · simp only [WallFields.tm]
    omega
  · simp only [WallFields.tm, hyear, hmon]
    exact hdate

/-- The fields are those of their time. -/
theorem ofTime_time : ofTime f.time = f := by
  have hmonth := h.month_pos
  rw [WallFields.time, ofTime, gmtimeR_timegm h.valid]
  ext
  all_goals
    simp only [WallFields.tm]
    omega

end WallFields.Occurs

/-- There is the date and the time of the day. -/
theorem WallFields.ofTime_occurs (h : FourDigits ts) : (ofTime ts).Occurs := by
  obtain ⟨hsec, hmin, hhour, hmon, hdate⟩ := gmtimeR_valid ts.sec
  have hyear : ((ofTime ts).year : ℤ) = (gmtimeR ts.sec).year + 1900 :=
    Int.toNat_of_nonneg (le_trans (by norm_num) h.year_ge)
  have hmonth : (ofTime ts).month - 1 = (gmtimeR ts.sec).mon.toNat := by
    simp only [ofTime]
    omega
  have hday : ((ofTime ts).day : ℤ) = (gmtimeR ts.sec).mday :=
    Int.toNat_of_nonneg (le_trans (by norm_num) hdate.day_pos)
  constructor
  · simp only [ofTime]
    omega
  · rw [hyear, hmonth, hday]
    exact hdate
  · simp only [ofTime]
    omega
  · simp only [ofTime]
    omega
  · simp only [ofTime]
    omega

theorem WallFields.ofTime_accepted (h : FourDigits ts) : (ofTime ts).Accepted := by
  have hle := h.year_le
  have hlt := h.nsec_lt
  apply (ofTime_occurs h).accepted
  · simp only [ofTime]
    omega
  · simp only [ofTime, nsPerSec] at *
    omega

/-- The time is that of its fields. -/
theorem WallFields.time_ofTime (h : FourDigits ts) : (ofTime ts).time = ts := by
  obtain ⟨hsec, hmin, hhour, hmon, hdate⟩ := gmtimeR_valid ts.sec
  have hday := hdate.day_pos
  have hyear := h.year_ge
  have htm : (ofTime ts).tm = gmtimeR ts.sec := by
    ext
    all_goals
      simp only [ofTime, WallFields.tm]
      omega
  ext
  · rw [WallFields.time, htm, timegm_gmtimeR]
  · exact Int.toNat_of_nonneg h.nsec_nonneg

/-- What is printed has no null byte. -/
theorem WallFields.zero_notMem_text (f : WallFields) : 0 ∉ f.text := by
  have hoffset : 0 ∉ utcOffset := by decide
  simp [WallFields.text, zero_notMem_padded, hoffset]

/-- **Wall times go through their text and back.** -/
theorem wallTime_roundTrip (ts : Timespec) (hyear : 1000 ≤ (gmtimeR ts.sec).year + 1900)
    (hyear' : (gmtimeR ts.sec).year + 1900 ≤ 9999) (hnsec : 0 ≤ ts.nsec) (hnsec' : ts.nsec < 1000000000) :
    ∃ text, text.length = 35 ∧ 0 ∉ text ∧ timeWallStr ts = some (text ++ [0]) ∧
      timeWallParse (text ++ [0]) = .ok ts := by
  have h : FourDigits ts := ⟨hyear, hyear', hnsec, hnsec'⟩
  have haccepted := ofTime_accepted h
  have hlen := haccepted.length_text
  refine ⟨_, hlen, zero_notMem_text _, timeWallStr_eq h, ?_⟩
  rw [timeWallParse_eq_ok (by rw [List.length_append, hlen]; norm_num)]
  exact ⟨_, haccepted, List.prefix_append .., (time_ofTime h).symm⟩

/-- The last second of a leap day. -/
theorem wallTime_roundTrip_leapDay :
    (1000 ≤ (gmtimeR 1709251199).year + 1900 ∧ (gmtimeR 1709251199).year + 1900 ≤ 9999) ∧
      ∃ text, text.length = 35 ∧ 0 ∉ text ∧ timeWallStr ⟨1709251199, 999999999⟩ = some (text ++ [0]) ∧
        timeWallParse (text ++ [0]) = .ok ⟨1709251199, 999999999⟩ := by
  have hyear : 1000 ≤ (gmtimeR 1709251199).year + 1900 := by decide +kernel
  have hyear' : (gmtimeR 1709251199).year + 1900 ≤ 9999 := by decide +kernel
  exact ⟨⟨hyear, hyear'⟩, wallTime_roundTrip ⟨1709251199, 999999999⟩ hyear hyear' (by decide) (by decide)⟩

/-! ### What is accepted -/

/-- An accepted text is that of its fields. -/
theorem exists_of_parse (hlen : text.length = 35) (hparse : timeWallParse (text ++ [0]) = .ok ts) :
    ∃ f : WallFields, f.Accepted ∧ f.text = text ∧ ofText text = f ∧ ts = f.time := by
  have hlong : 35 ≤ (text ++ [0]).length := by
    rw [List.length_append, hlen]
    norm_num
  obtain ⟨f, haccepted, hprefix, hts⟩ := (timeWallParse_eq_ok hlong).mp hparse
  have htext : f.text = text := by
    rw [List.prefix_iff_eq_take, haccepted.length_text, ← hlen, List.take_left] at hprefix
    exact hprefix
  exact ⟨f, haccepted, htext, haccepted.ofText_eq (htext ▸ List.prefix_rfl), hts⟩

/-- A text is printed for a year of four digits only. -/
theorem year_of_timeWallStr {str : List UInt8} (h : timeWallStr ts = some str) :
    1000 ≤ (gmtimeR ts.sec).year + 1900 ∧ (gmtimeR ts.sec).year + 1900 ≤ 9999 := by
  by_contra hyear
  rw [timeWallStr, strftime, if_neg hyear, Option.map_none] at h
  cases h

/-- **An accepted text is printed again** if and only if there is its date and its time of the day. -/
theorem parsed_iff_occurs (text : List UInt8) (ts : Timespec) (hlen : text.length = 35)
    (hyear : 1000 ≤ (ofText text).year) (hyear' : (ofText text).year ≤ 9999)
    (hparse : timeWallParse (text ++ [0]) = .ok ts) :
    timeWallStr ts = some (text ++ [0]) ↔ (ofText text).Occurs := by
  obtain ⟨f, haccepted, htext, hfields, rfl⟩ := exists_of_parse hlen hparse
  have hnsec : (f.nsec : ℤ) < nsPerSec := by
    have hlt := haccepted.nsec
    rw [nsPerSec]
    omega
  rw [hfields] at hyear hyear' ⊢
  constructor
  · intro hstr
    obtain ⟨hge, hle⟩ := year_of_timeWallStr hstr
    have hdigits : FourDigits f.time := ⟨hge, hle, Int.natCast_nonneg _, hnsec⟩
    have hprinted : (ofTime f.time).text = text := by
      rw [timeWallStr_eq hdigits, Option.some.injEq] at hstr
      exact List.append_cancel_right hstr
    have hsame : ofText text = ofTime f.time := (ofTime_accepted hdigits).ofText_eq (hprinted ▸ List.prefix_rfl)
    rw [← hfields, hsame]
    exact ofTime_occurs hdigits
  · intro hoccurs
    have htime := hoccurs.ofTime_time
    have hgm : gmtimeR f.time.sec = f.tm := gmtimeR_timegm hoccurs.valid
    have hdigits : FourDigits f.time := by
      have htm : f.tm.year + 1900 = f.year := sub_add_cancel ..
      refine ⟨?_, ?_, Int.natCast_nonneg _, hnsec⟩
      · rw [hgm, htm]
        omega
      · rw [hgm, htm]
        omega
    rw [timeWallStr_eq hdigits, htime, htext]

/-- The leap day is printed again. -/
theorem parsed_iff_occurs_leapDay :
    timeWallParse ((CString.ofString "2024-02-29T23:59:59.999999999-00:00").bytes ++ [0]) =
        .ok ⟨1709251199, 999999999⟩ ∧
      (timeWallStr ⟨1709251199, 999999999⟩ =
          some ((CString.ofString "2024-02-29T23:59:59.999999999-00:00").bytes ++ [0]) ↔
        (ofText (CString.ofString "2024-02-29T23:59:59.999999999-00:00").bytes).Occurs) := by
  have hparse : timeWallParse ((CString.ofString "2024-02-29T23:59:59.999999999-00:00").bytes ++ [0]) =
      .ok ⟨1709251199, 999999999⟩ := by decide +kernel
  exact ⟨hparse, parsed_iff_occurs _ _ (by decide +kernel) (by decide +kernel) (by decide +kernel) hparse⟩

/-- Minute 60 of an hour is accepted, as the first one of the next hour. -/
theorem minuteSixty_accepted :
    let minuteSixty := (CString.ofString "2021-01-01T00:60:00.000000000-00:00").bytes
    let oneOClock := (CString.ofString "2021-01-01T01:00:00.000000000-00:00").bytes
    minuteSixty.length = 35 ∧ (ofText minuteSixty).year = 2021 ∧
      timeWallParse (minuteSixty ++ [0]) = .ok ⟨1609462800, 0⟩ ∧
      timeWallParse (oneOClock ++ [0]) = .ok ⟨1609462800, 0⟩ ∧
      timeWallStr ⟨1609462800, 0⟩ = some (oneOClock ++ [0]) ∧ oneOClock ≠ minuteSixty := by
  decide +kernel

end AlephZero
