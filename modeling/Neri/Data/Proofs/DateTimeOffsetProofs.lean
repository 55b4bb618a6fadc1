import Neri.Data.DateTimeOffset
import Neri.Data.Proofs.CalendarProofs

/-!
# Date-times with an offset keep their instant

Every value of the class has an instant and a local moment in the calendar. Its texts are made of
the texts of these two moments, and the parsers read back the fields of a text and nothing else.
-/

namespace Neri.Data

open FixedNumeral List Option

variable {bytes bytes' value : List UInt8} {width n : Nat}

/-! ## Digits -/

theorem digitsLoop_nonneg {result : Int} (hresult : 0 ≤ result) (h : 0 ≤ digitsLoop bytes result) :
    ∀ b ∈ bytes, 48 ≤ b ∧ b ≤ 57 := by
  induction bytes generalizing result with
  | nil => simp
  | cons b bytes ih =>
    rw [digitsLoop] at h
    split_ifs at h with hbyte
    · omega
    · rw [not_or, UInt8.not_lt, UInt8.not_lt] at hbyte
      have hlow := UInt8.le_iff_toNat_le.mp hbyte.1
      have hvalue : (48 : UInt8).toNat = 48 := rfl
      exact forall_mem_cons.mpr ⟨hbyte, ih (by omega) h⟩

/-- Bytes that are read as a number are its digits. -/
theorem eq_digits (h : 0 ≤ digitsLoop bytes 0) :
    ∃ n, n < 10 ^ bytes.length ∧ bytes = digits bytes.length n ∧ digitsLoop bytes 0 = n := by
  replace h := digitsLoop_nonneg (Int.le_refl 0) h
  induction bytes using reverseRecOn with
  | nil => exact ⟨0, by decide, rfl, rfl⟩
  | append_singleton bytes b ih =>
    obtain ⟨hbytes, hbyte⟩ := forall_mem_append.mp h
    obtain ⟨hlow, hhigh⟩ := forall_mem_singleton.mp hbyte
    obtain ⟨n, hn, heq, hvalue⟩ := ih hbytes
    have hge : 48 ≤ b.toNat := UInt8.le_iff_toNat_le.mp hlow
    have hle : b.toNat ≤ 57 := UInt8.le_iff_toNat_le.mp hhigh
    have hdigit : digit (b.toNat - 48) = b := by
      rw [digit, Nat.add_sub_cancel' hge, UInt8.ofNat_toNat]
    refine ⟨n * 10 + (b.toNat - 48), ?_, ?_, ?_⟩
    · rw [length_append, length_singleton, Nat.pow_succ]
      omega
    · rw [length_append, length_singleton, digits, show (n * 10 + (b.toNat - 48)) / 10 = n by omega,
        show (n * 10 + (b.toNat - 48)) % 10 = b.toNat - 48 by omega, hdigit, ← heq]
    · rw [digitsLoop_append hbytes, digitsLoop,
        if_neg (not_or.mpr ⟨UInt8.not_lt.mpr hlow, UInt8.not_lt.mpr hhigh⟩), digitsLoop]
      omega

theorem eq_calendarDigits {start : Nat} (hlen : start + width ≤ value.length)
    (h : 0 ≤ calendarDigits value start width) :
    ∃ n, n < 10 ^ width ∧ (value.drop start).take width = digits width n ∧
      calendarDigits value start width = n := by
  have hsize : ((value.drop start).take width).length = width := by
    rw [length_take, length_drop]
    omega
  have hdigits := eq_digits h
  rwa [hsize] at hdigits

/-- A field that is read as a number, up to the byte behind it. -/
theorem eq_field {start : Nat} {mark : UInt8} (hmark : value[start + width]? = some mark)
    (h : 0 ≤ calendarDigits value start width) :
    ∃ n : Nat, n < 10 ^ width ∧ calendarDigits value start width = n ∧
      value.drop start = digits width n ++ mark :: value.drop (start + width + 1) := by
  obtain ⟨hlt, rfl⟩ := List.getElem_of_getElem? hmark
  obtain ⟨n, hn, hdigits, hvalue⟩ := eq_calendarDigits hlt.le h
  refine ⟨n, hn, hvalue, ?_⟩
  rw [← hdigits, ← drop_eq_getElem_cons hlt, ← drop_drop, take_append_drop]

theorem digits_append_replicate (width n count : Nat) :
    digits width n ++ replicate count 48 = digits (width + count) (n * 10 ^ count) := by
  induction count with
  | zero => simp
  | succ count ih =>
    rw [replicate_succ', ← append_assoc, ih, Nat.add_succ, digits, Nat.pow_succ,
      ← Nat.mul_assoc, Nat.mul_div_cancel _ (by decide), Nat.mul_mod_left]
    rfl

/-! ## Moments -/

theorem calendarTicksText_eq_some_iff {ticks : Int} : calendarTicksText ticks = some value ↔
      ∃ t : DateTime, (t.ticks : Int) = ticks ∧ t.text = value := by
  constructor
  · intro h
    have hrange : 0 ≤ ticks ∧ ticks ≤ 3155378975999999999 := by
      by_contra hout
      rw [calendarTicksText, if_pos (by omega)] at h
      cases h
    obtain ⟨n, rfl⟩ := Int.eq_ofNat_of_zero_le hrange.1
    obtain ⟨t, htext, hticks⟩ := @calendarTicksText_spec n (by omega)
    exact ⟨t, congrArg _ hticks, some.inj (htext.symm.trans h)⟩
  · rintro ⟨t, rfl, rfl⟩
    obtain ⟨t', htext, hticks⟩ := calendarTicksText_spec t.ticks_le
    obtain rfl := DateTime.ticks_injective hticks
    exact htext

theorem dateOnlyMaximum_eq (year month : Int) :
    dateOnlyMaximum year month = calendarMonthDays year month := by
  unfold dateOnlyMaximum calendarMonthDays
  by_cases hmonth : month = 2
  · simp [hmonth]
  · rw [if_neg hmonth, if_neg hmonth]

theorem eq_of_dateOnlyParse {date : List UInt8} (h : dateOnlyParse value = some date) :
    ∃ year month day, (1 ≤ year ∧ year ≤ 9999) ∧ (1 ≤ month ∧ month ≤ 12) ∧
      (1 ≤ day ∧ day ≤ daysInMonth year month) ∧
      date = digits 4 year ++ 45 :: (digits 2 month ++ 45 :: digits 2 day) := by
  unfold dateOnlyParse at h
  dsimp only at h
  split_ifs at h with hshape hfields hday
  cases h
  simp only [not_or, not_not, Int.not_lt, gt_iff_lt] at hshape hfields hday
  obtain ⟨hlen, hmark, hmark'⟩ := hshape
  obtain ⟨year, hlimit, hyear, hvalue⟩ := @eq_field value 4 0 _ hmark (by omega)
  obtain ⟨month, -, hmonth, hrest⟩ := @eq_field value 2 5 _ hmark' (by omega)
  obtain ⟨day, -, hlast, hday'⟩ := @eq_calendarDigits value 2 8 hlen.ge (by omega)
  rw [hyear, hmonth, dateOnlyMaximum_eq, calendarMonthDays_natCast] at hday
  refine ⟨year, month, day, by omega, by omega, by omega, ?_⟩
  rw [take_of_length_le (by simp [hlen])] at hlast
  rw [← hlast]
  exact hvalue.trans (congrArg _ (congrArg _ hrest))

theorem eq_of_timeOnlyParse {time : List UInt8} (h : timeOnlyParse value = some time) :
    ∃ hour minute second fraction, hour < 24 ∧ minute < 60 ∧ second < 60 ∧ fraction < 10000000 ∧
      time = digits 2 hour ++ 58 :: (digits 2 minute ++ 58 :: (digits 2 second ++
        46 :: digits 7 fraction)) := by
  unfold timeOnlyParse at h
  dsimp only at h
  split_ifs at h with hshape hfields hfraction
  cases h
  simp only [not_or, not_not, Int.not_lt, gt_iff_lt] at hshape hfields
  obtain ⟨hlong, hshort, hmark, hmark'⟩ := hshape
  obtain ⟨hour, -, hhour, hvalue⟩ := @eq_field value 2 0 _ hmark (by omega)
  obtain ⟨minute, -, hminute, hrest⟩ := @eq_field value 2 3 _ hmark' (by omega)
  obtain ⟨second, -, hlast, hsecond⟩ := @eq_calendarDigits value 2 6 (by omega) (by omega)
  have hfraction' : 0 ≤ digitsLoop (value.drop 9) 0 := by
    by_cases hends : value.length ≤ 8
    · rw [drop_eq_nil_of_le (by omega)]
      exact Int.le_refl 0
    · simp only [not_and, not_or, Int.not_lt] at hfraction
      have hread := (hfraction (by omega)).2.2
      rwa [calendarDigits, take_of_length_le (by simp)] at hread
  obtain ⟨fraction, hlt, hdigits, -⟩ := eq_digits hfraction'
  have hwidth : (value.drop 9).length + (7 - (value.drop 9).length) = 7 := by
    rw [length_drop]
    omega
  have hclock : value.take 8 =
      digits 2 hour ++ 58 :: (digits 2 minute ++ 58 :: (value.drop 6).take 2) :=
    congrArg (take 8) (hvalue.trans (congrArg _ (congrArg _ hrest)))
  rw [hlast] at hclock
  refine ⟨hour, minute, second, fraction * 10 ^ (7 - (value.drop 9).length), by omega, by omega,
    by omega, ?_, ?_⟩
  · have hbound := Nat.mul_lt_mul_of_pos_right hlt (Nat.pow_pos (n := 7 - (value.drop 9).length)
      (show 0 < 10 by decide))
    rwa [← Nat.pow_add, hwidth] at hbound
  · have hpadded := digits_append_replicate (value.drop 9).length fraction
      (7 - (value.drop 9).length)
    rw [hwidth, ← hdigits] at hpadded
    rw [hclock, hpadded]
    simp

theorem exists_of_dateTimeParse {source : List UInt8} (h : dateTimeParse source = some value) :
    ∃ t : DateTime, t.text = value := by
  unfold dateTimeParse at h
  dsimp only at h
  split_ifs at h
  obtain ⟨date, hdate, h⟩ := bind_eq_some_iff.mp h
  obtain ⟨time, htime, h⟩ := bind_eq_some_iff.mp h
  obtain ⟨year, month, day, hyear, hmonth, hday, rfl⟩ := eq_of_dateOnlyParse hdate
  obtain ⟨hour, minute, second, fraction, hhour, hminute, hsecond, hfraction, rfl⟩ :=
    eq_of_timeOnlyParse htime
  exact ⟨⟨year, month, day, hour, minute, second, fraction, hyear, hmonth, hday, hhour, hminute,
    hsecond, hfraction⟩, some.inj h⟩

theorem dateTimeParse_text (t : DateTime) : dateTimeParse t.text = some t.text := by
  obtain ⟨hyear', hmonth', hday', hhour', hminute', hsecond', hfraction'⟩ := calendarDigits_text t
  have hdate : dateOnlyParse (t.text.take 10) = some (t.text.take 10) := by
    have hyear := t.year_mem
    have hmonth := t.month_mem
    have hday := t.day_mem
    rw [dateOnlyParse, if_neg (by simp only [not_or, not_not]; exact ⟨rfl, rfl, rfl⟩)]
    dsimp only
    rw [show calendarDigits (t.text.take 10) 0 4 = _ from hyear',
      show calendarDigits (t.text.take 10) 5 2 = _ from hmonth',
      show calendarDigits (t.text.take 10) 8 2 = _ from hday', dateOnlyMaximum_eq,
      calendarMonthDays_natCast, if_neg (by omega), if_neg (by omega)]
  have htime : timeOnlyParse ((t.text.drop 11).take 16) = some ((t.text.drop 11).take 16) := by
    have hlen : ((t.text.drop 11).take 16).length = 16 := rfl
    have hmark : ((t.text.drop 11).take 16)[8]? = some 46 := rfl
    have hhour := t.hour_lt
    have hminute := t.minute_lt
    have hsecond := t.second_lt
    rw [timeOnlyParse, hlen, if_neg (by
      rw [not_or, not_or, not_or, not_not, not_not]; exact ⟨by decide, by decide, rfl, rfl⟩)]
    rw [show calendarDigits ((t.text.drop 11).take 16) 0 2 = _ from hhour',
      show calendarDigits ((t.text.drop 11).take 16) 3 2 = _ from hminute',
      show calendarDigits ((t.text.drop 11).take 16) 6 2 = _ from hsecond', if_neg (by omega),
      if_neg fun h => ?_]
    · rfl
    · rcases h.2 with h | h | h
      · exact absurd h (by decide)
      · exact h hmark
      · exact absurd ((show _ = calendarDigits _ 9 7 from hfraction'.symm).trans_lt h) (by omega)
  rw [dateTimeParse, show t.text.length = 28 from rfl, if_neg (by
    rw [not_or, not_or, not_or, not_not, not_not]; exact ⟨by decide, by decide, rfl, rfl⟩), hdate]
  show (timeOnlyParse ((t.text.drop 11).take 16)).bind _ = _
  rw [htime]
  rfl

/-- 0001-01-01T00:00:00. -/
def firstMoment : DateTime :=
  ⟨1, 1, 1, 0, 0, 0, 0, by decide, by decide, by decide, by decide, by decide, by decide, by decide⟩

theorem isDateTime_iff : IsDateTime value ↔ ∃ t : DateTime, t.text = value := by
  constructor
  · rintro (rfl | ⟨source, h⟩)
    · exact ⟨firstMoment, rfl⟩
    · exact exists_of_dateTimeParse h
  · rintro ⟨t, rfl⟩
    exact .inr ⟨_, dateTimeParse_text t⟩

/-! ## Numbers as text -/

theorem parseInt_digits (hwidth : 0 < width) (h : n < 10 ^ width) :
    (n < 2 ^ 63 → parseInt (digits width n) = some (n : Int)) ∧
      (n ≤ 2 ^ 63 → parseInt (45 :: digits width n) = some (-n : Int)) := by
  have hread : digitsLoop (digits width n) 0 = n := by
    rw [digitsLoop_digits h, Int.zero_mul, Int.zero_add]
  have hne : digits width n ≠ [] := ne_nil_of_length_pos (by rwa [length_digits])
  have hdigits : ¬(digits width n = [] ∨ (n : Int) < 0) := by simp [hne]
  refine ⟨fun hlimit => ?_, fun hlimit => ?_⟩
  · have hhead : (digits width n).head? ≠ some 45 := by
      intro hhead
      exact absurd (digits_range 45 (mem_of_mem_head? hhead)).1 (by decide)
    simp only [parseInt, if_neg hhead, hread, if_neg hdigits]
    exact if_neg (by omega)
  · simp only [parseInt, head?_cons, if_true, tail_cons, hread, if_neg hdigits]
    exact if_neg (by omega)

theorem parseInt_asText {value : Int} (h : -2 ^ 63 ≤ value ∧ value < 2 ^ 63) :
    parseInt (asText value) = some value := by
  obtain ⟨hdigits, hlt, hne⟩ := digits_decimal value.natAbs
  have hparse := parseInt_digits (length_pos_iff.mpr hne) hlt
  rw [hdigits] at hparse
  unfold asText
  split_ifs with hsign
  · rw [hparse.2 (by omega)]
    congr 1
    omega
  · rw [show value.toNat = value.natAbs by omega, hparse.1 (by omega)]
    congr 1
    omega

theorem length_asText {offset : Int} (h : -840 ≤ offset ∧ offset ≤ 840) :
    1 ≤ (asText offset).length ∧ (asText offset).length ≤ 4 := by
  have hlimit : offset.natAbs < 10 ^ 3 := by omega
  have hlen := congrArg length (replicate_append_decimal (by decide) hlimit)
  rw [length_append, length_replicate, length_digits] at hlen
  have hpos := length_pos_iff.mpr (digits_decimal offset.natAbs).2.2
  unfold asText
  split_ifs
  · rw [length_cons]
    omega
  · rw [show offset.toNat = offset.natAbs by omega]
    omega

/-! ## Values -/

namespace DateTimeOffset

variable {v w : DateTimeOffset} {instant t : DateTime} {offset : Int}

/-- The instant of a value and the moment that it shows. -/
structure Spec (v : DateTimeOffset) (instant shown : DateTime) : Prop where
  offset : -840 ≤ v.offset ∧ v.offset ≤ 840
  utc : (instant.ticks : Int) = v.utc
  shown : (shown.ticks : Int) = v.utc + v.offset * 600000000
  value : v.value = instant.text ++ [124] ++ asText v.offset

theorem fromLocal_eq_some_iff : fromLocal t.text offset = some v ↔
    v.offset = offset ∧ ∃ instant, Spec v instant t := by
  unfold fromLocal
  rw [calendarDateTimeTicks_text]
  constructor
  · intro h
    split_ifs at h with hrange
    obtain ⟨utc, hutc, rfl⟩ := map_eq_some_iff.mp h
    obtain ⟨instant, hinstant, rfl⟩ := calendarTicksText_eq_some_iff.mp hutc
    exact ⟨rfl, instant, ⟨by dsimp only; omega, hinstant, by dsimp only; omega, rfl⟩⟩
  · rintro ⟨rfl, instant, h⟩
    have hrange := h.offset
    have hticks : (t.ticks : Int) - v.offset * 600000000 = v.utc := by
      rw [h.shown]
      omega
    rw [if_neg (by omega)]
    dsimp only
    rw [hticks, calendarTicksText_eq_some_iff.mpr ⟨instant, h.utc, rfl⟩, map_some, ← h.value]

theorem parse_toText (h : Spec v instant t) : parse v.toText = some v := by
  have hrange := h.offset
  obtain ⟨absolute, habsolute⟩ : ∃ absolute : Nat,
      (if v.offset < 0 then -v.offset else v.offset) = absolute :=
    ⟨v.offset.natAbs, by split <;> omega⟩
  have hdiv : (absolute : Int).tdiv 60 = (absolute / 60 : Nat) := by
    rfl
  have hmod : (absolute : Int) - (absolute / 60 : Nat) * 60 = (absolute % 60 : Nat) := by omega
  have hhour : absolute / 60 < 10 ^ 2 := by omega
  have hminute : absolute % 60 < 10 ^ 2 := by omega
  have htext : v.toText = t.text.take 27 ++ (if v.offset < 0 then 45 else 43) ::
      (digits 2 (absolute / 60) ++ 58 :: digits 2 (absolute % 60)) := by
    rw [toText, habsolute, calendarTicksText_eq_some_iff.mpr ⟨t, h.shown, rfl⟩]
    rw [hdiv, hmod, calendarPad_natCast (by decide) hhour, calendarPad_natCast (by decide) hminute]
    simp
  generalize hsign : (if v.offset < 0 then 45 else 43 : UInt8) = sign at htext
  have hhour' : calendarDigits v.toText 28 2 = (absolute / 60 : Nat) := by
    rw [htext]
    exact calendarDigits_eq rfl hhour
  have hminute' : calendarDigits v.toText 31 2 = (absolute % 60 : Nat) := by
    rw [htext]
    exact calendarDigits_eq rfl hminute
  have hlast : v.toText[32]? ≠ some 90 := by
    rw [htext]
    intro hlast
    have hdigit := (digit_range (Nat.mod_lt (absolute % 60) (by decide : 0 < 10))).2
    exact absurd (some.inj hlast ▸ hdigit) (by decide)
  have hlen : v.toText.length = 33 := by
    rw [htext]
    rfl
  have hsignAt : v.toText[27]? = some sign := by
    rw [htext]
    rfl
  have hcolon : v.toText[30]? = some 58 := by
    rw [htext]
    rfl
  have hlocal : v.toText.take 27 ++ [90] = t.text := by
    rw [htext]
    rfl
  have hoffset : (if some sign = some 45 then -1 else 1) *
      (((absolute / 60 : Nat) : Int) * 60 + (absolute % 60 : Nat)) = v.offset := by
    rw [← hsign]
    split at habsolute <;> simp [*] <;> omega
  have hsign' : sign = 45 ∨ sign = 43 := by
    rw [← hsign]
    split <;> simp
  rw [parse]
  dsimp only
  rw [hlen, if_neg fun h => hlast h.2, if_neg (by decide)]
  rw [hhour', hminute', hsignAt, hcolon, hlocal, hoffset, dateTimeParse_text, if_neg ?_]
  · exact fromLocal_eq_some_iff.mpr ⟨rfl, instant, h⟩
  · rcases hsign' with rfl | rfl <;> simp <;> omega

theorem fromStorage_toStorage (h : Spec v instant t) : fromStorage v.toStorage = some v := by
  obtain ⟨hshort, hlong⟩ := length_asText h.offset
  have hrange := h.offset
  have hparse : parseInt (asText v.offset) = some v.offset := parseInt_asText (by omega)
  have hlen : v.value.length = 29 + (asText v.offset).length := by
    rw [h.value, length_append]
    rfl
  have hmark : v.value[28]? = some 124 := by
    rw [h.value]
    rfl
  have hutc : v.value.take 28 = instant.text := by
    rw [h.value]
    rfl
  have hoffset : (v.value.drop 29).take (v.value.length - 29) = asText v.offset := by
    rw [hlen, Nat.add_sub_cancel_left, h.value]
    exact take_length
  rw [fromStorage, toStorage]
  rw [if_neg (by rw [hmark]; simp; omega), hutc, hoffset, dateTimeParse_text, hparse]
  show (if _ then none else _) = some v
  rw [if_neg (by omega), calendarDateTimeTicks_text, h.utc,
    calendarTicksText_eq_some_iff.mpr ⟨t, h.shown, rfl⟩]
  exact if_neg (not_not.mpr h.value)

theorem spec_of_fromStorage {text : List UInt8} (h : fromStorage text = some v) :
    v.value = text ∧ ∃ instant t, Spec v instant t := by
  unfold fromStorage at h
  dsimp only at h
  split at h
  · cases h
  obtain ⟨utc, hutc, h⟩ := bind_eq_some_iff.mp h
  obtain ⟨offset, -, h⟩ := bind_eq_some_iff.mp h
  split at h
  · cases h
  obtain ⟨shown, hshown, h⟩ := bind_eq_some_iff.mp h
  split at h
  · cases h
  rename_i hrange htext
  cases h
  obtain ⟨instant, rfl⟩ := exists_of_dateTimeParse hutc
  obtain ⟨t, ht, -⟩ := calendarTicksText_eq_some_iff.mp hshown
  rw [calendarDateTimeTicks_text] at ht ⊢
  exact ⟨rfl, instant, t, ⟨by dsimp only; omega, rfl, ht, not_not.mp htext⟩⟩

theorem Built.spec (h : Built v) : ∃ instant t, Spec v instant t := by
  cases h with
  | minimum => exact ⟨firstMoment, firstMoment, ⟨by decide, rfl, rfl, rfl⟩⟩
  | fromLocal hlocal h =>
    obtain ⟨t, rfl⟩ := isDateTime_iff.mp hlocal
    obtain ⟨-, instant, hspec⟩ := fromLocal_eq_some_iff.mp h
    exact ⟨instant, t, hspec⟩
  | parse h =>
    have hread : ∀ {source offset},
        (dateTimeParse source).bind (DateTimeOffset.fromLocal · offset) = some v →
        ∃ instant t, Spec v instant t := by
      intro source offset h
      obtain ⟨value, hvalue, h⟩ := bind_eq_some_iff.mp h
      obtain ⟨t, rfl⟩ := exists_of_dateTimeParse hvalue
      obtain ⟨-, instant, hspec⟩ := fromLocal_eq_some_iff.mp h
      exact ⟨instant, t, hspec⟩
    unfold DateTimeOffset.parse at h
    dsimp only at h
    split_ifs at h
    all_goals exact hread h
  | fromStorage h => exact (spec_of_fromStorage h).2

/-- A value is read back from both of its texts. Storage texts are ordered as the instants, unless
those are the same. A local moment has a value exactly if its instant is in the calendar, and what
is read from storage is stored as it was. -/
theorem round_trips : (∀ value, IsDateTime value ↔ ∃ t : DateTime, t.text = value) ∧
    (∀ v : DateTimeOffset, v.Built →
      (∃ w, parse v.toText = some w ∧ w.utc = v.utc ∧ w.offset = v.offset) ∧
      ∃ w, fromStorage v.toStorage = some w ∧ w.utc = v.utc ∧ w.offset = v.offset) ∧
    (∀ v w : DateTimeOffset, v.Built → w.Built → v.utc ≠ w.utc →
      (v.toStorage < w.toStorage ↔ v.utc < w.utc)) ∧
    (∀ (t : DateTime) (offset : Int), -840 ≤ offset → offset ≤ 840 →
      ((fromLocal t.text offset).isSome ↔ ∃ instant : DateTime,
        (instant.unitsBefore : Int) = t.unitsBefore - offset * 600000000)) ∧
    ∀ text v, fromStorage text = some v → v.toStorage = text := by
  refine ⟨fun _ => isDateTime_iff, fun v hv => ?_, fun v w hv hw hne => ?_,
    fun t offset hlow hhigh => ?_, fun text v h => ?_⟩
  · obtain ⟨instant, t, h⟩ := hv.spec
    exact ⟨⟨v, parse_toText h, rfl, rfl⟩, v, fromStorage_toStorage h, rfl, rfl⟩
  · obtain ⟨instant, t, h⟩ := hv.spec
    obtain ⟨instant', t', h'⟩ := hw.spec
    have hlen : instant.text.length = instant'.text.length := rfl
    rw [toStorage, toStorage, h.value, h'.value, append_assoc, append_assoc,
      append_lt_append_iff hlen, DateTime.text_lt_iff, ← h.utc, ← h'.utc, Int.ofNat_lt,
      or_iff_left]
    rintro ⟨heq, -⟩
    have hticks := calendarDateTimeTicks_text instant
    rw [heq, calendarDateTimeTicks_text] at hticks
    exact hne (h.utc.symm.trans (hticks.symm.trans h'.utc))
  · rw [isSome_iff_exists, t.unitsBefore_eq t.ticks_le]
    constructor
    · rintro ⟨v, h⟩
      obtain ⟨rfl, instant, hspec⟩ := fromLocal_eq_some_iff.mp h
      refine ⟨instant, ?_⟩
      rw [instant.unitsBefore_eq instant.ticks_le, hspec.utc, hspec.shown]
      omega
    · rintro ⟨instant, h⟩
      rw [instant.unitsBefore_eq instant.ticks_le] at h
      exact ⟨⟨instant.ticks, offset, instant.text ++ [124] ++ asText offset⟩,
        fromLocal_eq_some_iff.mpr ⟨rfl, instant, ⟨⟨hlow, hhigh⟩, rfl, by dsimp only; omega, rfl⟩⟩⟩
  · exact (spec_of_fromStorage h).1

/-- The evening of a leap day. -/
def leapDay (hour : Nat) (hhour : hour < 24) : DateTime :=
  ⟨2024, 2, 29, hour, 30, 0, 0, by decide, by decide, by decide, hhour, by decide, by decide, by decide⟩

theorem round_trips_leapDay : ∃ v w, fromLocal (leapDay 23 (by decide)).text 60 = some v ∧
    parse v.toText = some w ∧ w.utc = v.utc ∧
    (({} : DateTimeOffset).toStorage < v.toStorage ↔ 0 < v.utc) := by
  obtain ⟨hvalues, htexts, horder, hlocal, -⟩ := round_trips
  have hsome : (fromLocal (leapDay 23 (by decide)).text 60).isSome := by
    refine (hlocal _ 60 (by decide) (by decide)).mpr ⟨leapDay 22 (by decide), ?_⟩
    rw [DateTime.unitsBefore_eq _ (DateTime.ticks_le _), DateTime.unitsBefore_eq _ (DateTime.ticks_le _)]
    decide +kernel
  obtain ⟨v, hv⟩ := isSome_iff_exists.mp hsome
  have hbuilt : v.Built := .fromLocal ((hvalues _).mpr ⟨_, rfl⟩) hv
  obtain ⟨w, hw, hsame, -⟩ := (htexts v hbuilt).1
  refine ⟨v, w, hv, hw, hsame, horder {} v .minimum hbuilt fun hzero => ?_⟩
  obtain ⟨hoffset, instant, hspec⟩ := fromLocal_eq_some_iff.mp hv
  have hshown := hspec.shown
  rw [hoffset, ← hzero] at hshown
  exact absurd hshown (by decide +kernel)

end DateTimeOffset

end Neri.Data
