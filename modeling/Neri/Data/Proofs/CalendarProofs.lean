import Neri.Data.Calendar

/-!
# Ticks count the moments of the calendar

`DateTime.ticks` is the number that a text is read as. It grows from each moment to the next later
one and takes every value of the range, so it is the number of the moments before. The search for the
year and the search for the month find the fields that make up a number.
-/

namespace Neri.Data

open FixedNumeral

/-! ## Days -/

theorem sub_tdiv_eq_zero_iff (year n : Nat) :
    (year : Int) - (year : Int).tdiv n * n = 0 ↔ n ∣ year := by
  rw [Int.tdiv_eq_ediv_of_nonneg (Int.natCast_nonneg year), mul_comm, ← Int.emod_def,
    ← Int.natCast_emod, Int.natCast_eq_zero, Nat.dvd_iff_mod_eq_zero]

theorem calendarMonthDays_natCast (year month : Nat) :
    calendarMonthDays year month = daysInMonth year month := by
  have hleap : ((year : Int) - (year : Int).tdiv 4 * 4 = 0 ∧
      ((year : Int) - (year : Int).tdiv 100 * 100 ≠ 0 ∨
        (year : Int) - (year : Int).tdiv 400 * 400 = 0)) ↔ isLeapYear year :=
    and_congr (sub_tdiv_eq_zero_iff year 4)
      (or_congr (sub_tdiv_eq_zero_iff year 100).not (sub_tdiv_eq_zero_iff year 400))
  rw [calendarMonthDays, daysInMonth]
  simp only [hleap, List.mem_cons, List.not_mem_nil, or_false]
  norm_cast

def yearStart (year : Nat) : Nat :=
  (year - 1) * 365 + (year - 1) / 4 - (year - 1) / 100 + (year - 1) / 400

def daysInYear (year : Nat) : Nat := if isLeapYear year then 366 else 365

variable {year : Nat}

theorem calendarYearDays_natCast (h : 1 ≤ year) : calendarYearDays year = yearStart year := by
  have hprior : (year : Int) - 1 = (year - 1 : Nat) := by omega
  have htdiv : ∀ n : Int, ((year - 1 : Nat) : Int).tdiv n = ((year - 1 : Nat) : Int) / n := fun n =>
    Int.tdiv_eq_ediv_of_nonneg (Int.natCast_nonneg _)
  rw [calendarYearDays, hprior, yearStart, htdiv, htdiv, htdiv]
  omega

theorem yearStart_succ (h : 1 ≤ year) :
    yearStart (year + 1) = yearStart year + daysInYear year := by
  obtain ⟨prior, rfl⟩ := Nat.exists_eq_add_of_le' h
  have hfour : 100 ∣ prior + 1 → 4 ∣ prior + 1 := Nat.dvd_trans (by decide)
  have hhundred : 400 ∣ prior + 1 → 100 ∣ prior + 1 := Nat.dvd_trans (by decide)
  rw [yearStart, yearStart, daysInYear, Nat.add_sub_cancel, Nat.add_sub_cancel, Nat.succ_div,
    Nat.succ_div, Nat.succ_div]
  by_cases h₄ : 4 ∣ prior + 1
  · by_cases h₁₀₀ : 100 ∣ prior + 1
    · by_cases h₄₀₀ : 400 ∣ prior + 1
      · rw [if_pos h₄, if_pos h₁₀₀, if_pos h₄₀₀, if_pos ⟨h₄, .inr h₄₀₀⟩]
        omega
      · have hleap : ¬isLeapYear (prior + 1) := fun h => h.2.elim (· h₁₀₀) h₄₀₀
        rw [if_pos h₄, if_pos h₁₀₀, if_neg h₄₀₀, if_neg hleap]
        omega
    · rw [if_pos h₄, if_neg h₁₀₀, if_neg (mt hhundred h₁₀₀), if_pos ⟨h₄, .inl h₁₀₀⟩]
      omega
  · have h₁₀₀ := mt hfour h₄
    rw [if_neg h₄, if_neg h₁₀₀, if_neg (mt hhundred h₁₀₀), if_neg fun h => h₄ h.1]
    omega

theorem yearStart_mono {year' : Nat} (h : 1 ≤ year) (hle : year ≤ year') :
    yearStart year ≤ yearStart year' := by
  induction hle with
  | refl => exact Nat.le_refl _
  | step hle ih =>
    rw [yearStart_succ (Nat.le_trans h hle)]
    exact Nat.le_trans ih (Nat.le_add_right ..)

def daysBefore (year : Nat) : (months : Nat) → Nat
  | 0 => 0
  | months + 1 => daysBefore year months + daysInMonth year (months + 1)

theorem daysBefore_mono (year : Nat) {months months' : Nat} (h : months ≤ months') :
    daysBefore year months ≤ daysBefore year months' := by
  induction h with
  | refl => exact Nat.le_refl _
  | step _ ih => exact Nat.le_trans ih (Nat.le_add_right ..)

theorem daysBefore_twelve (year : Nat) : daysBefore year 12 = daysInYear year := by
  rw [daysInYear]
  by_cases hleap : isLeapYear year <;> simp [daysBefore, daysInMonth, hleap]

theorem daysBefore_eq (year : Nat) {month : Nat} (h : 1 ≤ month) :
    daysBefore year month = daysBefore year (month - 1) + daysInMonth year month := by
  obtain ⟨months, rfl⟩ := Nat.exists_eq_add_of_le' h
  rfl

theorem precedingLoop_eq (year : Nat) (days : Int) {month preceding : Nat} (hpos : 1 ≤ preceding)
    (h : preceding ≤ month) :
    precedingLoop year month preceding days + daysBefore year (preceding - 1) =
      days + daysBefore year (month - 1) := by
  fun_induction precedingLoop year month preceding days with
  | case1 preceding days hlt ih =>
    have hrest := ih (by omega) (by omega)
    have hmonth := daysBefore_eq year hpos
    rw [Nat.add_sub_cancel, calendarMonthDays_natCast] at hrest
    rw [calendarMonthDays_natCast]
    omega
  | case2 preceding days hge =>
    obtain rfl : preceding = month := by omega
    rfl

/-! ## The number of a moment -/

namespace DateTime

variable {t t' : DateTime}

def days (t : DateTime) : Nat := yearStart t.year + daysBefore t.year (t.month - 1) + (t.day - 1)

def ticks (t : DateTime) : Nat :=
  t.days * 864000000000 + t.hour * 36000000000 + t.minute * 600000000 + t.second * 10000000 +
    t.fraction

theorem day_lt (t : DateTime) : t.day < 100 := by
  have hle := t.day_mem.2
  rw [daysInMonth] at hle
  split_ifs at hle <;> omega

theorem fits (t : DateTime) : Fits layout t.fields := by
  have hyear := t.year_mem
  have hmonth := t.month_mem
  have hday := t.day_lt
  have hhour := t.hour_lt
  have hminute := t.minute_lt
  have hsecond := t.second_lt
  refine .cons ?_ (.cons ?_ (.cons ?_ (.cons ?_ (.cons ?_ (.cons ?_ (.cons t.fraction_lt .nil))))))
  all_goals
    dsimp only
    omega

/-- The days of a moment are those of its month and of its year. -/
theorem days_lt (t : DateTime) :
    t.days < yearStart t.year + daysBefore t.year t.month ∧ t.days < yearStart (t.year + 1) := by
  have hmonth := daysBefore_eq t.year t.month_mem.1
  have hyear := daysBefore_mono t.year t.month_mem.2
  have hday := t.day_mem
  rw [yearStart_succ t.year_mem.1, ← daysBefore_twelve, days]
  omega

theorem ticks_lt_of_lt (h : t < t') : t.ticks < t'.ticks := by
  have hdays : t.days < t'.days ∨ t.days = t'.days ∧
      [t.hour, t.minute, t.second, t.fraction] < [t'.hour, t'.minute, t'.second, t'.fraction] := by
    obtain ⟨hmonth, hyear⟩ := t.days_lt
    replace h : t.fields < t'.fields := h
    rw [fields, fields, List.cons_lt_cons_iff, List.cons_lt_cons_iff, List.cons_lt_cons_iff] at h
    obtain hlt | ⟨heq, hlt | ⟨heq', hlt | ⟨heq'', hlt⟩⟩⟩ := h
    · have hmono := yearStart_mono (Nat.le_add_left 1 t.year) hlt
      rw [days] at hyear ⊢
      rw [days]
      omega
    · have hmono := daysBefore_mono t.year (Nat.le_sub_one_of_lt hlt)
      rw [days] at hmonth ⊢
      rw [days, ← heq]
      omega
    · have hpos := t.day_mem.1
      rw [days, days, ← heq, ← heq']
      omega
    · exact .inr ⟨by rw [days, days, heq, heq', heq''], hlt⟩
  have hhour := t.hour_lt
  have hminute := t.minute_lt
  have hsecond := t.second_lt
  have hfraction := t.fraction_lt
  rw [ticks, ticks]
  rcases hdays with hlt | ⟨heq, hlt⟩
  · omega
  · simp only [List.cons_lt_cons_iff, List.not_lt_nil, and_false, or_false] at hlt
    omega

theorem ticks_le (t : DateTime) : t.ticks ≤ 3155378975999999999 := by
  have hdays := t.days_lt.2
  have hyear : yearStart (t.year + 1) ≤ yearStart 10000 :=
    yearStart_mono (Nat.le_add_left 1 t.year) (Nat.succ_le_succ t.year_mem.2)
  have hlast : yearStart 10000 = 3652059 := rfl
  have hhour := t.hour_lt
  have hminute := t.minute_lt
  have hsecond := t.second_lt
  have hfraction := t.fraction_lt
  rw [ticks]
  omega

theorem fields_injective : Function.Injective fields := by
  intro t t' h
  simp only [fields, List.cons.injEq, and_true] at h
  obtain ⟨h₁, h₂, h₃, h₄, h₅, h₆, h₇⟩ := h
  exact DateTime.ext h₁ h₂ h₃ h₄ h₅ h₆ h₇

theorem ticks_injective : Function.Injective ticks := by
  intro t t' h
  rcases lt_trichotomy t.fields t'.fields with hlt | heq | hgt
  · exact absurd h (ticks_lt_of_lt hlt).ne
  · exact fields_injective heq
  · exact absurd h.symm (ticks_lt_of_lt hgt).ne

theorem lt_iff_ticks_lt : t < t' ↔ t.ticks < t'.ticks := by
  refine ⟨ticks_lt_of_lt, fun h => ?_⟩
  rcases lt_trichotomy t.fields t'.fields with hlt | heq | hgt
  · exact hlt
  · rw [fields_injective heq] at h
    exact absurd h (Nat.lt_irrefl _)
  · exact absurd (ticks_lt_of_lt hgt) (Nat.lt_asymm h)

theorem text_lt_iff : t.text < t'.text ↔ t.ticks < t'.ticks :=
  (FixedNumeral.text_lt_iff t.fits t'.fits).trans lt_iff_ticks_lt

end DateTime

/-! ## Reading a text -/

theorem digitsLoop_append {bytes bytes' : List UInt8} (h : ∀ byte ∈ bytes, 48 ≤ byte ∧ byte ≤ 57)
    (result : Int) :
    digitsLoop (bytes ++ bytes') result = digitsLoop bytes' (digitsLoop bytes result) := by
  induction bytes generalizing result with
  | nil => rfl
  | cons byte bytes ih =>
    rw [List.forall_mem_cons] at h
    have hbyte : ¬(byte < 48 ∨ byte > 57) :=
      not_or.mpr ⟨UInt8.not_lt.mpr h.1.1, UInt8.not_lt.mpr h.1.2⟩
    rw [List.cons_append, digitsLoop, digitsLoop, if_neg hbyte, if_neg hbyte, ih h.2]

variable {n width : Nat}

theorem digitsLoop_digits (h : n < 10 ^ width) (result : Int) :
    digitsLoop (digits width n) result = result * 10 ^ width + n := by
  induction width generalizing n with
  | zero =>
    obtain rfl := Nat.lt_one_iff.mp h
    simp [digits, digitsLoop]
  | succ width ih =>
    have hmod := Nat.mod_lt n (show 0 < 10 by decide)
    obtain ⟨hlow, hhigh⟩ := digit_range hmod
    rw [digits, digitsLoop_append digits_range, ih (by omega), digitsLoop,
      if_neg (not_or.mpr ⟨UInt8.not_lt.mpr hlow, UInt8.not_lt.mpr hhigh⟩), toNat_digit hmod,
      digitsLoop, pow_succ, ← mul_assoc]
    omega

theorem calendarDigits_eq {value : List UInt8} {start : Nat}
    (h : (value.drop start).take width = digits width n) (hn : n < 10 ^ width) :
    calendarDigits value start width = n := by
  rw [calendarDigits, h, digitsLoop_digits hn, Int.zero_mul, Int.zero_add]

theorem calendarDigits_text (t : DateTime) :
    calendarDigits t.text 0 4 = t.year ∧ calendarDigits t.text 5 2 = t.month ∧
      calendarDigits t.text 8 2 = t.day ∧ calendarDigits t.text 11 2 = t.hour ∧
      calendarDigits t.text 14 2 = t.minute ∧ calendarDigits t.text 17 2 = t.second ∧
      calendarDigits t.text 20 7 = t.fraction := by
  obtain - | ⟨hyear, - | ⟨hmonth, - | ⟨hday, - | ⟨hhour, - | ⟨hminute, - | ⟨hsecond,
    - | ⟨hfraction, -⟩⟩⟩⟩⟩⟩⟩ := t.fits
  exact ⟨calendarDigits_eq rfl hyear, calendarDigits_eq rfl hmonth, calendarDigits_eq rfl hday,
    calendarDigits_eq rfl hhour, calendarDigits_eq rfl hminute, calendarDigits_eq rfl hsecond,
    calendarDigits_eq rfl hfraction⟩

theorem calendarDateTimeTicks_text (t : DateTime) : calendarDateTimeTicks t.text = t.ticks := by
  obtain ⟨hyear, hmonth, hday, hhour, hminute, hsecond, hfraction⟩ := calendarDigits_text t
  have hloop := precedingLoop_eq t.year (yearStart t.year + t.day - 1) Nat.one_pos t.month_mem.1
  have hpos := t.day_mem.1
  rw [calendarDateTimeTicks, hyear, hmonth, hday, hhour, hminute, hsecond, hfraction,
    calendarYearDays_natCast t.year_mem.1, DateTime.ticks, DateTime.days]
  rw [daysBefore] at hloop
  omega

/-! ## Writing a text -/

theorem calendarPad_natCast (hwidth : 0 < width) (h : n < 10 ^ width) :
    calendarPad n width = digits width n := by
  have htext : asText n = decimal n := by
    rw [asText, if_neg (Int.not_lt.mpr (Int.natCast_nonneg n)), Int.toNat_natCast]
  rw [calendarPad, htext, replicate_append_decimal hwidth h]

theorem yearLoop_spec (days lower upper : Nat) (hlower : 1 ≤ lower) (hupper : 1 ≤ upper)
    (hle : yearStart lower ≤ days) (hlt : days < yearStart upper) :
    1 ≤ yearLoop days lower upper ∧ yearLoop days lower upper < upper ∧
      yearStart (yearLoop days lower upper) ≤ days ∧
      days < yearStart (yearLoop days lower upper + 1) := by
  fun_induction yearLoop days lower upper with
  | case1 lower upper hgap middle hmiddle ih =>
    rw [calendarYearDays_natCast (by omega)] at hmiddle
    exact ih (by omega) hupper (by exact_mod_cast hmiddle) hlt
  | case2 lower upper hgap middle hmiddle ih =>
    rw [calendarYearDays_natCast (by omega)] at hmiddle
    obtain ⟨hpos, hbelow, hspec⟩ := ih hlower (by omega) hle (by omega)
    exact ⟨hpos, by omega, hspec⟩
  | case3 lower upper hgap =>
    have hne : lower < upper := by
      by_contra hge
      have hmono := yearStart_mono hupper (Nat.le_of_not_lt hge)
      omega
    obtain rfl : upper = lower + 1 := by omega
    exact ⟨hlower, hne, hle, hlt⟩

theorem monthLoop_spec (year month : Nat) (remaining : Int) (hmonth : 1 ≤ month)
    (h : 0 ≤ remaining) :
    ∃ (remaining' month' : Nat), monthLoop year remaining month = (↑remaining', month') ∧
      month ≤ month' ∧ remaining' < daysInMonth year month' ∧
      remaining' + (daysBefore year (month' - 1) : Int) = remaining + daysBefore year (month - 1) := by
  fun_induction monthLoop year remaining month with
  | case1 remaining month hge ih =>
    rw [calendarMonthDays_natCast] at hge ih
    obtain ⟨remaining', month', hloop, hle, hlt, heq⟩ := ih (by omega) (by omega)
    have hstep := daysBefore_eq year hmonth
    rw [Nat.add_sub_cancel] at heq
    rw [calendarMonthDays_natCast]
    exact ⟨remaining', month', hloop, by omega, hlt, by omega⟩
  | case2 remaining month hlt =>
    rw [calendarMonthDays_natCast] at hlt
    exact ⟨remaining.toNat, month, by rw [Int.toNat_of_nonneg h], Nat.le_refl _, by omega, by omega⟩

/-- Every number of the range is written as the text of the moment that it counts. -/
theorem calendarTicksText_spec (h : n ≤ 3155378975999999999) :
    ∃ t : DateTime, calendarTicksText n = some t.text ∧ t.ticks = n := by
  have htdiv : ∀ (m : Nat) (k : Int), (m : Int).tdiv k = m / k := fun m _ =>
    Int.tdiv_eq_ediv_of_nonneg (Int.natCast_nonneg m)
  obtain ⟨days, hour, minute, second, fraction, hn, hhour, hminute, hsecond, hfraction⟩ :
      ∃ days hour minute second fraction : Nat, n = days * 864000000000 + hour * 36000000000 +
        minute * 600000000 + second * 10000000 + fraction ∧
        hour < 24 ∧ minute < 60 ∧ second < 60 ∧ fraction < 10000000 :=
    ⟨n / 864000000000, n / 36000000000 % 24, n / 600000000 % 60, n / 10000000 % 60, n % 10000000,
      by omega, by omega, by omega, by omega, by omega⟩
  have hlast : yearStart 10000 = 3652059 := rfl
  obtain ⟨hyear, hyear', hstart, hnext⟩ :=
    yearLoop_spec days 1 10000 Nat.one_pos (by decide) (Nat.zero_le _) (by omega)
  generalize hy : yearLoop days 1 10000 = year at hyear hyear' hstart hnext
  obtain ⟨remaining, month, hmonth, hpos, hlt, heq⟩ :=
    monthLoop_spec year 1 (days - yearStart year) Nat.one_pos (by omega)
  rw [daysBefore] at heq
  have hmonth' : month ≤ 12 := by
    by_contra hgt
    have hmono := daysBefore_mono year (show 12 ≤ month - 1 by omega)
    rw [yearStart_succ hyear, ← daysBefore_twelve] at hnext
    omega
  let t : DateTime :=
    { year, month, day := remaining + 1, hour, minute, second, fraction
      year_mem := ⟨hyear, Nat.le_of_lt_succ hyear'⟩, month_mem := ⟨hpos, hmonth'⟩
      day_mem := ⟨Nat.le_add_left .., hlt⟩, hour_lt := hhour, minute_lt := hminute
      second_lt := hsecond, fraction_lt := hfraction }
  refine ⟨t, ?_, ?_⟩
  · obtain - | ⟨hfits₁, - | ⟨hfits₂, - | ⟨hfits₃, - | ⟨hfits₄, - | ⟨hfits₅, - | ⟨hfits₆,
      - | ⟨hfits₇, -⟩⟩⟩⟩⟩⟩⟩ := t.fits
    have hdays : (n : Int).tdiv 864000000000 = days := by
      rw [htdiv]
      omega
    obtain ⟨daytime, hdaytime⟩ : ∃ daytime : Nat, daytime = hour * 36000000000 +
        minute * 600000000 + second * 10000000 + fraction := ⟨_, rfl⟩
    have hrest : (n : Int) - days * 864000000000 = daytime := by omega
    have hhours : (daytime : Int).tdiv 36000000000 = hour := by
      rw [htdiv]
      omega
    have hminutes : (daytime : Int).tdiv 600000000 = hour * 60 + minute := by
      rw [htdiv]
      omega
    have hseconds : (daytime : Int).tdiv 10000000 = (hour * 60 + minute) * 60 + second := by
      rw [htdiv]
      omega
    have hfraction' : (daytime : Int) - ((hour * 60 + minute) * 60 + second) * 10000000 = fraction := by
      omega
    rw [calendarTicksText, if_neg (by omega)]
    dsimp only
    rw [hdays, hy, calendarYearDays_natCast hyear, hmonth, hrest]
    rw [hhours, hminutes, hseconds, hfraction', add_sub_cancel_left, add_sub_cancel_left,
      ← Int.natCast_succ, calendarPad_natCast (by decide) hfits₁,
      calendarPad_natCast (by decide) hfits₂, calendarPad_natCast (by decide) hfits₃,
      calendarPad_natCast (by decide) hfits₄, calendarPad_natCast (by decide) hfits₅,
      calendarPad_natCast (by decide) hfits₆, calendarPad_natCast (by decide) hfits₇]
    simp only [List.append_assoc]
    rfl
  · have hcount : yearStart year + daysBefore year (month - 1) + remaining = days := by omega
    rw [hn, ← hcount]
    rfl

/-- Ticks are the units of 100 nanoseconds since the first moment. -/
theorem DateTime.unitsBefore_eq (t : DateTime) (h : t.ticks ≤ 3155378975999999999) :
    t.unitsBefore = t.ticks := by
  have himage : DateTime.ticks '' {earlier : DateTime | earlier < t} = ↑(Finset.range t.ticks) := by
    ext n
    rw [Finset.coe_range, Set.mem_Iio]
    constructor
    · rintro ⟨earlier, hlt, rfl⟩
      exact DateTime.ticks_lt_of_lt hlt
    · intro hlt
      obtain ⟨earlier, -, rfl⟩ := calendarTicksText_spec (show n ≤ 3155378975999999999 by omega)
      exact ⟨earlier, DateTime.lt_iff_ticks_lt.mpr hlt, rfl⟩
  rw [unitsBefore, ← Set.ncard_image_of_injective _ DateTime.ticks_injective, himage,
    Set.ncard_coe_finset, Finset.card_range]

/-- Numbers and texts are inverse to each other between the range of ticks and the texts of all
moments. The number of a moment is that of the units before it, and the bytes of texts are ordered as
the numbers. -/
theorem ticks_and_texts : (∀ t : DateTime, calendarDateTimeTicks t.text = t.unitsBefore ∧
      t.unitsBefore ≤ 3155378975999999999 ∧ calendarTicksText t.unitsBefore = some t.text) ∧
    (∀ ticks : Int, 0 ≤ ticks → ticks ≤ 3155378975999999999 →
      ∃ t : DateTime, calendarTicksText ticks = some t.text ∧ calendarDateTimeTicks t.text = ticks) ∧
    ∀ t t' : DateTime, t.text < t'.text ↔
      calendarDateTimeTicks t.text < calendarDateTimeTicks t'.text := by
  refine ⟨fun t => ?_, fun ticks hge hle => ?_, fun t t' => ?_⟩
  · have hle := t.ticks_le
    obtain ⟨t', htext, hticks⟩ := calendarTicksText_spec hle
    rw [t.unitsBefore_eq hle]
    obtain rfl := DateTime.ticks_injective hticks
    exact ⟨calendarDateTimeTicks_text t', hle, htext⟩
  · obtain ⟨n, rfl⟩ := Int.eq_ofNat_of_zero_le hge
    obtain ⟨t, htext, hticks⟩ := calendarTicksText_spec (n := n) (by omega)
    exact ⟨t, htext, by rw [calendarDateTimeTicks_text, hticks]⟩
  · rw [calendarDateTimeTicks_text, calendarDateTimeTicks_text, DateTime.text_lt_iff]
    omega

end Neri.Data
