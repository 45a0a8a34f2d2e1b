import Mathlib.Algebra.Group.Nat.Defs
import Mathlib.Data.Option.Basic
import StubManager.Timestamp

/-!
# Reading points in time that were written

Every part of a point in time is written with a fixed number of digits or up to a character that is
none, so it is read back as it is whatever follows it (`number?_padded`, `year?_renderYear`,
`fraction?_renderFraction`). Main statements: `parse?_render`, a point in time that texts have is
read as it was written, and `parse?_render_of_isHeld`, a leap second within a minute is read as the
second behind it.
-/

namespace StubManager.Timestamp

open Text

/-! ## Digits -/

theorem isBlank_eq_false_of_isDigit {c : Char} (h : c.isDigit) : isBlank c = false := by
  have hdigit : 48 ≤ c.toNat ∧ c.toNat ≤ 57 := by
    simpa [Char.isDigit, UInt32.le_iff_toNat_le] using h
  simp only [isBlank, Ranges.has, blankRanges, List.any_cons, List.any_nil, Bool.or_false,
    Bool.or_eq_false_iff, Bool.and_eq_false_iff, decide_eq_false_iff_not]
  omega

theorem toList_padded (width n : Nat) :
    (padded width n).toList
      = List.replicate (width - (Nat.toDigits 10 n).length) '0' ++ Nat.toDigits 10 n := by
  simp [padded, Nat.repr_eq_ofList_toDigits]

theorem isDigit_of_mem_padded {width n : Nat} {c : Char} (h : c ∈ (padded width n).toList) :
    c.isDigit := by
  rw [toList_padded, List.mem_append] at h
  rcases h with h | h
  · rw [List.eq_of_mem_replicate h]
    rfl
  · exact Nat.isDigit_of_mem_toDigits (by decide) (by decide) h

theorem length_padded {width n : Nat} (hwidth : 0 < width) (h : n < 10 ^ width) :
    (padded width n).toList.length = width := by
  have hlength := (Nat.length_toDigits_le_iff (by decide) hwidth).2 h
  rw [toList_padded, List.length_append, List.length_replicate]
  omega

theorem padded_ne_nil {width n : Nat} (hwidth : 0 < width) (h : n < 10 ^ width) :
    (padded width n).toList ≠ [] :=
  List.ne_nil_of_length_pos (by rwa [length_padded hwidth h])

theorem ofDigits_eq (digits : List Char) : ofDigits digits = Nat.ofDigitChars 10 digits 0 := by
  simp only [ofDigits, Nat.ofDigitChars, Nat.mul_comm]

theorem ofDigits_padded (width n : Nat) : ofDigits (padded width n).toList = n := by
  rw [ofDigits_eq, toList_padded, Nat.ofDigitChars_append, Nat.ofDigitChars_replicate_zero,
    Nat.mul_zero, Nat.ofDigitChars_ten_toDigits]

theorem trimStart_padded {width n : Nat} (hwidth : 0 < width) (h : n < 10 ^ width)
    (rest : List Char) :
    ∃ digit digits, (padded width n).toList = digit :: digits ∧ digit.isDigit ∧
      trimStart ((padded width n).toList ++ rest) = (padded width n).toList ++ rest := by
  obtain ⟨digit, digits, heq⟩ := List.exists_cons_of_ne_nil (padded_ne_nil hwidth h)
  have hdigit : digit.isDigit := isDigit_of_mem_padded (heq ▸ List.mem_cons_self)
  refine ⟨digit, digits, heq, hdigit, ?_⟩
  rw [heq, List.cons_append, trimStart, List.dropWhile_cons_of_neg]
  simp [isBlank_eq_false_of_isDigit hdigit]

/-- A number of a fixed width is read as it was written, whatever follows. -/
theorem number?_padded {width n : Nat} (hwidth : 0 < width) (h : n < 10 ^ width)
    (rest : List Char) : number? width ((padded width n).toList ++ rest) = some (n, rest) := by
  have hlength := length_padded hwidth h
  have hdigits : (((padded width n).toList ++ rest).takeWhile Char.isDigit).take width
      = (padded width n).toList := by
    rw [List.takeWhile_append_of_pos fun c hc => isDigit_of_mem_padded hc,
      List.take_left' hlength]
  simp [number?, hdigits, padded_ne_nil hwidth h, ofDigits_padded]

theorem pair?_padded {n : Nat} (h : n < 10 ^ 2) (rest : List Char) :
    pair? ((padded 2 n).toList ++ rest) = some (n, rest) := by
  obtain ⟨-, -, -, -, htrim⟩ := trimStart_padded (by decide : 0 < 2) h rest
  rw [pair?, htrim, number?_padded (by decide) h]

theorem mark?_cons {c : Char} (h : isBlank c = false) (text : List Char) :
    mark? c (c :: text) = some text := by
  simp [mark?, trimStart, h]

/-- A pair of digits behind a mark. -/
theorem marked?_padded {c : Char} (hc : isBlank c = false) {n : Nat} (h : n < 10 ^ 2)
    (rest : List Char) :
    (mark? c (c :: ((padded 2 n).toList ++ rest)) >>= pair?) = some (n, rest) := by
  rw [mark?_cons hc, Option.bind_eq_bind, Option.bind_some, pair?_padded h]

/-- A number of any width is read up to the first character that is no digit. -/
theorem longNumber?_padded (width n : Nat) {rest : List Char}
    (hrest : ∀ c ∈ rest.head?, c.isDigit = false) :
    longNumber? ((padded width n).toList ++ rest) = some (n, rest) := by
  have hne : (padded width n).toList ≠ [] := by
    rw [toList_padded]
    exact List.append_ne_nil_of_right_ne_nil _ Nat.toDigits_ne_nil
  have hdigits : ((padded width n).toList ++ rest).takeWhile Char.isDigit
      = (padded width n).toList := by
    rw [List.takeWhile_append_of_pos fun c hc => isDigit_of_mem_padded hc]
    cases rest with
    | nil => simp
    | cons c rest => simp [hrest c rfl]
  have hall : (padded width n).toList.take ((padded width n).toList ++ rest).length
      = (padded width n).toList := List.take_of_length_le (by simp)
  simp only [longNumber?, number?, hdigits, hall, ofDigits_padded, List.isEmpty_iff, hne, if_false,
    List.drop_left]

/-- A year is read as it was written: four digits, or a sign and all digits behind it. -/
theorem year?_renderYear (year : Int) {rest : List Char}
    (hrest : ∀ c ∈ rest.head?, c.isDigit = false) :
    year? ((renderYear year).toList ++ rest) = some (year, rest) := by
  by_cases hfour : 0 ≤ year ∧ year ≤ 9999
  · rw [renderYear, if_pos hfour]
    have h : year.toNat < 10 ^ 4 := by omega
    obtain ⟨digit, digits, heq, hdigit, htrim⟩ := trimStart_padded (by decide : 0 < 4) h rest
    have hnumber := number?_padded (by decide) h rest
    rw [year?, htrim]
    rw [heq, List.cons_append] at hnumber ⊢
    split
    · next hminus =>
      rw [(List.cons.inj hminus).1] at hdigit
      exact absurd hdigit (by decide)
    · next hplus =>
      rw [(List.cons.inj hplus).1] at hdigit
      exact absurd hdigit (by decide)
    · simp only [hnumber, Option.map_some, Int.toNat_of_nonneg hfour.1]
  · have hnumber := longNumber?_padded 4 year.natAbs hrest
    have htrim (sign : Char) (hsign : isBlank sign = false) (text : List Char) :
        trimStart (sign :: text) = sign :: text := List.dropWhile_cons_of_neg (by simp [hsign])
    rw [renderYear, if_neg hfour, String.toList_append, List.append_assoc]
    generalize (padded 4 year.natAbs).toList ++ rest = text at hnumber
    by_cases hnegative : year < 0
    · rw [if_pos hnegative, show "-".toList = ['-'] from rfl, List.singleton_append, year?,
        htrim '-' (by decide)]
      have hyear : -(year.natAbs : Int) = year := by omega
      simp only [hnumber, Option.map_some, hyear]
    · rw [if_neg hnegative, show "+".toList = ['+'] from rfl, List.singleton_append, year?,
        htrim '+' (by decide)]
      have hyear : (year.natAbs : Int) = year := by omega
      simp only [hnumber, Option.map_some, hyear]

/-- A fraction is read as it was written; trailing groups of zeros are left out. -/
theorem fraction?_renderFraction {n : Nat} (h : n < 10 ^ 9) {rest : List Char}
    (hrest : ∀ c ∈ rest.head?, c.isDigit = false ∧ c ≠ '.') :
    fraction? ((renderFraction n).toList ++ rest) = some (n, rest) := by
  have hgroup : ∀ width m, 0 < width → width ≤ 9 → m < 10 ^ width →
      fraction? (("." ++ padded width m).toList ++ rest) = some (m * 10 ^ (9 - width), rest) := by
    intro width m hwidth hnine hm
    have hlength := length_padded hwidth hm
    have hdigits : ((padded width m).toList ++ rest).takeWhile Char.isDigit
        = (padded width m).toList := by
      rw [List.takeWhile_append_of_pos fun c hc => isDigit_of_mem_padded hc]
      cases rest with
      | nil => simp
      | cons c rest => simp [(hrest c rfl).1]
    have hall : (padded width m).toList.take 9 = (padded width m).toList :=
      List.take_of_length_le (by omega)
    rw [String.toList_append]
    change fraction? ('.' :: ((padded width m).toList ++ rest)) = _
    simp [fraction?, hdigits, padded_ne_nil hwidth hm, hall, ofDigits_padded, hlength]
  have hmilli : n % 1000000 = 0 → n / 1000000 * 10 ^ (9 - 3) = n ∧ n / 1000000 < 10 ^ 3 := by
    omega
  have hmicro : n % 1000 = 0 → n / 1000 * 10 ^ (9 - 6) = n ∧ n / 1000 < 10 ^ 6 := by
    omega
  rw [renderFraction]
  split
  · next hzero =>
    cases rest with
    | nil => simp [fraction?, hzero]
    | cons c rest => simp [fraction?, hzero, (hrest c rfl).2]
  split
  · next hgroups =>
    rw [hgroup 3 _ (by decide) (by decide) (hmilli hgroups).2, (hmilli hgroups).1]
  split
  · next hgroups =>
    rw [hgroup 6 _ (by decide) (by decide) (hmicro hgroups).2, (hmicro hgroups).1]
  · rw [hgroup 9 _ (by decide) (by decide) h, Nat.sub_self, Nat.pow_zero, Nat.mul_one]

/-! ## Points in time that texts have -/

theorem isValid_iff {t : Timestamp} :
    t.isValid ↔ t.isHeld ∧ (t.nanosecond < nanosecondsPerSecond ∨ t.second = 59) := by
  simp [isValid]

theorem isHeld_iff {t : Timestamp} :
    t.isHeld ↔ (minYear ≤ t.year ∧ t.year ≤ maxYear) ∧ (1 ≤ t.month ∧ t.month ≤ 12) ∧
      (1 ≤ t.day ∧ t.day ≤ daysInMonth t.year t.month) ∧ t.hour < 24 ∧ t.minute < 60 ∧
      t.second < 60 ∧ t.nanosecond < 2 * nanosecondsPerSecond := by
  simp [isHeld, and_assoc]

theorem daysInMonth_le (year : Int) (month : Nat) : daysInMonth year month ≤ 31 := by
  rw [daysInMonth]
  grind

theorem le_daysInMonth (year : Int) (month : Nat) : 28 ≤ daysInMonth year month := by
  rw [daysInMonth]
  grind

theorem minusMinutes_zero {t : Timestamp} (h : t.isHeld) : t.minusMinutes 0 = t := by
  obtain ⟨-, -, -, hhour, hminute, -⟩ := isHeld_iff.1 h
  have htotal : ((t.hour * 60 + t.minute : Int) - 0) % 1440 = (t.hour * 60 + t.minute : Nat) := by
    omega
  simp only [minusMinutes, htotal, Int.toNat_natCast]
  rw [if_neg (by omega), if_neg (by omega)]
  have hdiv : (t.hour * 60 + t.minute) / 60 = t.hour := by omega
  have hmod : (t.hour * 60 + t.minute) % 60 = t.minute := by omega
  rw [hdiv, hmod]

private theorem bind_of_eq_some {α β : Type} {x : Option α} {a : α} (h : x = some a)
    (f : α → Option β) : (x >>= f) = f a := by
  rw [h, Option.bind_eq_bind, Option.bind_some]

/-- What is read from the parts of a point in time. -/
theorem parse?_of_parts {t : Timestamp} (h : t.isValid) {second fraction : Nat}
    (hsecond : second < 10 ^ 2) (hfraction : fraction < 10 ^ 9)
    (hread : (if second = 60 then (59, nanosecondsPerSecond + fraction) else (second, fraction))
      = (t.second, t.nanosecond)) :
    parse? (t.renderDate ++ "T" ++ padded 2 t.hour ++ ":" ++ padded 2 t.minute ++ ":"
      ++ padded 2 second ++ renderFraction fraction ++ "Z") = some t := by
  have hheld := (isValid_iff.1 h).1
  obtain ⟨-, ⟨-, hmonths⟩, ⟨-, hdays⟩, hhours, hminutes, -⟩ := isHeld_iff.1 hheld
  have hmonth : t.month < 10 ^ 2 := by omega
  have hday : t.day < 10 ^ 2 := by
    have hlength := daysInMonth_le t.year t.month
    omega
  have hhour : t.hour < 10 ^ 2 := by omega
  have hminute : t.minute < 10 ^ 2 := by omega
  have htext : (t.renderDate ++ "T" ++ padded 2 t.hour ++ ":" ++ padded 2 t.minute ++ ":"
      ++ padded 2 second ++ renderFraction fraction ++ "Z").toList
      = (renderYear t.year).toList ++ '-' :: ((padded 2 t.month).toList ++ '-' ::
        ((padded 2 t.day).toList ++ 'T' :: ((padded 2 t.hour).toList ++ ':' ::
        ((padded 2 t.minute).toList ++ ':' :: ((padded 2 second).toList ++
        ((renderFraction fraction).toList ++ ['Z'])))))) := by
    simp [renderDate]
  have hyear (rest : List Char) :
      year? ((renderYear t.year).toList ++ '-' :: rest) = some (t.year, '-' :: rest) := by
    refine year?_renderYear t.year ?_
    rintro _ ⟨⟩
    decide
  have hZ : ∀ c ∈ ['Z'].head?, c.isDigit = false ∧ c ≠ '.' := by
    rintro _ ⟨⟩
    decide
  have hoffset : offset? (trimStart ['Z']) = some (0, []) := by decide
  have heq : (if second = 60 then
        { t with second := 59, nanosecond := nanosecondsPerSecond + fraction }
      else { t with second := second, nanosecond := fraction }) = t := by
    split at hread <;> simp_all
  -- One part after the other is read, and the rest of the text is left.
  rw [parse?, htext, bind_of_eq_some (hyear _)]
  dsimp only
  rw [bind_of_eq_some (marked?_padded (by decide) hmonth _)]
  dsimp only
  rw [bind_of_eq_some (marked?_padded (by decide) hday _)]
  dsimp only
  rw [if_pos (.inl rfl), bind_of_eq_some rfl, bind_of_eq_some (pair?_padded hhour _)]
  dsimp only
  rw [bind_of_eq_some (marked?_padded (by decide) hminute _)]
  dsimp only
  rw [bind_of_eq_some (marked?_padded (by decide) hsecond _)]
  dsimp only
  rw [bind_of_eq_some (fraction?_renderFraction hfraction hZ)]
  dsimp only
  rw [bind_of_eq_some hoffset]
  dsimp only
  rw [heq]
  simp [h, minusMinutes_zero hheld, trimStart, guard]

/-- A point in time that texts have is read as it was written. A leap second is written as the
second 60 with the rest of its nanoseconds. -/
theorem parse?_render {t : Timestamp} (h : t.isValid) : parse? t.render = some t := by
  obtain ⟨hheld, hleap⟩ := isValid_iff.1 h
  obtain ⟨-, -, -, -, -, hsecond, hnanosecond⟩ := isHeld_iff.1 hheld
  rw [nanosecondsPerSecond] at hnanosecond hleap
  rw [render, nanosecondsPerSecond]
  refine parse?_of_parts h (by omega) (Nat.mod_lt _ (by decide)) ?_
  rw [nanosecondsPerSecond]
  split <;> ext <;> dsimp only <;> omega

/-! ## Leap seconds within a minute -/

/-- What is read of a point in time: a leap second within a minute is written as the second behind
it. -/
def reread (t : Timestamp) : Timestamp :=
  if nanosecondsPerSecond ≤ t.nanosecond ∧ t.second ≠ 59 then
    { t with second := t.second + 1, nanosecond := t.nanosecond - nanosecondsPerSecond }
  else t

theorem isValid_reread {t : Timestamp} (h : t.isHeld) : t.reread.isValid := by
  obtain ⟨hyear, hmonth, hday, hhour, hminute, hsecond, hnanosecond⟩ := isHeld_iff.1 h
  rw [isValid_iff, reread]
  split
  · next hleap =>
    exact ⟨isHeld_iff.2 ⟨hyear, hmonth, hday, hhour, hminute, by dsimp only; omega,
      by dsimp only; omega⟩, .inl (by dsimp only; omega)⟩
  · next hplain => exact ⟨h, by omega⟩

theorem render_congr {t t' : Timestamp} (hdate : t.renderDate = t'.renderDate)
    (hhour : t.hour = t'.hour) (hminute : t.minute = t'.minute)
    (hsecond : t.second + t.nanosecond / nanosecondsPerSecond
      = t'.second + t'.nanosecond / nanosecondsPerSecond)
    (hfraction : t.nanosecond % nanosecondsPerSecond = t'.nanosecond % nanosecondsPerSecond) :
    t.render = t'.render := by
  simp only [render, hdate, hhour, hminute, hsecond, hfraction]

theorem render_reread (t : Timestamp) : t.reread.render = t.render := by
  rw [reread]
  split
  · next hleap =>
    obtain ⟨fraction, hfraction⟩ := Nat.exists_eq_add_of_le hleap.1
    refine render_congr rfl rfl rfl ?_ ?_
    · rw [hfraction, Nat.add_sub_cancel_left, Nat.add_div_left _ (by decide)]
      dsimp only
      omega
    · rw [hfraction, Nat.add_sub_cancel_left, Nat.add_mod_left]
  · rfl

/-- A point in time is read as what texts have of it. -/
theorem parse?_render_of_isHeld {t : Timestamp} (h : t.isHeld) :
    parse? t.render = some t.reread := by
  rw [← render_reread t, parse?_render (isValid_reread h)]

theorem reread_eq_iff {t : Timestamp} (h : t.isHeld) : t.reread = t ↔ t.isValid := by
  constructor
  · intro heq
    rw [← heq]
    exact isValid_reread h
  · intro hvalid
    obtain ⟨-, hleap⟩ := isValid_iff.1 hvalid
    exact if_neg (by omega)

/-! ## A clock that goes on -/

@[simp] theorem nextDay_nanosecond (t : Timestamp) : t.nextDay.nanosecond = t.nanosecond := by
  rw [nextDay]
  split
  · rfl
  split <;> rfl

@[simp] theorem nextMinute_nanosecond (t : Timestamp) :
    (t.minusMinutes (-1)).nanosecond = t.nanosecond := by
  rw [minusMinutes, if_neg (by omega)]
  split
  · rw [nextDay_nanosecond]
  · rfl

theorem isHeld_nextDay {t : Timestamp} (h : t.isHeld) (hyear : t.year < maxYear) :
    t.nextDay.isHeld := by
  obtain ⟨hyears, hmonth, hday, htime⟩ := isHeld_iff.1 h
  have hnext := le_daysInMonth t.year (t.month + 1)
  have hfirst := le_daysInMonth (t.year + 1) 1
  rw [isHeld_iff, nextDay]
  split
  · next hmore => exact ⟨hyears, hmonth, ⟨by dsimp only; omega, hmore⟩, htime⟩
  split
  · next hmore =>
    exact ⟨hyears, ⟨by dsimp only; omega, hmore⟩, ⟨Nat.le_refl _, by dsimp only; omega⟩, htime⟩
  · exact ⟨⟨by dsimp only; omega, hyear⟩, ⟨Nat.le_refl _, by dsimp only; omega⟩,
      ⟨Nat.le_refl _, by dsimp only; omega⟩, htime⟩

/-- The next minute, with the day that comes with it. -/
theorem isHeld_nextMinute {t : Timestamp} (h : t.isHeld) (hyear : t.year < maxYear) :
    (t.minusMinutes (-1)).isHeld := by
  obtain ⟨hyears, hmonth, hday, hhour, hminute, hrest⟩ := isHeld_iff.1 h
  have hmoved : { t with
      hour := ((t.hour * 60 + t.minute - -1 : Int) % 1440).toNat / 60
      minute := ((t.hour * 60 + t.minute - -1 : Int) % 1440).toNat % 60 : Timestamp }.isHeld :=
    isHeld_iff.2 ⟨hyears, hmonth, hday, by dsimp only; omega, by dsimp only; omega, hrest⟩
  rw [minusMinutes, if_neg (by omega)]
  split
  · exact isHeld_nextDay hmoved hyear
  · exact hmoved

/-- A clock does not leave the points in time that texts have before its last year. -/
theorem isValid_tick {t : Timestamp} (h : t.isValid) (hyear : t.year < maxYear) :
    t.tick.isValid := by
  obtain ⟨hheld, hleap⟩ := isValid_iff.1 h
  obtain ⟨hyears, hmonth, hday, hhour, hminute, hsecond, hnanosecond⟩ := isHeld_iff.1 hheld
  have hpositive : 0 < nanosecondsPerSecond := by decide
  rw [tick]
  split
  · rw [nextSecond]
    split
    · next hmore =>
      exact isValid_iff.2 ⟨isHeld_iff.2 ⟨hyears, hmonth, hday, hhour, hminute,
        by dsimp only; omega, by dsimp only; omega⟩, .inl hpositive⟩
    · have hstart : { t with second := 0, nanosecond := 0 : Timestamp }.isHeld :=
        isHeld_iff.2 ⟨hyears, hmonth, hday, hhour, hminute, by dsimp only; omega,
          by dsimp only; omega⟩
      refine isValid_iff.2 ⟨isHeld_nextMinute hstart hyear, .inl ?_⟩
      rwa [nextMinute_nanosecond]
  · next hmore =>
    exact isValid_iff.2 ⟨isHeld_iff.2 ⟨hyears, hmonth, hday, hhour, hminute, hsecond,
      by dsimp only; omega⟩, by dsimp only; omega⟩

end StubManager.Timestamp
