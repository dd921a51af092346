import SeaClaw.Context.EventSpans
import SeaClaw.Lib.Timegm

/-!
# Relative dates

Phrases such as `in 3 days`. The matcher for them tries `day` before `days` and refuses a word that
goes on, so that plurals are found only where the table has them; and the day behind `on the` is
summed up in an `int` however many digits it has.
-/

namespace SeaClaw.Context

open SeaClaw.Lib Memory Providers

/-! ## What is promised -/

/-- The units of a relative date. -/
inductive DateUnit where
  | day | days | week | weeks
  deriving DecidableEq

/-- The word for a unit. -/
def DateUnit.text : DateUnit → Bytes
  | .day => ascii "day"
  | .days => ascii "days"
  | .week => ascii "week"
  | .weeks => ascii "weeks"

/-- A relative date: a positive number of units. -/
structure RelativeDate where
  number : Bytes
  nonempty : number ≠ []
  decimal : ∀ b ∈ number, isDigit b = true
  positive : 0 < natOfDigits 10 number
  unit : DateUnit

/-- The phrase for a date. -/
def RelativeDate.text (d : RelativeDate) : Bytes :=
  ascii "in " ++ (d.number ++ ch ' ' :: d.unit.text)

/-- A date stands at an octet of a text, between octets that are not in words. -/
structure StandsAt (text : Bytes) (q : ℕ) (d : RelativeDate) : Prop where
  before : wordAt (if q = 0 then none else text[q - 1]?) = false
  phrase : d.text <+: text.drop q
  behind : wordAt (text.drop q)[d.text.length]? = false

/-- The sums that `accumulateDay` forms from a day on, before they are stored. -/
def daySums : ℤ → Bytes → List ℤ
  | _, [] => []
  | day, d :: ds =>
    (day * 10 + ((hexVal d).getD 0 : ℕ)) ::
      daySums (wrapInt (day * 10 + ((hexVal d).getD 0 : ℕ))) ds

/-- The digits from which the matchers may sum up a day at a place. -/
def dayRuns (s : Bytes) : List Bytes :=
  (onTheDigits s).toList.map (·.1) ++ months.flatMap fun month =>
    ((monthDigits month (s.drop 3)).toList ++ (monthDigits month s).toList).map (·.1)

/-- `INT_MAX` -/
def intMax : ℤ := 2 ^ 31 - 1

/-- What the search in a text promises. -/
structure Extracts (text : Bytes) : Prop where
  dates : ∀ q d, StandsAt text q d → countBefore (foundIn text) q < scEventMaxEvents →
    (∀ f ∈ foundIn text, ¬ (f.start < q ∧ q < f.stop)) →
      ∃ f ∈ foundIn text, f.start = q ∧
        (f.event text).temporalRef = some (Text.ofBytes d.text)
  ints : ∀ p ∈ places text, ∀ ds ∈ dayRuns (text.drop p.start), ∀ v ∈ daySums 0 ds, v ≤ intMax
  inside : ∀ f ∈ foundIn text, f.start < f.stop ∧ f.stop ≤ text.length
  apart : (foundIn text).Pairwise fun a b => a.stop ≤ b.start
  descriptions : ∀ f ∈ foundIn text, EndsBy (extractEventBefore text f.start) f.start

/-- The plurals of the table. -/
def listedDates : List Bytes :=
  [ascii "in 2 days", ascii "in 7 days", ascii "in 14 days", ascii "in 2 weeks"]

/-- A date in the singular, or one of the table. -/
def RelativeDate.Known (d : RelativeDate) : Prop :=
  d.unit = .day ∨ d.unit = .week ∨ d.text ∈ listedDates

/-- Where the matchers are tried, days fit into an `int` and relative dates are known ones. -/
structure Extractable (text : Bytes) : Prop where
  numbers : ∀ q, Tried text q → ∀ ds r, onTheDigits (text.drop q) = some (ds, r) →
    natOfDigits 10 ds < 2 ^ 31
  known : ∀ q d, Tried text q → StandsAt text q d → d.Known

/-! ## Sums of days -/

theorem natOfDigits_cons (d : UInt8) (ds : Bytes) :
    natOfDigits 10 (d :: ds) = (hexVal d).getD 0 * 10 ^ ds.length + natOfDigits 10 ds := by
  simp only [natOfDigits, List.reverse_cons, List.map_append, List.map_cons, List.map_nil,
    Nat.ofDigits_append, Nat.ofDigits_singleton, List.length_map, List.length_reverse]
  ring

/-- All sums fit exactly if the last one does. -/
theorem daySums_le_iff {a : ℕ} {ds : Bytes} (ha : a < 2 ^ 31) :
    (∀ v ∈ daySums a ds, v ≤ intMax) ↔ a * 10 ^ ds.length + natOfDigits 10 ds < 2 ^ 31 := by
  induction ds generalizing a with
  | nil =>
    simp only [daySums, List.not_mem_nil, false_implies, implies_true, true_iff]
    simpa [natOfDigits] using ha
  | cons d ds ih =>
    rw [daySums, List.forall_mem_cons, natOfDigits_cons, List.length_cons]
    generalize (hexVal d).getD 0 = n
    have hsum : ((a : ℤ) * 10 + (n : ℕ)) = ((a * 10 + n : ℕ) : ℤ) := by push_cast; rfl
    have htotal : a * 10 ^ (ds.length + 1) + (n * 10 ^ ds.length + natOfDigits 10 ds) =
        (a * 10 + n) * 10 ^ ds.length + natOfDigits 10 ds := by ring
    have hpos : 1 ≤ 10 ^ ds.length := Nat.one_le_pow _ _ (by decide)
    have hgrow : a * 10 + n ≤ (a * 10 + n) * 10 ^ ds.length := Nat.le_mul_of_pos_right _ hpos
    rw [hsum, htotal]
    have hfits : (((a * 10 + n : ℕ) : ℤ) ≤ intMax) ↔ a * 10 + n < 2 ^ 31 := by
      rw [intMax]
      omega
    rw [hfits]
    constructor
    · intro ⟨hlt, hrest⟩
      have hwrap : wrapInt ((a * 10 + n : ℕ) : ℤ) = ((a * 10 + n : ℕ) : ℤ) := by
        rw [wrapInt]
        apply Int.bmod_eq_of_le
        · omega
        · omega
      rw [hwrap] at hrest
      exact (ih hlt).mp hrest
    · intro htot
      have hlt : a * 10 + n < 2 ^ 31 := by omega
      have hwrap : wrapInt ((a * 10 + n : ℕ) : ℤ) = ((a * 10 + n : ℕ) : ℤ) := by
        rw [wrapInt]
        apply Int.bmod_eq_of_le
        · omega
        · omega
      rw [hwrap]
      exact ⟨hlt, (ih hlt).mpr htot⟩

/-! ## Matchers at a date -/

/-- A text does not start like this when its first letter is another one. -/
def OtherLetter (p : Bytes) : Prop := p.head?.any (fun b => toLower b != ch 'i') = true

instance (p : Bytes) : Decidable (OtherLetter p) := inferInstanceAs (Decidable (_ = true))

theorem not_startsFold_of_other {p : Bytes} (hp : OtherLetter p) (s : Bytes) :
    startsFold p (ch 'i' :: s) = false := by
  cases p with
  | nil => exact absurd hp (by decide)
  | cons b p =>
    have hi : toLower (ch 'i') = ch 'i' := by decide
    have hne : toLower b ≠ toLower (ch 'i') := by
      rw [hi]
      simpa [OtherLetter] using hp
    rw [startsFold, List.map_cons, List.map_cons, List.isPrefixOf_cons_cons,
      beq_eq_false_iff_ne.mpr hne, Bool.false_and]

theorem matchOnMonthDate_date (s : Bytes) : matchOnMonthDate (ch 'i' :: s) = none := by
  have hon : ¬ startsFold (ascii "on ") (ch 'i' :: s) = true := by
    rw [not_startsFold_of_other (by decide)]
    exact Bool.false_ne_true
  rw [matchOnMonthDate, if_pos (Or.inr hon)]

theorem matchMonthDate_date (s : Bytes) : matchMonthDate (ch 'i' :: s) = none := by
  have hother : ∀ month ∈ months, OtherLetter month := by decide
  rw [matchMonthDate, List.findSome?_eq_none_iff]
  intro month hmonth
  have hstarts : ¬ startsFold month (ch 'i' :: s) = true := by
    rw [not_startsFold_of_other (hother month hmonth)]
    exact Bool.false_ne_true
  rw [matchMonth, monthDigits, if_pos (Or.inr hstarts)]

section AtDate

variable {d : RelativeDate} {rest : Bytes}

theorem RelativeDate.text_eq (d : RelativeDate) :
    d.text = ch 'i' :: ch 'n' :: ch ' ' :: (d.number ++ ch ' ' :: d.unit.text) := rfl

theorem isDigit_blank : isDigit (ch ' ') = false := by decide

/-- The digits at the start of what follows `in `. -/
theorem takeWhile_number (d : RelativeDate) (r : Bytes) :
    (d.number ++ ch ' ' :: r).takeWhile isDigit = d.number := by
  rw [List.takeWhile_append_of_pos d.decimal, List.takeWhile_cons_of_neg (by decide),
    List.append_nil]

/-- The matcher for relative dates looks at the unit behind the number. -/
theorem matchInDays_date : matchInDays (d.text ++ rest) =
    match [ascii "day", ascii "days", ascii "week", ascii "weeks"].findSome? fun unit =>
      (matchUnit (d.unit.text ++ rest) unit).map fun fits => (fits, unit.length) with
    | some (true, n) => some (d.number.length + 4 + n, 0.8)
    | _ => none := by
  have hnumber : 0 < d.number.length := List.length_pos_iff.mpr d.nonempty
  have hunit : 3 ≤ d.unit.text.length := by cases d.unit <;> decide
  have hlen : (d.text ++ rest).length =
      d.number.length + 4 + (d.unit.text ++ rest).length := by
    simp only [RelativeDate.text_eq, List.length_append, List.length_cons]
    omega
  have hin : startsFold (ascii "in ") (d.text ++ rest) = true := rfl
  have hguard : ¬ ((d.text ++ rest).length < 8 ∨
      ¬ startsFold (ascii "in ") (d.text ++ rest) = true) := by
    rw [not_or, not_not, hlen, List.length_append]
    exact ⟨by omega, hin⟩
  have hdrop : (d.text ++ rest).drop 3 = d.number ++ ch ' ' :: (d.unit.text ++ rest) := by
    rw [RelativeDate.text_eq]
    simp only [List.cons_append, List.append_assoc, List.drop_succ_cons, List.drop_zero]
  have hskip : (d.number ++ ch ' ' :: (d.unit.text ++ rest)).dropWhile (· == ch ' ') =
      d.number ++ ch ' ' :: (d.unit.text ++ rest) := by
    obtain ⟨b, r, hnum⟩ := List.exists_cons_of_ne_nil d.nonempty
    have hb := d.decimal b (by rw [hnum]; exact List.mem_cons_self)
    have hne : (b == ch ' ') = false := by
      rw [beq_eq_false_iff_ne]
      rintro rfl
      rw [isDigit_blank] at hb
      exact Bool.noConfusion hb
    rw [hnum, List.cons_append, List.dropWhile_cons_of_neg (by rw [hne]; exact Bool.false_ne_true)]
  have hbehind : (ch ' ' :: (d.unit.text ++ rest)).dropWhile (· == ch ' ') =
      d.unit.text ++ rest := by
    rw [List.dropWhile_cons_of_pos (by decide)]
    cases d.unit <;> rfl
  have hne : ¬ (d.number = [] ∨ d.unit.text ++ rest = []) := by
    rw [not_or]
    refine ⟨d.nonempty, ?_⟩
    intro h
    have hzero := congrArg List.length h
    rw [List.length_append, List.length_nil] at hzero
    omega
  rw [matchInDays, if_neg hguard]
  simp only [hdrop, hskip, takeWhile_number, List.drop_left, hbehind, if_neg hne, hlen,
    Nat.add_sub_cancel] <;> rfl

/-- Whether a unit is in the singular. -/
def DateUnit.Singular (u : DateUnit) : Prop := u = .day ∨ u = .week

instance (u : DateUnit) : Decidable u.Singular := inferInstanceAs (Decidable (_ ∨ _))

/-- Only a singular is found. -/
theorem matchInDays_of_singular (hunit : d.unit.Singular) (hrest : wordAt rest[0]? = false) :
    matchInDays (d.text ++ rest) = some (d.text.length, 0.8) := by
  have hlen : d.text.length = d.number.length + 4 + d.unit.text.length := by
    simp only [RelativeDate.text_eq, List.length_append, List.length_cons]
    omega
  rw [matchInDays_date, hlen]
  rcases hunit with hday | hweek
  · have hfits : matchUnit (ascii "day" ++ rest) (ascii "day") = some (!wordAt rest[0]?) := rfl
    rw [hrest] at hfits
    simp only [hday, DateUnit.text, List.findSome?_cons, hfits, Option.map_some]
    rfl
  · have hno : matchUnit (ascii "week" ++ rest) (ascii "day") = none := rfl
    have hno' : matchUnit (ascii "week" ++ rest) (ascii "days") = none := rfl
    have hfits : matchUnit (ascii "week" ++ rest) (ascii "week") = some (!wordAt rest[0]?) := rfl
    rw [hrest] at hfits
    simp only [hweek, DateUnit.text, List.findSome?_cons, hno, hno', hfits, Option.map_some,
      Option.map_none]
    rfl

theorem matchInDays_of_plural (hunit : ¬ d.unit.Singular) :
    matchInDays (d.text ++ rest) = none := by
  rw [matchInDays_date]
  cases hu : d.unit with
  | day => exact absurd (Or.inl hu) hunit
  | week => exact absurd (Or.inr hu) hunit
  | days => rfl
  | weeks => rfl

/-! ## The table at a date -/

/-- The phrase for a number and a unit. -/
def dateText (number : Bytes) (unit : DateUnit) : Bytes :=
  ascii "in " ++ (number ++ ch ' ' :: unit.text)

theorem map_toLower_digits {ds : Bytes} (hds : ∀ b ∈ ds, isDigit b = true) :
    ds.map toLower = ds := by
  apply (List.map_congr_left _).trans ds.map_id
  intro b hb
  have hhigh : b.toNat ≤ 0x39 := UInt8.le_iff_toNat_le.mp ((isDigit_iff b).mp (hds b hb)).2
  have hupper : ¬ (ch 'A' ≤ b ∧ b ≤ ch 'Z') := by
    rw [UInt8.le_iff_toNat_le, show (ch 'A').toNat = 65 from rfl]
    omega
  rw [toLower, if_neg hupper]
  rfl

theorem map_toLower_dateText {number : Bytes} (hnumber : ∀ b ∈ number, isDigit b = true)
    (unit : DateUnit) : (dateText number unit).map toLower = dateText number unit := by
  have hunit : unit.text.map toLower = unit.text := by cases unit <;> rfl
  simp only [dateText, List.map_append, List.map_cons, map_toLower_digits hnumber, hunit]
  rfl

/-- An octet whose small letter is an `s` is in a word. -/
theorem isWordChar_of_toLower {b : UInt8} (h : toLower b = ch 's') : isWordChar b = true := by
  rw [isWordChar, isAlnum, h]
  simp only [Bool.or_eq_true]
  exact Or.inl (Or.inl (Or.inr (by decide)))

/-- Where two units start alike and neither goes on, they are the same. -/
theorem unit_eq_of_prefix {u v : DateUnit} {t : Bytes}
    (heq : u.text ++ t = v.text ++ rest.map toLower)
    (hnext : wordAt (v.text ++ rest)[u.text.length]? = false)
    (hrest : wordAt rest[0]? = false) : u = v := by
  have hs : ∀ {t' : Bytes}, ch 's' :: t' = rest.map toLower → False := by
    intro t' ht'
    cases rest with
    | nil => exact List.cons_ne_nil _ _ ht'
    | cons b rest =>
      rw [List.map_cons, List.cons.injEq] at ht'
      have hword := isWordChar_of_toLower ht'.1.symm
      rw [List.getElem?_cons_zero, wordAt, Option.any_some, hword] at hrest
      exact Bool.noConfusion hrest
  have hword : ¬ wordAt (ch 's' :: rest)[0]? = false := by
    intro h
    exact Bool.noConfusion (show true = false from h)
  cases u <;> cases v
  -- The first letter tells days from weeks, and what follows the singular tells it from the plural.
  all_goals first
    | rfl
    | exact absurd (List.cons.inj heq).1 (by decide)
    | skip
  · exact absurd hnext hword
  · have htail : ascii "day" ++ ch 's' :: t = ascii "day" ++ rest.map toLower := heq
    exact (hs (List.append_cancel_left htail)).elim
  · exact absurd hnext hword
  · have htail : ascii "week" ++ ch 's' :: t = ascii "week" ++ rest.map toLower := heq
    exact (hs (List.append_cancel_left htail)).elim

/-- A date that a phrase of the text starts with is the date itself. -/
theorem dateText_inj_of_startsFold {number : Bytes} {unit : DateUnit}
    (hnumber : ∀ b ∈ number, isDigit b = true)
    (hstarts : startsFold (dateText number unit) (d.text ++ rest) = true)
    (hnext : wordAt (d.text ++ rest)[(dateText number unit).length]? = false)
    (hrest : wordAt rest[0]? = false) : number = d.number ∧ unit = d.unit := by
  have hd : d.text = dateText d.number d.unit := rfl
  rw [startsFold, List.isPrefixOf_iff_prefix, map_toLower_dateText hnumber, List.map_append, hd,
    map_toLower_dateText d.decimal] at hstarts
  obtain ⟨t, ht⟩ := hstarts
  have htail : number ++ ch ' ' :: (unit.text ++ t) =
      d.number ++ ch ' ' :: (d.unit.text ++ rest.map toLower) := by
    have hcancel := ht
    simp only [dateText, List.append_assoc, List.cons_append] at hcancel
    exact List.append_cancel_left hcancel
  have hnum : number = d.number := by
    have htake := congrArg (List.takeWhile isDigit) htail
    rw [List.takeWhile_append_of_pos hnumber, takeWhile_number] at htake
    simpa [isDigit_blank] using htake
  subst hnum
  have hunits : unit.text ++ t = d.unit.text ++ rest.map toLower :=
    (List.cons.inj (List.append_cancel_left htail)).2
  have hget : (d.text ++ rest)[(dateText d.number unit).length]? =
      (d.unit.text ++ rest)[unit.text.length]? := by
    have hsplit : d.text ++ rest =
        (ascii "in " ++ (d.number ++ [ch ' '])) ++ (d.unit.text ++ rest) := by
      simp [RelativeDate.text]
    have hlen : (dateText d.number unit).length =
        (ascii "in " ++ (d.number ++ [ch ' '])).length + unit.text.length := by
      simp only [dateText, List.length_append, List.length_cons, List.length_nil]
      omega
    rw [hsplit, hlen, List.getElem?_append_right (Nat.le_add_right _ _), Nat.add_sub_cancel_left]
  rw [hget] at hnext
  exact ⟨rfl, unit_eq_of_prefix hunits hnext hrest⟩

/-- The dates of the table. -/
def tableDates : List (Bytes × DateUnit) :=
  [(ascii "1", .day), (ascii "2", .days), (ascii "7", .days), (ascii "14", .days),
    (ascii "1", .week), (ascii "2", .weeks)]

/-- A pattern starts with another letter, or is a date. -/
theorem pattern_other_or_date : ∀ pat ∈ temporalPatterns, OtherLetter (patternOctets pat) ∨
    ∃ t ∈ tableDates, patternOctets pat = dateText t.1 t.2 := by
  decide

theorem decimal_of_mem_tableDates : ∀ t ∈ tableDates, t.1.all isDigit = true := by decide

theorem length_patternOctets : ∀ pat ∈ temporalPatterns, (patternOctets pat).length = pat.2.1 := by
  decide

theorem getElem?_behind_date : (d.text ++ rest)[d.text.length]? = rest[0]? := by
  rw [List.getElem?_append_right le_rfl, Nat.sub_self]

/-- A pattern that fits at a date is the date. -/
theorem matchPattern_date_eq {prev : Option UInt8} {m : Temporal}
    (hrest : wordAt rest[0]? = false) (h : matchPattern prev (d.text ++ rest) = some m) :
    m.1 = d.text.length ∧ (d.number, d.unit) ∈ tableDates := by
  obtain ⟨pat, hpat, rfl⟩ := Option.map_eq_some_iff.mp h
  have hmem := List.mem_of_find?_eq_some hpat
  have hfits := List.find?_some hpat
  simp only [Bool.and_eq_true, Bool.not_eq_true'] at hfits
  rcases pattern_other_or_date pat hmem with hother | ⟨t, ht, hoctets⟩
  · have hno := hfits.1.1
    rw [RelativeDate.text_eq, List.cons_append, not_startsFold_of_other hother] at hno
    exact Bool.noConfusion hno
  · have hnumber := List.all_eq_true.mp (decimal_of_mem_tableDates t ht)
    rw [hoctets] at hfits
    obtain ⟨hnum, hunit⟩ := dateText_inj_of_startsFold hnumber hfits.1.1 hfits.1.2 hrest
    rw [← length_patternOctets pat hmem, hoctets, ← hnum, ← hunit]
    refine ⟨?_, ht⟩
    rw [show d.text = dateText d.number d.unit from rfl, hnum, hunit]

/-- A date of the table fits. -/
theorem matchPattern_date {prev : Option UInt8} (hprev : wordAt prev = false)
    (hrest : wordAt rest[0]? = false) (hd : d.text ∈ listedDates) :
    ∃ c, matchPattern prev (d.text ++ rest) = some (d.text.length, c) := by
  have hlisted : ∀ t ∈ listedDates, ∃ pat ∈ temporalPatterns, patternOctets pat = t := by decide
  obtain ⟨pat, hmem, hoctets⟩ := hlisted d.text hd
  have hstarts : startsFold d.text (d.text ++ rest) = true := by
    rw [startsFold, List.isPrefixOf_iff_prefix, List.map_append]
    exact List.prefix_append _ _
  have hfits : (startsFold (patternOctets pat) (d.text ++ rest) &&
      !wordAt (d.text ++ rest)[(patternOctets pat).length]? && !wordAt prev) = true := by
    rw [hoctets, hstarts, getElem?_behind_date, hrest, hprev]
    rfl
  cases hm : matchPattern prev (d.text ++ rest) with
  | some m =>
    obtain ⟨n, c⟩ := m
    obtain ⟨rfl, -⟩ := matchPattern_date_eq hrest hm
    exact ⟨c, rfl⟩
  | none =>
    rw [matchPattern, Option.map_eq_none_iff, List.find?_eq_none] at hm
    exact absurd hfits (hm pat hmem)

/-! ## What is found at a date -/

theorem matchTemporal_date (prev : Option UInt8) :
    matchTemporal prev (d.text ++ rest) =
      (matchInDays (d.text ++ rest)).or (matchPattern prev (d.text ++ rest)) := by
  have hon : matchOnMonthDate (d.text ++ rest) = none := matchOnMonthDate_date _
  have hmonth : matchMonthDate (d.text ++ rest) = none := matchMonthDate_date _
  have hlen : 6 ≤ (d.text ++ rest).length := by
    have hnumber : 0 < d.number.length := List.length_pos_iff.mpr d.nonempty
    have hunit : 3 ≤ d.unit.text.length := by cases d.unit <;> decide
    simp only [RelativeDate.text_eq, List.length_append, List.length_cons]
    omega
  rw [matchTemporal, hon, hmonth, if_pos (by omega), if_pos (by omega), if_pos hlen, Option.none_or,
    Option.none_or]
  cases matchInDays (d.text ++ rest) with
  | none => rfl
  | some m => rfl

/-- What is found at a date is the date, and it is a known one. -/
theorem matchTemporal_date_some {prev : Option UInt8} {m : Temporal}
    (hrest : wordAt rest[0]? = false) (h : matchTemporal prev (d.text ++ rest) = some m) :
    m.1 = d.text.length ∧ d.Known := by
  rw [matchTemporal_date] at h
  by_cases hunit : d.unit.Singular
  · rw [matchInDays_of_singular hunit hrest, Option.some_or] at h
    obtain rfl := Option.some.inj h
    refine ⟨rfl, ?_⟩
    rcases hunit with hday | hweek
    · exact Or.inl hday
    · exact Or.inr (Or.inl hweek)
  · rw [matchInDays_of_plural hunit, Option.none_or] at h
    have htable : ∀ t ∈ tableDates, t.2.Singular ∨ dateText t.1 t.2 ∈ listedDates := by decide
    obtain ⟨hlen, hmem⟩ := matchPattern_date_eq hrest h
    exact ⟨hlen, Or.inr (Or.inr ((htable _ hmem).resolve_left hunit))⟩

/-- A known date is found. -/
theorem matchTemporal_of_known {prev : Option UInt8} (hprev : wordAt prev = false)
    (hrest : wordAt rest[0]? = false) (hd : d.Known) :
    ∃ c, matchTemporal prev (d.text ++ rest) = some (d.text.length, c) := by
  rw [matchTemporal_date]
  by_cases hunit : d.unit.Singular
  · rw [matchInDays_of_singular hunit hrest, Option.some_or]
    exact ⟨_, rfl⟩
  · rw [matchInDays_of_plural hunit, Option.none_or]
    rcases hd with hday | hweek | hlisted
    · exact absurd (Or.inl hday) hunit
    · exact absurd (Or.inr hweek) hunit
    · exact matchPattern_date hprev hrest hlisted

/-- A date has no terminator in it. -/
theorem zero_notMem_date : 0 ∉ d.text := by
  have hunit : 0 ∉ d.unit.text := by cases d.unit <;> decide
  rw [RelativeDate.text, List.mem_append, List.mem_append, List.mem_cons, not_or, not_or, not_or]
  refine ⟨by decide, ?_, by decide, hunit⟩
  intro hmem
  exact absurd (d.decimal 0 hmem) (by decide)

/-- The reference of an event for a date is the date. -/
theorem temporalRef_date {text : Bytes} {q : ℕ} {c : ℚ} (h : text.drop q = d.text ++ rest) :
    ((⟨q, (d.text.length, c)⟩ : Found).event text).temporalRef = some (Text.ofBytes d.text) := by
  have hoctets : Span.octets text (q, d.text.length) = d.text := by
    rw [Span.octets, h, List.take_left]
  have hon : ¬ startsFold (ascii "on ") d.text = true := by
    rw [RelativeDate.text_eq, not_startsFold_of_other (by decide)]
    exact Bool.false_ne_true
  have hne : d.text ≠ [] := List.cons_ne_nil _ _
  simp only [Found.event, hoctets, if_neg hon, if_neg hne]
  rw [(scStrndup_ofBytes d.text).mpr zero_notMem_date]

end AtDate

/-! ## The search -/

/-- A date that stands where no phrase before it reaches is tried. -/
theorem StandsAt.tried {text : Bytes} {q : ℕ} {d : RelativeDate} (h : StandsAt text q d)
    (hroom : countBefore (foundIn text) q < scEventMaxEvents)
    (hfree : ∀ f ∈ foundIn text, ¬ (f.start < q ∧ q < f.stop)) : Tried text q := by
  obtain ⟨rest, hrest⟩ := h.phrase
  have hget : text[q]? = some (ch 'i') := by
    have hhead : (text.drop q)[0]? = text[q + 0]? := List.getElem?_drop
    rw [← hrest, RelativeDate.text_eq, List.cons_append, List.getElem?_cons_zero,
      Nat.add_zero] at hhead
    exact hhead.symm
  exact ⟨⟨ch 'i', hget, by decide⟩, hroom, hfree⟩

/-- The days of months have at most two digits. -/
theorem monthDigits_lt {month s ds r : Bytes} (h : monthDigits month s = some (ds, r)) :
    natOfDigits 10 ds < 2 ^ 31 := by
  unfold monthDigits at h
  dsimp only at h
  split_ifs at h with _ hds
  rw [Option.some.injEq, Prod.mk.injEq] at h
  obtain ⟨rfl, -⟩ := h
  rw [not_or, not_lt] at hds
  generalize (s.drop month.length).dropWhile (· == ch ' ') = r at hds ⊢
  have hdigits : ∀ b ∈ r.takeWhile isDigit, isDigit b = true :=
    fun b hb => List.mem_takeWhile_imp hb
  have hlt := natOfDigits_ten_lt hdigits
  exact (hlt.trans_le (Nat.pow_le_pow_right (by decide) hds.2)).trans (by decide)

/-- The sums of a place fit if and only if the day behind `on the` does. -/
theorem dayRuns_le_iff (s : Bytes) :
    (∀ ds ∈ dayRuns s, ∀ v ∈ daySums 0 ds, v ≤ intMax) ↔
      ∀ ds r, onTheDigits s = some (ds, r) → natOfDigits 10 ds < 2 ^ 31 := by
  have hsums : ∀ ds, (∀ v ∈ daySums 0 ds, v ≤ intMax) ↔ natOfDigits 10 ds < 2 ^ 31 := by
    intro ds
    have hzero : 0 * 10 ^ ds.length + natOfDigits 10 ds = natOfDigits 10 ds := by
      rw [Nat.zero_mul, Nat.zero_add]
    rw [← hzero]
    exact daySums_le_iff (a := 0) (by decide)
  simp only [hsums]
  constructor
  · intro h ds r hds
    apply h
    rw [dayRuns, hds]
    exact List.mem_append_left _ List.mem_cons_self
  · intro h ds hds
    rw [dayRuns, List.mem_append] at hds
    rcases hds with hds | hds
    · obtain ⟨⟨ds', r⟩, hmem, rfl⟩ := List.mem_map.mp hds
      exact h _ r (Option.mem_toList.mp hmem)
    · obtain ⟨month, -, hds⟩ := List.mem_flatMap.mp hds
      obtain ⟨⟨ds', r⟩, hmem, rfl⟩ := List.mem_map.mp hds
      rcases List.mem_append.mp hmem with hmem | hmem
      · exact monthDigits_lt (Option.mem_toList.mp hmem)
      · exact monthDigits_lt (Option.mem_toList.mp hmem)

/-- The search keeps its promises if and only if the days that it sums up fit into an `int` and
the relative dates that it meets are in the singular or in the table. -/
theorem extracts_iff (text : Bytes) : Extracts text ↔ Extractable text := by
  constructor
  · intro h
    refine ⟨?_, ?_⟩
    · intro q hq
      obtain ⟨p, hp, rfl⟩ := (mem_places_iff text q).mpr hq
      exact (dayRuns_le_iff _).mp (h.ints p hp)
    · intro q d hq hd
      obtain ⟨f, hf, rfl, -⟩ := h.dates q d hd hq.room hq.free
      obtain ⟨rest, hrest⟩ := hd.phrase
      have hbehind := hd.behind
      rw [← hrest, getElem?_behind_date] at hbehind
      have hat := (found_spec hf).1
      rw [temporalAt, ← hrest] at hat
      exact (matchTemporal_date_some hbehind hat).2
  · intro h
    refine ⟨?_, ?_, fun f hf => (found_spec hf).2, foundIn_apart text, ?_⟩
    · intro q d hd hroom hfree
      have htried := hd.tried hroom hfree
      obtain ⟨rest, hrest⟩ := hd.phrase
      have hbehind := hd.behind
      rw [← hrest, getElem?_behind_date] at hbehind
      obtain ⟨c, hc⟩ := matchTemporal_of_known hd.before hbehind (h.known q d htried hd)
      rw [hrest] at hc
      exact ⟨_, (mem_foundIn_of_tried htried _).mpr hc, rfl, temporalRef_date hrest.symm⟩
    · intro p hp
      rw [dayRuns_le_iff]
      exact h.numbers p.start ((mem_places_iff text p.start).mp ⟨p, hp, rfl⟩)
    · exact fun f _ => extractEventBefore_endsBy text f.start

/-- The date `in 3 days`. -/
def inThreeDays : RelativeDate where
  number := ascii "3"
  nonempty := by decide
  decimal := forall_mem_of_all (by decide)
  positive := by decide
  unit := .days

/-- A plural that is not in the table is not found. -/
theorem extracts_misses_plural : ¬ Extracts (ascii "in 3 days") := by
  intro h
  have hstands : StandsAt (ascii "in 3 days") 0 inThreeDays := ⟨rfl, ⟨[], rfl⟩, rfl⟩
  have hroom : countBefore (foundIn (ascii "in 3 days")) 0 < scEventMaxEvents := by
    have hzero : countBefore (foundIn (ascii "in 3 days")) 0 = 0 := by
      rw [countBefore, List.countP_eq_zero]
      intro f _
      simp
    rw [hzero]
    decide
  obtain ⟨f, hf, hstart, -⟩ := h.dates 0 inThreeDays hstands hroom fun f _ hin =>
    Nat.not_lt_zero _ hin.1
  have hat := (found_spec hf).1
  rw [hstart] at hat
  have hend : wordAt ([] : Bytes)[0]? = false := rfl
  have hknown := (matchTemporal_date_some (d := inThreeDays) hend hat).2
  rcases hknown with hday | hweek | hlisted
  · exact absurd hday (by decide)
  · exact absurd hweek (by decide)
  · exact absurd hlisted (by decide)

end SeaClaw.Context
