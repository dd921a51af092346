import SeaClaw.Lib.Strtol
import SeaClaw.Lib.Words

/-!
# Matching a cron schedule

The matcher of `daemon.c`: a schedule is cut at spaces into five fields, a field at commas into
atoms, and an atom is a star, a range or a number. Texts are C strings, without their terminator.
-/

namespace SeaClaw.Cron

open SeaClaw.Lib

/-- `strtol(s, &end, 10)`: the value and `end`, when there is a number. -/
def strtolEnd (s : Bytes) : Option (ℤ × Bytes) :=
  let r := optSign (s.dropWhile isSpace)
  let ds := r.2.takeWhile isDigit
  if ds = [] then none else some (strtol10 s, r.2.drop ds.length)

/-- `parse_cron_int` -/
def parseCronInt (s : Bytes) : Option ℤ :=
  match strtolEnd s with
  | none => none
  | some (v, rest) =>
    if rest ≠ [] then none
    else if v < 0 ∨ 999 < v then none
    else some v

/-- What a star or a range says of a value in it, `step > 0 ? ... % step == 0 : true`. -/
def stepHits (step offset : ℤ) : Bool := if 0 < step then offset.tmod step == 0 else true

/-- `cron_atom_matches`, on the text before the slash. -/
def cronRangeMatches (buf : Bytes) (step value : ℤ) : Bool :=
  if buf = [ch '*'] then stepHits step value
  else
    let start := buf.takeWhile (· ≠ ch '-')
    let dash := buf.drop start.length
    if dash ≠ [] ∧ start ≠ [] then
      match parseCronInt start, parseCronInt dash.tail with
      | some lo, some hi => if value < lo ∨ hi < value then false else stepHits step (value - lo)
      | _, _ => false
    else
      match parseCronInt buf with
      | some exact => exact == value
      | none => false

/-- `cron_atom_matches` -/
def cronAtomMatches (atom : Bytes) (value : ℤ) : Bool :=
  if atom = [] then false
  else if 32 ≤ atom.length then false
  else
    let buf := atom.takeWhile (· ≠ ch '/')
    let slash := atom.drop buf.length
    if slash = [] then cronRangeMatches buf 0 value
    else
      match parseCronInt slash.tail with
      | none => false
      | some step => if step ≤ 0 then false else cronRangeMatches buf step value

/-- `cron_field_matches`; an empty text behind the last comma matches nothing either. -/
def cronFieldMatches (field : Bytes) (value : ℤ) : Bool :=
  if field = [ch '*'] then true else (field.splitOn (ch ',')).any (cronAtomMatches · value)

/-- The loop of `sc_cron_schedule_matches` that finds the fields. -/
def cronFields : ℕ → Bytes → List Bytes
  | 0, _ => []
  | n + 1, tok =>
    let tok := tok.dropWhile (· == ch ' ')
    if tok = [] then []
    else tok.takeWhile (· != ch ' ') :: cronFields n (tok.dropWhile (· != ch ' '))

/-- The fields of `struct tm` that a schedule looks at. -/
structure Tm where
  tmMin : ℤ
  tmHour : ℤ
  tmMday : ℤ
  tmMon : ℤ
  tmWday : ℤ

/-- `sc_cron_schedule_matches` -/
def scCronScheduleMatches (schedule : Bytes) (tm : Tm) : Bool :=
  if 128 ≤ schedule.length then false
  else
    match cronFields 5 schedule with
    | [minute, hour, mday, mon, wday] =>
      cronFieldMatches minute tm.tmMin && cronFieldMatches hour tm.tmHour &&
        cronFieldMatches mday tm.tmMday && cronFieldMatches mon (tm.tmMon + 1) &&
          cronFieldMatches wday tm.tmWday
    | _ => false

/-! ## Numbers -/

/-- A run of digits is read as one number. -/
theorem strtolEnd_digits {ds : Bytes} (hne : ds ≠ []) (hds : ∀ b ∈ ds, isDigit b = true) :
    strtolEnd ds = some (min (natOfDigits 10 ds : ℤ) longMax, []) := by
  have hsign : optSign (ds.dropWhile isSpace) = (false, ds) := by
    obtain ⟨b, r, rfl⟩ := List.exists_cons_of_ne_nil hne
    obtain ⟨hspace, hminus, hplus, -⟩ := not_special_of_isDigit (hds b List.mem_cons_self)
    rw [List.dropWhile_cons_of_neg (by rw [hspace]; exact Bool.false_ne_true), optSign,
      if_neg hminus, if_neg hplus]
  have htake : ds.takeWhile isDigit = ds := List.takeWhile_eq_self_iff.mpr hds
  rw [strtolEnd, hsign]
  simp only [htake, if_neg hne, List.drop_length, strtol10, hsign, leadingNat]
  rfl

/-- Numbers of at most three significant digits are taken. -/
theorem parseCronInt_digits {ds : Bytes} (hne : ds ≠ []) (hds : ∀ b ∈ ds, isDigit b = true) :
    parseCronInt ds =
      if natOfDigits 10 ds ≤ 999 then some (natOfDigits 10 ds : ℤ) else none := by
  have hmax : longMax = 9223372036854775807 := by norm_num [longMax]
  simp only [parseCronInt, strtolEnd_digits hne hds, hmax, ne_eq, not_true_eq_false, if_false]
  split_ifs with hout hle hle
  · omega
  · rfl
  · rw [min_eq_left (by omega)]
  · omega

/-!
# What a cron schedule means

The standard meaning of a schedule, over its syntax: a step counts from the start of its range,
and when both day fields are restricted either one suffices. The matcher reads a step behind a star
as counting from zero, does not read long items or large steps, does not know a seventh weekday and
asks for both day fields.
-/

/-! ## Syntax -/

/-- A decimal number as it is written. -/
structure Numeral where
  digits : Bytes
  nonempty : digits ≠ []
  decimal : ∀ b ∈ digits, isDigit b = true

/-- The value of a number. -/
def Numeral.value (n : Numeral) : ℕ := natOfDigits 10 n.digits

/-- A star, or the numbers from one to another. -/
inductive CronRange where
  | star
  | span (lo hi : Numeral)

/-- An item of a list: a number, or a range that may have a step. -/
inductive CronItem where
  | number (n : Numeral)
  | range (r : CronRange) (step : Option Numeral)

/-- The text of a range. -/
def CronRange.text : CronRange → Bytes
  | .star => [ch '*']
  | .span lo hi => lo.digits ++ ch '-' :: hi.digits

/-- The text of an item. -/
def CronItem.text : CronItem → Bytes
  | .number n => n.digits
  | .range r none => r.text
  | .range r (some k) => r.text ++ ch '/' :: k.digits

/-- The numbers of an item lie between those of its field, and a step is positive. -/
def CronItem.InBounds (first last : ℕ) : CronItem → Prop
  | .number n => first ≤ n.value ∧ n.value ≤ last
  | .range r step =>
    (∀ k ∈ step, 0 < k.value) ∧
      match r with
      | .star => True
      | .span lo hi => first ≤ lo.value ∧ lo.value ≤ hi.value ∧ hi.value ≤ last

/-- A field whose values go from `first` to `last`: a list of items. -/
structure CronField (first last : ℕ) where
  items : List CronItem
  nonempty : items ≠ []
  inBounds : ∀ i ∈ items, i.InBounds first last

/-- The text of a field. -/
def CronField.text {first last : ℕ} (f : CronField first last) : Bytes :=
  [ch ','].intercalate (f.items.map CronItem.text)

/-- The five fields of a schedule. -/
structure CronSchedule where
  minute : CronField 0 59
  hour : CronField 0 23
  monthDay : CronField 1 31
  month : CronField 1 12
  weekday : CronField 0 7

/-- A text spells a schedule when its words are the texts of the fields. -/
def CronSchedule.Spells (s : Bytes) (c : CronSchedule) : Prop :=
  Words.words (· == ch ' ') s =
    [c.minute.text, c.hour.text, c.monthDay.text, c.month.text, c.weekday.text]

/-! ## Standard meaning -/

/-- The value is a whole number of steps behind the start. -/
def OnStep (step : Option Numeral) (start v : ℤ) : Prop := ∀ k ∈ step, (k.value : ℤ) ∣ v - start

/-- The values of an item, in a field that starts at `first`. -/
def CronItem.Meets (first : ℤ) (v : ℤ) : CronItem → Prop
  | .number n => v = n.value
  | .range .star step => OnStep step first v
  | .range (.span lo hi) step => lo.value ≤ v ∧ v ≤ hi.value ∧ OnStep step lo.value v

variable {first last : ℕ}

/-- The values of a field. -/
def CronField.Meets (f : CronField first last) (v : ℤ) : Prop := ∃ i ∈ f.items, i.Meets first v

/-- The days of a weekday field, where 7 is Sunday as well. -/
def CronField.MeetsDay (f : CronField first last) (v : ℤ) : Prop :=
  f.Meets v ∨ v = 0 ∧ f.Meets 7

/-- A field that is not a star alone. -/
def CronField.Restricted (f : CronField first last) : Prop := f.text ≠ [ch '*']

instance (f : CronField first last) : Decidable f.Restricted :=
  inferInstanceAs (Decidable (f.text ≠ [ch '*']))

/-- A time as the calendar has it, each field in its range. -/
structure Tm.InRange (t : Tm) : Prop where
  minute : 0 ≤ t.tmMin ∧ t.tmMin ≤ 59
  hour : 0 ≤ t.tmHour ∧ t.tmHour ≤ 23
  monthDay : 1 ≤ t.tmMday ∧ t.tmMday ≤ 31
  month : 0 ≤ t.tmMon ∧ t.tmMon ≤ 11
  weekday : 0 ≤ t.tmWday ∧ t.tmWday ≤ 6

/-- The day of a time is one of the schedule: when both day fields are restricted, either
suffices. -/
def CronSchedule.MeetsDate (c : CronSchedule) (t : Tm) : Prop :=
  if c.monthDay.Restricted ∧ c.weekday.Restricted then
    c.monthDay.Meets t.tmMday ∨ c.weekday.MeetsDay t.tmWday
  else c.monthDay.Meets t.tmMday ∧ c.weekday.MeetsDay t.tmWday

/-- A time is one of the schedule. -/
def CronSchedule.Meets (c : CronSchedule) (t : Tm) : Prop :=
  c.minute.Meets t.tmMin ∧ c.hour.Meets t.tmHour ∧ c.month.Meets (t.tmMon + 1) ∧ c.MeetsDate t

/-! ## As it is read -/

/-- An item that is read at all: shorter than 32 octets, and with a step of at most 999. -/
def CronItem.Readable (i : CronItem) : Prop :=
  i.text.length < 32 ∧
    match i with
    | .number _ => True
    | .range _ step => ∀ k ∈ step, k.value ≤ 999

/-- The values of a field when items that are not readable are left out and steps behind a star
count from zero. -/
def CronField.Reads (f : CronField first last) (v : ℤ) : Prop :=
  ∃ i ∈ f.items, i.Readable ∧ i.Meets 0 v

/-- The schedule means what it says although it is read as it is: each field is read with its own
values, and when both day fields are restricted each is read with every day. -/
structure CronSchedule.ReadAsMeant (c : CronSchedule) : Prop where
  minute : ∀ v : ℤ, 0 ≤ v → v ≤ 59 → (c.minute.Reads v ↔ c.minute.Meets v)
  hour : ∀ v : ℤ, 0 ≤ v → v ≤ 23 → (c.hour.Reads v ↔ c.hour.Meets v)
  month : ∀ v : ℤ, 1 ≤ v → v ≤ 12 → (c.month.Reads v ↔ c.month.Meets v)
  oneDay : ¬ (c.monthDay.Restricted ∧ c.weekday.Restricted) →
    (∀ v : ℤ, 1 ≤ v → v ≤ 31 → (c.monthDay.Reads v ↔ c.monthDay.Meets v)) ∧
      ∀ v : ℤ, 0 ≤ v → v ≤ 6 → (c.weekday.Reads v ↔ c.weekday.MeetsDay v)
  eitherDay : c.monthDay.Restricted ∧ c.weekday.Restricted →
    (∀ v : ℤ, 1 ≤ v → v ≤ 31 → c.monthDay.Reads v) ∧ ∀ v : ℤ, 0 ≤ v → v ≤ 6 → c.weekday.Reads v

/-! ## Texts of items -/

/-- Cutting a text at the first place of an octet. -/
theorem takeWhile_cut {b : UInt8} {l : Bytes} (hl : b ∉ l) (r : Bytes) :
    (l ++ b :: r).takeWhile (· ≠ b) = l := by
  rw [List.takeWhile_append_of_pos]
  · rw [List.takeWhile_cons_of_neg (by simp), List.append_nil]
  · intro c hc
    rw [decide_eq_true_eq]
    rintro rfl
    exact hl hc

theorem takeWhile_ne_self {b : UInt8} {l : Bytes} (hl : b ∉ l) : l.takeWhile (· ≠ b) = l := by
  rw [List.takeWhile_eq_self_iff]
  intro c hc
  rw [decide_eq_true_eq]
  rintro rfl
  exact hl hc

/-- What is no digit is not in a number. -/
theorem Numeral.notMem (n : Numeral) {b : UInt8} (hb : isDigit b = false) : b ∉ n.digits := by
  intro hmem
  rw [n.decimal b hmem] at hb
  exact Bool.noConfusion hb

theorem CronRange.notMem (r : CronRange) {b : UInt8} (hb : isDigit b = false)
    (hstar : b ≠ ch '*') (hdash : b ≠ ch '-') : b ∉ r.text := by
  cases r with
  | star =>
    rw [CronRange.text, List.mem_singleton]
    exact hstar
  | span lo hi =>
    rw [CronRange.text, List.mem_append, List.mem_cons, not_or, not_or]
    exact ⟨lo.notMem hb, hdash, hi.notMem hb⟩

/-- Items have no comma. -/
theorem CronItem.comma_notMem (i : CronItem) : ch ',' ∉ i.text := by
  have hcomma : isDigit (ch ',') = false := by decide
  cases i with
  | number n => exact n.notMem hcomma
  | range r step =>
    have hr := r.notMem hcomma (by decide) (by decide)
    cases step with
    | none => exact hr
    | some k =>
      rw [CronItem.text, List.mem_append, List.mem_cons, not_or, not_or]
      exact ⟨hr, by decide, k.notMem hcomma⟩

theorem CronRange.text_ne_nil (r : CronRange) : r.text ≠ [] := by
  cases r with
  | star => exact List.cons_ne_nil _ _
  | span lo hi => exact List.append_ne_nil_of_right_ne_nil _ (List.cons_ne_nil _ _)

theorem CronItem.text_ne_nil (i : CronItem) : i.text ≠ [] := by
  cases i with
  | number n => exact n.nonempty
  | range r step =>
    cases step with
    | none => exact r.text_ne_nil
    | some k => exact List.append_ne_nil_of_left_ne_nil r.text_ne_nil _

/-! ## Reading an item -/

/-- The step that an item is read with, zero for none. -/
def stepValue (step : Option Numeral) : ℤ := (step.map fun k => (k.value : ℤ)).getD 0

theorem stepHits_iff {step : Option Numeral} (hpos : ∀ k ∈ step, 0 < k.value) (start v : ℤ) :
    stepHits (stepValue step) (v - start) = true ↔ OnStep step start v := by
  cases step with
  | none => simp [stepHits, stepValue, OnStep]
  | some k =>
    have hk : (0 : ℤ) < k.value := by exact_mod_cast hpos k rfl
    rw [stepValue, Option.map_some, Option.getD_some, stepHits, if_pos hk, beq_iff_eq,
      ← Int.dvd_iff_tmod_eq_zero, OnStep]
    simp only [Option.mem_def, Option.some.injEq, forall_eq']

theorem parseCronInt_numeral (n : Numeral) :
    parseCronInt n.digits = if n.value ≤ 999 then some (n.value : ℤ) else none :=
  parseCronInt_digits n.nonempty n.decimal

/-- A number without a range. -/
theorem cronRangeMatches_number {n : Numeral} (hn : n.value ≤ 999) (step v : ℤ) :
    cronRangeMatches n.digits step v = true ↔ v = n.value := by
  have hstar : n.digits ≠ [ch '*'] := by
    intro h
    exact n.notMem (show isDigit (ch '*') = false by decide) (h ▸ List.mem_singleton_self _)
  have hdash := takeWhile_ne_self (n.notMem (show isDigit (ch '-') = false by decide))
  have hdrop : n.digits.drop n.digits.length = [] := List.drop_length
  rw [cronRangeMatches, if_neg hstar]
  simp only [hdash, hdrop, ne_eq, not_true_eq_false, false_and, if_false, parseCronInt_numeral,
    if_pos hn, beq_iff_eq]
  exact eq_comm

/-- A range. -/
theorem cronRangeMatches_range {r : CronRange} {step : Option Numeral}
    (hpos : ∀ k ∈ step, 0 < k.value) (hlast : last ≤ 999)
    (hr : (CronItem.range r step).InBounds first last) (v : ℤ) :
    cronRangeMatches r.text (stepValue step) v = true ↔ (CronItem.range r step).Meets 0 v := by
  cases r with
  | star =>
    rw [cronRangeMatches, CronRange.text, if_pos rfl, CronItem.Meets, ← stepHits_iff hpos,
      sub_zero]
  | span lo hi =>
    obtain ⟨-, hfirst, hle, hhi⟩ := hr
    have hlo := lo.notMem (show isDigit (ch '-') = false by decide)
    have hstar : lo.digits ++ ch '-' :: hi.digits ≠ [ch '*'] := by
      intro h
      have hmem : ch '-' ∈ lo.digits ++ ch '-' :: hi.digits :=
        List.mem_append_right _ List.mem_cons_self
      rw [h, List.mem_singleton] at hmem
      exact absurd hmem (by decide)
    have htake := takeWhile_cut hlo hi.digits
    have hdrop : (lo.digits ++ ch '-' :: hi.digits).drop lo.digits.length =
        ch '-' :: hi.digits := List.drop_left
    have hparts : ch '-' :: hi.digits ≠ [] ∧ lo.digits ≠ [] :=
      ⟨List.cons_ne_nil _ _, lo.nonempty⟩
    rw [cronRangeMatches, CronRange.text, if_neg hstar]
    simp only [htake, hdrop, if_pos hparts, List.tail_cons, parseCronInt_numeral,
      if_pos (show lo.value ≤ 999 by omega), if_pos (show hi.value ≤ 999 by omega)]
    rw [CronItem.Meets, ← stepHits_iff hpos]
    split_ifs with hout
    · constructor
      · intro h
        exact h.elim
      · intro ⟨h1, h2, _⟩
        omega
    · rw [not_or, not_lt, not_lt] at hout
      constructor
      · intro h
        exact ⟨hout.1, hout.2, h⟩
      · intro ⟨_, _, h⟩
        exact h

/-- An item is matched by its values, if it is readable. -/
theorem cronAtomMatches_iff {i : CronItem} (hlast : last ≤ 999) (hi : i.InBounds first last)
    (v : ℤ) : cronAtomMatches i.text v = true ↔ i.Readable ∧ i.Meets 0 v := by
  have hslash : isDigit (ch '/') = false := by decide
  rw [cronAtomMatches, if_neg i.text_ne_nil]
  by_cases hlen : 32 ≤ i.text.length
  · rw [if_pos hlen]
    constructor
    · intro h
      exact Bool.noConfusion h
    · intro ⟨⟨hshort, _⟩, _⟩
      omega
  · rw [if_neg hlen]
    have hshort : i.text.length < 32 := Nat.lt_of_not_le hlen
    cases i with
    | number n =>
      have htake := takeWhile_ne_self (n.notMem hslash)
      have hdrop : n.digits.drop n.digits.length = [] := List.drop_length
      simp only [CronItem.text, htake, hdrop, if_true,
        cronRangeMatches_number (show n.value ≤ 999 from hi.2.trans hlast)]
      simp only [CronItem.Meets]
      exact ⟨fun h => ⟨⟨hshort, trivial⟩, h⟩, fun h => h.2⟩
    | range r step =>
      have hr := r.notMem hslash (by decide) (by decide)
      have hmatch := cronRangeMatches_range hi.1 hlast hi v
      cases step with
      | none =>
        have htake := takeWhile_ne_self hr
        have hdrop : r.text.drop r.text.length = [] := List.drop_length
        simp only [CronItem.text, htake, hdrop, if_true]
        rw [show (0 : ℤ) = stepValue none from rfl, hmatch]
        refine ⟨fun h => ⟨⟨hshort, ?_⟩, h⟩, fun h => h.2⟩
        intro k hk
        exact absurd hk (Option.not_mem_none k)
      | some k =>
        have htake := takeWhile_cut hr k.digits
        have hdrop : (r.text ++ ch '/' :: k.digits).drop r.text.length = ch '/' :: k.digits :=
          List.drop_left
        have hpos : 0 < k.value := hi.1 k rfl
        simp only [CronItem.text, htake, hdrop, if_neg (List.cons_ne_nil _ _), List.tail_cons,
          parseCronInt_numeral]
        have hreadable : (CronItem.range r (some k)).Readable ↔ k.value ≤ 999 := by
          refine ⟨fun h => h.2 k rfl, fun h => ⟨hshort, ?_⟩⟩
          intro k' hk'
          rwa [← Option.some.inj hk']
        rw [hreadable, ← hmatch]
        split_ifs with hk
        · simp only [if_neg (show ¬ (k.value : ℤ) ≤ 0 by omega), hk, true_and]
          rfl
        · simp only [hk, false_and]

/-! ## Reading a field and a schedule -/

theorem cronFieldMatches_eq (field : Bytes) (v : ℤ) :
    cronFieldMatches field v = (field.splitOn (ch ',')).any (cronAtomMatches · v) := by
  rw [cronFieldMatches]
  split_ifs with hstar
  · rw [hstar]
    rfl
  · rfl

/-- A field is matched by the values that it is read with. -/
theorem cronFieldMatches_iff (hlast : last ≤ 999) (f : CronField first last) (v : ℤ) :
    cronFieldMatches f.text v = true ↔ f.Reads v := by
  have hcomma : ∀ l ∈ f.items.map CronItem.text, ch ',' ∉ l := by
    intro l hl
    obtain ⟨i, -, rfl⟩ := List.mem_map.mp hl
    exact i.comma_notMem
  have hne : f.items.map CronItem.text ≠ [] := by
    intro h
    exact f.nonempty (List.map_eq_nil_iff.mp h)
  rw [cronFieldMatches_eq, CronField.text, List.splitOn_intercalate _ hcomma hne, List.any_map,
    List.any_eq_true]
  constructor
  · intro ⟨i, hi, hmatch⟩
    exact ⟨i, hi, (cronAtomMatches_iff hlast (f.inBounds i hi) v).mp hmatch⟩
  · intro ⟨i, hi, hmeets⟩
    exact ⟨i, hi, (cronAtomMatches_iff hlast (f.inBounds i hi) v).mpr hmeets⟩

/-- The fields are the first words. -/
theorem cronFields_eq_take (n : ℕ) (s : Bytes) :
    cronFields n s = (Words.words (· == ch ' ') s).take n := by
  induction n generalizing s with
  | zero => rfl
  | succ n ih =>
    have hskip := Words.words_dropWhile (· == ch ' ') s
    have hhead : ∀ b ∈ (s.dropWhile (· == ch ' ')).head?, (b == ch ' ') = false :=
      fun b hb => Words.head?_dropWhile_sep (· == ch ' ') hb
    rw [cronFields, ← hskip]
    generalize s.dropWhile (· == ch ' ') = t at hhead
    split_ifs with hempty
    · rw [hempty]
      rfl
    · rw [ih, Words.words_eq_cons hempty hhead, List.take_succ_cons]
      rfl

/-- A schedule is matched when each field is. -/
theorem scCronScheduleMatches_iff {s : Bytes} {c : CronSchedule} (hs : c.Spells s)
    (hlen : s.length < 128) (t : Tm) :
    scCronScheduleMatches s t = true ↔ c.minute.Reads t.tmMin ∧ c.hour.Reads t.tmHour ∧
      c.monthDay.Reads t.tmMday ∧ c.month.Reads (t.tmMon + 1) ∧ c.weekday.Reads t.tmWday := by
  have hfields : cronFields 5 s =
      [c.minute.text, c.hour.text, c.monthDay.text, c.month.text, c.weekday.text] := by
    rw [cronFields_eq_take, hs]
    rfl
  rw [scCronScheduleMatches, if_neg (Nat.not_le.mpr hlen), hfields]
  simp only [Bool.and_eq_true, and_assoc, cronFieldMatches_iff (show 59 ≤ 999 by decide),
    cronFieldMatches_iff (show 23 ≤ 999 by decide), cronFieldMatches_iff (show 31 ≤ 999 by decide),
    cronFieldMatches_iff (show 12 ≤ 999 by decide), cronFieldMatches_iff (show 7 ≤ 999 by decide)]

/-! ## When a schedule means what it says -/

/-- Every field has a value. -/
theorem CronField.exists_meets (f : CronField first last) (hle : first ≤ last) :
    ∃ v : ℤ, (first ≤ v ∧ v ≤ last) ∧ f.Meets v := by
  obtain ⟨i, hi⟩ := List.exists_mem_of_ne_nil _ f.nonempty
  have hbounds := f.inBounds i hi
  have hstart : ∀ (step : Option Numeral) (v : ℤ), OnStep step v v := by
    intro step v k _
    rw [sub_self]
    exact dvd_zero _
  cases i with
  | number n =>
    exact ⟨n.value, ⟨by exact_mod_cast hbounds.1, by exact_mod_cast hbounds.2⟩, _, hi, rfl⟩
  | range r step =>
    cases r with
    | star => exact ⟨first, ⟨le_rfl, by exact_mod_cast hle⟩, _, hi, hstart step first⟩
    | span lo hi' =>
      obtain ⟨-, hfirst, hmid, hlast⟩ := hbounds
      refine ⟨lo.value, ⟨by exact_mod_cast hfirst, ?_⟩, _, hi, le_rfl, ?_, hstart step lo.value⟩
      · exact_mod_cast hmid.trans hlast
      · exact_mod_cast hmid

/-- In a field that starts at zero nothing is read that is not meant. -/
theorem CronField.Reads.meets {f : CronField 0 last} {v : ℤ} (h : f.Reads v) : f.Meets v := by
  obtain ⟨i, hi, -, hmeets⟩ := h
  exact ⟨i, hi, hmeets⟩

/-- Every weekday field has a day. -/
theorem CronField.exists_meetsDay (f : CronField 0 7) :
    ∃ v : ℤ, (0 ≤ v ∧ v ≤ 6) ∧ f.MeetsDay v := by
  obtain ⟨v, ⟨hlow, hhigh⟩, hmeets⟩ := f.exists_meets (by decide)
  rw [Nat.cast_zero] at hlow
  rcases Int.lt_or_eq_of_le hhigh with hlt | rfl
  · refine ⟨v, ⟨hlow, ?_⟩, Or.inl hmeets⟩
    rw [Nat.cast_ofNat] at hlt
    omega
  · exact ⟨0, ⟨le_rfl, by decide⟩, Or.inr ⟨rfl, hmeets⟩⟩

/-- Values of the five fields that the schedule is read with are values that it means. -/
def CronSchedule.Agrees (c : CronSchedule) : Prop :=
  ∀ t : Tm, t.InRange → (c.minute.Reads t.tmMin ∧ c.hour.Reads t.tmHour ∧
    c.monthDay.Reads t.tmMday ∧ c.month.Reads (t.tmMon + 1) ∧ c.weekday.Reads t.tmWday ↔ c.Meets t)

theorem CronSchedule.ReadAsMeant.agrees {c : CronSchedule} (h : c.ReadAsMeant) : c.Agrees := by
  intro t ht
  have hminute := h.minute t.tmMin ht.minute.1 ht.minute.2
  have hhour := h.hour t.tmHour ht.hour.1 ht.hour.2
  have hmonth := h.month (t.tmMon + 1) (by have := ht.month.1; omega)
    (by have := ht.month.2; omega)
  have hday : c.monthDay.Reads t.tmMday ∧ c.weekday.Reads t.tmWday ↔ c.MeetsDate t := by
    by_cases hboth : c.monthDay.Restricted ∧ c.weekday.Restricted
    · obtain ⟨hall, hall'⟩ := h.eitherDay hboth
      have hd := hall t.tmMday ht.monthDay.1 ht.monthDay.2
      have hw := hall' t.tmWday ht.weekday.1 ht.weekday.2
      rw [CronSchedule.MeetsDate, if_pos hboth]
      exact ⟨fun _ => Or.inr (Or.inl hw.meets), fun _ => ⟨hd, hw⟩⟩
    · obtain ⟨hd, hw⟩ := h.oneDay hboth
      rw [CronSchedule.MeetsDate, if_neg hboth, hd t.tmMday ht.monthDay.1 ht.monthDay.2,
        hw t.tmWday ht.weekday.1 ht.weekday.2]
  rw [CronSchedule.Meets, hminute, hhour, hmonth, ← hday]
  tauto

/-- A schedule that agrees at each time is read as it is meant: a time of the schedule is taken, and
one of its values is exchanged. -/
theorem CronSchedule.Agrees.readAsMeant {c : CronSchedule} (h : c.Agrees) : c.ReadAsMeant := by
  obtain ⟨m, hm, hminute⟩ := c.minute.exists_meets (by decide)
  obtain ⟨o, ho, hhour⟩ := c.hour.exists_meets (by decide)
  obtain ⟨d, hd, hday⟩ := c.monthDay.exists_meets (by decide)
  obtain ⟨n, hn, hmonth⟩ := c.month.exists_meets (by decide)
  obtain ⟨w, hw, hweekday⟩ := c.weekday.exists_meetsDay
  have hagree : ∀ {m o d n w : ℤ}, 0 ≤ m ∧ m ≤ 59 → 0 ≤ o ∧ o ≤ 23 → 1 ≤ d ∧ d ≤ 31 →
      1 ≤ n ∧ n ≤ 12 → 0 ≤ w ∧ w ≤ 6 →
        (c.minute.Reads m ∧ c.hour.Reads o ∧ c.monthDay.Reads d ∧ c.month.Reads n ∧
            c.weekday.Reads w ↔
          c.minute.Meets m ∧ c.hour.Meets o ∧ c.month.Meets n ∧
            c.MeetsDate ⟨m, o, d, n - 1, w⟩) := by
    intro m o d n w hm ho hd hn hw
    have hspec := h ⟨m, o, d, n - 1, w⟩ ⟨hm, ho, hd, by constructor <;> dsimp only <;> omega, hw⟩
    simp only [CronSchedule.Meets, sub_add_cancel] at hspec
    exact hspec
  have hdate : ∀ m o n, c.MeetsDate ⟨m, o, d, n, w⟩ := by
    intro m o n
    unfold CronSchedule.MeetsDate
    split_ifs
    · exact Or.inl hday
    · exact ⟨hday, hweekday⟩
  obtain ⟨rm, ro, rd, rn, rw'⟩ :=
    (hagree hm ho hd hn hw).mpr ⟨hminute, hhour, hmonth, hdate m o (n - 1)⟩
  refine ⟨?_, ?_, ?_, ?_, ?_⟩
  · intro v hlow hhigh
    have hv := hagree ⟨hlow, hhigh⟩ ho hd hn hw
    exact ⟨fun hr => (hv.mp ⟨hr, ro, rd, rn, rw'⟩).1,
      fun hr => (hv.mpr ⟨hr, hhour, hmonth, hdate v o (n - 1)⟩).1⟩
  · intro v hlow hhigh
    have hv := hagree hm ⟨hlow, hhigh⟩ hd hn hw
    exact ⟨fun hr => (hv.mp ⟨rm, hr, rd, rn, rw'⟩).2.1,
      fun hr => (hv.mpr ⟨hminute, hr, hmonth, hdate m v (n - 1)⟩).2.1⟩
  · intro v hlow hhigh
    have hv := hagree hm ho hd ⟨hlow, hhigh⟩ hw
    exact ⟨fun hr => (hv.mp ⟨rm, ro, rd, hr, rw'⟩).2.2.1,
      fun hr => (hv.mpr ⟨hminute, hhour, hr, hdate m o (v - 1)⟩).2.2.2.1⟩
  · intro hone
    have hboth : ∀ m o d n w : ℤ, c.MeetsDate ⟨m, o, d, n, w⟩ ↔
        c.monthDay.Meets d ∧ c.weekday.MeetsDay w := by
      intro m o d n w
      rw [CronSchedule.MeetsDate, if_neg hone]
    constructor
    · intro v hlow hhigh
      have hv := hagree hm ho ⟨hlow, hhigh⟩ hn hw
      rw [hboth] at hv
      exact ⟨fun hr => (hv.mp ⟨rm, ro, hr, rn, rw'⟩).2.2.2.1,
        fun hr => (hv.mpr ⟨hminute, hhour, hmonth, hr, hweekday⟩).2.2.1⟩
    · intro v hlow hhigh
      have hv := hagree hm ho hd hn ⟨hlow, hhigh⟩
      rw [hboth] at hv
      exact ⟨fun hr => (hv.mp ⟨rm, ro, rd, rn, hr⟩).2.2.2.2,
        fun hr => (hv.mpr ⟨hminute, hhour, hmonth, hday, hr⟩).2.2.2.2⟩
  · intro htwo
    have heither : ∀ m o d n w : ℤ, c.MeetsDate ⟨m, o, d, n, w⟩ ↔
        c.monthDay.Meets d ∨ c.weekday.MeetsDay w := by
      intro m o d n w
      rw [CronSchedule.MeetsDate, if_pos htwo]
    constructor
    · intro v hlow hhigh
      have hv := hagree hm ho ⟨hlow, hhigh⟩ hn hw
      rw [heither] at hv
      exact (hv.mpr ⟨hminute, hhour, hmonth, Or.inr hweekday⟩).2.2.1
    · intro v hlow hhigh
      have hv := hagree hm ho hd hn ⟨hlow, hhigh⟩
      rw [heither] at hv
      exact (hv.mpr ⟨hminute, hhour, hmonth, Or.inl hday⟩).2.2.2.2

/-- The matcher agrees with the standard meaning at every time if and only if the schedule is one
that means what it says although it is read as it is. -/
theorem scCronScheduleMatches_standard_iff (c : CronSchedule) {s : Bytes} (hs : c.Spells s)
    (hlen : s.length < 128) :
    (∀ t : Tm, t.InRange → (scCronScheduleMatches s t = true ↔ c.Meets t)) ↔ c.ReadAsMeant := by
  simp only [scCronScheduleMatches_iff hs hlen]
  exact ⟨CronSchedule.Agrees.readAsMeant, CronSchedule.ReadAsMeant.agrees⟩

/-- A field that is a star. -/
def starField (first last : ℕ) : CronField first last where
  items := [.range .star none]
  nonempty := List.cons_ne_nil _ _
  inBounds := by
    intro i hi
    rw [List.mem_singleton.mp hi]
    exact ⟨fun k hk => absurd hk (Option.not_mem_none k), trivial⟩

/-- The number 2. -/
def numeralTwo : Numeral where
  digits := ascii "2"
  nonempty := by decide
  decimal := forall_mem_of_all (by decide)

/-- A field that is a star with the step 2. -/
def everySecond (first last : ℕ) : CronField first last where
  items := [.range .star (some numeralTwo)]
  nonempty := List.cons_ne_nil _ _
  inBounds := by
    intro i hi
    rw [List.mem_singleton.mp hi]
    refine ⟨fun k hk => ?_, trivial⟩
    rw [← Option.some.inj hk]
    decide

/-- The schedule of every minute. -/
def everyMinute : CronSchedule :=
  ⟨starField 0 59, starField 0 23, starField 1 31, starField 1 12, starField 0 7⟩

/-- The schedule of every second day of the month. -/
def everySecondDay : CronSchedule := { everyMinute with monthDay := everySecond 1 31 }

/-- Every minute. -/
theorem scCronScheduleMatches_every_minute :
    (∀ t : Tm, t.InRange →
      (scCronScheduleMatches (ascii "* * * * *") t = true ↔ everyMinute.Meets t)) ↔
        everyMinute.ReadAsMeant :=
  scCronScheduleMatches_standard_iff _ rfl (by decide)

/-- Every second day of the month counts from the first one, which is not matched. -/
theorem scCronScheduleMatches_misses_first :
    everySecondDay.Spells (ascii "* * */2 * *") ∧ Tm.InRange ⟨0, 0, 1, 0, 4⟩ ∧
      ¬ (scCronScheduleMatches (ascii "* * */2 * *") ⟨0, 0, 1, 0, 4⟩ = true ↔
        everySecondDay.Meets ⟨0, 0, 1, 0, 4⟩) := by
  have hstar : ∀ (first last : ℕ) (v : ℤ), (starField first last).Meets v := by
    intro first last v
    exact ⟨_, List.mem_singleton_self _, fun k hk => absurd hk (Option.not_mem_none k)⟩
  have hday : (everySecond 1 31).Meets 1 := by
    refine ⟨_, List.mem_singleton_self _, fun k _ => ?_⟩
    exact dvd_zero _
  have hmeets : everySecondDay.Meets ⟨0, 0, 1, 0, 4⟩ := by
    refine ⟨hstar _ _ _, hstar _ _ _, hstar _ _ _, ?_⟩
    rw [CronSchedule.MeetsDate, if_neg (by decide)]
    exact ⟨hday, Or.inl (hstar _ _ _)⟩
  have hcode : scCronScheduleMatches (ascii "* * */2 * *") ⟨0, 0, 1, 0, 4⟩ = false := by decide
  refine ⟨rfl, ⟨by decide, by decide, by decide, by decide, by decide⟩, ?_⟩
  rw [hcode]
  intro h
  exact Bool.noConfusion (h.mpr hmeets)

end SeaClaw.Cron
