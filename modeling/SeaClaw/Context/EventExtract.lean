import SeaClaw.Lib.Strtod
import SeaClaw.Memory.Entry
import SeaClaw.Providers.Scrub

/-!
# Extracting dated events

`context/event_extract.c`. At each place of a text that is not blank several matchers are tried in
order for a temporal phrase; a phrase is reported with a description from the text before it, and
the search goes on behind it. Allocations succeed.
-/

namespace SeaClaw.Context

open SeaClaw.Lib Memory Providers

/-! ## Octets -/

/-- `is_word_char` -/
def isWordChar (b : UInt8) : Bool := isAlnum b || b == ch '\'' || b == ch '-'

/-- What `is_word_boundary` and the trimming loops call blank. -/
def isBlank (b : UInt8) : Bool := b ≤ 0x20

/-- `is_word_boundary` -/
def isWordBoundary (b : UInt8) : Bool := isBlank b || (ascii ".,!?;:").contains b

/-- An octet that is there and in a word. -/
def wordAt (b : Option UInt8) : Bool := b.any isWordChar

/-! ## Temporal phrases -/

/-- A phrase that was found: its length and the confidence. -/
abbrev Temporal := ℕ × ℚ

/-- `TEMPORAL_PATTERNS`: texts with the lengths that stand beside them. -/
def temporalPatterns : List (String × ℕ × ℚ) :=
  [("tomorrow", 8, 0.85), ("today", 5, 0.85), ("yesterday", 9, 0.85), ("next week", 9, 0.75),
    ("this week", 9, 0.75), ("last week", 9, 0.75), ("next month", 10, 0.75),
    ("this month", 10, 0.75), ("last month", 10, 0.75), ("on Monday", 9, 0.8),
    ("on Tuesday", 10, 0.8), ("on Wednesday", 12, 0.8), ("on Thursday", 11, 0.8),
    ("on Friday", 9, 0.8), ("on Saturday", 11, 0.8), ("on Sunday", 9, 0.8),
    ("this Monday", 11, 0.8), ("this Tuesday", 12, 0.8), ("this Wednesday", 14, 0.8),
    ("this Thursday", 13, 0.8), ("this Friday", 11, 0.8), ("this Saturday", 13, 0.8),
    ("this Sunday", 11, 0.8), ("next Monday", 11, 0.8), ("next Tuesday", 12, 0.8),
    ("next Wednesday", 14, 0.8), ("next Thursday", 13, 0.8), ("next Friday", 11, 0.8),
    ("next Saturday", 13, 0.8), ("next Sunday", 11, 0.8), ("Monday", 6, 0.75),
    ("Tuesday", 7, 0.75), ("Wednesday", 9, 0.75), ("Thursday", 8, 0.75), ("Friday", 6, 0.75),
    ("Saturday", 8, 0.75), ("Sunday", 6, 0.75), ("January 1st", 11, 0.95),
    ("January 2nd", 11, 0.95), ("January 3rd", 11, 0.95), ("January 15th", 12, 0.95),
    ("January 5", 9, 0.95), ("February 15th", 14, 0.95), ("March 15th", 10, 0.95),
    ("March 15", 9, 0.95), ("April 15th", 11, 0.95), ("May 15th", 9, 0.95),
    ("June 15th", 10, 0.95), ("July 15th", 10, 0.95), ("August 15th", 12, 0.95),
    ("September 15th", 15, 0.95), ("October 15th", 13, 0.95), ("November 15th", 14, 0.95),
    ("December 15th", 14, 0.95), ("on January 15th", 16, 0.95), ("on February 15th", 17, 0.95),
    ("on March 15th", 13, 0.95), ("on April 15th", 14, 0.95), ("on May 15th", 12, 0.95),
    ("on June 15th", 13, 0.95), ("on July 15th", 13, 0.95), ("on August 15th", 15, 0.95),
    ("on September 15th", 18, 0.95), ("on October 15th", 16, 0.95),
    ("on November 15th", 17, 0.95), ("on December 15th", 17, 0.95), ("on the 1st", 10, 0.9),
    ("on the 2nd", 10, 0.9), ("on the 3rd", 10, 0.9), ("on the 15th", 11, 0.9),
    ("on the 21st", 11, 0.9), ("on the 22nd", 11, 0.9), ("on the 23rd", 11, 0.9),
    ("on the 31st", 11, 0.9), ("the 15th", 8, 0.85), ("in 1 day", 8, 0.8), ("in 2 days", 9, 0.8),
    ("in 7 days", 9, 0.8), ("in 14 days", 10, 0.8), ("in 1 week", 9, 0.8),
    ("in 2 weeks", 10, 0.8)]

/-- The octets of a pattern that are compared, with the terminator where the length counts it. -/
def patternOctets (pat : String × ℕ × ℚ) : Bytes := (ascii pat.1 ++ [0]).take pat.2.1

/-- `MONTHS` -/
def months : List Bytes :=
  [ascii "January", ascii "February", ascii "March", ascii "April", ascii "May", ascii "June",
    ascii "July", ascii "August", ascii "September", ascii "October", ascii "November",
    ascii "December"]

/-- The ending that belongs to a day. -/
def daySuffix (day : ℕ) : Bytes :=
  if day = 1 ∨ day = 21 ∨ day = 31 then ascii "st"
  else if day = 2 ∨ day = 22 then ascii "nd"
  else if day = 3 ∨ day = 23 then ascii "rd"
  else ascii "th"

/-- The digits behind a month, with what follows them. -/
def monthDigits (month s : Bytes) : Option (Bytes × Bytes) :=
  if s.length < month.length + 2 ∨ ¬ startsFold month s then none
  else
    let r := (s.drop month.length).dropWhile (· == ch ' ')
    let ds := r.takeWhile isDigit
    if ds = [] ∨ 2 < ds.length then none else some (ds, r.drop ds.length)

/-- One round of `match_month_date`. -/
def matchMonth (month s : Bytes) : Option Temporal :=
  match monthDigits month s with
  | none => none
  | some (ds, r) =>
    let day := natOfDigits 10 ds
    if day < 1 ∨ 31 < day then none
    else
      let i := s.length - r.length
      let suffix :=
        if r.head?.any ((ascii "snrt").contains ·) ∧ startsFold (daySuffix day) r then 2 else 0
      if 0 < suffix ∧ wordAt r[suffix]? then none else some (i + suffix, 0.95)

/-- `match_month_date` -/
def matchMonthDate (s : Bytes) : Option Temporal := months.findSome? (matchMonth · s)

/-- The digits of `on the N`, with what follows them. -/
def onTheDigits (s : Bytes) : Option (Bytes × Bytes) :=
  if s.length < 5 ∨ ¬ startsFold (ascii "on ") s ∨ ¬ startsFold (ascii "the ") (s.drop 3) then none
  else
    let r := (s.drop 7).dropWhile (· == ch ' ')
    let ds := r.takeWhile isDigit
    if ds = [] then none else some (ds, r.drop ds.length)

/-- A sum that does not fit into an `int`, as it is stored. -/
def wrapInt (v : ℤ) : ℤ := Int.bmod v (2 ^ 32)

/-- `day = day * 10 + (text[d] - '0')` over some digits. -/
def accumulateDay (ds : Bytes) : ℤ :=
  ds.foldl (fun day d => wrapInt (day * 10 + ((hexVal d).getD 0 : ℕ))) 0

/-- The ending of the day in `on the N`. -/
def ordinalLength (r : Bytes) : ℕ :=
  if [ascii "st", ascii "nd", ascii "rd", ascii "th"].any (startsFold · r) then 2 else 0

/-- `match_on_month_date` -/
def matchOnMonthDate (s : Bytes) : Option Temporal :=
  if s.length < 5 ∨ ¬ startsFold (ascii "on ") s then none
  else if startsFold (ascii "the ") (s.drop 3) then
    match onTheDigits s with
    | none => none
    | some (ds, r) =>
      let day := accumulateDay ds
      if day < 1 ∨ 31 < day then none else some (s.length - r.length + ordinalLength r, 0.9)
  else (matchMonthDate (s.drop 3)).map fun m => (3 + m.1, m.2)

/-- One comparison of `match_in_days` with a unit. -/
def matchUnit (r unit : Bytes) : Option Bool :=
  if startsFold unit r then some (!wordAt r[unit.length]?) else none

/-- `match_in_days`: the first unit that fits decides. -/
def matchInDays (s : Bytes) : Option Temporal :=
  if s.length < 8 ∨ ¬ startsFold (ascii "in ") s then none
  else
    let r := (s.drop 3).dropWhile (· == ch ' ')
    let ds := r.takeWhile isDigit
    let u := (r.drop ds.length).dropWhile (· == ch ' ')
    if ds = [] ∨ u = [] then none
    else
      match [ascii "day", ascii "days", ascii "week", ascii "weeks"].findSome? fun unit =>
        (matchUnit u unit).map fun fits => (fits, unit.length) with
      | some (true, n) => some (s.length - u.length + n, 0.8)
      | _ => none

/-- The search in the table, with the octet before the place. -/
def matchPattern (prev : Option UInt8) (s : Bytes) : Option Temporal :=
  (temporalPatterns.find? fun pat =>
    startsFold (patternOctets pat) s && !wordAt s[(patternOctets pat).length]? && !wordAt prev).map
      (·.2)

/-- The matchers in the order in which `sc_event_extract` tries them. -/
def matchTemporal (prev : Option UInt8) (s : Bytes) : Option Temporal :=
  (if 5 ≤ s.length then (matchOnMonthDate s).or (matchInDays s) else none).or <|
    (if 4 ≤ s.length then matchInDays s else none).or <|
      (if 6 ≤ s.length then matchMonthDate s else none).or (matchPattern prev s)

/-! ## Descriptions -/

/-- A part of the text: where it starts, and its length. -/
abbrev Span := ℕ × ℕ

/-- `while (*desc_len > 0 && text[*desc_start + *desc_len - 1] <= 32) (*desc_len)--;` -/
def trimEnd (text : Bytes) (d : Span) : Span :=
  (d.1, (((text.drop d.1).take d.2).rdropWhile isBlank).length)

/-- `while (*desc_len > 0 && text[*desc_start] <= 32) { (*desc_start)++; (*desc_len)--; }` -/
def trimStart (text : Bytes) (d : Span) : Span :=
  let n := (((text.drop d.1).take d.2).takeWhile isBlank).length
  (d.1 + n, d.2 - n)

/-- The first place for which a description that ends behind no blank is not empty. -/
def firstDescription (text : Bytes) (places : List ℕ) (fits : ℕ → Bool) (d : ℕ → Span) :
    Option Span :=
  places.findSome? fun i =>
    if fits i then
      let t := trimEnd text (d i)
      if 0 < t.2 then some t else none
    else none

/-- `extract_event_before`: the description before a phrase at `temporalStart`. -/
def extractEventBefore (text : Bytes) (temporalStart : ℕ) : Span :=
  let before := text.take temporalStart
  let searchStart := (before.rdropWhile isBlank).length
  let searched := text.take searchStart
  if searchStart = 0 then (0, 0)
  else
    let isPos :=
      if 4 ≤ searchStart ∧ startsFold (ascii "my ") text then
        ((List.range temporalStart).drop 3).find? fun i =>
          startsFold (ascii " is ") (before.drop i) || startsFold (ascii " is on ") (before.drop i)
      else none
    match isPos with
    | some i => trimStart text (trimEnd text (3, i - 3))
    | none =>
      let starts := fun i : ℕ => i = 0 || text[i - 1]?.any isWordBoundary
      let haveA := firstDescription text (List.range (searchStart - 7))
        (fun i => startsFold (ascii "have a ") (searched.drop i) && starts i)
        fun i => (i + 7, searchStart - (i + 7))
      let haveAn := firstDescription text (List.range (searchStart - 8))
        (fun i => startsFold (ascii "have an ") (searched.drop i) && starts i)
        fun i => (i + 8, searchStart - (i + 8))
      let on := firstDescription text ((List.range searchStart).drop 1)
        (fun i => startsFold (ascii " on ") (searched.drop i)) fun i => (0, i)
      let is := firstDescription text ((List.range searchStart).drop 1)
        (fun i => startsFold (ascii " is ") (searched.drop i) ||
          startsFold (ascii " is on ") (searched.drop i)) fun i => (0, i)
      -- The text before `searchStart` does not end with a blank, so that this one is not empty.
      let start := (searched.takeWhile isBlank).length
      (haveA.or <| haveAn.or <| on.or is).getD (start, searchStart - start)

/-! ## Events -/

/-- `sc_extracted_event_t` -/
structure ExtractedEvent where
  description : Option Text
  temporalRef : Option Text
  confidence : ℚ
  deriving DecidableEq

/-- `SC_EVENT_MAX_EVENTS` -/
def scEventMaxEvents : ℕ := 10

/-- A phrase that was found in a text. -/
structure Found where
  start : ℕ
  temporal : Temporal

/-- The octets of a span. -/
def Span.octets (text : Bytes) (d : Span) : Bytes := (text.drop d.1).take d.2

/-- `add_event` for a phrase: the strings of the event. -/
def Found.event (text : Bytes) (f : Found) : ExtractedEvent :=
  let desc := Span.octets text (extractEventBefore text f.start)
  let temporal := Span.octets text (f.start, f.temporal.1)
  let ref :=
    if startsFold (ascii "on ") temporal then (temporal.drop 3).dropWhile (· == ch ' ')
    else temporal
  { description := if desc = [] then none else some (scStrndup (Text.ofBytes desc))
    temporalRef := if ref = [] then none else some (scStrndup (Text.ofBytes ref))
    confidence := f.temporal.2 }

end SeaClaw.Context
