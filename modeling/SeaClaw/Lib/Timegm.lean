import SeaClaw.Lib.CString
import SeaClaw.Lib.Strtol

/-!
# Times written as date and time of day

`sscanf` with conversions of bounded width, and `timegm`, which counts the seconds since the
epoch of a date in the Gregorian calendar. Fields outside of their ranges carry over.
-/

namespace SeaClaw.Lib

/-- `%Nd`: white space, then a sign and digits of `N` octets at most. -/
def scanInt (width : ℕ) (s : Bytes) : Option (ℤ × Bytes) :=
  let t := s.dropWhile isSpace
  let r := optSign t
  let room := if r.2.length < t.length then width - 1 else width
  let ds := (r.2.take room).takeWhile isDigit
  if ds = [] then none
  else some (if r.1 then -(natOfDigits 10 ds : ℤ) else natOfDigits 10 ds, r.2.drop ds.length)

/-- An octet of the format that stands for itself. -/
def scanOctet (b : UInt8) : Bytes → Option Bytes
  | [] => none
  | c :: s => if c = b then some s else none

/-- The fields of `struct tm` that are set, with the month from one on. -/
structure DateTime where
  year : ℤ
  month : ℤ
  day : ℤ
  hour : ℤ
  minute : ℤ
  second : ℤ
  deriving DecidableEq

/-- `sscanf(s, "%4d-%2d-%2dT%2d:%2d:%2d", ...) == 6` -/
def scanDateTime (s : Bytes) : Option DateTime := do
  let (year, s) ← scanInt 4 s
  let s ← scanOctet (ch '-') s
  let (month, s) ← scanInt 2 s
  let s ← scanOctet (ch '-') s
  let (day, s) ← scanInt 2 s
  let s ← scanOctet (ch 'T') s
  let (hour, s) ← scanInt 2 s
  let s ← scanOctet (ch ':') s
  let (minute, s) ← scanInt 2 s
  let s ← scanOctet (ch ':') s
  let (second, _) ← scanInt 2 s
  return ⟨year, month, day, hour, minute, second⟩

/-- The days from the epoch to a day of a month from one to twelve. The year begins in March. -/
def daysFromCivil (year month day : ℤ) : ℤ :=
  let y := if month ≤ 2 then year - 1 else year
  365 * y + y / 4 - y / 100 + y / 400 + (153 * ((month + 9) % 12) + 2) / 5 + day - 1 - 719468

/-- `timegm` -/
def timegm (t : DateTime) : ℤ :=
  let days := daysFromCivil (t.year + (t.month - 1) / 12) ((t.month - 1) % 12 + 1) t.day
  ((days * 24 + t.hour) * 60 + t.minute) * 60 + t.second

theorem natOfDigits_ten_lt {ds : Bytes} (h : ∀ b ∈ ds, isDigit b = true) :
    natOfDigits 10 ds < 10 ^ ds.length := by
  have hdigit : ∀ b, isDigit b = true → (hexVal b).getD 0 < 10 := by decide +kernel
  have hlt := Nat.ofDigits_lt_base_pow_length (b := 10)
    (l := ds.reverse.map fun b => (hexVal b).getD 0) (by decide) (by
      intro x hx
      obtain ⟨b, hb, rfl⟩ := List.mem_map.mp hx
      exact hdigit b (h b (List.mem_reverse.mp hb)))
  rwa [List.length_map, List.length_reverse] at hlt

end SeaClaw.Lib
