import SeaClaw.Net.HttpUrl

/-!
# Private addresses

An address is stripped of brackets and of a zone, and then read as a name, as IPv4 or as
IPv6. What cannot be read is taken for public.
-/

namespace SeaClaw.Net

open SeaClaw.Lib

/-! ## IPv4 -/

/-- The value of decimal digits in an `unsigned`; `none` at any other octet. -/
def decLoop : ℕ → Bytes → Option ℕ
  | v, [] => some v
  | v, b :: s => if isDigit b then decLoop ((v * 10 + (b.toNat - 0x30)) % 2 ^ 32) s else none

/-- The loop of `parse_ipv4` over the octets still to be read. It stops after the fourth. -/
def parseIpv4Loop : ℕ → Bytes → Option (List ℕ)
  | 0, _ => some []
  | n + 1, s =>
    let seg := s.takeWhile (· ≠ ch '.')
    if seg = [] then none
    else
      (decLoop 0 seg).bind fun v =>
        if v > 255 then none
        else if n = 0 then some [v]
        else
          match s.dropWhile (· ≠ ch '.') with
          | [] => none
          | _ :: t => (parseIpv4Loop n t).map (v :: ·)

/-- `parse_ipv4` -/
def parseIpv4 (s : Bytes) : Option (List ℕ) := parseIpv4Loop 4 s

/-- `is_non_global_v4` -/
def isNonGlobalV4 (a : List ℕ) : Bool :=
  let a0 := a.getD 0 0
  let a1 := a.getD 1 0
  let a2 := a.getD 2 0
  if a0 = 127 then true
  else if a0 = 10 then true
  else if a0 = 172 ∧ a1 ≥ 16 ∧ a1 ≤ 31 then true
  else if a0 = 192 ∧ a1 = 168 then true
  else if a0 = 0 then true
  else if a0 = 169 ∧ a1 = 254 then true
  else if a0 ≥ 224 then true
  else if a0 = 100 ∧ a1 ≥ 64 ∧ a1 ≤ 127 then true
  else if a0 = 192 ∧ a1 = 0 ∧ a2 = 2 then true
  else if a0 = 198 ∧ a1 = 51 ∧ a2 = 100 then true
  else if a0 = 203 ∧ a1 = 0 ∧ a2 = 113 then true
  else if a0 = 198 ∧ (a1 = 18 ∨ a1 = 19) then true
  else if a0 = 192 ∧ a1 = 0 ∧ a2 = 0 then true
  else false

/-! ## IPv6 -/

/-- The eight groups of an address. -/
abbrev Segs := Fin 8 → ℕ

/-- The value of hexadecimal digits in an `unsigned`. -/
def hexLoop (ds : Bytes) : ℕ := ds.foldl (fun v b => (v * 16 + (hexVal b).getD 0) % 2 ^ 32) 0

/-- `parse_ipv6_quad`: it reads the digits at the front and ignores what follows them. -/
def parseIpv6Quad (s : Bytes) : Option ℕ :=
  let ds := s.takeWhile isHexDigit
  if s = [] then none
  else if ds.length = 0 ∨ ds.length > 4 ∨ hexLoop ds > 0xFFFF then none
  else some (hexLoop ds)

/-- The groups of a text between colons, up to a number; `none` when one cannot be read. -/
def quadsLoop : ℕ → Bytes → Option (List ℕ)
  | 0, _ => some []
  | n + 1, s =>
    match s.dropWhile (· = ch ':') with
    | [] => some []
    | b :: t =>
      (parseIpv6Quad ((b :: t).takeWhile (· ≠ ch ':'))).bind fun v =>
        (quadsLoop n ((b :: t).dropWhile (· ≠ ch ':'))).map (v :: ·)

/-- Eight groups with some at the front, some at the end, and zeros elsewhere. -/
def place (front back : List ℕ) : Segs := fun i =>
  if 8 - back.length ≤ i.val then back.getD (i.val - (8 - back.length)) 0
  else front.getD i.val 0

/-- The groups of a text, whether or not it leaves some out. -/
def parseGroups (s : Bytes) : Option Segs :=
  match strstr (ascii "::") s with
  | some dbl =>
    (quadsLoop 8 (s.take (s.length - dbl.length))).bind fun front =>
      (quadsLoop 8 ((dbl.drop 2).dropWhile (· = ch ':'))).map fun back => place front back
  | none =>
    (quadsLoop 8 s).bind fun groups => if groups.length = 8 then some (place groups []) else none

/-- `parse_ipv6` -/
def parseIpv6 (s : Bytes) : Option Segs :=
  if s = [] then none
  else
    let bracket := s.head? = some (ch '[')
    if bracket ∧ (s.length < 2 ∨ s.getLast? ≠ some (ch ']')) then none
    else
      let len := if bracket then s.length - 2 else s.length
      let s := if bracket then s.drop 1 else s
      let len := ((s.take len).takeWhile (· ≠ ch '%')).length
      if len = 0 then none
      else if s.take len = ascii "::1" then some (place [] [1])
      else if s.take len = ascii "::" then some (place [] [])
      else parseGroups s

/-- `is_non_global_v6` -/
def isNonGlobalV6 (segs : Segs) : Bool :=
  if segs 0 = 0 ∧ segs 1 = 0 ∧ segs 2 = 0 ∧ segs 3 = 0 ∧ segs 4 = 0 ∧ segs 5 = 0 ∧ segs 6 = 0 ∧
      segs 7 = 1 then true
  else if segs 0 = 0 ∧ segs 1 = 0 ∧ segs 2 = 0 ∧ segs 3 = 0 ∧ segs 4 = 0 ∧ segs 5 = 0 ∧
      segs 6 = 0 ∧ segs 7 = 0 then true
  else if segs 0 &&& 0xFF00 = 0xFF00 then true
  else if segs 0 &&& 0xFE00 = 0xFC00 then true
  else if segs 0 &&& 0xFFC0 = 0xFE80 then true
  else if segs 0 = 0x2001 ∧ segs 1 = 0x0DB8 then true
  else if segs 0 = 0 ∧ segs 1 = 0 ∧ segs 2 = 0 ∧ segs 3 = 0 ∧ segs 4 = 0 ∧ segs 5 = 0xFFFF then
    isNonGlobalV4 [segs 6 >>> 8 % 256, segs 6 &&& 0xFF, segs 7 >>> 8 % 256, segs 7 &&& 0xFF]
  else false

/-! ## Both -/

/-- The text without its brackets. -/
def stripBrackets (ip : Bytes) : Bytes :=
  if ip.length ≥ 2 ∧ ip.head? = some (ch '[') ∧ ip.getLast? = some (ch ']') then
    (ip.drop 1).take (ip.length - 2)
  else ip

/-- `sc_is_private_ip` -/
def scIsPrivateIp (ip : Option Bytes) : Bool :=
  match ip with
  | none => true
  | some ip =>
    if ip = [] then true
    else
      let bare := (stripBrackets ip).takeWhile (· ≠ ch '%')
      if bare.length = 0 then true
      else if isLocalhostName bare then true
      else
        match if bare.length < 64 then parseIpv4 bare else none with
        | some octets => isNonGlobalV4 octets
        | none =>
          match if bare.length < 64 then parseIpv6 bare else none with
          | some segs => isNonGlobalV6 segs
          | none => false

end SeaClaw.Net
