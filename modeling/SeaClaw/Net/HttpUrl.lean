import SeaClaw.Core.Error
import SeaClaw.Lib.CString

/-!
# Which URLs may be fetched

Any `https` URL, and an `http` URL if the host found in it names the local machine. The
host is looked for in the text after `://`.
-/

namespace SeaClaw.Net

open SeaClaw.Lib

/-- `ascii_ci_eq` -/
def asciiCiEq : Bytes → Bytes → Bool
  | a :: s, b :: t => if toLower a ≠ toLower b then false else asciiCiEq s t
  | _, _ => true

/-- `is_localhost_name` -/
def isLocalhostName (host : Bytes) : Bool :=
  let len := host.length
  if len = 9 ∧ asciiCiEq host (ascii "localhost") then true
  else if len > 10 ∧ host.getD (len - 10) 0 = ch '.' ∧
      asciiCiEq (host.drop (len - 9)) (ascii "localhost") then true
  else if len ≥ 6 ∧ asciiCiEq (host.drop (len - 6)) (ascii ".local") then true
  else false

/-- An octet that does not end the authority. -/
def inAuthority (b : UInt8) : Bool := b ≠ ch '/' && b ≠ ch '?' && b ≠ ch '#'

/-- The host at the front of a text: up to the bracket that closes it, or up to a port. -/
def hostText (authority : Bytes) : Option Bytes :=
  if authority.head? = some (ch '[') then
    (strchr (ch ']') (authority.drop 1)).map fun rb =>
      authority.take (authority.length - rb.length + 1)
  else some (authority.takeWhile fun b => inAuthority b && b ≠ ch ':')

/-- `extract_host_from_url`; the length is that of the result, `none` is `NULL`. -/
def extractHostFromUrl (url : Bytes) : Option Bytes :=
  (strstr (ascii "://") url).bind fun schemeEnd =>
    let authority := schemeEnd.drop 3
    let authority :=
      match strchr (ch '@') authority with
      | some t => t.drop 1
      | none => authority
    (hostText authority).map fun host => host.rdropWhile (· = ch '.')

/-- The letters of a scheme in either case, and `://`; eight octets at least. -/
def hasScheme (letters url : Bytes) : Bool :=
  url.length ≥ 8 && (url.take letters.length).map toLower = letters &&
    (url.drop letters.length).take 3 = ascii "://"

/-- `is_https` -/
def isHttps (url : Bytes) : Bool := hasScheme (ascii "https") url

/-- `is_http` -/
def isHttp (url : Bytes) : Bool := hasScheme (ascii "http") url

/-- `sc_validate_url` -/
def scValidateUrl (url : Option CString) : Except ScError Unit :=
  match url with
  | none => .error .invalidArgument
  | some url =>
    if url.octets = [] then .error .invalidArgument
    else if isHttps url.octets then .ok ()
    else if isHttp url.octets then
      match extractHostFromUrl url.octets with
      | none => .error .invalidArgument
      | some host =>
        if host.length = 0 then .error .invalidArgument
        else if isLocalhostName host then .ok ()
        else .error .invalidArgument
    else .error .invalidArgument

/-! ## Local names -/

theorem asciiCiEq_iff {s t : Bytes} (h : s.length = t.length) :
    asciiCiEq s t = true ↔ SameFold s t := by
  induction s generalizing t with
  | nil =>
    cases t with
    | nil => simp [asciiCiEq, SameFold]
    | cons _ _ => simp at h
  | cons a s ih =>
    cases t with
    | nil => simp at h
    | cons b t =>
      have hst := ih (t := t) (by simpa using h)
      unfold SameFold at hst ⊢
      rw [asciiCiEq, List.map_cons, List.map_cons, List.cons.injEq, ← hst]
      by_cases hab : toLower a = toLower b <;> simp [hab]

/-- A local name ends in the last letter of `localhost` or of `.local`. -/
theorem isLocalhostName_last {host : Bytes} (h : isLocalhostName host = true) :
    ∃ b, host.getLast? = some b ∧ (toLower b = ch 't' ∨ toLower b = ch 'l') := by
  have hdrop : ∀ n, n < host.length → (host.drop n).getLast? = host.getLast? := by
    intro n hn
    rw [List.getLast?_drop, if_neg (by omega)]
  unfold isLocalhostName at h
  simp only at h
  split_ifs at h with h1 h2 h3
  · have hfold := (asciiCiEq_iff (by rw [h1.1]; rfl)).mp h1.2
    obtain ⟨b, hb, hl⟩ := hfold.getLast (c := ch 't') (by decide)
    exact ⟨b, hb, Or.inl hl⟩
  · have hlen : (host.drop (host.length - 9)).length = (ascii "localhost").length := by
      rw [List.length_drop, show (ascii "localhost").length = 9 from rfl]
      omega
    obtain ⟨b, hb, hl⟩ := ((asciiCiEq_iff hlen).mp h2.2.2).getLast (c := ch 't') (by decide)
    rw [hdrop _ (by omega)] at hb
    exact ⟨b, hb, Or.inl hl⟩
  · have hlen : (host.drop (host.length - 6)).length = (ascii ".local").length := by
      rw [List.length_drop, show (ascii ".local").length = 6 from rfl]
      omega
    obtain ⟨b, hb, hl⟩ := ((asciiCiEq_iff hlen).mp h3.2).getLast (c := ch 'l') (by decide)
    rw [hdrop _ (by omega)] at hb
    exact ⟨b, hb, Or.inr hl⟩

end SeaClaw.Net
