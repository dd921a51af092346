import SeaClaw.Net.HttpUrl
import Mathlib.Data.List.Count

/-!
# The host of an accepted `http` URL

RFC 3986 takes the authority first and looks for the userinfo in it; the validator looks for
the first `@` in all that follows the scheme. Both read the same host when there is no `@`
at all or exactly one in the authority.
-/

namespace SeaClaw.Net

open SeaClaw.Lib

/-! ## The generic syntax -/

/-- What follows `http://`. -/
def afterScheme (url : Bytes) : Bytes := url.drop 7

/-- The authority ends at the first `/`, `?` or `#`. -/
def uriAuthority (rest : Bytes) : Bytes := rest.takeWhile inAuthority

/-- The userinfo ends at the last `@` of the authority. -/
def uriHostPort (rest : Bytes) : Bytes := afterLast (ch '@') (uriAuthority rest)

/-- A host in brackets ends with the bracket, and any other at the colon of the port. -/
def uriHost (rest : Bytes) : Bytes :=
  let hostPort := uriHostPort rest
  if hostPort.head? = some (ch '[') then
    hostPort.takeWhile (· ≠ ch ']') ++ (hostPort.dropWhile (· ≠ ch ']')).take 1
  else hostPort.takeWhile (· ≠ ch ':')

/-- There is no `@`, or there is exactly one in the authority. -/
def OneUserinfo (rest : Bytes) : Prop :=
  ch '@' ∉ rest ∨ (uriAuthority rest).count (ch '@') = 1

/-! ## Where the host is looked for -/

theorem takeWhile_takeWhile (p q : UInt8 → Bool) (s : Bytes) :
    (s.takeWhile p).takeWhile q = s.takeWhile fun b => p b && q b := by
  rw [List.takeWhile_takeWhile]
  congr 1
  funext b
  simp [Bool.and_comm]

theorem afterLast_of_notMem {c : UInt8} {s : Bytes} (h : c ∉ s) : afterLast c s = s := by
  rw [afterLast, List.rtakeWhile_eq_self_iff]
  intro b hb
  simp only [decide_eq_true_eq]
  rintro rfl
  exact h hb

theorem afterLast_append {c : UInt8} {t : Bytes} (h : c ∉ t) (s : Bytes) :
    afterLast c (s ++ c :: t) = t := by
  induction t using List.reverseRecOn with
  | nil => simp [afterLast]
  | append_singleton t b ih =>
    rw [List.mem_append, List.mem_singleton, not_or] at h
    have hb : b ≠ c := fun heq => h.2 heq.symm
    rw [← List.cons_append, ← List.append_assoc, afterLast,
      List.rtakeWhile_concat_pos _ _ _ (by simpa using hb)]
    exact congrArg (· ++ [b]) (ih h.1)

/-- The scheme has four letters before `://`. -/
theorem strstr_of_isHttp {url : Bytes} (h : isHttp url = true) :
    strstr (ascii "://") url = some (url.drop 4) := by
  rw [isHttp, hasScheme, Bool.and_eq_true, Bool.and_eq_true, decide_eq_true_eq, decide_eq_true_eq,
    decide_eq_true_eq] at h
  obtain ⟨⟨hlen, hletters⟩, hsep⟩ := h
  rcases url with _ | ⟨a, _ | ⟨b, _ | ⟨c, _ | ⟨d, s⟩⟩⟩⟩
  any_goals simp at hlen
  have hcolon : ∀ x : UInt8, ∀ y ∈ ascii "http", toLower x = y → x ≠ ch ':' := by
    rintro x y hy hxy rfl
    rw [← hxy, show toLower (ch ':') = ch ':' by decide] at hy
    exact absurd hy (by decide)
  have hmap : [toLower a, toLower b, toLower c, toLower d] = ascii "http" := hletters
  obtain ⟨ha, hb, hc, hd⟩ : toLower a = ch 'h' ∧ toLower b = ch 't' ∧ toLower c = ch 't' ∧
      toLower d = ch 'p' := by
    simpa [ascii] using hmap
  have hno : ∀ (x : UInt8) (t : Bytes), x ≠ ch ':' → (ascii "://").isPrefixOf (x :: t) = false := by
    intro x t hx
    rw [show ascii "://" = ch ':' :: ascii "//" from rfl, List.isPrefixOf_cons_cons]
    simp [hx.symm]
  have hyes : (ascii "://").isPrefixOf s = true := by
    rw [List.isPrefixOf_iff_prefix]
    exact ⟨s.drop 3, by rw [← show s.take 3 = ascii "://" from hsep, List.take_append_drop]⟩
  cases s with
  | nil => simp [ascii] at hsep
  | cons x t =>
    rw [strstr, hno a _ (hcolon a _ (by decide) ha), if_neg (by simp),
      strstr, hno b _ (hcolon b _ (by decide) hb), if_neg (by simp),
      strstr, hno c _ (hcolon c _ (by decide) hc), if_neg (by simp),
      strstr, hno d _ (hcolon d _ (by decide) hd), if_neg (by simp), strstr, if_pos hyes]
    rfl

/-- The text in which the host is looked for. -/
def hostPosition (rest : Bytes) : Bytes :=
  match strchr (ch '@') rest with
  | some t => t.drop 1
  | none => rest

theorem extractHostFromUrl_of_isHttp {url : Bytes} (h : isHttp url = true) :
    extractHostFromUrl url = (hostText (hostPosition (afterScheme url))).map
      fun host => host.rdropWhile (· = ch '.') := by
  rw [extractHostFromUrl, strstr_of_isHttp h, Option.bind_some]
  simp only [List.drop_drop]
  rfl

/-- With one userinfo at most, the host is looked for where the authority has it. -/
theorem takeWhile_hostPosition {rest : Bytes} (h : OneUserinfo rest) :
    (hostPosition rest).takeWhile inAuthority = uriHostPort rest := by
  rcases h with hno | hone
  · have hauth : ch '@' ∉ uriAuthority rest := by
      intro hmem
      exact hno ((List.takeWhile_prefix _).subset hmem)
    rw [hostPosition, strchr_of_notMem hno, uriHostPort, afterLast_of_notMem hauth]
    rfl
  · have hmem : ch '@' ∈ uriAuthority rest := by
      rw [← List.count_pos_iff, hone]
      exact Nat.one_pos
    obtain ⟨u, t, hsplit, hu⟩ := List.eq_append_cons_of_mem hmem
    have ht : ch '@' ∉ t := by
      rw [hsplit, List.count_append, List.count_eq_zero.mpr hu, List.count_cons_self] at hone
      rw [← List.count_eq_zero]
      omega
    have hrest : rest = u ++ ch '@' :: (t ++ rest.dropWhile inAuthority) := by
      have hwhole := List.takeWhile_append_dropWhile (p := inAuthority) (l := rest)
      rw [← uriAuthority, hsplit] at hwhole
      simpa using hwhole.symm
    have hpos : hostPosition rest = t ++ rest.dropWhile inAuthority := by
      rw [hostPosition, hrest, strchr_append hu, ← hrest]
      rfl
    have hin : ∀ b ∈ t, inAuthority b = true := by
      intro b hb
      apply List.mem_takeWhile_imp (l := rest)
      rw [← uriAuthority, hsplit]
      simp [hb]
    rw [hpos, uriHostPort, hsplit, afterLast_append ht, List.takeWhile_append_of_pos hin]
    have hstop : (rest.dropWhile inAuthority).takeWhile inAuthority = [] := by
      rw [List.takeWhile_eq_nil_iff]
      intro hlen
      have hne : rest.dropWhile inAuthority ≠ [] := List.ne_nil_of_length_pos hlen
      have hhead := List.head_dropWhile_not inAuthority hne
      rw [List.head_eq_getElem] at hhead
      simp [hhead]
    rw [hstop, List.append_nil]

/-! ## Accepted hosts -/

/-- Only a name that ends in a letter is local. -/
theorem isLocalhostName_of_last {host : Bytes} {b : UInt8} (h : host.getLast? = some b)
    (hb : b = ch ']' ∨ b = ch '.') : isLocalhostName host = false := by
  rw [← Bool.not_eq_true]
  intro hlocal
  obtain ⟨b', hb', hl⟩ := isLocalhostName_last hlocal
  rw [h, Option.some.injEq] at hb'
  subst hb'
  rcases hb with rfl | rfl <;> exact absurd hl (by decide)

/-- Removing dots from the end of a text that does not end in one. -/
theorem rdropWhile_dot {host : Bytes} (h : host.getLast? ≠ some (ch '.')) :
    host.rdropWhile (· = ch '.') = host := by
  rw [List.rdropWhile_eq_self_iff]
  intro hne hdot
  rw [List.getLast?_eq_some_getLast hne, Ne, Option.some.injEq] at h
  exact h (by simpa using hdot)

/-- The host of an accepted URL does not start with a bracket: it would end with one. -/
theorem isLocalhostName_bracket {authority host : Bytes}
    (hb : authority.head? = some (ch '[')) (h : hostText authority = some host) :
    isLocalhostName (host.rdropWhile (· = ch '.')) = false := by
  rw [hostText, if_pos hb] at h
  obtain ⟨rb, hrb, rfl⟩ := Option.map_eq_some_iff.mp h
  obtain ⟨u, r, rfl, hu, -⟩ := strchr_eq_some hrb
  obtain ⟨b, s, rfl⟩ := List.exists_cons_of_ne_nil (l := authority) (by rintro rfl; simp at hb)
  simp only [List.drop_succ_cons, List.drop_zero] at hu
  subst hu
  have htake : (b :: (u ++ ch ']' :: r)).take
      ((b :: (u ++ ch ']' :: r)).length - (ch ']' :: r).length + 1) = b :: (u ++ [ch ']']) := by
    have hlen : (b :: (u ++ ch ']' :: r)).length - (ch ']' :: r).length + 1 =
        (b :: (u ++ [ch ']'])).length := by
      simp only [List.length_cons, List.length_append, List.length_nil]
      omega
    rw [hlen, show b :: (u ++ ch ']' :: r) = (b :: (u ++ [ch ']'])) ++ r by simp,
      List.take_left]
  have hlast : (b :: (u ++ [ch ']'])).getLast? = some (ch ']') := by
    rw [← List.cons_append, List.getLast?_concat]
  rw [htake, rdropWhile_dot (by rw [hlast]; decide)]
  exact isLocalhostName_of_last hlast (Or.inl rfl)

/-- The two schemes differ in their fifth octet. -/
theorem isHttps_of_isHttp {url : Bytes} (hhttp : isHttp url = true) : isHttps url = false := by
  rw [← Bool.not_eq_true]
  intro hs
  rw [isHttps, hasScheme, Bool.and_eq_true, Bool.and_eq_true, decide_eq_true_eq,
    decide_eq_true_eq, decide_eq_true_eq] at hs
  rw [isHttp, hasScheme, Bool.and_eq_true, Bool.and_eq_true, decide_eq_true_eq,
    decide_eq_true_eq, decide_eq_true_eq] at hhttp
  -- the fifth octet would be both a letter and a colon
  have hletter := congrArg (fun s : Bytes => s[4]?) hs.1.2
  have hcolon := congrArg (fun s : Bytes => s[0]?) hhttp.2
  simp only [show (ascii "https").length = 5 from rfl, List.getElem?_map, List.getElem?_take,
    show (4 : ℕ) < 5 by decide, if_true] at hletter
  simp only [show (ascii "http").length = 4 from rfl, List.getElem?_take, List.getElem?_drop,
    show (0 : ℕ) < 3 by decide, if_true, Nat.add_zero] at hcolon
  rw [hcolon] at hletter
  exact absurd hletter (by decide)

/-- What an accepted `http` URL has at the place where its host is looked for. -/
theorem localhost_of_ok {url : CString} (hok : scValidateUrl (some url) = .ok ())
    (hhttp : isHttp url.octets = true) :
    (hostPosition (afterScheme url.octets)).head? ≠ some (ch '[') ∧
      isLocalhostName (((hostPosition (afterScheme url.octets)).takeWhile fun b =>
        inAuthority b && b ≠ ch ':').rdropWhile (· = ch '.')) = true := by
  have hhttps := isHttps_of_isHttp hhttp
  unfold scValidateUrl at hok
  simp only [hhttps, hhttp, if_true, Bool.false_eq_true, if_false,
    extractHostFromUrl_of_isHttp hhttp] at hok
  split_ifs at hok
  split at hok
  · exact absurd hok (by simp)
  · next host hhost =>
    obtain ⟨text, htext, rfl⟩ := Option.map_eq_some_iff.mp hhost
    split_ifs at hok with hlen hlocal
    have hb : (hostPosition (afterScheme url.octets)).head? ≠ some (ch '[') := by
      intro hb
      rw [isLocalhostName_bracket hb htext] at hlocal
      exact absurd hlocal (by simp)
    rw [hostText, if_neg hb, Option.some.injEq] at htext
    subst htext
    exact ⟨hb, hlocal⟩

/-- For every accepted `http` URL, the host that the authority names is a local name if and
only if there is one userinfo at most and the host has no trailing dot; or the host is a
local name although the validator looked elsewhere. -/
theorem scValidateUrl_localhost_iff (url : CString) (hok : scValidateUrl (some url) = .ok ())
    (hhttp : isHttp url.octets = true) :
    isLocalhostName (uriHost (afterScheme url.octets)) = true ↔
      (OneUserinfo (afterScheme url.octets) ∧
        (uriHost (afterScheme url.octets)).getLast? ≠ some (ch '.')) ∨
      (¬ OneUserinfo (afterScheme url.octets) ∧
        isLocalhostName (uriHost (afterScheme url.octets)) = true) := by
  by_cases hone : OneUserinfo (afterScheme url.octets)
  swap
  · simp [hone]
  obtain ⟨hb, hlocal⟩ := localhost_of_ok hok hhttp
  have hhost : uriHost (afterScheme url.octets) =
      (hostPosition (afterScheme url.octets)).takeWhile fun b => inAuthority b && b ≠ ch ':' := by
    rw [uriHost, ← takeWhile_hostPosition hone, if_neg, takeWhile_takeWhile]
    intro hhead
    cases hpos : hostPosition (afterScheme url.octets) with
    | nil => simp [hpos] at hhead
    | cons b s =>
      rw [hpos, List.takeWhile_cons] at hhead
      rw [hpos] at hb
      split_ifs at hhead
      · exact hb hhead
      · simp at hhead
  rw [← hhost] at hlocal
  constructor
  · intro h
    refine Or.inl ⟨hone, fun hdot => ?_⟩
    rw [isLocalhostName_of_last hdot (Or.inr rfl)] at h
    exact absurd h (by simp)
  · rintro (⟨-, hdot⟩ | ⟨hno, -⟩)
    · rwa [rdropWhile_dot hdot] at hlocal
    · exact absurd hone hno

/-- Whatever stands before the first `@`, a local name behind it is all that is asked for. -/
theorem scValidateUrl_of_at (url : CString) {a : Bytes} (ha : ch '@' ∉ a)
    (hurl : url.octets = ascii "http://" ++ (a ++ ch '@' :: ascii "localhost")) :
    scValidateUrl (some url) = .ok () := by
  have hhttp : isHttp url.octets = true := by
    rw [hurl, isHttp, hasScheme, Bool.and_eq_true, Bool.and_eq_true, decide_eq_true_eq,
      decide_eq_true_eq, decide_eq_true_eq]
    refine ⟨⟨?_, rfl⟩, rfl⟩
    simp [ascii]
  have hpos : hostPosition (afterScheme url.octets) = ascii "localhost" := by
    rw [hurl, show afterScheme (ascii "http://" ++ (a ++ ch '@' :: ascii "localhost")) =
      a ++ ch '@' :: ascii "localhost" from rfl, hostPosition, strchr_append ha]
    rfl
  have hextract : extractHostFromUrl url.octets = some (ascii "localhost") := by
    rw [extractHostFromUrl_of_isHttp hhttp, hpos]
    decide
  have hne : url.octets ≠ [] := by simp [hurl, ascii]
  have hlocal : isLocalhostName (ascii "localhost") = true := by decide
  simp only [scValidateUrl, hne, isHttps_of_isHttp hhttp, hhttp, hextract, hlocal, if_false,
    if_true, Bool.false_eq_true]
  rfl

theorem localUrl_noNul : 0 ∉ ascii "HTTP://me@a.Localhost:8080/x?y@z" := by decide

theorem scValidateUrl_localhost_userinfo :
    isLocalhostName (uriHost (ascii "me@a.Localhost:8080/x?y@z")) = true ↔
      (OneUserinfo (ascii "me@a.Localhost:8080/x?y@z") ∧
        (uriHost (ascii "me@a.Localhost:8080/x?y@z")).getLast? ≠ some (ch '.')) ∨
      (¬ OneUserinfo (ascii "me@a.Localhost:8080/x?y@z") ∧
        isLocalhostName (uriHost (ascii "me@a.Localhost:8080/x?y@z")) = true) :=
  scValidateUrl_localhost_iff ⟨ascii "HTTP://me@a.Localhost:8080/x?y@z", localUrl_noNul⟩
    (by decide) (by decide)

theorem bypassUrl_noNul : 0 ∉ ascii "http://example.com/@localhost" := by decide

/-- An `@` in the path sends the validator to another name than the authority's. -/
theorem scValidateUrl_path_at :
    scValidateUrl (some ⟨ascii "http://example.com/@localhost", bypassUrl_noNul⟩) = .ok () ∧
      isHttp (ascii "http://example.com/@localhost") = true ∧
      ¬ isLocalhostName (uriHost (afterScheme (ascii "http://example.com/@localhost"))) = true :=
  ⟨scValidateUrl_of_at (a := ascii "example.com/") _ (by decide) (by decide),
    by decide, by decide⟩

end SeaClaw.Net
