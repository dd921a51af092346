import SeaClaw.Net.PrivateIp
import SeaClaw.Lib.Printf

/-!
# Standard forms of addresses

The texts of RFC 4291: eight groups, or fewer with `::` for those left out, where a dotted
quad may stand for the last two; and dotted quads alone. An IPv6 address may have a zone and
stand in brackets.
-/

namespace SeaClaw.Net

open SeaClaw.Lib

/-! ## Forms -/

/-- One to four hexadecimal digits. -/
structure Hextet where
  digits : Bytes
  hex : ∀ b ∈ digits, isHexDigit b = true
  ne_nil : digits ≠ []
  short : digits.length ≤ 4

def Hextet.value (g : Hextet) : ℕ := natOfDigits 16 g.digits

/-- Four decimal octets. -/
structure DottedQuad where
  a : UInt8
  b : UInt8
  c : UInt8
  d : UInt8

/-- Without leading zeros. -/
def DottedQuad.text (q : DottedQuad) : Bytes :=
  fmtNat q.a.toNat ++ ch '.' :: (fmtNat q.b.toNat ++ ch '.' ::
    (fmtNat q.c.toNat ++ ch '.' :: fmtNat q.d.toNat))

def DottedQuad.octets (q : DottedQuad) : List ℕ := [q.a.toNat, q.b.toNat, q.c.toNat, q.d.toNat]

/-- The two groups that a quad stands for. -/
def DottedQuad.groups (q : DottedQuad) : List ℕ :=
  [q.a.toNat * 256 + q.b.toNat, q.c.toNat * 256 + q.d.toNat]

/-- How many groups an optional quad stands for. -/
def quadWidth (q : Option DottedQuad) : ℕ := if q.isSome then 2 else 0

/-- The text of an IPv6 address, with all its groups or with `::` for one or more. -/
inductive Ipv6Text where
  | full (groups : List Hextet) (quad : Option DottedQuad)
      (h : groups.length + quadWidth quad = 8)
  | compressed (front back : List Hextet) (quad : Option DottedQuad)
      (h : front.length + back.length + quadWidth quad ≤ 7)

/-- The texts between the colons of a run of groups. -/
def parts (groups : List Hextet) (quad : Option DottedQuad) : List Bytes :=
  groups.map Hextet.digits ++ quad.toList.map DottedQuad.text

/-- The values of a run of groups. -/
def values (groups : List Hextet) (quad : Option DottedQuad) : List ℕ :=
  groups.map Hextet.value ++ (quad.map DottedQuad.groups).getD []

/-- The texts with a colon between each and the next. -/
def joinColon : List Bytes → Bytes
  | [] => []
  | [p] => p
  | p :: q :: ps => p ++ ch ':' :: joinColon (q :: ps)

def Ipv6Text.text : Ipv6Text → Bytes
  | .full groups quad _ => joinColon (parts groups quad)
  | .compressed front back quad _ =>
    joinColon (parts front none) ++ ascii "::" ++ joinColon (parts back quad)

/-- The eight groups of the address. -/
def Ipv6Text.value : Ipv6Text → Segs
  | .full groups quad _ => fun i => (values groups quad).getD i 0
  | .compressed front back quad _ => fun i =>
    (values front none ++
      List.replicate (8 - (values front none).length - (values back quad).length) 0 ++
      values back quad).getD i 0

/-- A textual address. -/
inductive IpText where
  | v4 (quad : DottedQuad)
  | v6 (address : Ipv6Text) (brackets : Bool) (zone : Option CString)

def zoneText : Option CString → Bytes
  | none => []
  | some z => ch '%' :: z.octets

def IpText.text : IpText → Bytes
  | .v4 quad => quad.text
  | .v6 address brackets zone =>
    if brackets then ch '[' :: (address.text ++ zoneText zone ++ [ch ']'])
    else address.text ++ zoneText zone

/-- The address lies in a range that is not global. -/
def IpText.nonGlobal : IpText → Bool
  | .v4 quad => isNonGlobalV4 quad.octets
  | .v6 address _ _ => isNonGlobalV6 address.value

/-! ## Numbers -/

theorem natOfDigits_concat (base : ℕ) (s : Bytes) (b : UInt8) :
    natOfDigits base (s ++ [b]) = natOfDigits base s * base + (hexVal b).getD 0 := by
  simp only [natOfDigits, List.reverse_append, List.reverse_singleton, List.singleton_append,
    List.map_cons, Nat.ofDigits_cons]
  rw [Nat.mul_comm, Nat.add_comm]

theorem natOfDigits_lt (s : Bytes) : natOfDigits 16 s < 16 ^ s.length := by
  have h := Nat.ofDigits_lt_base_pow_length (b := 16) (by decide)
    (l := s.reverse.map fun b => (hexVal b).getD 0) ?_
  · simpa [natOfDigits] using h
  · intro d hd
    obtain ⟨b, -, rfl⟩ := List.mem_map.mp hd
    cases hb : hexVal b with
    | none => simp
    | some n => exact hexVal_lt hb

/-- Four digits do not overflow. -/
theorem hexLoop_eq {s : Bytes} (h : s.length ≤ 4) : hexLoop s = natOfDigits 16 s := by
  induction s using List.reverseRecOn with
  | nil => rfl
  | append_singleton s b ih =>
    rw [List.length_append, List.length_singleton] at h
    have hs := ih (by omega)
    have hlt := natOfDigits_lt s
    have hpow : 16 ^ s.length ≤ 16 ^ 3 := Nat.pow_le_pow_right (by decide) (by omega)
    have hb : (hexVal b).getD 0 < 16 := by
      cases hb : hexVal b with
      | none => simp
      | some n => exact hexVal_lt hb
    rw [natOfDigits_concat, ← hs, hexLoop, List.foldl_append, ← hexLoop]
    simp only [List.foldl_cons, List.foldl_nil]
    rw [hs]
    apply Nat.mod_eq_of_lt
    omega

/-- What the reader of groups takes for a quad: the digits of its first octet. -/
def DottedQuad.misread (q : DottedQuad) : ℕ := hexLoop (fmtNat q.a.toNat)

/-- Few enough digits do not overflow. -/
theorem decLoop_eq {s : Bytes} (hs : ∀ b ∈ s, isDigit b = true) (hlen : s.length ≤ 9) :
    decLoop 0 s = some (natOfDigits 10 s) ∧ natOfDigits 10 s < 10 ^ s.length := by
  have happend : ∀ (s : Bytes) (v : ℕ) (b : UInt8), isDigit b = true →
      decLoop v (s ++ [b]) =
        (decLoop v s).map fun v => (v * 10 + (b.toNat - 0x30)) % 2 ^ 32 := by
    intro s
    induction s with
    | nil =>
      intro v b hb
      simp [decLoop, hb]
    | cons a s ih =>
      intro v b hb
      rw [List.cons_append, decLoop, decLoop]
      split
      · exact ih _ b hb
      · rfl
  induction s using List.reverseRecOn with
  | nil => exact ⟨rfl, by simp [natOfDigits]⟩
  | append_singleton s b ih =>
    rw [List.length_append, List.length_singleton] at hlen ⊢
    obtain ⟨hvalue, hlt⟩ := ih (fun c hc => hs c (List.mem_append_left _ hc)) (by omega)
    have hb := hs b (List.mem_append_right _ (List.mem_singleton_self b))
    have hdigit : ch '0' ≤ b ∧ b ≤ ch '9' := (isDigit_iff b).mp hb
    have hval : (hexVal b).getD 0 = b.toNat - 0x30 := by
      rw [hexVal, if_pos hdigit]
      rfl
    have hhigh : b.toNat ≤ 0x39 := UInt8.le_iff_toNat_le.mp ((isDigit_iff b).mp hb).2
    have hpow : 10 ^ s.length ≤ 10 ^ 8 := Nat.pow_le_pow_right (by norm_num) (by omega)
    rw [happend s 0 b hb, hvalue, natOfDigits_concat, hval, Option.map_some, pow_succ,
      Nat.mod_eq_of_lt (by omega)]
    exact ⟨rfl, by omega⟩

/-- An octet is printed in at most three digits, which are read back. -/
theorem fmtNat_octet (b : UInt8) : (fmtNat b.toNat).length ≤ 3 ∧ fmtNat b.toNat ≠ [] ∧
    (fmtNat b.toNat).all isDigit = true ∧ decLoop 0 (fmtNat b.toNat) = some b.toNat := by
  have htext := fmtNat_integerText b.toNat
  have hlen : (fmtNat b.toNat).length ≤ 3 := by
    rw [fmtNat]
    split
    · simp
    · rw [List.length_map, List.length_reverse, Nat.digits_length_le_iff (by norm_num)]
      exact b.toNat_lt.trans (by norm_num)
  refine ⟨hlen, htext.nonempty, List.all_eq_true.mpr htext.digits, ?_⟩
  rw [(decLoop_eq htext.digits (by omega)).1, natOfDigits_fmtNat]

theorem Hextet.parse (g : Hextet) : parseIpv6Quad g.digits = some g.value := by
  have htake : g.digits.takeWhile isHexDigit = g.digits :=
    List.takeWhile_eq_self_iff.mpr g.hex
  have hlen : g.digits.length ≠ 0 := fun h => g.ne_nil (List.length_eq_zero_iff.mp h)
  have hshort := g.short
  have hval : hexLoop g.digits ≤ 0xFFFF := by
    have hlt := natOfDigits_lt g.digits
    have hpow : 16 ^ g.digits.length ≤ 16 ^ 4 := Nat.pow_le_pow_right (by decide) hshort
    rw [hexLoop_eq hshort]
    omega
  rw [parseIpv6Quad]
  simp only [htake]
  rw [if_neg g.ne_nil, if_neg (by omega), hexLoop_eq hshort, Hextet.value]

theorem isHexDigit_of_isDigit (b : UInt8) (h : isDigit b = true) : isHexDigit b = true := by
  have hdigit : ch '0' ≤ b ∧ b ≤ ch '9' := (isDigit_iff b).mp h
  rw [isHexDigit, hexVal, if_pos hdigit]
  rfl

/-- A quad is read up to its first dot. -/
theorem DottedQuad.parse (q : DottedQuad) : parseIpv6Quad q.text = some q.misread := by
  obtain ⟨hlen, hne, hdigits, -⟩ := fmtNat_octet q.a
  rw [List.all_eq_true] at hdigits
  have htake : q.text.takeWhile isHexDigit = fmtNat q.a.toNat := by
    rw [DottedQuad.text, List.takeWhile_append_of_pos
      fun b hb => isHexDigit_of_isDigit b (hdigits b hb), List.takeWhile_cons_of_neg (by decide),
      List.append_nil]
  have hlen' : (fmtNat q.a.toNat).length ≠ 0 := fun h => hne (List.length_eq_zero_iff.mp h)
  have hval : hexLoop (fmtNat q.a.toNat) ≤ 0xFFFF := by
    have hlt := natOfDigits_lt (fmtNat q.a.toNat)
    have hpow : 16 ^ (fmtNat q.a.toNat).length ≤ 16 ^ 3 := Nat.pow_le_pow_right (by decide) hlen
    rw [hexLoop_eq (by omega)]
    omega
  rw [parseIpv6Quad]
  simp only [htake]
  rw [if_neg (by simp [DottedQuad.text]), if_neg (by omega), DottedQuad.misread]

/-! ## Groups between colons -/

/-- A text that stands between colons. -/
def Part (p : Bytes) : Prop := p ≠ [] ∧ ch ':' ∉ p

theorem hexDigit_ne_colon (b : UInt8) (h : isHexDigit b = true) :
    b ≠ ch ':' ∧ b ≠ ch '%' ∧ b ≠ ch '[' ∧ b ≠ ch '.' := by
  refine ⟨?_, ?_, ?_, ?_⟩ <;> rintro rfl <;> exact absurd h (by decide)

theorem Hextet.part (g : Hextet) : Part g.digits :=
  ⟨g.ne_nil, fun h => (hexDigit_ne_colon _ (g.hex _ h)).1 rfl⟩

/-- The octets of a quad are digits and dots. -/
theorem DottedQuad.mem_text {q : DottedQuad} {x : UInt8} (h : x ∈ q.text) :
    isDigit x = true ∨ x = ch '.' := by
  have hd : ∀ o : UInt8, x ∈ fmtNat o.toNat → isDigit x = true := fun o ho =>
    List.all_eq_true.mp (fmtNat_octet o).2.2.1 x ho
  simp only [DottedQuad.text, List.mem_append, List.mem_cons] at h
  rcases h with h | h | h | h | h | h | h
  · exact Or.inl (hd _ h)
  · exact Or.inr h
  · exact Or.inl (hd _ h)
  · exact Or.inr h
  · exact Or.inl (hd _ h)
  · exact Or.inr h
  · exact Or.inl (hd _ h)

theorem DottedQuad.part (q : DottedQuad) : Part q.text := by
  refine ⟨by simp [DottedQuad.text], fun h => ?_⟩
  rcases DottedQuad.mem_text h with h | h
  · exact (hexDigit_ne_colon _ (isHexDigit_of_isDigit _ h)).1 rfl
  · exact absurd h (by decide)

theorem part_of_mem_parts {groups : List Hextet} {quad : Option DottedQuad} {p : Bytes}
    (h : p ∈ parts groups quad) : Part p := by
  rw [parts, List.mem_append, List.mem_map, List.mem_map] at h
  rcases h with ⟨g, -, rfl⟩ | ⟨q, -, rfl⟩
  · exact g.part
  · exact q.part

/-- A text that does not start with a colon is not skipped. -/
theorem Part.dropWhile_colon {p : Bytes} (hp : Part p) (r : Bytes) :
    (p ++ r).dropWhile (· = ch ':') = p ++ r := by
  obtain ⟨b, s, rfl⟩ := List.exists_cons_of_ne_nil hp.1
  have hb : b ≠ ch ':' := by
    rintro rfl
    exact hp.2 List.mem_cons_self
  rw [List.cons_append, List.dropWhile_cons_of_neg (by simpa using hb)]

/-- The reader of groups takes a part and goes on behind it. -/
theorem quadsLoop_part {p : Bytes} (hp : Part p) (n : ℕ) (r : Bytes)
    (hr : r = [] ∨ r.head? = some (ch ':')) :
    quadsLoop (n + 1) (p ++ r) = (parseIpv6Quad p).bind fun v => (quadsLoop n r).map (v :: ·) := by
  have hplain : ∀ b ∈ p, decide (b ≠ ch ':') = true := by
    intro b hb
    rw [decide_eq_true_eq]
    rintro rfl
    exact hp.2 hb
  have hstop : r.takeWhile (· ≠ ch ':') = [] ∧ r.dropWhile (· ≠ ch ':') = r := by
    rcases hr with rfl | hr
    · exact ⟨rfl, rfl⟩
    · obtain ⟨t, rfl⟩ := List.head?_eq_some_iff.mp hr
      rw [List.takeWhile_cons_of_neg (by simp), List.dropWhile_cons_of_neg (by simp)]
      exact ⟨rfl, rfl⟩
  obtain ⟨b, s, hs⟩ := List.exists_cons_of_ne_nil hp.1
  rw [quadsLoop, hp.dropWhile_colon r, hs]
  simp only [List.cons_append]
  rw [← List.cons_append, ← hs, List.takeWhile_append_of_pos hplain,
    List.dropWhile_append_of_pos hplain, hstop.1, hstop.2, List.append_nil]

theorem quadsLoop_colon (n : ℕ) (s : Bytes) : quadsLoop n (ch ':' :: s) = quadsLoop n s := by
  cases n with
  | zero => rfl
  | succ n => rw [quadsLoop, quadsLoop, List.dropWhile_cons_of_pos (by simp)]

/-- The groups of a text are those of its parts. -/
theorem quadsLoop_joinColon {ps : List Bytes} (hps : ∀ p ∈ ps, Part p) {n : ℕ}
    (hn : ps.length ≤ n) : quadsLoop n (joinColon ps) = ps.mapM parseIpv6Quad := by
  induction ps generalizing n with
  | nil => cases n <;> rfl
  | cons p ps ih =>
    rw [List.forall_mem_cons] at hps
    cases n with
    | zero => simp at hn
    | succ n =>
      have hrest := ih hps.2 (n := n) (by simpa using hn)
      rw [List.mapM_cons]
      cases ps with
      | nil =>
        have hlast := quadsLoop_part hps.1 n [] (Or.inl rfl)
        rw [List.append_nil] at hlast
        rw [joinColon, hlast]
        cases n <;> rfl
      | cons q ps =>
        rw [joinColon, quadsLoop_part hps.1 n _ (Or.inr rfl), quadsLoop_colon, hrest]
        cases parseIpv6Quad p with
        | none => rfl
        | some v => cases (q :: ps).mapM parseIpv6Quad <;> rfl

/-- The values read from a run of groups. A quad is misread. -/
def readValues (groups : List Hextet) (quad : Option DottedQuad) : List ℕ :=
  groups.map Hextet.value ++ quad.toList.map DottedQuad.misread

theorem mapM_parts (groups : List Hextet) (quad : Option DottedQuad) :
    (parts groups quad).mapM parseIpv6Quad = some (readValues groups quad) := by
  rw [parts, readValues, List.mapM_append]
  have hg : (groups.map Hextet.digits).mapM parseIpv6Quad = some (groups.map Hextet.value) := by
    induction groups with
    | nil => rfl
    | cons g groups ih => rw [List.map_cons, List.mapM_cons, ih, g.parse]; rfl
  rw [hg]
  cases quad with
  | none => rfl
  | some q =>
    simp only [Option.toList_some, List.map_cons, List.map_nil, List.mapM_cons, List.mapM_nil,
      q.parse]
    rfl

/-! ## Two colons in a row -/

theorem strstr_colons_cons {b : UInt8} {s : Bytes} (h : b ≠ ch ':' ∨ s.head? ≠ some (ch ':')) :
    strstr (ascii "::") (b :: s) = strstr (ascii "::") s := by
  rw [strstr, if_neg]
  rw [show ascii "::" = [ch ':', ch ':'] from rfl, Bool.not_eq_true, List.isPrefixOf_cons_cons]
  cases s with
  | nil => exact Bool.and_false _
  | cons c s =>
    rw [List.isPrefixOf_cons_cons]
    rcases h with h | h
    · simp [h.symm]
    · have hc : ch ':' ≠ c := by
        rintro rfl
        exact h rfl
      simp [hc]

/-- A part holds no two colons. -/
theorem strstr_part {p : Bytes} (hp : ch ':' ∉ p) (r : Bytes) :
    strstr (ascii "::") (p ++ r) = strstr (ascii "::") r := by
  induction p with
  | nil => rfl
  | cons b p ih =>
    rw [List.mem_cons, not_or] at hp
    rw [List.cons_append, strstr_colons_cons (Or.inl fun h => hp.1 h.symm), ih hp.2]

/-- Joined parts hold no two colons in a row. -/
theorem strstr_joinColon {ps : List Bytes} (hps : ∀ p ∈ ps, Part p) (r : Bytes) :
    strstr (ascii "::") (joinColon ps ++ r) = strstr (ascii "::") r := by
  induction ps with
  | nil => rfl
  | cons p ps ih =>
    rw [List.forall_mem_cons] at hps
    cases ps with
    | nil => rw [joinColon, strstr_part hps.1.2]
    | cons q ps =>
      have hq := hps.2 q List.mem_cons_self
      obtain ⟨b, t, hbt⟩ : ∃ b t, joinColon (q :: ps) ++ r = b :: t ∧ b ≠ ch ':' := by
        obtain ⟨b, s, hs⟩ := List.exists_cons_of_ne_nil hq.1
        have hb : b ≠ ch ':' := by
          rintro rfl
          exact hq.2 (by simp [hs])
        cases ps with
        | nil => exact ⟨b, s ++ r, by rw [joinColon, hs, List.cons_append], hb⟩
        | cons q' ps =>
          exact ⟨b, s ++ ch ':' :: joinColon (q' :: ps) ++ r, by
            rw [joinColon, hs]
            simp, hb⟩
      rw [joinColon, List.append_assoc, strstr_part hps.1.2, List.cons_append,
        strstr_colons_cons (Or.inr ?_), ih hps.2]
      rw [hbt.1, List.head?_cons, Ne, Option.some.injEq]
      exact hbt.2

end SeaClaw.Net
