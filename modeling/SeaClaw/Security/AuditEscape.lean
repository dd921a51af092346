import SeaClaw.Security.AuditEvent

/-!
# Escaped fields

A field is the escaping of a prefix of its string as long as no control octet stands where there
is room for the front of its escape only. Then the escape is cut, and the digits that are missing
are not made up for by anything behind it.
-/

namespace SeaClaw.Security

open Lib Json

/-- The escaping of one octet. -/
def escapeOctet (b : UInt8) : Bytes :=
  if b = ch '"' ∨ b = ch '\\' then [ch '\\', b]
  else if b < 32 then unicodeEscape b
  else [b]

/-- The escaping of a string. -/
def escapeText (s : Bytes) : Bytes := s.flatMap escapeOctet

/-- No control octet meets a buffer in which three to six octets are left, when `n` octets are
already taken. -/
def Uncut (cap n : ℕ) (s : Bytes) : Prop :=
  ∀ p b r, s = p ++ b :: r → b < 32 → n + (escapeText p).length + 2 < cap →
    n + (escapeText p).length + 6 < cap

theorem escapeText_cons (b : UInt8) (s : Bytes) :
    escapeText (b :: s) = escapeOctet b ++ escapeText s := List.flatMap_cons

theorem control_plain (b : UInt8) (hb : b < 32) : ¬ (b = ch '"' ∨ b = ch '\\') := by
  rintro (rfl | rfl) <;> exact absurd hb (by decide)

theorem escapeOctet_control {b : UInt8} (hb : b < 32) : escapeOctet b = unicodeEscape b := by
  rw [escapeOctet, if_neg (control_plain b hb), if_pos hb]

theorem length_unicodeEscape (b : UInt8) : (unicodeEscape b).length = 6 := rfl

section Uncut

variable {cap n : ℕ} {b : UInt8} {s : Bytes}

theorem uncut_nil : Uncut cap n [] := by
  intro p b r h
  exact absurd h (by simp)

theorem uncut_cons_iff : Uncut cap n (b :: s) ↔
    (b < 32 → n + 2 < cap → n + 6 < cap) ∧ Uncut cap (n + (escapeOctet b).length) s := by
  constructor
  · intro h
    refine ⟨h [] b s rfl, ?_⟩
    intro p c r hs hc
    have hp := h (b :: p) c r (by rw [hs, List.cons_append]) hc
    rw [escapeText_cons, List.length_append, ← Nat.add_assoc] at hp
    exact hp
  · rintro ⟨hhead, htail⟩ p c r hs hc
    cases p with
    | nil =>
      obtain ⟨rfl, -⟩ := List.cons.inj hs
      exact hhead hc
    | cons d p =>
      obtain ⟨rfl, hrest⟩ := List.cons.inj hs
      rw [escapeText_cons, List.length_append, ← Nat.add_assoc]
      exact htail p c r hrest hc

/-- Something is cut only where the loop still goes on. -/
theorem lt_of_not_uncut (h : ¬ Uncut cap n s) : n + 2 < cap := by
  by_contra hn
  apply h
  intro p b r _ _ hlt
  omega

end Uncut

section Loop

variable {cap : ℕ} {b : UInt8} {s out : Bytes}

theorem escapeLoop_full (h : ¬ out.length + 2 < cap) :
    escapeLoop cap s out = (out, out.length) := by
  cases s with
  | nil => rw [escapeLoop]
  | cons b s => rw [escapeLoop, if_neg h]

/-- An octet whose escape fits, or that needs none. -/
theorem escapeLoop_cons (hroom : out.length + 2 < cap) (hfits : b < 32 → out.length + 6 < cap) :
    escapeLoop cap (b :: s) out = escapeLoop cap s (out ++ escapeOctet b) := by
  rw [escapeLoop, if_pos hroom, escapeOctet]
  by_cases hquote : b = ch '"' ∨ b = ch '\\'
  · rw [if_pos hquote, if_pos hquote]
  · rw [if_neg hquote, if_neg hquote]
    by_cases hlow : b < 32
    · rw [if_pos hlow, if_pos hlow, if_pos (hfits hlow)]
    · rw [if_neg hlow, if_neg hlow]

/-- An octet whose escape is cut. -/
theorem escapeLoop_cut_cons (hroom : out.length + 2 < cap) (hlow : b < 32)
    (hcut : ¬ out.length + 6 < cap) : escapeLoop cap (b :: s) out =
      (out ++ (unicodeEscape b).take (cap - out.length - 1), out.length + 6) := by
  rw [escapeLoop, if_pos hroom, if_neg (control_plain b hlow), if_pos hlow, if_neg hcut]

theorem length_escapeOctet_le (hfits : b < 32 → out.length + 6 < cap)
    (hroom : out.length + 2 < cap) : (out ++ escapeOctet b).length < cap := by
  rw [List.length_append, escapeOctet]
  split_ifs with hquote hlow
  · exact hroom
  · exact hfits hlow
  · rw [List.length_singleton]
    omega

/-- Without a cut the loop escapes a prefix of the string, and stays inside the buffer. -/
theorem escapeLoop_uncut (h : Uncut cap out.length s) (hout : out.length < cap) :
    ∃ p, p <+: s ∧ escapeLoop cap s out =
      (out ++ escapeText p, (out ++ escapeText p).length) ∧
      (out ++ escapeText p).length < cap := by
  induction s generalizing out with
  | nil => exact ⟨[], List.prefix_rfl, by simp [escapeLoop, escapeText], by simpa [escapeText]⟩
  | cons b s ih =>
    obtain ⟨hfits, htail⟩ := uncut_cons_iff.mp h
    by_cases hroom : out.length + 2 < cap
    · have hlow : b < 32 → out.length + 6 < cap := fun hlow => hfits hlow hroom
      rw [escapeLoop_cons hroom hlow]
      rw [← List.length_append] at htail
      obtain ⟨p, hp, hloop, hlen⟩ := ih htail (length_escapeOctet_le hlow hroom)
      refine ⟨b :: p, List.cons_prefix_cons.mpr ⟨rfl, hp⟩, ?_⟩
      rw [escapeText_cons, ← List.append_assoc]
      exact ⟨hloop, hlen⟩
    · refine ⟨[], List.nil_prefix, ?_⟩
      rw [escapeLoop_full hroom]
      simpa [escapeText] using hout

/-- With a cut the loop stops in the middle of an escape, and counts more than the buffer has. -/
theorem escapeLoop_cut (h : ¬ Uncut cap out.length s) :
    ∃ p b k, b < 32 ∧ 2 ≤ k ∧ k ≤ 5 ∧
      (escapeLoop cap s out).1 = out ++ escapeText p ++ (unicodeEscape b).take k ∧
      cap ≤ (escapeLoop cap s out).2 := by
  have hroom := lt_of_not_uncut h
  induction s generalizing out with
  | nil => exact absurd uncut_nil h
  | cons b s ih =>
    by_cases hfits : b < 32 → out.length + 6 < cap
    · have htail : ¬ Uncut cap (out ++ escapeOctet b).length s := by
        intro htail
        rw [List.length_append] at htail
        exact h (uncut_cons_iff.mpr ⟨fun hlow _ => hfits hlow, htail⟩)
      obtain ⟨p, c, k, hc, hk2, hk5, htext, hlen⟩ := ih htail (lt_of_not_uncut htail)
      refine ⟨b :: p, c, k, hc, hk2, hk5, ?_, ?_⟩
      · rw [escapeLoop_cons hroom hfits, htext, escapeText_cons, List.append_assoc out]
      · rw [escapeLoop_cons hroom hfits]
        exact hlen
    · rw [Classical.not_imp] at hfits
      obtain ⟨hlow, hcut⟩ := hfits
      rw [escapeLoop_cut_cons hroom hlow hcut]
      refine ⟨[], b, cap - out.length - 1, hlow, by omega, by omega, ?_, by omega⟩
      simp [escapeText]

/-- Cut or not, the string in the buffer leaves room for a terminator. -/
theorem length_escapeLoop_lt (s : Bytes) (hout : out.length < cap) :
    (escapeLoop cap s out).1.length < cap := by
  induction s generalizing out with
  | nil => exact hout
  | cons b s ih =>
    by_cases hroom : out.length + 2 < cap
    · by_cases hfits : b < 32 → out.length + 6 < cap
      · rw [escapeLoop_cons hroom hfits]
        exact ih (length_escapeOctet_le hfits hroom)
      · rw [Classical.not_imp] at hfits
        rw [escapeLoop_cut_cons hroom hfits.1 hfits.2, List.length_append, List.length_take]
        omega
    · rw [escapeLoop_full hroom]
      exact hout

end Loop

/-! ## The fields of an event -/

/-- A printed value is the escaping of a prefix of the string. -/
def EscapedPrefix (s value : Bytes) : Prop := ∃ p, p <+: s ∧ value = escapeText p

/-- The terminator of a field stays inside the buffer exactly if nothing is cut. -/
theorem escapeField_isSome_iff {cap : ℕ} (hcap : 0 < cap) (s : CString) :
    (escapeField cap s).isSome ↔ Uncut cap 0 s.octets := by
  rw [escapeField]
  constructor
  · intro h
    by_contra hcut
    obtain ⟨-, -, -, -, -, -, -, hlen⟩ := @escapeLoop_cut cap s.octets [] hcut
    rw [if_neg (by omega)] at h
    cases h
  · intro h
    obtain ⟨p, -, hloop, hlen⟩ := @escapeLoop_uncut cap s.octets [] h hcap
    rw [hloop, if_pos hlen]
    rfl

theorem escapeField_some {cap : ℕ} (hcap : 0 < cap) {s : CString} {value : Bytes}
    (h : escapeField cap s = some value) :
    EscapedPrefix s.octets value ∧ value.length < cap := by
  have huncut := (escapeField_isSome_iff hcap s).mp (by rw [h]; rfl)
  obtain ⟨p, hp, hloop, hlen⟩ := @escapeLoop_uncut cap s.octets [] huncut hcap
  rw [escapeField, hloop, if_pos hlen, Option.some.injEq] at h
  rw [← h]
  exact ⟨⟨p, hp, rfl⟩, hlen⟩

/-- What is escaped of a command. -/
def keptCommand (s : CString) : Bytes := s.octets.take 500

theorem length_escapeCommand_lt (s : CString) : (escapeCommand s).length < 512 :=
  length_escapeLoop_lt _ (by decide)

theorem escapeCommand_uncut {s : CString} (h : Uncut 512 0 (keptCommand s)) :
    EscapedPrefix s.octets (escapeCommand s) := by
  obtain ⟨p, hp, hloop, -⟩ := @escapeLoop_uncut 512 (keptCommand s) [] h (by decide)
  refine ⟨p, hp.trans (List.take_prefix _ _), ?_⟩
  rw [escapeCommand, ← keptCommand, hloop]
  rfl

/-! ## Between quotes -/

theorem hex_hexDigit : ∀ n, n < 16 → isHexDigit (hexDigit n) = true := by decide

/-- The escape of an octet is a part of a string. -/
theorem exists_part (b : UInt8) : ∃ part : StringPart, part.text = escapeOctet b := by
  rw [escapeOctet]
  split_ifs with hquote hlow
  · rcases hquote with rfl | rfl
    · exact ⟨.letter .quote, rfl⟩
    · exact ⟨.letter .reverseSolidus, rfl⟩
  · have hhex : ∀ c ∈ [ch '0', ch '0', hexDigit (b.toNat / 16), hexDigit (b.toNat % 16)],
        isHexDigit c = true := by
      have hlt := b.toNat_lt
      have hhigh := hex_hexDigit (b.toNat / 16) (by omega)
      have hlow := hex_hexDigit (b.toNat % 16) (Nat.mod_lt _ (by decide))
      have hzero : isHexDigit (ch '0') = true := by decide
      simp only [List.forall_mem_cons, hzero, hhigh, hlow, List.not_mem_nil, false_implies,
        implies_true, and_self]
    exact ⟨.hex ⟨_, _, _, _, hhex⟩, rfl⟩
  · rw [not_or] at hquote
    exact ⟨.plain b ⟨UInt8.not_lt.mp hlow, hquote.1, hquote.2⟩, rfl⟩

theorem exists_parts (s : Bytes) :
    ∃ ps : List StringPart, ps.flatMap StringPart.text = escapeText s := by
  induction s with
  | nil => exact ⟨[], rfl⟩
  | cons b s ih =>
    obtain ⟨part, hpart⟩ := exists_part b
    obtain ⟨ps, hps⟩ := ih
    exact ⟨part :: ps, by rw [List.flatMap_cons, hpart, hps, escapeText_cons]⟩

/-- A text of escapes is the text of a string. -/
theorem octetString_escapeText (s : Bytes) : OctetString (quoted (escapeText s)) := by
  obtain ⟨ps, hps⟩ := exists_parts s
  exact ⟨ps, by rw [hps]⟩

theorem scan_cut_escape : ∀ b : UInt8, b < 32 → ∀ k ∈ [2, 3, 4, 5],
    scan .inside ((unicodeEscape b).take k ++ [ch '"']) = none := by decide +kernel

/-- The scanner gets stuck behind a cut escape. -/
theorem scan_cut (p : Bytes) {b : UInt8} (hb : b < 32) {k : ℕ} (hk2 : 2 ≤ k) (hk5 : k ≤ 5) :
    scan .outside (quoted (escapeText p ++ (unicodeEscape b).take k)) = none := by
  have hmem : k ∈ [2, 3, 4, 5] := by
    simp only [List.mem_cons, List.not_mem_nil, or_false]
    omega
  have hopen : scan .outside (quoted (escapeText p ++ (unicodeEscape b).take k)) =
      scan .inside (escapeText p ++ ((unicodeEscape b).take k ++ [ch '"'])) := by
    rw [← List.append_assoc]
    rfl
  obtain ⟨ps, hps⟩ := exists_parts p
  have hneutral : Neutral .inside (escapeText p) := by
    rw [← hps]
    exact Neutral.flatMap fun part _ => neutral_part part
  rw [hopen, scan_append, hneutral, Option.bind_some, scan_cut_escape b hb k hmem]

end SeaClaw.Security
