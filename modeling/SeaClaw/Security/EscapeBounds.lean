import SeaClaw.Security.AuditEscape

/-!
# Where escaping writes

`escape_json_string` keeps two octets free before each octet of the string, but the escape of a
control octet takes six. It is cut by `snprintf`, so that nothing is written behind the buffer, and
is counted whole, so that the length may be larger than the buffer.
-/

namespace SeaClaw.Security

open Lib

/-- Where `snprintf(out + n, out_cap - n, …)` writes a text of `len` octets and its terminator. -/
def snprintfPlaces (n cap len : ℕ) : List ℕ := List.range' n (min len (cap - n - 1) + 1)

/-- The loop of `escape_json_string` when `n` octets are counted: where it writes, and the length
that it returns. -/
def escapePlaces (cap : ℕ) : Bytes → ℕ → List ℕ × ℕ
  | [], n => ([], n)
  | b :: s, n =>
    if n + 2 < cap then
      if b = ch '"' ∨ b = ch '\\' then
        (n :: (n + 1) :: (escapePlaces cap s (n + 2)).1, (escapePlaces cap s (n + 2)).2)
      else if b < 32 then
        (snprintfPlaces n cap (unicodeEscape b).length ++
            (escapePlaces cap s (n + (unicodeEscape b).length)).1,
          (escapePlaces cap s (n + (unicodeEscape b).length)).2)
      else (n :: (escapePlaces cap s (n + 1)).1, (escapePlaces cap s (n + 1)).2)
    else ([], n)

/-- `escape_json_string`: where it writes, and the length that it returns. -/
def escapeJsonString (s : Option CString) (cap : ℕ) : List ℕ × ℕ :=
  match s with
  | none => ([], 0)
  | some s => if cap = 0 then ([], 0) else escapePlaces cap s.octets 0

/-- All places and the one of the terminator are inside the buffer. -/
def EscapeInside (s : Option CString) (cap : ℕ) : Prop :=
  (∀ i ∈ (escapeJsonString s cap).1, i < cap) ∧ (escapeJsonString s cap).2 < cap

/-- The length is the one that is counted with the text. -/
theorem escapePlaces_count (cap : ℕ) (s out : Bytes) :
    (escapePlaces cap s out.length).2 = (escapeLoop cap s out).2 := by
  induction s generalizing out with
  | nil => rw [escapePlaces, escapeLoop]
  | cons b s ih =>
    have hstep : ∀ piece : Bytes, (escapePlaces cap s (out.length + piece.length)).2 =
        (escapeLoop cap s (out ++ piece)).2 := by
      intro piece
      rw [← List.length_append]
      exact ih _
    rw [escapePlaces, escapeLoop]
    split_ifs with hroom hquote hlow hfits
    · exact hstep [ch '\\', b]
    · exact hstep (unicodeEscape b)
    · -- behind the cut escape the loop stops
      rw [length_unicodeEscape]
      cases s with
      | nil => rfl
      | cons c s => rw [escapePlaces, if_neg (by omega)]
    · exact hstep [b]
    · rfl

/-- Nothing is written behind the buffer. -/
theorem escapePlaces_lt (cap : ℕ) (s : Bytes) (n : ℕ) :
    ∀ i ∈ (escapePlaces cap s n).1, i < cap := by
  induction s generalizing n with
  | nil =>
    intro i hi
    exact absurd hi List.not_mem_nil
  | cons b s ih =>
    intro i hi
    rw [escapePlaces] at hi
    split_ifs at hi with hroom hquote hlow
    · rw [List.mem_cons, List.mem_cons] at hi
      rcases hi with rfl | rfl | hi
      · omega
      · omega
      · exact ih _ i hi
    · rcases List.mem_append.mp hi with hi | hi
      · rw [snprintfPlaces, List.mem_range'_1] at hi
        omega
      · exact ih _ i hi
    · rcases List.mem_cons.mp hi with rfl | hi
      · omega
      · exact ih _ i hi
    · exact absurd hi List.not_mem_nil

/-- Writing stays inside exactly if no escape is cut. -/
theorem escapePlaces_inside_iff {cap : ℕ} (hcap : 0 < cap) (s : Bytes) :
    (escapePlaces cap s 0).2 < cap ↔ Uncut cap 0 s := by
  have hcount := escapePlaces_count cap s []
  rw [List.length_nil] at hcount
  rw [hcount]
  constructor
  · intro h
    by_contra hcut
    obtain ⟨-, -, -, -, -, -, -, hlen⟩ := @escapeLoop_cut cap s [] hcut
    omega
  · intro h
    obtain ⟨p, -, hloop, hlen⟩ := @escapeLoop_uncut cap s [] h hcap
    rw [hloop]
    exact hlen

/-- Escaping keeps inside the buffer, and its length below it, if and only if no control octet
comes when three to six octets of the buffer are left. -/
theorem escapeJsonString_inside_iff (s : Option CString) {cap : ℕ} (hcap : 1 ≤ cap) :
    EscapeInside s cap ↔ ∀ t ∈ s, Uncut cap 0 t.octets := by
  cases s with
  | none =>
    refine iff_of_true ⟨?_, hcap⟩ ?_
    · intro i hi
      exact absurd hi List.not_mem_nil
    · intro t ht
      cases ht
  | some s =>
    have hpos : cap ≠ 0 := by omega
    rw [EscapeInside, escapeJsonString, if_neg hpos, escapePlaces_inside_iff hcap]
    constructor
    · rintro ⟨-, h⟩ t ht
      obtain rfl := Option.some.inj ht
      exact h
    · intro h
      exact ⟨escapePlaces_lt cap s.octets 0, h s rfl⟩

/-- A quotation mark at the end of a small buffer. -/
theorem escapeJsonString_inside_quote :
    EscapeInside (some (CString.ofBytes (ascii "ab\""))) 8 ↔
      ∀ t ∈ some (CString.ofBytes (ascii "ab\"")), Uncut 8 0 t.octets :=
  escapeJsonString_inside_iff _ (by decide)

/-- A channel name of 250 letters and a control octet. -/
def controlName : CString :=
  ⟨List.replicate 250 (ch 'x') ++ [1], by
    rw [List.mem_append, List.mem_replicate, List.mem_singleton]
    decide⟩

/-- It fills a buffer of 256 octets, and the terminator is stored behind it. -/
theorem escapeJsonString_controlName : ¬ EscapeInside (some controlName) 256 := by
  rintro ⟨-, h⟩
  rw [escapeJsonString, if_neg (by decide), escapePlaces_inside_iff (by decide)] at h
  have htext : (escapeText (List.replicate 250 (ch 'x'))).length = 250 := by
    have hx : escapeOctet (ch 'x') = [ch 'x'] := by decide
    rw [escapeText, List.flatMap_replicate, hx, List.length_flatten, List.map_replicate,
      List.sum_replicate]
    rfl
  have hcut := h (List.replicate 250 (ch 'x')) 1 [] rfl (by decide)
  rw [htext] at hcut
  omega

end SeaClaw.Security
