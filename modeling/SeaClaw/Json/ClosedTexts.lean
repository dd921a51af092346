import SeaClaw.Json.Prefix
import SeaClaw.Lib.NumberTokens

/-!
# Texts that close themselves

The text of an object or an array ends with its bracket, so that it is read alike wherever it
stands: what follows it, in the slice or in the memory behind, has no part in the result. Only
a number has to be ended by an octet of another kind.
-/

namespace SeaClaw.Json

open Lib

variable {t : Bytes}

/-- Behind white space there is an octet that belongs to no number. -/
def Ends (rest : Bytes) : Prop := ∃ b w, dropWs rest = b :: w ∧ ¬ InToken b

theorem mem_of_dropWs {s w : Bytes} {b : UInt8} (h : dropWs s = b :: w) : b ∈ s :=
  (List.dropWhile_suffix _).subset (show b ∈ dropWs s by rw [h]; exact List.mem_cons_self)

theorem ends_of_dropWs {rest w : Bytes} {b : UInt8} (h : dropWs rest = b :: w)
    (hb : ¬ InToken b) : Ends rest :=
  ⟨b, w, h, hb⟩

variable (t' : Bytes)

mutual
/-- A value that is ended in the slice is read alike in front of any memory. -/
theorem ReadsValue.elsewhere {d : ℕ} {s rest : Bytes} {v : Value} :
    ReadsValue t d s v rest → Ends rest → ReadsValue t' d s v rest
  | .string hs hl, _ => .string hs hl
  | .number (b := b) (u := u) hs hb hn hpos hle, hends => by
    obtain ⟨x, w, hx, hout⟩ := hends
    have hmem : x ∈ b :: u := List.mem_of_mem_drop (mem_of_dropWs hx)
    obtain ⟨r, hr⟩ := strtod_isSome hmem hout
    have heq := (strtod_append t hr).symm.trans hn
    rw [heq] at hr
    exact .number hs hb (strtod_append t' hr) hpos hle
  | .true hs, _ => .true hs
  | .false hs, _ => .false hs
  | .null hs, _ => .null hs
  | .emptyArray hs hd hu, _ => .emptyArray hs hd hu
  | .array hs hd hu hi, _ => .array hs hd hu hi.elsewhere
  | .emptyObject hs hd hu, _ => .emptyObject hs hd hu
  | .object hs hd hu hm, _ => .object hs hd hu hm.elsewhere

theorem ReadsItems.elsewhere {d : ℕ} {s rest : Bytes} {vs : List Value} :
    ReadsItems t d s vs rest → ReadsItems t' d s vs rest
  | .last hv hu => .last (hv.elsewhere (ends_of_dropWs hu (by decide))) hu
  | .trailing hv hu hw => .trailing (hv.elsewhere (ends_of_dropWs hu (by decide))) hu hw
  | .cons hv hu hw hvs =>
    .cons (hv.elsewhere (ends_of_dropWs hu (by decide))) hu hw hvs.elsewhere

theorem ReadsMembers.elsewhere {d : ℕ} {s rest : Bytes} {ms : List (Bytes × Value)} :
    ReadsMembers t d s ms rest → ReadsMembers t' d s ms rest
  | .close hs => .close hs
  | .last hs hk hr hv hx => .last hs hk hr (hv.elsewhere (ends_of_dropWs hx (by decide))) hx
  | .cons hs hk hr hv hx hms =>
    .cons hs hk hr (hv.elsewhere (ends_of_dropWs hx (by decide))) hx hms.elsewhere
end

/-- What the parser returns is spelled at the front of the slice, or it is a number. -/
theorem reads_or_number {s : Bytes} {v : Value} {c : Cursor} (h : scJsonParse s t = .ok v c) :
    (∃ rest, ReadsValue t 0 s v rest) ∨ ∃ x, v = .number x := by
  rcases (scJsonParse_ok_iff s).mp ⟨_, c, h⟩ with
    ⟨rest, htext⟩ | ⟨b, u, n, neg, m, g, hs, hb, hn, hlt⟩
  · left
    obtain ⟨w, hw⟩ := htext.reads
    have hparse : scJsonParse s t = .ok w ⟨rest, t, 0, 0⟩ := hw.parse _ le_rfl
    rw [h, Outcome.ok.injEq] at hparse
    rw [← hparse.1] at hw
    exact ⟨rest, hw⟩
  · right
    have hpos : n ≠ 0 := by omega
    rw [scJsonParse, fuelFor, parseValue_number t 0 0 _ hs hb, parseNumber] at h
    simp only [hn, if_neg hpos, Outcome.ok.injEq] at h
    exact ⟨_, h.1.symm⟩

section Object

variable {d : ℕ} {s rest : Bytes} {pairs : List (Bytes × Value)}

/-- An object needs nothing behind its closing brace. -/
theorem ReadsValue.object_elsewhere (h : ReadsValue t d s (.object pairs) rest) :
    ReadsValue t' d s (.object pairs) rest := by
  cases h with
  | emptyObject hs hd hu => exact .emptyObject hs hd hu
  | object hs hd hu hm => exact .object hs hd hu (hm.elsewhere t')

/-- An object is read alike with more text behind it and other memory behind that. -/
theorem ReadsValue.object_append (h : ReadsValue t d s (.object pairs) rest) (u : Bytes) :
    ReadsValue t' d (s ++ u) (.object pairs) (rest ++ u) :=
  (h.object_elsewhere (u ++ t')).append u

/-- The object that the parser returns is spelled at the front of the slice. -/
theorem reads_of_scJsonParse {c : Cursor} (h : scJsonParse s t = .ok (.object pairs) c) :
    ∃ rest, ReadsValue t 0 s (.object pairs) rest := by
  rcases reads_or_number h with hread | ⟨x, hx⟩
  · exact hread
  · cases hx

/-- The object at the front of a slice is the one of every longer slice. -/
theorem scJsonParse_longer {c : Cursor} (h : scJsonParse s t = .ok (.object pairs) c)
    (u : Bytes) : ∃ c', scJsonParse (s ++ u) t' = .ok (.object pairs) c' := by
  obtain ⟨rest, hread⟩ := reads_of_scJsonParse h
  exact ⟨_, (hread.object_append t' u).parse _ le_rfl⟩

end Object

end SeaClaw.Json
