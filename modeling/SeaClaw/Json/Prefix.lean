import SeaClaw.Json.ParserTexts

/-!
# The front of a longer slice

What is read from a slice is read from every longer slice of the same memory. So a parser
that is given the front of a text finds there the value of the whole text, or no value.
-/

namespace SeaClaw.Json

open Lib

/-- White space before something is skipped alike in a longer slice. -/
theorem dropWs_append {s : Bytes} {b : UInt8} {r : Bytes} (h : dropWs s = b :: r) (u : Bytes) :
    dropWs (s ++ u) = b :: (r ++ u) := by
  rw [dropWs, List.dropWhile_append]
  rw [dropWs] at h
  simp [h]

theorem dropWs_append_ascii {s r : Bytes} {word : String} (hword : ascii word ≠ [])
    (h : dropWs s = ascii word ++ r) (u : Bytes) :
    dropWs (s ++ u) = ascii word ++ (r ++ u) := by
  obtain ⟨b, w, hw⟩ := List.exists_cons_of_ne_nil hword
  rw [hw, List.cons_append] at h
  rw [dropWs_append h, hw, List.cons_append, List.append_assoc]

theorem dropWs_append_of_ne {s : Bytes} (h : dropWs s ≠ []) (u : Bytes) :
    dropWs (s ++ u) = dropWs s ++ u := by
  obtain ⟨b, r, hr⟩ := List.exists_cons_of_ne_nil h
  rw [dropWs_append hr, hr, List.cons_append]

theorem head?_dropWs_append {s : Bytes} {b : UInt8} (hne : dropWs s ≠ [])
    (h : (dropWs s).head? ≠ some b) (u : Bytes) : (dropWs (s ++ u)).head? ≠ some b := by
  obtain ⟨a, r, hr⟩ := List.exists_cons_of_ne_nil hne
  rw [hr] at h
  rw [dropWs_append hr]
  exact h

/-- A string that is closed stays as it is in a longer slice. -/
theorem stringLoop_append {s str rest : Bytes} {buf : StrBuf}
    (h : stringLoop s buf = .closed str rest) (u : Bytes) :
    stringLoop (s ++ u) buf = .closed str (rest ++ u) := by
  fun_induction stringLoop s buf with
  | case1 => cases h
  | case2 buf s =>
    cases h
    rw [List.cons_append, stringLoop_quote]
  | case3 => cases h
  | case4 =>
    rename_i ih
    simp only [List.cons_append]
    rw [stringLoop_unicode _ _ (by assumption) (by assumption)]
    exact ih h
  | case5 => cases h
  | case6 => cases h
  | case7 => cases h
  | case8 =>
    rename_i ih
    simp only [List.cons_append]
    rw [stringLoop_simple _ _ (by assumption)]
    exact ih h
  | case9 => cases h
  | case10 => cases h
  | case11 b s buf hq he hc ih =>
    rw [List.cons_append, stringLoop_plain _ _ hq he hc]
    exact ih h

section Append

variable {t : Bytes} (u : Bytes)

theorem ReadsItems.ne_nil {d : ℕ} {s rest : Bytes} {vs : List Value}
    (h : ReadsItems t d (dropWs s) vs rest) : dropWs s ≠ [] := by
  intro hnil
  have hlt := h.length_lt
  rw [hnil] at hlt
  exact absurd hlt (Nat.not_lt_zero _)

theorem ReadsMembers.ne_nil {d : ℕ} {s rest : Bytes} {ms : List (Bytes × Value)}
    (h : ReadsMembers t d (dropWs s) ms rest) : dropWs s ≠ [] := by
  intro hnil
  have hlt := h.length_lt
  rw [hnil] at hlt
  exact absurd hlt (Nat.not_lt_zero _)

mutual
/-- A value is read alike from a longer slice of the same memory. -/
theorem ReadsValue.append {d : ℕ} {s rest : Bytes} {v : Value} :
    ReadsValue (u ++ t) d s v rest → ReadsValue t d (s ++ u) v (rest ++ u)
  | .string hs hl => .string (dropWs_append hs u) (stringLoop_append hl u)
  | .number (b := b) (u := w) (n := n) hs hb hn hpos hle => by
    have hnum := ReadsValue.number (t := t) (d := d) (dropWs_append hs u) hb
      (by rw [← List.cons_append, List.append_assoc]; exact hn) hpos
      (by simp only [List.length_cons, List.length_append] at hle ⊢; omega)
    rw [← List.cons_append, List.drop_append_of_le_length hle] at hnum
    exact hnum
  | .true hs => .true (dropWs_append_ascii (by decide) hs u)
  | .false hs => .false (dropWs_append_ascii (by decide) hs u)
  | .null hs => .null (dropWs_append_ascii (by decide) hs u)
  | .emptyArray hs hd hu => .emptyArray (dropWs_append hs u) hd (dropWs_append hu u)
  | .array hs hd hu hi => by
    refine .array (dropWs_append hs u) hd (head?_dropWs_append hi.ne_nil hu u) ?_
    rw [dropWs_append_of_ne hi.ne_nil]
    exact hi.append
  | .emptyObject hs hd hu => .emptyObject (dropWs_append hs u) hd (dropWs_append hu u)
  | .object hs hd hu hm => by
    refine .object (dropWs_append hs u) hd (head?_dropWs_append hm.ne_nil hu u) ?_
    rw [dropWs_append_of_ne hm.ne_nil]
    exact hm.append

theorem ReadsItems.append {d : ℕ} {s rest : Bytes} {vs : List Value} :
    ReadsItems (u ++ t) d s vs rest → ReadsItems t d (s ++ u) vs (rest ++ u)
  | .last hv hu => .last hv.append (dropWs_append hu u)
  | .trailing hv hu hw => .trailing hv.append (dropWs_append hu u) (dropWs_append hw u)
  | .cons hv hu hw hvs => by
    refine .cons hv.append (dropWs_append hu u) (head?_dropWs_append hvs.ne_nil hw u) ?_
    rw [dropWs_append_of_ne hvs.ne_nil]
    exact hvs.append

theorem ReadsMembers.append {d : ℕ} {s rest : Bytes} {ms : List (Bytes × Value)} :
    ReadsMembers (u ++ t) d s ms rest → ReadsMembers t d (s ++ u) ms (rest ++ u)
  | .close hs => .close (dropWs_append hs u)
  | .last hs hk hr hv hx =>
    .last (dropWs_append hs u) (stringLoop_append hk u) (dropWs_append hr u) hv.append
      (dropWs_append hx u)
  | .cons hs hk hr hv hx hms =>
    .cons (dropWs_append hs u) (stringLoop_append hk u) (dropWs_append hr u) hv.append
      (dropWs_append hx u) hms.append
end

/-- White space in front of a value does not matter. -/
theorem ReadsValue.skip {d : ℕ} {s rest : Bytes} {v : Value} (h : ReadsValue t d s v rest) :
    ReadsValue t d (dropWs s) v rest := by
  cases h with
  | string hs hl => exact .string (by rw [dropWs_dropWs, hs]) hl
  | number hs hb hn hpos hle => exact .number (by rw [dropWs_dropWs, hs]) hb hn hpos hle
  | true hs => exact .true (by rw [dropWs_dropWs, hs])
  | false hs => exact .false (by rw [dropWs_dropWs, hs])
  | null hs => exact .null (by rw [dropWs_dropWs, hs])
  | emptyArray hs hd hu => exact .emptyArray (by rw [dropWs_dropWs, hs]) hd hu
  | array hs hd hu hi => exact .array (by rw [dropWs_dropWs, hs]) hd hu hi
  | emptyObject hs hd hu => exact .emptyObject (by rw [dropWs_dropWs, hs]) hd hu
  | object hs hd hu hm => exact .object (by rw [dropWs_dropWs, hs]) hd hu hm

/-- A value at the front of a slice that is no number is the value of every longer slice. -/
theorem scJsonParse_front {s : Bytes} {v v' : Value} {c c' : Cursor} {b : UInt8} {w : Bytes}
    (hs : dropWs s = b :: w) (hb : ¬ startsNumber b)
    (h : scJsonParse s (u ++ t) = .ok v c) (h' : scJsonParse (s ++ u) t = .ok v' c') :
    v = v' := by
  rcases (scJsonParse_ok_iff s).mp ⟨v, c, h⟩ with ⟨rest, htext⟩ | ⟨b', w', _, _, _, _, hs', hb', -⟩
  · obtain ⟨x, hx⟩ := htext.reads
    have hshort : scJsonParse s (u ++ t) = .ok x ⟨rest, u ++ t, 0, 0⟩ := hx.parse _ le_rfl
    have hlong : scJsonParse (s ++ u) t = .ok x ⟨rest ++ u, t, 0, 0⟩ :=
      (hx.append u).parse _ le_rfl
    rw [h, Outcome.ok.injEq] at hshort
    rw [h', Outcome.ok.injEq] at hlong
    rw [hshort.1, hlong.1]
  · rw [hs, List.cons.injEq] at hs'
    exact absurd (hs'.1 ▸ hb') hb

end Append

end SeaClaw.Json
