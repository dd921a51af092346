import SeaClaw.Json.ParserTexts
import SeaClaw.Json.RoundTrip

/-!
# Which texts are accepted

The parser and the RFC agree on a slice unless the parser reads something that is no number or
no string of the RFC, or leaves more than white space, or the slice is a JSON text with a
number too large for a double.
-/

namespace SeaClaw.Json

open Lib

variable (t : Bytes)

/-! ## Readings within the RFC -/

/-- `strtod` takes exactly a number of the RFC. -/
def CleanNumber (u rest : Bytes) : Prop := RfcNumber u rest ∧ ReadNumber t u rest

/-- The slice is a number up to its end, and `strtod`, which may go on in the memory after
it, takes a finite number there. -/
def NumberEnd (s : Bytes) : Prop := ∃ n : NumberText, dropWs s = n.text ∧
  ∃ k neg mag grid, strtod (n.text ++ t) = some (k, .finite neg mag grid) ∧ k ≠ 0

/-- All that the parser reads of the slice is of the RFC, and white space follows. -/
def Clean (s : Bytes) : Prop :=
  (∃ rest, TextValue (CleanNumber t) RfcString 0 s rest ∧ Blank rest) ∨ NumberEnd t s

/-- There is a value for the parser at the front of the slice. -/
def Reads (s : Bytes) : Prop :=
  (∃ rest, TextValue (ReadNumber t) ReadString 0 s rest) ∨ NumberPast t s

/-- `strtod` takes no finite number here. -/
def NotFinite (u : Bytes) : Prop :=
  ∀ n neg mag grid, strtod (u ++ t) = some (n, .finite neg mag grid) → n = 0

mutual
/-- Behind what is within the RFC there is a number that is not finite. -/
inductive OverflowValue : ℕ → Bytes → Prop where
  | number {d s b u} (hs : dropWs s = b :: u) (hb : startsNumber b)
      (hn : NotFinite t (b :: u)) : OverflowValue d s
  | array {d s u} (hs : dropWs s = ch '[' :: u) (hu : (dropWs u).head? ≠ some (ch ']'))
      (hi : OverflowItems (d + 1) (dropWs u)) : OverflowValue d s
  | object {d s u} (hs : dropWs s = ch '{' :: u) (hu : (dropWs u).head? ≠ some (ch '}'))
      (hm : OverflowMembers (d + 1) (dropWs u)) : OverflowValue d s

/-- Among the elements of an array. -/
inductive OverflowItems : ℕ → Bytes → Prop where
  | here {d s} (hv : OverflowValue d s) : OverflowItems d s
  | later {d s u w} (hv : TextValue (CleanNumber t) RfcString d s u)
      (hu : dropWs u = ch ',' :: w) (hw : (dropWs w).head? ≠ some (ch ']'))
      (hi : OverflowItems d (dropWs w)) : OverflowItems d s

/-- Among the members of an object. -/
inductive OverflowMembers : ℕ → Bytes → Prop where
  | here {d s u r w} (hs : dropWs s = ch '"' :: u) (hk : RfcString u r)
      (hr : dropWs r = ch ':' :: w) (hv : OverflowValue d w) : OverflowMembers d s
  | later {d s u r w x y} (hs : dropWs s = ch '"' :: u) (hk : RfcString u r)
      (hr : dropWs r = ch ':' :: w) (hv : TextValue (CleanNumber t) RfcString d w x)
      (hx : dropWs x = ch ',' :: y) (hm : OverflowMembers d y) : OverflowMembers d s
end

variable {t}

/-- What is clean is read. -/
theorem TextValue.parse_clean {d : ℕ} {s rest : Bytes}
    (h : TextValue (CleanNumber t) RfcString d s rest) : ∃ v, ∀ fuel, 3 * s.length + 3 ≤ fuel →
      parseValue fuel ⟨s, t, 0, d⟩ = .ok v ⟨rest, t, 0, d⟩ ∧ rest.length < s.length := by
  obtain ⟨v, hv⟩ := (h.mono (fun _ _ hn => hn.2) fun _ _ hs => hs.read).reads
  exact ⟨v, fun fuel hf => ⟨hv.parse fuel hf, hv.length_lt⟩⟩

/-! ## Where a number is not finite, nothing is accepted -/

mutual
theorem OverflowValue.not_ok {d : ℕ} {s : Bytes} : OverflowValue t d s → ∀ fuel,
    3 * s.length + 3 ≤ fuel → ∀ v c, parseValue fuel ⟨s, t, 0, d⟩ ≠ .ok v c
  | _, 0, hf, _, _ => by omega
  | .number (b := b) (u := u) hs hb hn, fuel + 1, _, v, c => by
    rw [parseValue_number t 0 d fuel hs hb, parseNumber]
    intro h
    cases hr : strtod (b :: u ++ t) with
    | none =>
      simp only [hr] at h
      cases h
    | some r =>
      obtain ⟨n, x⟩ := r
      cases x with
      | finite neg mag grid =>
        simp only [hr, hn n neg mag grid hr, ite_true] at h
        cases h
      | inf neg =>
        simp only [hr] at h
        split_ifs at h
      | nan neg =>
        simp only [hr] at h
        split_ifs at h
  | .array (u := u) hs hu hi, fuel + 2, hf, v, c => by
    have hlen := length_of_dropWs hs
    have hws := dropWs_length_le u
    rw [parseValue_array t 0 d _ hs, parseArray_mk, if_neg (headD_ne (by decide) hu)]
    split_ifs
    · exact fun h => by cases h
    · exact hi.not_ok fuel (by omega) [] v c
  | .object (u := u) hs hu hm, fuel + 2, hf, v, c => by
    have hlen := length_of_dropWs hs
    have hws := dropWs_length_le u
    rw [parseValue_object t 0 d _ hs, parseObject_mk, if_neg (headD_ne (by decide) hu)]
    split_ifs
    · exact fun h => by cases h
    · exact hm.not_ok fuel (by omega) [] v c
  | .array .., 1, hf, _, _ => by omega
  | .object .., 1, hf, _, _ => by omega

theorem OverflowItems.not_ok {d : ℕ} {s : Bytes} : OverflowItems t d s → ∀ fuel,
    3 * s.length + 4 ≤ fuel → ∀ items v c, arrayLoop fuel ⟨s, t, 0, d⟩ items ≠ .ok v c
  | _, 0, hf, _, _, _ => by omega
  | .here hv, fuel + 1, hf, items, v, c => by
    intro h
    cases hr : parseValue fuel ⟨s, t, 0, d⟩ with
    | ok w c' => exact hv.not_ok fuel (by omega) w c' hr
    | err e c' =>
      simp only [arrayLoop, hr] at h
      cases h
    | overread c' =>
      simp only [arrayLoop, hr] at h
      cases h
    | outOfFuel =>
      simp only [arrayLoop, hr] at h
      cases h
  | .later (w := w) hv hu hw hi, fuel + 1, hf, items, v, c => by
    obtain ⟨x, hx⟩ := hv.parse_clean
    obtain ⟨hparse, hlen⟩ := hx fuel (by omega)
    have hcomma := length_of_dropWs hu
    have hws := dropWs_length_le w
    rw [arrayLoop_comma t 0 d fuel hparse hu, if_neg (headD_ne (by decide) hw)]
    exact hi.not_ok fuel (by omega) _ v c

theorem OverflowMembers.not_ok {d : ℕ} {s : Bytes} : OverflowMembers t d s → ∀ fuel,
    3 * s.length + 4 ≤ fuel → ∀ pairs v c, objectLoop fuel ⟨s, t, 0, d⟩ pairs ≠ .ok v c
  | _, 0, hf, _, _, _ => by omega
  | .here (w := w) hs hk hr hv, fuel + 1, hf, pairs, v, c => by
    obtain ⟨key, hkey⟩ := hk.read
    have hlen := stringLoop_length hkey
    have hcolon := length_of_dropWs hr
    have hquote := length_of_dropWs hs
    rw [objectLoop_key t 0 d fuel hs hkey hr]
    intro h
    cases hp : parseValue fuel ⟨w, t, 0, d⟩ with
    | ok x c' => exact hv.not_ok fuel (by omega) x c' hp
    | err e c' =>
      simp only [hp] at h
      cases h
    | overread c' =>
      simp only [hp] at h
      cases h
    | outOfFuel =>
      simp only [hp] at h
      cases h
  | .later hs hk hr hv hx hm, fuel + 1, hf, pairs, v, c => by
    obtain ⟨key, hkey⟩ := hk.read
    obtain ⟨x, hval⟩ := hv.parse_clean
    have hlen := stringLoop_length hkey
    have hcolon := length_of_dropWs hr
    have hquote := length_of_dropWs hs
    have hcomma := length_of_dropWs hx
    obtain ⟨hparse, hshort⟩ := hval fuel (by omega)
    rw [objectLoop_key t 0 d fuel hs hkey hr, hparse]
    simp only [peek_mk, hx, List.headD_cons, ite_true, advance_peeked hx]
    exact hm.not_ok fuel (by omega) _ v c
end

/-! ## A JSON text is read within the RFC or is not finite -/

/-- White space, commas and closing brackets continue no number. -/
theorem endsInteger_of_isWs : ∀ b, isWs b = true → EndsInteger b := by decide +kernel

theorem endsInteger_of_dropWs {u w : Bytes} {b : UInt8} (hb : EndsInteger b)
    (h : dropWs u = b :: w) : ∀ c r, u = c :: r → EndsInteger c := by
  rintro c r rfl
  by_cases hc : isWs c = true
  · exact endsInteger_of_isWs c hc
  · rw [dropWs_cons (by simpa using hc), List.cons.injEq] at h
    rw [h.1]
    exact hb

theorem endsInteger_of_blank {rest : Bytes} (h : Blank rest) :
    ∀ c r, rest = c :: r → EndsInteger c := by
  rintro c r rfl
  rw [Blank, dropWs, List.dropWhile_eq_nil_iff] at h
  exact endsInteger_of_isWs c (h c List.mem_cons_self)

/-- A number of the RFC is taken whole, or is not finite, or ends the slice. -/
theorem RfcNumber.cases {u rest : Bytes} (h : RfcNumber u rest)
    (hrest : ∀ c r, rest = c :: r → EndsInteger c) :
    CleanNumber t u rest ∨ NotFinite t u ∨ (rest = [] ∧ ∃ n : NumberText, u = n.text ∧
      ∃ k neg mag grid, strtod (n.text ++ t) = some (k, .finite neg mag grid) ∧ k ≠ 0) := by
  obtain ⟨n, rfl⟩ := h
  cases rest with
  | nil =>
    rw [List.append_nil]
    by_cases hfin : ∃ k neg mag grid,
        strtod (n.text ++ t) = some (k, .finite neg mag grid) ∧ k ≠ 0
    · exact Or.inr (Or.inr ⟨rfl, n, rfl, hfin⟩)
    · refine Or.inr (Or.inl fun k neg mag grid hk => ?_)
      by_contra hne
      exact hfin ⟨k, neg, mag, grid, hk, hne⟩
  | cons c r =>
    obtain ⟨x, hx⟩ := strtod_number (hrest c r rfl) (r ++ t) n
    have hstrtod : strtod (n.text ++ c :: r ++ t) = some (n.text.length, x) := by
      rw [List.append_assoc, List.cons_append, hx]
    cases x with
    | finite neg mag grid =>
      refine Or.inl ⟨⟨n, rfl⟩, n.text.length, neg, mag, grid, hstrtod, ?_, by simp, by simp⟩
      obtain ⟨b, u, hbu, -⟩ := n.head
      simp [hbu]
    | inf neg =>
      refine Or.inr (Or.inl fun k neg mag grid hk => ?_)
      rw [hstrtod] at hk
      simp at hk
    | nan neg =>
      refine Or.inr (Or.inl fun k neg mag grid hk => ?_)
      rw [hstrtod] at hk
      simp at hk

theorem endsInteger_comma : EndsInteger (ch ',') := by decide

theorem endsInteger_bracket : EndsInteger (ch ']') := by decide

theorem endsInteger_brace : EndsInteger (ch '}') := by decide

theorem ne_nil_of_dropWs {s u : Bytes} {b : UInt8} (h : dropWs s = b :: u) : s ≠ [] := by
  rintro rfl
  simp [dropWs] at h

mutual
theorem TextValue.clean_or {d : ℕ} {s rest : Bytes} : TextValue RfcNumber RfcString d s rest →
    (∀ c r, rest = c :: r → EndsInteger c) → TextValue (CleanNumber t) RfcString d s rest ∨
      OverflowValue t d s ∨ (rest = [] ∧ NumberEnd t s)
  | .string hs hl, _ => Or.inl (.string hs hl)
  | .number hs hb hn, hrest => by
    rcases hn.cases hrest with hclean | hinf | ⟨hnil, n, hu, hfin⟩
    · exact Or.inl (.number hs hb hclean)
    · exact Or.inr (Or.inl (.number hs hb hinf))
    · exact Or.inr (Or.inr ⟨hnil, n, hs.trans hu, hfin⟩)
  | .true hs, _ => Or.inl (.true hs)
  | .false hs, _ => Or.inl (.false hs)
  | .null hs, _ => Or.inl (.null hs)
  | .emptyArray hs hd hu, _ => Or.inl (.emptyArray hs hd hu)
  | .array hs hd hu hi, _ => by
    rcases hi.clean_or with hclean | hinf
    · exact Or.inl (.array hs hd hu hclean)
    · exact Or.inr (Or.inl (.array hs hu hinf))
  | .emptyObject hs hd hu, _ => Or.inl (.emptyObject hs hd hu)
  | .object hs hd hu hm, _ => by
    rcases hm.clean_or with hclean | hinf
    · exact Or.inl (.object hs hd hu hclean)
    · exact Or.inr (Or.inl (.object hs hu hinf))

theorem TextItems.clean_or {d : ℕ} {s rest : Bytes} : TextItems RfcNumber RfcString d s rest →
    TextItems (CleanNumber t) RfcString d s rest ∨ OverflowItems t d s
  | .last hv hu => by
    rcases hv.clean_or (endsInteger_of_dropWs endsInteger_bracket hu) with
      hclean | hinf | ⟨hnil, -⟩
    · exact Or.inl (.last hclean hu)
    · exact Or.inr (.here hinf)
    · exact absurd hnil (ne_nil_of_dropWs hu)
  | .trailing hv hu hw => by
    rcases hv.clean_or (endsInteger_of_dropWs endsInteger_comma hu) with
      hclean | hinf | ⟨hnil, -⟩
    · exact Or.inl (.trailing hclean hu hw)
    · exact Or.inr (.here hinf)
    · exact absurd hnil (ne_nil_of_dropWs hu)
  | .cons hv hu hw hvs => by
    rcases hv.clean_or (endsInteger_of_dropWs endsInteger_comma hu) with
      hclean | hinf | ⟨hnil, -⟩
    · rcases hvs.clean_or with hrest | hinf
      · exact Or.inl (.cons hclean hu hw hrest)
      · exact Or.inr (.later hclean hu hw hinf)
    · exact Or.inr (.here hinf)
    · exact absurd hnil (ne_nil_of_dropWs hu)

theorem TextMembers.clean_or {d : ℕ} {s rest : Bytes} :
    TextMembers RfcNumber RfcString d s rest →
      TextMembers (CleanNumber t) RfcString d s rest ∨ OverflowMembers t d s
  | .close hs => Or.inl (.close hs)
  | .last hs hk hr hv hx => by
    rcases hv.clean_or (endsInteger_of_dropWs endsInteger_brace hx) with
      hclean | hinf | ⟨hnil, -⟩
    · exact Or.inl (.last hs hk hr hclean hx)
    · exact Or.inr (.here hs hk hr hinf)
    · exact absurd hnil (ne_nil_of_dropWs hx)
  | .cons hs hk hr hv hx hms => by
    rcases hv.clean_or (endsInteger_of_dropWs endsInteger_comma hx) with
      hclean | hinf | ⟨hnil, -⟩
    · rcases hms.clean_or with hrest | hinf
      · exact Or.inl (.cons hs hk hr hclean hx hrest)
      · exact Or.inr (.later hs hk hr hclean hx hinf)
    · exact Or.inr (.here hs hk hr hinf)
    · exact absurd hnil (ne_nil_of_dropWs hx)
end

/-! ## Acceptance -/

theorem Clean.reads {s : Bytes} (h : Clean t s) : Reads t s := by
  rcases h with ⟨rest, htext, -⟩ | ⟨n, hs, k, neg, mag, grid, hk, hpos⟩
  · exact Or.inl ⟨rest, htext.mono (fun _ _ hn => hn.2) fun _ _ hr => hr.read⟩
  · obtain ⟨b, u, hbu, hb⟩ := n.head
    rw [hbu] at hs hk
    by_cases hle : k ≤ (b :: u).length
    · exact Or.inl ⟨_, .number hs hb ⟨k, neg, mag, grid, hk, hpos, hle, rfl⟩⟩
    · exact Or.inr ⟨b, u, k, neg, mag, grid, hs, hb, hk, Nat.lt_of_not_le hle⟩

theorem Clean.jsonText {s : Bytes} (h : Clean t s) : JsonText s := by
  rcases h with ⟨rest, htext, hblank⟩ | ⟨n, hs, -⟩
  · exact ⟨rest, htext.mono (fun _ _ hn => hn.1) fun _ _ hr => hr, hblank⟩
  · obtain ⟨b, u, hbu, hb⟩ := n.head
    exact ⟨[], .number (hs.trans hbu) hb ⟨n, by rw [hbu, List.append_nil]⟩, rfl⟩

theorem JsonText.clean_or {s : Bytes} (h : JsonText s) : Clean t s ∨ OverflowValue t 0 s := by
  obtain ⟨rest, htext, hblank⟩ := h
  rcases htext.clean_or (endsInteger_of_blank hblank) with hclean | hinf | ⟨-, hend⟩
  · exact Or.inl (Or.inl ⟨rest, hclean, hblank⟩)
  · exact Or.inr hinf
  · exact Or.inl (Or.inr hend)

/-- The parser accepts a slice exactly if it is a JSON text, unless it is one with a number
that is not finite, or what the parser reads of it is not all of the RFC. -/
theorem scJsonParse_accepts_iff (s t : Bytes) :
    ((∃ v c, scJsonParse s t = .ok v c) ↔ JsonText s) ↔
      ¬ (JsonText s ∧ OverflowValue t 0 s) ∧ (Reads t s → Clean t s) := by
  have hreads : (∃ v c, scJsonParse s t = .ok v c) ↔ Reads t s := scJsonParse_ok_iff s
  have hover : OverflowValue t 0 s → ¬ Reads t s := by
    intro hinf hr
    obtain ⟨v, c, h⟩ := hreads.mpr hr
    exact hinf.not_ok _ le_rfl v c h
  rw [hreads]
  constructor
  · intro h
    refine ⟨fun hinf => hover hinf.2 (h.mpr hinf.1), fun hr => ?_⟩
    rcases (h.mp hr).clean_or with hclean | hinf
    · exact hclean
    · exact absurd hr (hover hinf)
  · rintro ⟨hfin, hclean⟩
    refine ⟨fun hr => (hclean hr).jsonText, fun htext => ?_⟩
    rcases htext.clean_or with hc | hinf
    · exact hc.reads
    · exact absurd ⟨htext, hinf⟩ hfin

/-- A word that continues behind `null` is accepted. -/
theorem scJsonParse_nullx :
    (∃ v c, scJsonParse (ascii "nullx") [0] = .ok v c) ∧ ¬ JsonText (ascii "nullx") := by
  have hws : dropWs (ascii "nullx") = ascii "nullx" := by decide
  constructor
  · rw [scJsonParse_ok_iff]
    exact Or.inl ⟨ascii "x", .null hws⟩
  · rintro ⟨rest, htext, hblank⟩
    cases htext with
    | null hs =>
      rw [hws] at hs
      have hsplit : ascii "null" ++ ascii "x" = ascii "null" ++ rest := hs
      rw [← List.append_cancel_left hsplit, Blank] at hblank
      exact absurd hblank (by decide)
    | number hs hb _ =>
      rw [hws] at hs
      obtain ⟨rfl, -⟩ := List.cons.inj hs
      exact absurd hb (by unfold startsNumber; decide)
    | string hs _ => exact absurd (List.cons.inj (hws.symm.trans hs)).1 (by decide)
    | true hs => exact absurd (List.cons.inj (hws.symm.trans hs)).1 (by decide)
    | false hs => exact absurd (List.cons.inj (hws.symm.trans hs)).1 (by decide)
    | emptyArray hs _ _ => exact absurd (List.cons.inj (hws.symm.trans hs)).1 (by decide)
    | array hs _ _ _ => exact absurd (List.cons.inj (hws.symm.trans hs)).1 (by decide)
    | emptyObject hs _ _ => exact absurd (List.cons.inj (hws.symm.trans hs)).1 (by decide)
    | object hs _ _ _ => exact absurd (List.cons.inj (hws.symm.trans hs)).1 (by decide)

end SeaClaw.Json
