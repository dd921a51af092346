import SeaClaw.Json.Grammar

/-!
# Reading past the slice

The parser is given a slice, not a terminated string. It leaves the slice in two
ways: `strtod` needs the octet after a number to know where the number ends, and the
quote of an object key is tested without a test for the end. `CutValue` derives the
slices on which the parser gets to one of the two. On every other slice the run is
the same whatever the memory after the slice holds.
-/

namespace SeaClaw.Json

open Lib

mutual
/-- The slice ends where a value at its front needs one more octet. -/
inductive CutValue : ℕ → Bytes → Prop where
  | number {d s b u} (hs : dropWs s = b :: u) (hb : startsNumber b)
      (hn : strtod (b :: u) = none) : CutValue d s
  | array {d s u} (hs : dropWs s = ch '[' :: u) (hd : d < jsonMaxDepth)
      (hu : (dropWs u).head? ≠ some (ch ']')) (hi : CutItems (d + 1) (dropWs u)) : CutValue d s
  | object {d s u} (hs : dropWs s = ch '{' :: u) (hd : d < jsonMaxDepth)
      (hu : (dropWs u).head? ≠ some (ch '}')) (hm : CutMembers (d + 1) (dropWs u)) :
      CutValue d s

/-- The slice ends so inside the elements of an array. -/
inductive CutItems : ℕ → Bytes → Prop where
  | here {d s} (hv : CutValue d s) : CutItems d s
  | later {d s v u w} (hv : ReadsValue [] d s v u) (hu : dropWs u = ch ',' :: w)
      (hw : (dropWs w).head? ≠ some (ch ']')) (hi : CutItems d (dropWs w)) : CutItems d s

/-- The slice ends so inside the members of an object, or where a key is due. -/
inductive CutMembers : ℕ → Bytes → Prop where
  | key {d s} (hs : dropWs s = []) : CutMembers d s
  | value {d s u key r w} (hs : dropWs s = ch '"' :: u)
      (hk : stringLoop u StrBuf.empty = .closed key r) (hr : dropWs r = ch ':' :: w)
      (hv : CutValue d w) : CutMembers d s
  | later {d s u key r w v x y} (hs : dropWs s = ch '"' :: u)
      (hk : stringLoop u StrBuf.empty = .closed key r) (hr : dropWs r = ch ':' :: w)
      (hv : ReadsValue [] d w v x) (hx : dropWs x = ch ',' :: y) (hm : CutMembers d y) :
      CutMembers d s
end

/-! ## A cut slice is over-read -/

mutual
theorem CutValue.overread {d : ℕ} {s : Bytes} : CutValue d s → ∀ fuel, 3 * s.length + 3 ≤ fuel →
    ∃ c, parseValue fuel ⟨s, [], 0, d⟩ = .overread c
  | _, 0, hf => by omega
  | .number hs hb hn, fuel + 1, _ => by
    rw [parseValue_number [] 0 d fuel hs hb, parseNumber, List.append_nil, hn]
    exact ⟨_, rfl⟩
  | .array (u := u) hs hd hu hi, fuel + 2, hf => by
    have hlen := length_of_dropWs hs
    have hws := dropWs_length_le u
    obtain ⟨c, hc⟩ := hi.overread fuel (by omega) []
    rw [parseValue_array [] 0 d _ hs, parseArray_mk, if_neg (by omega),
      if_neg (headD_ne (by decide) hu), hc]
    exact ⟨c, rfl⟩
  | .object (u := u) hs hd hu hm, fuel + 2, hf => by
    have hlen := length_of_dropWs hs
    have hws := dropWs_length_le u
    obtain ⟨c, hc⟩ := hm.overread fuel (by omega) []
    rw [parseValue_object [] 0 d _ hs, parseObject_mk, if_neg (by omega),
      if_neg (headD_ne (by decide) hu), hc]
    exact ⟨c, rfl⟩
  | .array .., 1, hf => by omega
  | .object .., 1, hf => by omega

theorem CutItems.overread {d : ℕ} {s : Bytes} : CutItems d s → ∀ fuel, 3 * s.length + 4 ≤ fuel →
    ∀ items, ∃ c, arrayLoop fuel ⟨s, [], 0, d⟩ items = .overread c
  | _, 0, hf => by omega
  | .here hv, fuel + 1, hf => by
    intro items
    obtain ⟨c, hc⟩ := hv.overread fuel (by omega)
    rw [arrayLoop, hc]
    exact ⟨c, rfl⟩
  | .later (w := w) hv hu hw hi, fuel + 1, hf => by
    intro items
    have hlen := hv.length_lt
    have hcomma := length_of_dropWs hu
    have hws := dropWs_length_le w
    rw [arrayLoop_comma [] 0 d fuel (hv.parse fuel (by omega)) hu,
      if_neg (headD_ne (by decide) hw)]
    exact hi.overread fuel (by omega) _

theorem CutMembers.overread {d : ℕ} {s : Bytes} : CutMembers d s →
    ∀ fuel, 3 * s.length + 4 ≤ fuel →
      ∀ pairs, ∃ c, objectLoop fuel ⟨s, [], 0, d⟩ pairs = .overread c
  | _, 0, hf => by omega
  | .key hs, fuel + 1, hf => by
    intro pairs
    simp [objectLoop, hs, parseStringRaw, ch]
  | .value hs hk hr hv, fuel + 1, hf => by
    intro pairs
    have hkey := stringLoop_length hk
    have hcolon := length_of_dropWs hr
    have hquote := length_of_dropWs hs
    obtain ⟨c, hc⟩ := hv.overread fuel (by omega)
    rw [objectLoop_key [] 0 d fuel hs hk hr, hc]
    exact ⟨c, rfl⟩
  | .later hs hk hr hv hx hm, fuel + 1, hf => by
    intro pairs
    have hkey := stringLoop_length hk
    have hcolon := length_of_dropWs hr
    have hquote := length_of_dropWs hs
    have hval := hv.length_lt
    have hcomma := length_of_dropWs hx
    rw [objectLoop_key [] 0 d fuel hs hk hr, hv.parse fuel (by omega)]
    simp only [peek_mk, hx, List.headD_cons, ite_true, advance_peeked hx]
    exact hm.overread fuel (by omega) _
end

/-! ## Every other slice is enough -/

/-- What is known of a run on the slice alone and the same run with the memory `t` after
the slice: the value read and where, the same error, or why the first run left the slice. -/
def Settled (t : Bytes) (d : ℕ) (reads : Value → Bytes → Prop) (cut : Prop) :
    Outcome Value → Outcome Value → Prop
  | .ok v c, r => reads v c.rest ∧ c = ⟨c.rest, [], 0, d⟩ ∧ r = .ok v ⟨c.rest, t, 0, d⟩
  | .err e c, r => c.past = 0 ∧ r = .err e { c with beyond := t }
  | .overread _, _ => cut
  | .outOfFuel, _ => False

section Settled

variable {t : Bytes} {d : ℕ} {reads reads' : Value → Bytes → Prop} {cut cut' : Prop}

theorem Settled.mono {r r' : Outcome Value} (h : Settled t d reads cut r r')
    (hr : ∀ v rest, reads v rest → reads' v rest) (hc : cut → cut') :
    Settled t d reads' cut' r r' := by
  cases r with
  | ok v c => exact ⟨hr _ _ h.1, h.2⟩
  | err e c => exact h
  | overread c => exact hc h
  | outOfFuel => exact h

theorem Settled.ok {v : Value} {rest : Bytes} (h : reads v rest) :
    Settled t d reads cut (.ok v ⟨rest, [], 0, d⟩) (.ok v ⟨rest, t, 0, d⟩) :=
  ⟨h, rfl, rfl⟩

theorem Settled.err {e : ScError} (rest : Bytes) (d' : ℕ) :
    Settled t d reads cut (.err e ⟨rest, [], 0, d'⟩) (.err e ⟨rest, t, 0, d'⟩) :=
  ⟨rfl, rfl⟩

end Settled

/-- The octet the parser has seen is there. -/
theorem headD_eq {s : Bytes} {b : UInt8} (hb : b ≠ 0) (h : s.headD 0 = b) : ∃ w, s = b :: w := by
  cases s with
  | nil => exact absurd h.symm hb
  | cons a w => exact ⟨w, by rw [← h, List.headD_cons]⟩

theorem head?_ne {s : Bytes} {b : UInt8} (h : s.headD 0 ≠ b) : s.head? ≠ some b := by
  cases s with
  | nil => simp
  | cons a s => simpa using h

theorem startsNumber_ne_zero {b : UInt8} (hb : startsNumber b) : b ≠ 0 := by
  revert b
  unfold startsNumber
  decide +kernel

/-- A round of the object loop whose key is not closed. -/
theorem objectLoop_malformed {s u r : Bytes} (t : Bytes) (p d fuel : ℕ)
    {pairs : List (Bytes × Value)} (hs : dropWs s = ch '"' :: u)
    (hk : stringLoop u StrBuf.empty = .malformed r) :
    objectLoop (fuel + 1) ⟨s, t, p, d⟩ pairs = .err .jsonParse ⟨r, t, p, d⟩ := by
  have hne : ch '"' ≠ ch '}' := by decide
  rw [objectLoop]
  simp only [peek_mk, hs, List.headD_cons, hne, ite_false, parseStringRaw_mk, hk]

/-- A round of the object loop whose key is not followed by a colon. -/
theorem objectLoop_noColon {s u key r : Bytes} (t : Bytes) (p d fuel : ℕ)
    {pairs : List (Bytes × Value)} (hs : dropWs s = ch '"' :: u)
    (hk : stringLoop u StrBuf.empty = .closed key r) (hc : (dropWs r).headD 0 ≠ ch ':') :
    objectLoop (fuel + 1) ⟨s, t, p, d⟩ pairs = .err .jsonParse ⟨(dropWs r).tail, t, p, d⟩ := by
  have hne : ch '"' ≠ ch '}' := by decide
  rw [objectLoop]
  simp only [peek_mk, hs, List.headD_cons, hne, ite_false, parseStringRaw_mk, hk]
  cases hr : dropWs r with
  | nil => simp [advance, skipWs, hr, ch]
  | cons b w =>
    rw [hr, List.headD_cons] at hc
    simp [advance_mk hr, hc]

/-- A round of the object loop at its closing brace. -/
theorem objectLoop_close {s w : Bytes} (t : Bytes) (p d fuel : ℕ) {pairs : List (Bytes × Value)}
    (hs : dropWs s = ch '}' :: w) :
    objectLoop (fuel + 1) ⟨s, t, p, d⟩ pairs = .ok (.object pairs) ⟨w, t, p, d - 1⟩ := by
  rw [objectLoop]
  simp only [peek_mk, hs, List.headD_cons, ite_true, closeBracket_mk]

section Locality

variable (t : Bytes)

/-- A string token lies in the slice. -/
theorem parseString_settled {d : ℕ} {s u : Bytes} (hs : dropWs s = ch '"' :: u) :
    Settled t d (ReadsValue [] d s) (CutValue d s) (parseString ⟨ch '"' :: u, [], 0, d⟩)
      (parseString ⟨ch '"' :: u, t, 0, d⟩) := by
  rw [parseString, parseString, parseStringRaw_mk, parseStringRaw_mk]
  cases hl : stringLoop u StrBuf.empty with
  | closed str rest => exact .ok (.string hs hl)
  | malformed rest => exact .err rest d

/-- A number token lies in the slice unless `strtod` runs off its end. -/
theorem parseNumber_settled {d : ℕ} {s : Bytes} {b : UInt8} {u : Bytes} (hs : dropWs s = b :: u)
    (hb : startsNumber b) :
    Settled t d (ReadsValue [] d s) (CutValue d s) (parseNumber ⟨b :: u, [], 0, d⟩)
      (parseNumber ⟨b :: u, t, 0, d⟩) := by
  rw [parseNumber, parseNumber, List.append_nil]
  cases hn : strtod (b :: u) with
  | none => exact .number hs hb hn
  | some r =>
    obtain ⟨n, x⟩ := r
    have hle := strtod_length hn
    rw [strtod_append t hn]
    by_cases h0 : n = 0
    · simp only [h0, ite_true]
      exact .err (b :: u) d
    · simp only [h0, ite_false, advanceBy_le hle]
      cases x with
      | finite neg mag grid => exact .ok (.number hs hb (by rwa [List.append_nil]) h0 hle)
      | inf neg => exact .err _ d
      | nan neg => exact .err _ d

theorem parseArray_settled {d fuel : ℕ} {s u : Bytes} (hs : dropWs s = ch '[' :: u)
    (hi : Settled t d (fun v rest => ∃ vs, v = .array ([] ++ vs) ∧
        ReadsItems [] (d + 1) (dropWs u) vs rest) (CutItems (d + 1) (dropWs u))
      (arrayLoop fuel ⟨dropWs u, [], 0, d + 1⟩ []) (arrayLoop fuel ⟨dropWs u, t, 0, d + 1⟩ [])) :
    Settled t d (ReadsValue [] d s) (CutValue d s) (parseArray (fuel + 1) ⟨ch '[' :: u, [], 0, d⟩)
      (parseArray (fuel + 1) ⟨ch '[' :: u, t, 0, d⟩) := by
  rw [parseArray_mk, parseArray_mk]
  by_cases hd : jsonMaxDepth ≤ d
  · rw [if_pos hd, if_pos hd]
    exact .err u (d + 1)
  · rw [if_neg hd, if_neg hd]
    by_cases hu : (dropWs u).headD 0 = ch ']'
    · rw [if_pos hu, if_pos hu]
      obtain ⟨w, hw⟩ := headD_eq (by decide) hu
      rw [hw, closeBracket_mk, closeBracket_mk]
      exact .ok (.emptyArray hs (by omega) hw)
    · rw [if_neg hu, if_neg hu]
      refine hi.mono ?_ (.array hs (by omega) (head?_ne hu))
      rintro v rest ⟨vs, rfl, hvs⟩
      exact .array hs (by omega) (head?_ne hu) hvs

theorem parseObject_settled {d fuel : ℕ} {s u : Bytes} (hs : dropWs s = ch '{' :: u)
    (hm : Settled t d (fun v rest => ∃ ms, v = .object (storePairs [] ms) ∧
        ReadsMembers [] (d + 1) (dropWs u) ms rest) (CutMembers (d + 1) (dropWs u))
      (objectLoop fuel ⟨dropWs u, [], 0, d + 1⟩ [])
      (objectLoop fuel ⟨dropWs u, t, 0, d + 1⟩ [])) :
    Settled t d (ReadsValue [] d s) (CutValue d s)
      (parseObject (fuel + 1) ⟨ch '{' :: u, [], 0, d⟩)
      (parseObject (fuel + 1) ⟨ch '{' :: u, t, 0, d⟩) := by
  rw [parseObject_mk, parseObject_mk]
  by_cases hd : jsonMaxDepth ≤ d
  · rw [if_pos hd, if_pos hd]
    exact .err u (d + 1)
  · rw [if_neg hd, if_neg hd]
    by_cases hu : (dropWs u).headD 0 = ch '}'
    · rw [if_pos hu, if_pos hu]
      obtain ⟨w, hw⟩ := headD_eq (by decide) hu
      rw [hw, closeBracket_mk, closeBracket_mk]
      exact .ok (.emptyObject hs (by omega) hw)
    · rw [if_neg hu, if_neg hu]
      refine hm.mono ?_ (.object hs (by omega) (head?_ne hu))
      rintro v rest ⟨ms, rfl, hms⟩
      exact .object hs (by omega) (head?_ne hu) hms

/-- One of the three words, or nothing that opens a value. -/
theorem parseWord_settled {d : ℕ} {s : Bytes} (fuel : ℕ)
    (hq : (dropWs s).headD 0 ≠ ch '"') (ho : (dropWs s).headD 0 ≠ ch '{')
    (ha : (dropWs s).headD 0 ≠ ch '[') (hn : ¬ startsNumber ((dropWs s).headD 0)) :
    Settled t d (ReadsValue [] d s) (CutValue d s) (parseValue (fuel + 1) ⟨s, [], 0, d⟩)
      (parseValue (fuel + 1) ⟨s, t, 0, d⟩) := by
  by_cases htrue : ascii "true" <+: dropWs s
  · obtain ⟨u, hu⟩ := htrue
    rw [parseValue_true [] 0 d fuel hu.symm, parseValue_true t 0 d fuel hu.symm]
    exact .ok (.true hu.symm)
  · by_cases hfalse : ascii "false" <+: dropWs s
    · obtain ⟨u, hu⟩ := hfalse
      rw [parseValue_false [] 0 d fuel hu.symm, parseValue_false t 0 d fuel hu.symm]
      exact .ok (.false hu.symm)
    · by_cases hnull : ascii "null" <+: dropWs s
      · obtain ⟨u, hu⟩ := hnull
        rw [parseValue_null [] 0 d fuel hu.symm, parseValue_null t 0 d fuel hu.symm]
        exact .ok (.null hu.symm)
      · have hnum : ¬ ((dropWs s).headD 0 = ch '-' ∨ isDigit ((dropWs s).headD 0) = true) := hn
        simp only [parseValue, peek_mk, hq, ho, ha, hnum, htrue, hfalse, hnull, ite_false]
        exact .err (dropWs s) d

/-- One element of an array, given the value there and the elements after a comma. -/
theorem arrayRound_settled {d fuel : ℕ} {s : Bytes} {items : List Value}
    (hset : Settled t d (ReadsValue [] d s) (CutValue d s) (parseValue fuel ⟨s, [], 0, d⟩)
      (parseValue fuel ⟨s, t, 0, d⟩))
    (hrec : ∀ v u w, ReadsValue [] d s v u → dropWs u = ch ',' :: w → Settled t (d - 1)
      (fun a rest => ∃ vs, a = .array (items ++ [v] ++ vs) ∧ ReadsItems [] d (dropWs w) vs rest)
      (CutItems d (dropWs w)) (arrayLoop fuel ⟨dropWs w, [], 0, d⟩ (items ++ [v]))
      (arrayLoop fuel ⟨dropWs w, t, 0, d⟩ (items ++ [v]))) :
    Settled t (d - 1)
      (fun a rest => ∃ vs, a = .array (items ++ vs) ∧ ReadsItems [] d s vs rest) (CutItems d s)
      (arrayLoop (fuel + 1) ⟨s, [], 0, d⟩ items) (arrayLoop (fuel + 1) ⟨s, t, 0, d⟩ items) := by
  cases hr : parseValue fuel ⟨s, [], 0, d⟩ with
  | outOfFuel =>
    rw [hr] at hset
    exact hset.elim
  | overread c =>
    rw [hr] at hset
    rw [arrayLoop, hr]
    exact .here hset
  | err e c =>
    rw [hr] at hset
    rw [arrayLoop, arrayLoop, hr, hset.2]
    exact ⟨hset.1, rfl⟩
  | ok v c =>
    rw [hr] at hset
    obtain ⟨hv, hc, hr'⟩ := hset
    rw [hc] at hr
    by_cases hcomma : (dropWs c.rest).headD 0 = ch ','
    · obtain ⟨w, hw⟩ := headD_eq (by decide) hcomma
      rw [arrayLoop_comma [] 0 d fuel hr hw, arrayLoop_comma t 0 d fuel hr' hw]
      by_cases hclose : (dropWs w).headD 0 = ch ']'
      · obtain ⟨x, hx⟩ := headD_eq (by decide) hclose
        rw [if_pos hclose, if_pos hclose, hx, closeBracket_mk, closeBracket_mk]
        exact .ok ⟨[v], rfl, .trailing hv hw hx⟩
      · rw [if_neg hclose, if_neg hclose]
        refine (hrec v c.rest w hv hw).mono ?_ (.later hv hw (head?_ne hclose))
        rintro _ rest ⟨vs, rfl, hvs⟩
        exact ⟨v :: vs, by simp, .cons hv hw (head?_ne hclose) hvs⟩
    · by_cases hclose : (dropWs c.rest).headD 0 = ch ']'
      · obtain ⟨w, hw⟩ := headD_eq (by decide) hclose
        rw [arrayLoop_close [] 0 d fuel hr hw, arrayLoop_close t 0 d fuel hr' hw]
        exact .ok ⟨[v], rfl, .last hv hw⟩
      · rw [arrayLoop, arrayLoop, hr, hr']
        simp only [peek_mk, hcomma, hclose, ite_false]
        exact .err _ d

/-- One member of an object, given the value there and the members after a comma. -/
theorem objectRound_settled {d fuel : ℕ} {s u key r w : Bytes} {pairs : List (Bytes × Value)}
    (hs : dropWs s = ch '"' :: u) (hk : stringLoop u StrBuf.empty = .closed key r)
    (hw : dropWs r = ch ':' :: w)
    (hset : Settled t d (ReadsValue [] d w) (CutValue d w) (parseValue fuel ⟨w, [], 0, d⟩)
      (parseValue fuel ⟨w, t, 0, d⟩))
    (hrec : ∀ v x y, ReadsValue [] d w v x → dropWs x = ch ',' :: y → Settled t (d - 1)
      (fun a rest => ∃ ms, a = .object (storePairs (putPair key v pairs) ms) ∧
        ReadsMembers [] d y ms rest)
      (CutMembers d y) (objectLoop fuel ⟨y, [], 0, d⟩ (putPair key v pairs))
      (objectLoop fuel ⟨y, t, 0, d⟩ (putPair key v pairs))) :
    Settled t (d - 1)
      (fun a rest => ∃ ms, a = .object (storePairs pairs ms) ∧ ReadsMembers [] d s ms rest)
      (CutMembers d s) (objectLoop (fuel + 1) ⟨s, [], 0, d⟩ pairs)
      (objectLoop (fuel + 1) ⟨s, t, 0, d⟩ pairs) := by
  rw [objectLoop_key [] 0 d fuel hs hk hw, objectLoop_key t 0 d fuel hs hk hw]
  cases hr : parseValue fuel ⟨w, [], 0, d⟩ with
  | outOfFuel =>
    rw [hr] at hset
    exact hset.elim
  | overread c =>
    rw [hr] at hset
    exact .value hs hk hw hset
  | err e c =>
    rw [hr] at hset
    rw [hset.2]
    exact ⟨hset.1, rfl⟩
  | ok v c =>
    rw [hr] at hset
    obtain ⟨hv, hc, hr'⟩ := hset
    rw [hr', hc]
    by_cases hcomma : (dropWs c.rest).headD 0 = ch ','
    · obtain ⟨y, hy⟩ := headD_eq (by decide) hcomma
      simp only [peek_mk, hy, List.headD_cons, ite_true, advance_peeked hy]
      refine (hrec v c.rest y hv hy).mono ?_ (.later hs hk hw hv hy)
      rintro _ rest ⟨ms, rfl, hms⟩
      exact ⟨(key, v) :: ms, rfl, .cons hs hk hw hv hy hms⟩
    · by_cases hclose : (dropWs c.rest).headD 0 = ch '}'
      · obtain ⟨y, hy⟩ := headD_eq (by decide) hclose
        have hne : ch '}' ≠ ch ',' := by decide
        simp only [peek_mk, hy, List.headD_cons, hne, ite_false, ite_true, closeBracket_mk]
        exact .ok ⟨[(key, v)], rfl, .last hs hk hw hv hy⟩
      · simp only [peek_mk, hcomma, hclose, ite_false]
        exact .err _ d

mutual
theorem parseValue_settled : ∀ (fuel : ℕ) (s : Bytes) (d : ℕ), 3 * s.length + 3 ≤ fuel →
    Settled t d (ReadsValue [] d s) (CutValue d s) (parseValue fuel ⟨s, [], 0, d⟩)
      (parseValue fuel ⟨s, t, 0, d⟩)
  | 0, _, _, hf => by omega
  | 1, _, _, hf => by omega
  | fuel + 2, s, d, hf => by
    by_cases hq : (dropWs s).headD 0 = ch '"'
    · obtain ⟨u, hs⟩ := headD_eq (by decide) hq
      rw [parseValue_string [] 0 d _ hs, parseValue_string t 0 d _ hs]
      exact parseString_settled t hs
    · by_cases ho : (dropWs s).headD 0 = ch '{'
      · obtain ⟨u, hs⟩ := headD_eq (by decide) ho
        have hlen := length_of_dropWs hs
        have hws := dropWs_length_le u
        rw [parseValue_object [] 0 d _ hs, parseValue_object t 0 d _ hs]
        exact parseObject_settled t hs (objectLoop_settled fuel (dropWs u) (d + 1) (by omega) [])
      · by_cases ha : (dropWs s).headD 0 = ch '['
        · obtain ⟨u, hs⟩ := headD_eq (by decide) ha
          have hlen := length_of_dropWs hs
          have hws := dropWs_length_le u
          rw [parseValue_array [] 0 d _ hs, parseValue_array t 0 d _ hs]
          exact parseArray_settled t hs (arrayLoop_settled fuel (dropWs u) (d + 1) (by omega) [])
        · by_cases hn : startsNumber ((dropWs s).headD 0)
          · obtain ⟨u, hs⟩ := headD_eq (startsNumber_ne_zero hn) rfl
            rw [parseValue_number [] 0 d _ hs hn, parseValue_number t 0 d _ hs hn]
            exact parseNumber_settled t hs hn
          · exact parseWord_settled t (fuel + 1) hq ho ha hn

theorem arrayLoop_settled : ∀ (fuel : ℕ) (s : Bytes) (d : ℕ), 3 * s.length + 4 ≤ fuel →
    ∀ items, Settled t (d - 1)
      (fun v rest => ∃ vs, v = .array (items ++ vs) ∧ ReadsItems [] d s vs rest) (CutItems d s)
      (arrayLoop fuel ⟨s, [], 0, d⟩ items) (arrayLoop fuel ⟨s, t, 0, d⟩ items)
  | 0, _, _, hf, _ => by omega
  | fuel + 1, s, d, hf, items => by
    refine arrayRound_settled t (parseValue_settled fuel s d (by omega)) ?_
    intro v u w hv hw
    have hlen := hv.length_lt
    have hlen' := length_of_dropWs hw
    have hws := dropWs_length_le w
    exact arrayLoop_settled fuel (dropWs w) d (by omega) (items ++ [v])

theorem objectLoop_settled : ∀ (fuel : ℕ) (s : Bytes) (d : ℕ), 3 * s.length + 4 ≤ fuel →
    ∀ pairs, Settled t (d - 1)
      (fun v rest => ∃ ms, v = .object (storePairs pairs ms) ∧ ReadsMembers [] d s ms rest)
      (CutMembers d s) (objectLoop fuel ⟨s, [], 0, d⟩ pairs)
      (objectLoop fuel ⟨s, t, 0, d⟩ pairs)
  | 0, _, _, hf, _ => by omega
  | fuel + 1, s, d, hf, pairs => by
    cases hs : dropWs s with
    | nil =>
      rw [objectLoop]
      simp only [peek_mk, hs]
      exact .key hs
    | cons b u =>
      by_cases hclose : b = ch '}'
      · subst hclose
        rw [objectLoop_close [] 0 d fuel hs, objectLoop_close t 0 d fuel hs]
        exact .ok ⟨[], rfl, .close hs⟩
      · by_cases hb : b = ch '"'
        · subst hb
          cases hk : stringLoop u StrBuf.empty with
          | malformed r =>
            rw [objectLoop_malformed [] 0 d fuel hs hk, objectLoop_malformed t 0 d fuel hs hk]
            exact .err r d
          | closed key r =>
            by_cases hcolon : (dropWs r).headD 0 = ch ':'
            · obtain ⟨w, hw⟩ := headD_eq (by decide) hcolon
              have hlen := length_of_dropWs hs
              have hlen' := stringLoop_length hk
              have hlen'' := length_of_dropWs hw
              refine objectRound_settled t hs hk hw (parseValue_settled fuel w d (by omega)) ?_
              intro v x y hv hy
              have hval := hv.length_lt
              have hcomma := length_of_dropWs hy
              exact objectLoop_settled fuel y d (by omega) (putPair key v pairs)
            · rw [objectLoop_noColon [] 0 d fuel hs hk hcolon,
                objectLoop_noColon t 0 d fuel hs hk hcolon]
              exact .err _ d
        · rw [objectLoop, objectLoop]
          simp only [peek_mk, hs, List.headD_cons, hclose, ite_false, parseStringRaw,
            List.cons_append, hb, ne_eq, not_false_eq_true, ite_true]
          exact .err (b :: u) d
end

end Locality

/-! ## The whole parser -/

/-- What the caller gets: an error code or a value. -/
def Outcome.result {α : Type} : Outcome α → Option (Except ScError α)
  | .ok a _ => some (.ok a)
  | .err e _ => some (.error e)
  | .overread _ => none
  | .outOfFuel => none

/-- How far behind the slice the last position lies. The position only grows, so no
earlier one is further. -/
def Outcome.past {α : Type} : Outcome α → ℕ
  | .ok _ c => c.past
  | .err _ c => c.past
  | .overread c => c.past
  | .outOfFuel => 0

/-- The parser keeps to the slice. -/
structure Confined (s : Bytes) : Prop where
  /-- No octet after the slice is needed for a result. -/
  inSlice : (scJsonParse s []).result.isSome
  /-- The memory after the slice has no part in the result. -/
  sameResult : ∀ t t', (scJsonParse s t).result = (scJsonParse s t').result
  position : ∀ t, (scJsonParse s t).past = 0

/-- The run on the slice alone, against the run with memory after it. -/
theorem scJsonParse_settled (s t : Bytes) :
    Settled t 0 (ReadsValue [] 0 s) (CutValue 0 s) (scJsonParse s []) (scJsonParse s t) :=
  parseValue_settled t _ s 0 le_rfl

theorem not_confined_of_cut {s : Bytes} (h : CutValue 0 s) : ¬ Confined s := by
  intro hconf
  obtain ⟨c, hc⟩ := h.overread (fuelFor s) le_rfl
  have hsome := hconf.inSlice
  rw [scJsonParse, hc] at hsome
  exact absurd hsome (by simp [Outcome.result])

/-- Without a cut, both runs end alike and within the slice. -/
theorem scJsonParse_of_not_cut {s : Bytes} (h : ¬ CutValue 0 s) (t : Bytes) :
    (scJsonParse s []).result.isSome ∧ (scJsonParse s t).result = (scJsonParse s []).result ∧
      (scJsonParse s t).past = 0 := by
  have hset := scJsonParse_settled s t
  cases hr : scJsonParse s [] with
  | ok v c =>
    rw [hr] at hset
    rw [hset.2.2]
    exact ⟨rfl, rfl, rfl⟩
  | err e c =>
    rw [hr] at hset
    rw [hset.2]
    exact ⟨rfl, rfl, hset.1⟩
  | overread c =>
    rw [hr] at hset
    exact absurd hset h
  | outOfFuel =>
    rw [hr] at hset
    exact hset.elim

/-- The parser keeps to the slice exactly when the slice does not end where a number or
an object key needs one more octet. -/
theorem confined_iff (s : Bytes) : Confined s ↔ ¬ CutValue 0 s := by
  constructor
  · intro hconf hcut
    exact not_confined_of_cut hcut hconf
  · intro hcut
    refine ⟨(scJsonParse_of_not_cut hcut []).1, ?_, ?_⟩
    · intro t t'
      rw [(scJsonParse_of_not_cut hcut t).2.1, (scJsonParse_of_not_cut hcut t').2.1]
    · intro t
      exact (scJsonParse_of_not_cut hcut t).2.2

/-- The slice `12` inside a longer text: the digits after it are read as well. -/
theorem not_confined_number : ¬ Confined (ascii "12") :=
  not_confined_of_cut (.number (b := ch '1') (u := ascii "2") (by decide)
    (Or.inr (by decide)) (by decide))

end SeaClaw.Json
