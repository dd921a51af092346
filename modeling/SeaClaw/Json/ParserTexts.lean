import SeaClaw.Json.Confinement
import SeaClaw.Json.Rfc8259

/-!
# The texts that the parser accepts

Whatever the parser accepts is a text of the grammar, with the numbers that `strtod` takes and
strings of any octets, or a number at the end of the slice that goes on in the memory after
it. So acceptance is a matter of the grammar alone.
-/

namespace SeaClaw.Json

open Lib

variable (t : Bytes)

/-- The slice is a number that `strtod` reads beyond the end of the slice. -/
def NumberPast (s : Bytes) : Prop := ∃ b u n neg mag grid, dropWs s = b :: u ∧ startsNumber b ∧
  strtod (b :: u ++ t) = some (n, .finite neg mag grid) ∧ (b :: u).length < n

/-- What is known when a value was read at the front of `s`. -/
def ValueRead (d : ℕ) (s : Bytes) (c : Cursor) : Prop :=
  (∃ rest, c = ⟨rest, t, 0, d⟩ ∧ TextValue (ReadNumber t) ReadString d s rest) ∨
    (c.rest = [] ∧ NumberPast t s)

variable {t}

theorem parseString_read {d : ℕ} {s u : Bytes} {v : Value} {c : Cursor}
    (hs : dropWs s = ch '"' :: u) (h : parseString ⟨ch '"' :: u, t, 0, d⟩ = .ok v c) :
    ValueRead t d s c := by
  rw [parseString, parseStringRaw_mk] at h
  cases hl : stringLoop u StrBuf.empty with
  | closed str rest =>
    simp only [hl, Outcome.ok.injEq] at h
    exact Or.inl ⟨rest, h.2.symm, .string hs ⟨str, hl⟩⟩
  | malformed rest => simp [hl] at h

theorem parseNumber_read {d : ℕ} {s : Bytes} {b : UInt8} {u : Bytes} {v : Value} {c : Cursor}
    (hs : dropWs s = b :: u) (hb : startsNumber b)
    (h : parseNumber ⟨b :: u, t, 0, d⟩ = .ok v c) : ValueRead t d s c := by
  rw [parseNumber] at h
  cases hn : strtod (b :: u ++ t) with
  | none =>
    simp only [hn] at h
    cases h
  | some r =>
    obtain ⟨n, x⟩ := r
    simp only [hn] at h
    split_ifs at h with h0
    cases x with
    | finite neg mag grid =>
      simp only [Outcome.ok.injEq] at h
      by_cases hle : n ≤ (b :: u).length
      · rw [advanceBy_le hle] at h
        exact Or.inl ⟨_, h.2.symm, .number hs hb ⟨n, neg, mag, grid, hn, h0, hle, rfl⟩⟩
      · refine Or.inr ⟨?_, b, u, n, neg, mag, grid, hs, hb, hn, Nat.lt_of_not_le hle⟩
        rw [← h.2, Cursor.advanceBy]
        exact List.drop_eq_nil_of_le (Nat.le_of_not_le hle)
    | inf neg => simp at h
    | nan neg => simp at h

/-- A value that has gone past the slice is followed by nothing. -/
theorem peek_of_nil {c : Cursor} (h : c.rest = []) : (peek c).1 = 0 := by
  simp [peek, skipWs, h, dropWs]

theorem parseWord_read {d fuel : ℕ} {s : Bytes} {v : Value} {c : Cursor}
    (hq : (dropWs s).headD 0 ≠ ch '"') (ho : (dropWs s).headD 0 ≠ ch '{')
    (ha : (dropWs s).headD 0 ≠ ch '[') (hn : ¬ startsNumber ((dropWs s).headD 0))
    (h : parseValue (fuel + 1) ⟨s, t, 0, d⟩ = .ok v c) : ValueRead t d s c := by
  by_cases htrue : ascii "true" <+: dropWs s
  · obtain ⟨u, hu⟩ := htrue
    rw [parseValue_true t 0 d fuel hu.symm, Outcome.ok.injEq] at h
    exact Or.inl ⟨u, h.2.symm, .true hu.symm⟩
  · by_cases hfalse : ascii "false" <+: dropWs s
    · obtain ⟨u, hu⟩ := hfalse
      rw [parseValue_false t 0 d fuel hu.symm, Outcome.ok.injEq] at h
      exact Or.inl ⟨u, h.2.symm, .false hu.symm⟩
    · by_cases hnull : ascii "null" <+: dropWs s
      · obtain ⟨u, hu⟩ := hnull
        rw [parseValue_null t 0 d fuel hu.symm, Outcome.ok.injEq] at h
        exact Or.inl ⟨u, h.2.symm, .null hu.symm⟩
      · have hnum : ¬ ((dropWs s).headD 0 = ch '-' ∨ isDigit ((dropWs s).headD 0) = true) := hn
        simp only [parseValue, peek_mk, hq, ho, ha, hnum, htrue, hfalse, hnull, ite_false] at h
        cases h

/-- Where a key is due, a quote in the memory after the slice opens none. -/
theorem objectLoop_noKey (t : Bytes) (d fuel : ℕ) {s : Bytes} (pairs : List (Bytes × Value))
    (hclose : (dropWs s).headD 0 ≠ ch '}') (hquote : (dropWs s).headD 0 ≠ ch '"') (v : Value)
    (c : Cursor) : objectLoop (fuel + 1) ⟨s, t, 0, d⟩ pairs ≠ .ok v c := by
  intro h
  rw [objectLoop] at h
  simp only [peek_mk, hclose, ite_false] at h
  cases hs : dropWs s with
  | nil =>
    cases t with
    | nil =>
      simp only [hs, parseStringRaw, List.append_nil] at h
      cases h
    | cons b t =>
      simp only [hs, parseStringRaw, List.nil_append] at h
      by_cases hb : b = ch '"'
      · simp only [hb, ne_eq, not_true_eq_false, ite_false, Cursor.advanceBy, List.drop_nil,
          stringLoop_nil] at h
        cases h
      · simp only [hb, ne_eq, not_false_eq_true, ite_true] at h
        cases h
  | cons b u =>
    rw [hs, List.headD_cons] at hquote
    simp only [hs, parseStringRaw, List.cons_append, hquote, ne_eq, not_false_eq_true,
      ite_true] at h
    cases h

mutual
/-- A value that is accepted is one of the grammar. -/
theorem parseValue_read : ∀ (fuel : ℕ) (s : Bytes) (d : ℕ) (v : Value) (c : Cursor),
    parseValue fuel ⟨s, t, 0, d⟩ = .ok v c → ValueRead t d s c
  | 0, s, d, v, c, h => by simp [parseValue] at h
  | fuel + 1, s, d, v, c, h => by
    by_cases hq : (dropWs s).headD 0 = ch '"'
    · obtain ⟨u, hs⟩ := headD_eq (by decide) hq
      rw [parseValue_string t 0 d _ hs] at h
      exact parseString_read hs h
    · by_cases ho : (dropWs s).headD 0 = ch '{'
      · obtain ⟨u, hs⟩ := headD_eq (by decide) ho
        rw [parseValue_object t 0 d _ hs] at h
        exact parseObject_read fuel s d u v c hs h
      · by_cases ha : (dropWs s).headD 0 = ch '['
        · obtain ⟨u, hs⟩ := headD_eq (by decide) ha
          rw [parseValue_array t 0 d _ hs] at h
          exact parseArray_read fuel s d u v c hs h
        · by_cases hn : startsNumber ((dropWs s).headD 0)
          · obtain ⟨u, hs⟩ := headD_eq (startsNumber_ne_zero hn) rfl
            rw [parseValue_number t 0 d _ hs hn] at h
            exact parseNumber_read hs hn h
          · exact parseWord_read hq ho ha hn h

theorem parseArray_read : ∀ (fuel : ℕ) (s : Bytes) (d : ℕ) (u : Bytes) (v : Value) (c : Cursor),
    dropWs s = ch '[' :: u → parseArray fuel ⟨ch '[' :: u, t, 0, d⟩ = .ok v c → ValueRead t d s c
  | 0, s, d, u, v, c, hs, h => by simp [parseArray] at h
  | fuel + 1, s, d, u, v, c, hs, h => by
    rw [parseArray_mk] at h
    split_ifs at h with hd hu
    · obtain ⟨w, hw⟩ := headD_eq (by decide) hu
      rw [hw, closeBracket_mk, Outcome.ok.injEq] at h
      exact Or.inl ⟨w, h.2.symm, .emptyArray hs (by omega) hw⟩
    · obtain ⟨rest, hc, hi⟩ := arrayLoop_read fuel (dropWs u) (d + 1) [] v c h
      exact Or.inl ⟨rest, hc, .array hs (by omega) (head?_ne hu) hi⟩

theorem arrayLoop_read : ∀ (fuel : ℕ) (s : Bytes) (d : ℕ) (items : List Value) (v : Value)
    (c : Cursor), arrayLoop fuel ⟨s, t, 0, d⟩ items = .ok v c → ∃ rest, c = ⟨rest, t, 0, d - 1⟩ ∧
      TextItems (ReadNumber t) ReadString d s rest
  | 0, s, d, items, v, c, h => by simp [arrayLoop] at h
  | fuel + 1, s, d, items, v, c, h => by
    cases hv : parseValue fuel ⟨s, t, 0, d⟩ with
    | err e c' => simp [arrayLoop, hv] at h
    | overread c' => simp [arrayLoop, hv] at h
    | outOfFuel => simp [arrayLoop, hv] at h
    | ok w c' =>
      rcases parseValue_read fuel s d w c' hv with ⟨u, rfl, htext⟩ | ⟨hnil, -⟩
      · by_cases hcomma : (dropWs u).headD 0 = ch ','
        · obtain ⟨x, hx⟩ := headD_eq (by decide) hcomma
          rw [arrayLoop_comma t 0 d fuel hv hx] at h
          split_ifs at h with hclose
          · obtain ⟨y, hy⟩ := headD_eq (by decide) hclose
            rw [hy, closeBracket_mk, Outcome.ok.injEq] at h
            exact ⟨y, h.2.symm, .trailing htext hx hy⟩
          · obtain ⟨rest, hc, hi⟩ := arrayLoop_read fuel (dropWs x) d _ v c h
            exact ⟨rest, hc, .cons htext hx (head?_ne hclose) hi⟩
        · by_cases hclose : (dropWs u).headD 0 = ch ']'
          · obtain ⟨x, hx⟩ := headD_eq (by decide) hclose
            rw [arrayLoop_close t 0 d fuel hv hx, Outcome.ok.injEq] at h
            exact ⟨x, h.2.symm, .last htext hx⟩
          · simp only [arrayLoop, hv, peek_mk, hcomma, hclose, ite_false] at h
            cases h
      · have hpeek := peek_of_nil hnil
        have hcomma : (0 : UInt8) ≠ ch ',' := by decide
        have hclose : (0 : UInt8) ≠ ch ']' := by decide
        simp [arrayLoop, hv, hpeek, hcomma, hclose] at h

theorem parseObject_read : ∀ (fuel : ℕ) (s : Bytes) (d : ℕ) (u : Bytes) (v : Value) (c : Cursor),
    dropWs s = ch '{' :: u → parseObject fuel ⟨ch '{' :: u, t, 0, d⟩ = .ok v c →
      ValueRead t d s c
  | 0, s, d, u, v, c, hs, h => by simp [parseObject] at h
  | fuel + 1, s, d, u, v, c, hs, h => by
    rw [parseObject_mk] at h
    split_ifs at h with hd hu
    · obtain ⟨w, hw⟩ := headD_eq (by decide) hu
      rw [hw, closeBracket_mk, Outcome.ok.injEq] at h
      exact Or.inl ⟨w, h.2.symm, .emptyObject hs (by omega) hw⟩
    · obtain ⟨rest, hc, hm⟩ := objectLoop_read fuel (dropWs u) (d + 1) [] v c h
      exact Or.inl ⟨rest, hc, .object hs (by omega) (head?_ne hu) hm⟩

theorem objectLoop_read : ∀ (fuel : ℕ) (s : Bytes) (d : ℕ) (pairs : List (Bytes × Value))
    (v : Value) (c : Cursor), objectLoop fuel ⟨s, t, 0, d⟩ pairs = .ok v c →
      ∃ rest, c = ⟨rest, t, 0, d - 1⟩ ∧ TextMembers (ReadNumber t) ReadString d s rest
  | 0, s, d, pairs, v, c, h => by simp [objectLoop] at h
  | fuel + 1, s, d, pairs, v, c, h => by
    by_cases hclose : (dropWs s).headD 0 = ch '}'
    · obtain ⟨w, hw⟩ := headD_eq (by decide) hclose
      rw [objectLoop_close t 0 d fuel hw, Outcome.ok.injEq] at h
      exact ⟨w, h.2.symm, .close hw⟩
    · by_cases hquote : (dropWs s).headD 0 = ch '"'
      · obtain ⟨u, hs⟩ := headD_eq (by decide) hquote
        cases hk : stringLoop u StrBuf.empty with
        | malformed r => simp [objectLoop_malformed t 0 d fuel hs hk] at h
        | closed key r =>
          by_cases hcolon : (dropWs r).headD 0 = ch ':'
          · obtain ⟨w, hw⟩ := headD_eq (by decide) hcolon
            rw [objectLoop_key t 0 d fuel hs hk hw] at h
            cases hv : parseValue fuel ⟨w, t, 0, d⟩ with
            | err e c' => simp [hv] at h
            | overread c' => simp [hv] at h
            | outOfFuel => simp [hv] at h
            | ok x c' =>
              simp only [hv] at h
              rcases parseValue_read fuel w d x c' hv with ⟨y, rfl, htext⟩ | ⟨hnil, -⟩
              · by_cases hcomma : (dropWs y).headD 0 = ch ','
                · obtain ⟨z, hz⟩ := headD_eq (by decide) hcomma
                  simp only [peek_mk, hz, List.headD_cons, if_true, advance_peeked hz] at h
                  obtain ⟨rest, hc, hm⟩ := objectLoop_read fuel z d _ v c h
                  exact ⟨rest, hc, .cons hs ⟨key, hk⟩ hw htext hz hm⟩
                · by_cases hend : (dropWs y).headD 0 = ch '}'
                  · obtain ⟨z, hz⟩ := headD_eq (by decide) hend
                    have hne : ch '}' ≠ ch ',' := by decide
                    simp only [peek_mk, hz, List.headD_cons, hne, if_false, if_true,
                      closeBracket_mk, Outcome.ok.injEq] at h
                    exact ⟨z, h.2.symm, .last hs ⟨key, hk⟩ hw htext hz⟩
                  · simp only [peek_mk, hcomma, hend, ite_false] at h
                    cases h
              · have hpeek := peek_of_nil hnil
                have hcomma : (0 : UInt8) ≠ ch ',' := by decide
                have hend : (0 : UInt8) ≠ ch '}' := by decide
                simp [hpeek, hcomma, hend] at h
          · simp [objectLoop_noColon t 0 d fuel hs hk hcolon] at h
      · exact absurd h (objectLoop_noKey t d fuel pairs hclose hquote v c)
end

/-- The parser accepts the slice exactly when its grammar, or a number that goes past the
end, does. -/
theorem scJsonParse_ok_iff (s : Bytes) : (∃ v c, scJsonParse s t = .ok v c) ↔
    (∃ rest, TextValue (ReadNumber t) ReadString 0 s rest) ∨ NumberPast t s := by
  constructor
  · rintro ⟨v, c, h⟩
    rcases parseValue_read _ s 0 v c h with ⟨rest, -, htext⟩ | ⟨-, hpast⟩
    · exact Or.inl ⟨rest, htext⟩
    · exact Or.inr hpast
  · rintro (⟨rest, htext⟩ | ⟨b, u, n, neg, mag, grid, hs, hb, hn, hlt⟩)
    · obtain ⟨v, hv⟩ := htext.reads
      exact ⟨v, _, hv.parse _ le_rfl⟩
    · have hpos : n ≠ 0 := by omega
      refine ⟨.number (.finite neg mag grid), Cursor.advanceBy ⟨b :: u, t, 0, 0⟩ n, ?_⟩
      rw [scJsonParse, fuelFor, parseValue_number t 0 0 _ hs hb, parseNumber]
      simp only [hn, if_neg hpos]

end SeaClaw.Json
