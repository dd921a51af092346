import SeaClaw.Json.ParserTexts
import SeaClaw.Json.RoundTrip

/-!
# Documents put together from fragments

Code that prints JSON piece by piece is checked against the parser piece by piece: if each
element of an array or member of an object spells a value, so does the whole; and if one of
them cannot be read, neither can the whole.
-/

namespace SeaClaw.Json

open Lib

/-- A text that is read as a value wherever it stands in a document. -/
structure Spells (d : ℕ) (x : Bytes) (v : Value) : Prop where
  head : ∃ b u, x = b :: u ∧ isWs b = false ∧ b ≠ ch ']'
  reads : ∀ t rest, Follows (rest ++ t) → ReadsValue t d (x ++ rest) v rest

/-- Texts with commas between them. -/
def commaList : List Bytes → Bytes
  | [] => []
  | x :: xs => x ++ xs.flatMap fun y => ch ',' :: y

/-- The text of a member of an object. -/
def memberText (m : Bytes × Bytes) : Bytes := stringifyString m.1 ++ ch ':' :: m.2

/-- A key and a text that spells the value of a member. -/
def SpellsMember (d : ℕ) (m : Bytes × Bytes) (p : Bytes × Value) : Prop :=
  m.1 = p.1 ∧ Spells d m.2 p.2

section Spells

variable {d : ℕ} {x : Bytes} {v : Value} {t : Bytes}

theorem Spells.dropWs (h : Spells d x v) (rest : Bytes) : dropWs (x ++ rest) = x ++ rest := by
  obtain ⟨b, u, rfl, hws, -⟩ := h.head
  exact dropWs_cons hws _

theorem Spells.head?_ne (h : Spells d x v) (rest : Bytes) : (x ++ rest).head? ≠ some (ch ']') := by
  obtain ⟨b, u, rfl, -, hb⟩ := h.head
  simpa using hb

theorem spells_fmtInt (i : ℤ) (hi : i.natAbs < 2 ^ 53) :
    Spells d (fmtInt i) (.number (Binary64.ofInt i hi)) := by
  refine ⟨?_, fun t rest hf => reads_fmtInt t i hi hf⟩
  obtain ⟨b, u, hu, hb⟩ := fmtInt_head i
  exact ⟨b, u, hu, startsNumber_plain hb⟩

/-- An integer as the double that is nearest to it. -/
def nearestDouble (i : ℤ) : Binary64 := Binary64.round (decide (i < 0)) i.natAbs

theorem nearestDouble_of_small (i : ℤ) (hi : i.natAbs < 2 ^ 53) :
    nearestDouble i = Binary64.ofInt i hi :=
  Binary64.round_natCast _ hi

/-- Integers of 64 bits do not overflow. -/
theorem nearestDouble_finite {i : ℤ} (hi : i.natAbs < 2 ^ 64) :
    ∃ grid, nearestDouble i = .finite (decide (i < 0)) (roundMag i.natAbs) grid := by
  have hq : (0 : ℚ) ≤ i.natAbs := Nat.cast_nonneg _
  have hbit : lastBit i.natAbs ≤ 12 := by
    have hlog : Int.log 2 (i.natAbs : ℚ) < 64 := by
      rw [Int.log_natCast]
      have := Nat.log_lt_of_lt_pow' (b := 2) (by decide) hi
      omega
    rw [lastBit]
    omega
  have hlt : roundMag (i.natAbs : ℚ) < 2 ^ (1024 : ℤ) := by
    have hmantissa : (roundHalfEven ((i.natAbs : ℚ) / 2 ^ lastBit i.natAbs) : ℚ) ≤ 2 ^ 53 := by
      exact_mod_cast roundHalfEven_scaled_le hq
    have hscale : (2 : ℚ) ^ lastBit i.natAbs ≤ 2 ^ (12 : ℤ) :=
      zpow_le_zpow_right₀ (by norm_num) hbit
    calc roundMag (i.natAbs : ℚ) ≤ 2 ^ 53 * 2 ^ (12 : ℤ) :=
          mul_le_mul hmantissa hscale (by positivity) (by positivity)
      _ = 2 ^ (65 : ℤ) := by norm_num
      _ < 2 ^ (1024 : ℤ) := zpow_lt_zpow_right₀ (by norm_num) (by norm_num)
  rw [nearestDouble, Binary64.round, dif_pos ⟨hq, hlt⟩]
  exact ⟨_, rfl⟩

/-- A printed integer of 64 bits is read as the nearest double. -/
theorem spells_nearestDouble {i : ℤ} (hi : i.natAbs < 2 ^ 64) :
    Spells d (fmtInt i) (.number (nearestDouble i)) := by
  obtain ⟨b, u, hu, hb⟩ := fmtInt_head i
  refine ⟨⟨b, u, hu, startsNumber_plain hb⟩, fun t rest hf => ?_⟩
  obtain ⟨grid, hfinite⟩ := nearestDouble_finite hi
  have htok : strtod (fmtInt i ++ rest ++ t) = some ((fmtInt i).length, nearestDouble i) := by
    obtain ⟨c, r, hr, hc⟩ := hf
    have htok := strtod_integer (fmtNat_integerText i.natAbs) hc (decide (i < 0)) r
    rw [natOfDigits_fmtNat] at htok
    rw [List.append_assoc, hr, nearestDouble]
    by_cases h : i < 0 <;> simpa [fmtInt, h, Nat.add_comm] using htok
  rw [hfinite] at htok ⊢
  rw [hu] at htok ⊢
  have hread := ReadsValue.number (t := t) (d := d) (s := b :: u ++ rest)
    (dropWs_cons (startsNumber_plain hb).1 (u ++ rest)) hb htok (by simp) (by simp)
  rwa [← List.cons_append, List.drop_left] at hread

/-- A string with its octets escaped one by one. -/
theorem spells_quoted {escape : UInt8 → Bytes} (hescape : ∀ c t buf,
    stringLoop (escape c ++ t) buf = stringLoop t (buf.push c)) (s : Bytes) :
    Spells d (ch '"' :: (s.flatMap escape ++ [ch '"'])) (.string s) := by
  have hloop : ∀ (s t : Bytes) (buf : StrBuf),
      stringLoop (s.flatMap escape ++ ch '"' :: t) buf = .closed (buf.bytes ++ s) t := by
    intro s t
    induction s with
    | nil => simp
    | cons c s ih =>
      intro buf
      rw [List.flatMap_cons, List.append_assoc, hescape, ih]
      simp
  refine ⟨⟨_, _, rfl, by decide, by decide⟩, fun t rest _ => ?_⟩
  have htext : ch '"' :: (s.flatMap escape ++ [ch '"']) ++ rest =
      ch '"' :: (s.flatMap escape ++ ch '"' :: rest) := by simp
  rw [htext]
  exact .string (dropWs_cons (by decide) _) (hloop s rest StrBuf.empty)

theorem spells_stringifyString (s : Bytes) : Spells d (stringifyString s) (.string s) :=
  spells_quoted stringLoop_escapeOctet s

/-- The elements of an array up to its closing bracket. -/
theorem reads_commaList {xs : List Bytes} {vs : List Value} (h : List.Forall₂ (Spells d) xs vs)
    (hx : Spells d x v) (rest : Bytes) :
    ReadsItems t d (commaList (x :: xs) ++ ch ']' :: rest) (v :: vs) rest := by
  induction h generalizing x v with
  | nil =>
    rw [commaList, List.flatMap_nil, List.append_nil]
    exact .last (hx.reads t _ (follows_cons (by decide) _)) (dropWs_cons (by decide) _)
  | @cons y w ys ws hy _ ih =>
    have hrest := ih hy
    have htext : commaList (x :: y :: ys) ++ ch ']' :: rest =
        x ++ ch ',' :: (commaList (y :: ys) ++ ch ']' :: rest) := by
      simp [commaList]
    have hfront : ∃ r, commaList (y :: ys) ++ ch ']' :: rest = y ++ r :=
      ⟨(ys.flatMap fun y => ch ',' :: y) ++ ch ']' :: rest, by simp [commaList]⟩
    obtain ⟨r, hr⟩ := hfront
    rw [htext]
    refine .cons (hx.reads t _ (follows_cons (by decide) _)) (dropWs_cons (by decide) _) ?_ ?_
    · rw [hr, hy.dropWs]
      exact hy.head?_ne r
    · rw [hr, hy.dropWs, ← hr]
      exact hrest

theorem Spells.array {xs : List Bytes} {vs : List Value} (hd : d < jsonMaxDepth)
    (h : List.Forall₂ (Spells (d + 1)) xs vs) :
    Spells d (ch '[' :: (commaList xs ++ [ch ']'])) (.array vs) := by
  refine ⟨⟨_, _, rfl, by decide, by decide⟩, fun t rest _ => ?_⟩
  have htext : ch '[' :: (commaList xs ++ [ch ']']) ++ rest =
      ch '[' :: (commaList xs ++ ch ']' :: rest) := by simp
  rw [htext]
  cases h with
  | nil => exact .emptyArray (dropWs_cons (by decide) _) hd (dropWs_cons (by decide) _)
  | @cons x v xs vs hx hxs =>
    have hfront : commaList (x :: xs) ++ ch ']' :: rest =
        x ++ ((xs.flatMap fun y => ch ',' :: y) ++ ch ']' :: rest) := by
      simp [commaList]
    refine .array (dropWs_cons (by decide) _) hd ?_ ?_
    · rw [hfront, hx.dropWs]
      exact hx.head?_ne _
    · rw [hfront, hx.dropWs, ← hfront]
      exact reads_commaList hxs hx rest

theorem dropWs_white_append {a : Bytes} (ha : ∀ c ∈ a, isWs c = true) (s : Bytes) :
    Json.dropWs (a ++ s) = Json.dropWs s :=
  List.dropWhile_append_of_pos ha

theorem endsInteger_white {b : UInt8} (h : isWs b = true) : EndsInteger b := by
  simp only [isWs, Bool.or_eq_true, decide_eq_true_eq] at h
  rcases h with ((rfl | rfl) | rfl) | rfl
  · decide
  · decide
  · decide
  · decide

theorem follows_white {a : Bytes} (ha : ∀ c ∈ a, isWs c = true) {s : Bytes} (hs : Follows s) :
    Follows (a ++ s) := by
  cases a with
  | nil => exact hs
  | cons c a => exact follows_cons (endsInteger_white (ha c List.mem_cons_self)) _

/-- The elements of an array with white space in front of them and of its closing bracket. -/
theorem reads_whiteList {a b : Bytes} (ha : ∀ c ∈ a, isWs c = true) (hb : ∀ c ∈ b, isWs c = true)
    {xs : List Bytes} {vs : List Value} (h : List.Forall₂ (Spells d) xs vs) (hx : Spells d x v)
    (rest : Bytes) :
    ReadsItems t d (x ++ (xs.flatMap (fun y => ch ',' :: (a ++ y)) ++ (b ++ ch ']' :: rest)))
      (v :: vs) rest := by
  induction h generalizing x v with
  | nil =>
    have hend : Json.dropWs (b ++ ch ']' :: rest) = ch ']' :: rest := by
      rw [dropWs_white_append hb, dropWs_cons (by decide)]
    rw [List.flatMap_nil, List.nil_append]
    refine .last (hx.reads t _ ?_) hend
    rw [List.append_assoc]
    exact follows_white hb (follows_cons (by decide) _)
  | @cons y w ys ws hy _ ih =>
    have hnext : Json.dropWs (a ++ (y ++ (ys.flatMap (fun y => ch ',' :: (a ++ y)) ++
        (b ++ ch ']' :: rest)))) = y ++ (ys.flatMap (fun y => ch ',' :: (a ++ y)) ++
          (b ++ ch ']' :: rest)) := by
      rw [dropWs_white_append ha, hy.dropWs]
    have htext : (y :: ys).flatMap (fun y => ch ',' :: (a ++ y)) ++ (b ++ ch ']' :: rest) =
        ch ',' :: (a ++ (y ++ (ys.flatMap (fun y => ch ',' :: (a ++ y)) ++
          (b ++ ch ']' :: rest)))) := by
      simp only [List.flatMap_cons, List.append_assoc, List.cons_append]
    rw [htext]
    refine .cons (hx.reads t _ (follows_cons (by decide) _)) (dropWs_cons (by decide) _) ?_ ?_
    · rw [hnext]
      exact hy.head?_ne _
    · rw [hnext]
      exact ih hy

/-- An array with white space in front of each element and of the closing bracket. -/
theorem Spells.whiteArray {a b : Bytes} (ha : ∀ c ∈ a, isWs c = true)
    (hb : ∀ c ∈ b, isWs c = true) {xs : List Bytes} {vs : List Value} (hd : d < jsonMaxDepth)
    (h : List.Forall₂ (Spells (d + 1)) xs vs) :
    Spells d (ch '[' :: (commaList (xs.map fun x => a ++ x) ++ (b ++ [ch ']']))) (.array vs) := by
  refine ⟨⟨_, _, rfl, by decide, by decide⟩, fun t rest _ => ?_⟩
  have htext : ch '[' :: (commaList (xs.map fun x => a ++ x) ++ (b ++ [ch ']'])) ++ rest =
      ch '[' :: (commaList (xs.map fun x => a ++ x) ++ (b ++ ch ']' :: rest)) := by simp
  rw [htext]
  cases h with
  | nil =>
    refine .emptyArray (dropWs_cons (by decide) _) hd ?_
    rw [List.map_nil, commaList, List.nil_append, dropWs_white_append hb, dropWs_cons (by decide)]
  | @cons x v xs vs hx hxs =>
    have hfront : Json.dropWs (commaList ((x :: xs).map fun x => a ++ x) ++ (b ++ ch ']' :: rest)) =
        x ++ (xs.flatMap (fun y => ch ',' :: (a ++ y)) ++ (b ++ ch ']' :: rest)) := by
      rw [List.map_cons, commaList, List.flatMap_map, List.append_assoc, List.append_assoc,
        dropWs_white_append ha, hx.dropWs]
    refine .array (dropWs_cons (by decide) _) hd ?_ ?_
    · rw [hfront]
      exact hx.head?_ne _
    · rw [hfront]
      exact reads_whiteList ha hb hxs hx rest

theorem memberText_append (m : Bytes × Bytes) (r : Bytes) : ∃ u,
    memberText m ++ r = ch '"' :: u ∧ stringLoop u StrBuf.empty = .closed m.1 (ch ':' :: (m.2 ++ r)) := by
  obtain ⟨u, hu, hk⟩ := stringLoop_key m.1 (ch ':' :: (m.2 ++ r))
  refine ⟨u, ?_, hk⟩
  rw [← hu, memberText, List.append_assoc, List.cons_append]

/-- The members of an object up to its closing brace. -/
theorem reads_members {ms : List (Bytes × Bytes)} {ps : List (Bytes × Value)}
    (h : List.Forall₂ (SpellsMember d) ms ps) {m : Bytes × Bytes} {p : Bytes × Value}
    (hm : SpellsMember d m p) (rest : Bytes) :
    ReadsMembers t d (commaList ((m :: ms).map memberText) ++ ch '}' :: rest) (p :: ps) rest := by
  induction h generalizing m p with
  | nil =>
    obtain ⟨k, w⟩ := p
    obtain ⟨rfl, hw⟩ := hm
    obtain ⟨u, hu, hk⟩ := memberText_append m (ch '}' :: rest)
    have htext : commaList ([m].map memberText) ++ ch '}' :: rest = ch '"' :: u := by
      simpa [commaList] using hu
    rw [htext]
    exact .last (dropWs_cons (by decide) u) hk (dropWs_cons (by decide) _)
      (hw.reads t _ (follows_cons (by decide) _)) (dropWs_cons (by decide) _)
  | @cons n q ms ps hn _ ih =>
    obtain ⟨k, w⟩ := p
    obtain ⟨rfl, hw⟩ := hm
    have hrest := ih hn
    obtain ⟨u, hu, hk⟩ := memberText_append m
      (ch ',' :: (commaList ((n :: ms).map memberText) ++ ch '}' :: rest))
    have htext : commaList ((m :: n :: ms).map memberText) ++ ch '}' :: rest = ch '"' :: u := by
      rw [← hu]
      simp [commaList]
    rw [htext]
    exact .cons (dropWs_cons (by decide) u) hk (dropWs_cons (by decide) _)
      (hw.reads t _ (follows_cons (by decide) _)) (dropWs_cons (by decide) _) hrest

/-- An object whose members have different keys. -/
theorem Spells.object {m : Bytes × Bytes} {ms : List (Bytes × Bytes)} {ps : List (Bytes × Value)}
    (hd : d < jsonMaxDepth) (h : List.Forall₂ (SpellsMember (d + 1)) (m :: ms) ps)
    (hkeys : (ps.map (·.1)).Nodup) :
    Spells d (ch '{' :: (commaList ((m :: ms).map memberText) ++ [ch '}'])) (.object ps) := by
  refine ⟨⟨_, _, rfl, by decide, by decide⟩, fun t rest _ => ?_⟩
  have htext : ch '{' :: (commaList ((m :: ms).map memberText) ++ [ch '}']) ++ rest =
      ch '{' :: (commaList ((m :: ms).map memberText) ++ ch '}' :: rest) := by simp
  obtain ⟨u, hu⟩ : ∃ u, commaList ((m :: ms).map memberText) ++ ch '}' :: rest = ch '"' :: u := by
    obtain ⟨u, hu, -⟩ := memberText_append m
      (((ms.map memberText).flatMap fun y => ch ',' :: y) ++ ch '}' :: rest)
    exact ⟨u, by rw [← hu]; simp [commaList]⟩
  cases h with
  | @cons _ p _ ps hm hms =>
    have hmembers := reads_members (t := t) hms hm rest
    have hread := ReadsValue.object (t := t) (d := d)
      (s := ch '{' :: (commaList ((m :: ms).map memberText) ++ ch '}' :: rest))
      (dropWs_cons (by decide) _) hd (by rw [hu, dropWs_cons (by decide)]; simp [ch])
      (by rw [hu, dropWs_cons (by decide), ← hu]; exact hmembers)
    rw [storePairs_nodup _ _ (by simpa using hkeys), List.nil_append] at hread
    rwa [htext]

/-- A document that spells a value is parsed as it. -/
theorem Spells.parse (h : Spells 0 x v) (t : Bytes) :
    scJsonParse x (0 :: t) = .ok v ⟨[], 0 :: t, 0, 0⟩ := by
  have hread := h.reads (0 :: t) [] (follows_cons (by decide) t)
  rw [List.append_nil] at hread
  exact hread.parse _ (by rw [fuelFor])

end Spells

/-! ## Documents that cannot be read -/

section Unreadable

variable {t : Bytes} {d : ℕ}

/-- The parser is a function, so a derivation is determined by its text. -/
theorem ReadsValue.unique {s rest rest' : Bytes} {v v' : Value} (h : ReadsValue t d s v rest)
    (h' : ReadsValue t d s v' rest') : v = v' ∧ rest = rest' := by
  have heq := (h.parse _ le_rfl).symm.trans (h'.parse _ le_rfl)
  rw [Outcome.ok.injEq, Cursor.mk.injEq] at heq
  exact ⟨heq.1, heq.2.1⟩

/-- No value is read at the front of the text. -/
def Unreadable (t : Bytes) (d : ℕ) (s : Bytes) : Prop := ∀ v rest, ¬ ReadsValue t d s v rest

/-- Behind elements that are read, one that is not spoils the array. -/
theorem unreadable_items {xs : List Bytes} {vs : List Value} (h : List.Forall₂ (Spells d) xs vs)
    {bad : Bytes} (hbad : Unreadable t d bad) (hopen : ∃ b u, bad = b :: u ∧ isWs b = false ∧
      b ≠ ch ']') (ws : List Value) (rest : Bytes) :
    ¬ ReadsItems t d ((xs.flatMap fun x => x ++ [ch ',']) ++ bad) ws rest := by
  induction h generalizing ws with
  | nil =>
    intro hread
    cases hread with
    | last hv _ => exact hbad _ _ hv
    | trailing hv _ _ => exact hbad _ _ hv
    | cons hv _ _ _ => exact hbad _ _ hv
  | @cons x v xs vs hx hxs ih =>
    obtain ⟨b, u, hu, hws, hb⟩ : ∃ b u, (xs.flatMap fun x => x ++ [ch ',']) ++ bad = b :: u ∧
        isWs b = false ∧ b ≠ ch ']' := by
      cases hxs with
      | nil => exact hopen
      | cons hy _ =>
        obtain ⟨b, u, rfl, hws, hb⟩ := hy.head
        exact ⟨b, _, by simp; rfl, hws, hb⟩
    have htext : ((x :: xs).flatMap fun x => x ++ [ch ',']) ++ bad =
        x ++ ch ',' :: ((xs.flatMap fun x => x ++ [ch ',']) ++ bad) := by simp
    have hfirst := hx.reads t (ch ',' :: ((xs.flatMap fun x => x ++ [ch ',']) ++ bad))
      (follows_cons (by decide) _)
    have hcomma : dropWs (ch ',' :: ((xs.flatMap fun x => x ++ [ch ',']) ++ bad)) =
        ch ',' :: ((xs.flatMap fun x => x ++ [ch ',']) ++ bad) := dropWs_cons (by decide) _
    rw [htext]
    intro hread
    cases hread with
    | last hv hu' =>
      rw [(hv.unique hfirst).2, hcomma] at hu'
      exact absurd (List.cons.inj hu').1 (by decide)
    | trailing hv hu' hw =>
      rw [(hv.unique hfirst).2, hcomma] at hu'
      rw [← (List.cons.inj hu').2, hu, dropWs_cons hws] at hw
      exact hb (List.cons.inj hw).1
    | cons hv hu' _ hvs =>
      rw [(hv.unique hfirst).2, hcomma] at hu'
      rw [← (List.cons.inj hu').2, hu, dropWs_cons hws, ← hu] at hvs
      exact ih _ hvs

/-- What follows the key and the value of a member at the front of members that are read. -/
theorem ReadsMembers.after {m : Bytes × Bytes} {v : Value} (hv : Spells d m.2 v) {r : Bytes}
    (hr : Follows (r ++ t)) {qs : List (Bytes × Value)} {rest : Bytes}
    (h : ReadsMembers t d (memberText m ++ r) qs rest) :
    (∃ y, dropWs r = ch '}' :: y) ∨
      ∃ y qs', dropWs r = ch ',' :: y ∧ ReadsMembers t d y qs' rest := by
  obtain ⟨u, hu, hk⟩ := memberText_append m r
  have hopen : dropWs (ch '"' :: u) = ch '"' :: u := dropWs_cons (by decide) u
  have hcolon : dropWs (ch ':' :: (m.2 ++ r)) = ch ':' :: (m.2 ++ r) := dropWs_cons (by decide) _
  have hvalue := hv.reads t r hr
  have hkey : ∀ {w key x y : Bytes}, dropWs (ch '"' :: u) = ch '"' :: w →
      stringLoop w StrBuf.empty = .closed key x → dropWs x = ch ':' :: y → y = m.2 ++ r := by
    intro w key x y hs hk' hx
    rw [hopen] at hs
    rw [← (List.cons.inj hs).2, hk, LoopExit.closed.injEq] at hk'
    rw [← hk'.2, hcolon] at hx
    exact (List.cons.inj hx).2.symm
  rw [hu] at h
  cases h with
  | close hs =>
    rw [hopen] at hs
    exact absurd (List.cons.inj hs).1 (by decide)
  | last hs hk' hr' hv' hx =>
    obtain rfl := hkey hs hk' hr'
    rw [(hv'.unique hvalue).2] at hx
    exact Or.inl ⟨_, hx⟩
  | cons hs hk' hr' hv' hx hms =>
    obtain rfl := hkey hs hk' hr'
    rw [(hv'.unique hvalue).2] at hx
    exact Or.inr ⟨_, _, hx, hms⟩

/-- Behind members that are read, a value that neither a comma nor a brace follows spoils the
object. -/
theorem unreadable_members {ms : List (Bytes × Bytes)} {ps : List (Bytes × Value)}
    (h : List.Forall₂ (SpellsMember d) ms ps) {m : Bytes × Bytes} {p : Bytes × Value}
    (hm : SpellsMember d m p) {b : UInt8} {u : Bytes} (hend : EndsInteger b) (hws : isWs b = false)
    (hcomma : b ≠ ch ',') (hbrace : b ≠ ch '}') (qs : List (Bytes × Value)) (rest : Bytes) :
    ¬ ReadsMembers t d ((ms.flatMap fun m => memberText m ++ [ch ',']) ++
      (memberText m ++ b :: u)) qs rest := by
  induction h generalizing qs with
  | nil =>
    rw [List.flatMap_nil, List.nil_append]
    intro hread
    rcases hread.after hm.2 (follows_cons hend _) with ⟨y, hy⟩ | ⟨y, _, hy, -⟩
    · rw [dropWs_cons hws] at hy
      exact hbrace (List.cons.inj hy).1
    · rw [dropWs_cons hws] at hy
      exact hcomma (List.cons.inj hy).1
  | @cons n q ms ps hn hms ih =>
    have htext : ((n :: ms).flatMap fun m => memberText m ++ [ch ',']) ++
        (memberText m ++ b :: u) = memberText n ++
          ch ',' :: ((ms.flatMap fun m => memberText m ++ [ch ',']) ++ (memberText m ++ b :: u)) := by
      simp
    have hnext : ∀ x : Bytes, dropWs (ch ',' :: x) = ch ',' :: x := dropWs_cons (by decide)
    rw [htext]
    intro hread
    rcases hread.after hn.2 (follows_cons (by decide) _) with ⟨y, hy⟩ | ⟨y, qs', hy, hrest⟩
    · rw [hnext] at hy
      exact absurd (List.cons.inj hy).1 (by decide)
    · rw [hnext] at hy
      rw [← (List.cons.inj hy).2] at hrest
      exact ih qs' hrest

end Unreadable

end SeaClaw.Json
