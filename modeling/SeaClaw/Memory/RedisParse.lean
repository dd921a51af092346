import Mathlib.Algebra.Group.Even
import Mathlib.Logic.Relation
import SeaClaw.Memory.RedisReply

/-!
# What the parser of replies gives back

Pairs that were framed are read back when no string starts with the end of a line. The parser reads
an octet outside of a reply exactly when a number runs to the end of the reply, or a string is due
where the reply has ended, or a length leads before the reply.
-/

namespace SeaClaw.Memory

open SeaClaw.Lib

/-! ## Pairs that were framed -/

/-- The field with a name. -/
def fieldNamed (x : Bytes) : Option RedisField :=
  [RedisField.content, .category, .sessionId, .key].find? fun field => x = field.name

theorem fieldNamed_eq_some_iff {x : Bytes} {field : RedisField} :
    fieldNamed x = some field ↔ x = field.name := by
  constructor
  · intro h
    simpa using List.find?_some h
  · rintro rfl
    cases field <;> decide

theorem redisField_of_name {reply x : Bytes} {start next : ℕ}
    (hx : (reply.drop start).take x.length = x) :
    redisField reply ⟨start, x.length, next⟩ = fieldNamed x := by
  have hname : ∀ name : Bytes, ((x.length : ℤ) = name.length ∧
      (reply.drop start).take name.length = name) ↔ x = name := by
    intro name
    constructor
    · intro ⟨hlen, htake⟩
      rw [← Int.ofNat_inj.mp hlen, hx] at htake
      exact htake
    · rintro rfl
      exact ⟨rfl, hx⟩
  simp only [redisField, fieldNamed, hname]

theorem valueOf_cons (p : Bytes × Bytes) (pairs : List (Bytes × Bytes)) (field : RedisField) :
    valueOf (p :: pairs) field =
      (valueOf pairs field).or (if p.1 = field.name then some p.2 else none) := by
  rw [valueOf, List.reverse_cons, List.find?_append, valueOf]
  cases pairs.reverse.find? (fun q => decide (q.1 = field.name)) with
  | some q => rfl
  | none =>
    rw [Option.none_or, Option.map_none, Option.none_or, List.find?_singleton]
    by_cases h : p.1 = field.name
    · rw [if_pos h, if_pos (decide_eq_true h), Option.map_some]
    · rw [if_neg h, if_neg (by rwa [decide_eq_true_eq]), Option.map_none]

/-- The strings of some pairs. -/
def redisStrings (pairs : List (Bytes × Bytes)) : Bytes :=
  pairs.flatMap fun p => redisBulk p.1 ++ redisBulk p.2

theorem not_startsWithBreak_bulk (x post : Bytes) : ¬ StartsWithBreak (redisBulk x ++ post) := by
  intro h
  exact absurd (show isBreak (ch '$') = true from h) (by decide)

theorem not_startsWithBreak_strings (pairs : List (Bytes × Bytes)) :
    ¬ StartsWithBreak (redisStrings pairs) := by
  cases pairs with
  | nil => exact Bool.false_ne_true
  | cons p pairs =>
    rw [redisStrings, List.flatMap_cons, List.append_assoc]
    exact not_startsWithBreak_bulk _ _

/-- Pairs of which no string starts with the end of a line. -/
def Clean (pairs : List (Bytes × Bytes)) : Prop :=
  ∀ p ∈ pairs, ¬ StartsWithBreak p.1 ∧ ¬ StartsWithBreak p.2

/-- The rounds over strings that were framed. -/
theorem redisPairs_strings {reply : Bytes} {pairs : List (Bytes × Bytes)} (hclean : Clean pairs)
    (hlen : ∀ p ∈ pairs, p.1.length < 2 ^ 63 ∧ p.2.length < 2 ^ 63) {p : ℕ}
    (hdrop : reply.drop p = redisStrings pairs) (out : RedisHgetallCtx) :
    ∃ out', redisPairs reply pairs.length p out = some (.ok out') ∧
      ∀ field, (out' field).bind (redisValue reply) =
        (valueOf pairs field).or ((out field).bind (redisValue reply)) := by
  induction pairs generalizing p out with
  | nil => exact ⟨out, rfl, fun field => rfl⟩
  | cons q pairs ih =>
    obtain ⟨hf, hv⟩ := hclean q List.mem_cons_self
    obtain ⟨hlf, hlv⟩ := hlen q List.mem_cons_self
    have hsplit : reply.drop p = redisBulk q.1 ++ (redisBulk q.2 ++ redisStrings pairs) := by
      rw [hdrop, redisStrings, List.flatMap_cons, List.append_assoc]
      rfl
    obtain ⟨start, hread, hname⟩ :=
      redisString_bulk hsplit hf (not_startsWithBreak_bulk _ _) hlf
    have hsplit' : reply.drop (p + (redisBulk q.1).length) =
        redisBulk q.2 ++ redisStrings pairs := by
      rw [← List.drop_drop, hsplit, List.drop_left]
    obtain ⟨start', hread', hvalue⟩ :=
      redisString_bulk hsplit' hv (not_startsWithBreak_strings pairs) hlv
    have hrest : reply.drop (p + (redisBulk q.1).length + (redisBulk q.2).length) =
        redisStrings pairs := by
      rw [← List.drop_drop, hsplit', List.drop_left]
    have hlt : ¬ reply.length ≤ p := by
      intro hle
      rw [List.drop_eq_nil_of_le hle] at hsplit
      exact List.cons_ne_nil _ _ hsplit.symm
    obtain ⟨out', hout', hfields⟩ := ih (fun q hq => hclean q (List.mem_cons_of_mem _ hq))
      (fun q hq => hlen q (List.mem_cons_of_mem _ hq)) hrest
      (out.put reply ⟨start, q.1.length, p + (redisBulk q.1).length⟩
        ⟨start', q.2.length, p + (redisBulk q.1).length + (redisBulk q.2).length⟩)
    refine ⟨out', ?_, ?_⟩
    · rw [List.length_cons, redisPairs, if_neg hlt, hread]
      dsimp only
      rw [hread']
      exact hout'
    · intro field
      rw [hfields, valueOf_cons, Option.or_assoc]
      congr 1
      rw [RedisHgetallCtx.put, redisField_of_name hname]
      cases hnamed : fieldNamed q.1 with
      | none =>
        have hne : q.1 ≠ field.name := by
          intro heq
          rw [fieldNamed_eq_some_iff.mpr heq] at hnamed
          exact absurd hnamed (Option.some_ne_none _)
        rw [if_neg hne, Option.none_or]
      | some named =>
        have heq := fieldNamed_eq_some_iff.mp hnamed
        dsimp only
        by_cases hfield : field = named
        · rw [hfield, Function.update_self, if_pos heq, Option.bind_some, Option.some_or,
            redisValue, if_pos (Int.natCast_nonneg _), Int.toNat_natCast, hvalue]
        · have hne : q.1 ≠ field.name := by
            intro heq'
            have hboth := (fieldNamed_eq_some_iff.mpr heq').symm.trans hnamed
            exact hfield (Option.some.inj hboth)
          rw [Function.update_of_ne hfield, if_neg hne, Option.none_or]

/-- Pairs of which no string starts with the end of a line are read back. -/
theorem yieldsValues_of_clean {pairs : List (Bytes × Bytes)} (hne : pairs ≠ [])
    (hframed : Framed pairs) (hclean : Clean pairs) : YieldsValues pairs := by
  have hpos : 0 < pairs.length := List.length_pos_iff.mpr hne
  have hcount := hframed.count
  have hreply : redisHash pairs =
      ch '*' :: (fmtNat (2 * pairs.length) ++ 0x0d :: (0x0a :: redisStrings pairs)) := by
    simp [redisHash, redisArrayStart, crlf, redisStrings]
  have hnumber : strtolMem (fmtNat (2 * pairs.length) ++ 0x0d :: (0x0a :: redisStrings pairs)) =
      some (((2 * pairs.length : ℕ) : ℤ), (fmtNat (2 * pairs.length)).length) :=
    strtolMem_fmtNat (by omega) (by decide)
  have hbehind : (redisHash pairs).drop (1 + (fmtNat (2 * pairs.length)).length) =
      crlf ++ redisStrings pairs := by
    have hsplit : redisHash pairs =
        (ch '*' :: fmtNat (2 * pairs.length)) ++ (crlf ++ redisStrings pairs) := by
      rw [hreply]
      rfl
    have hl : 1 + (fmtNat (2 * pairs.length)).length =
        (ch '*' :: fmtNat (2 * pairs.length)).length := by
      rw [List.length_cons, Nat.add_comm]
    rw [hsplit, hl, List.drop_left]
  have hstart : (redisHash pairs).drop (skipBreaks (redisHash pairs)
      (1 + (fmtNat (2 * pairs.length)).length)) = redisStrings pairs := by
    rw [skipBreaks_of_drop hbehind, takeWhile_crlf (not_startsWithBreak_strings pairs),
      ← List.drop_drop, hbehind]
    rfl
  obtain ⟨out, hout, hfields⟩ :=
    redisPairs_strings hclean hframed.lengths hstart fun _ => none
  refine ⟨out, ?_, ?_⟩
  · have hcond : ¬ (((2 * pairs.length : ℕ) : ℤ) ≤ 0 ∨
        ((2 * pairs.length : ℕ) : ℤ).tmod 2 ≠ 0) := by
      rw [Int.tmod_eq_emod_of_nonneg (Int.natCast_nonneg _)]
      omega
    have hrounds : (((2 * pairs.length : ℕ) : ℤ).tdiv 2).toNat = pairs.length := by
      rw [Int.tdiv_eq_ediv_of_nonneg (Int.natCast_nonneg _)]
      omega
    rw [← hout, hreply, redisParseHgetall]
    rw [if_neg (not_not.mpr rfl), hnumber]
    dsimp only
    rw [if_neg hcond, hrounds]
  · intro field
    rw [hfields, Option.bind_none, Option.or_none]

/-! ## Octets that are read -/

/-- Blanks, a sign and digits up to the end of the octets. -/
def NumberRunsOut (s : Bytes) : Prop :=
  ∃ space sign ds, s = space ++ (sign ++ ds) ∧ (∀ b ∈ space, isSpace b = true) ∧
    (sign = [] ∨ sign = [ch '-'] ∨ sign = [ch '+']) ∧ ∀ b ∈ ds, isDigit b = true

theorem spanMem_eq_none_iff {p : UInt8 → Bool} {s : Bytes} :
    spanMem p s = none ↔ ∀ b ∈ s, p b = true := by
  refine ⟨spanMem_none, fun h => ?_⟩
  induction s with
  | nil => rfl
  | cons b s ih =>
    rw [spanMem, if_pos (h b List.mem_cons_self), ih fun c hc => h c (List.mem_cons_of_mem _ hc)]
    rfl

/-- A sign, or none before a digit. -/
theorem readSign_of_sign {sign ds : Bytes}
    (hsign : sign = [] ∨ sign = [ch '-'] ∨ sign = [ch '+'])
    (hds : ∀ b ∈ ds, isDigit b = true) (hne : sign ++ ds ≠ []) :
    ∃ neg k, readSign (sign ++ ds) = some (neg, k, ds) := by
  rcases hsign with rfl | rfl | rfl
  · obtain ⟨b, r, hbr⟩ := List.exists_cons_of_ne_nil hne
    rw [List.nil_append] at hbr ⊢
    obtain ⟨-, hminus, hplus, -⟩ := not_special_of_isDigit (hds b (by rw [hbr]; simp))
    rw [hbr, readSign, if_neg hminus, if_neg hplus]
    exact ⟨_, _, rfl⟩
  · exact ⟨_, _, rfl⟩
  · exact ⟨_, _, rfl⟩

/-- A number is not read to its end exactly when it has none. -/
theorem strtolMem_eq_none_iff (s : Bytes) : strtolMem s = none ↔ NumberRunsOut s := by
  constructor
  · intro h
    unfold strtolMem at h
    split at h
    · rename_i hspace
      exact ⟨s, [], [], (List.append_nil s).symm, spanMem_none hspace, Or.inl rfl,
        fun b hb => absurd hb List.not_mem_nil⟩
    · rename_i space r hspace
      have hs := (spanMem_eq hspace).1
      have hall := spanMem_forall hspace
      split at h
      · rename_i hsign
        exact absurd (readSign_none hsign) (spanMem_eq hspace).2
      · rename_i neg k t hsign
        rw [Option.map_eq_none_iff] at h
        obtain ⟨b, u, rfl⟩ := List.exists_cons_of_ne_nil (spanMem_eq hspace).2
        rw [readSign] at hsign
        split_ifs at hsign with hminus hplus
        · obtain ⟨-, -, rfl⟩ := hsign
          exact ⟨space, [ch '-'], t, by rw [hs, hminus]; rfl, hall, Or.inr (Or.inl rfl),
            spanMem_none h⟩
        · obtain ⟨-, -, rfl⟩ := hsign
          exact ⟨space, [ch '+'], t, by rw [hs, hplus]; rfl, hall, Or.inr (Or.inr rfl),
            spanMem_none h⟩
        · obtain ⟨-, -, rfl⟩ := hsign
          exact ⟨space, [], b :: u, hs, hall, Or.inl rfl, spanMem_none h⟩
  · rintro ⟨space, sign, ds, rfl, hspace, hsign, hds⟩
    by_cases hne : sign ++ ds = []
    · have hall : spanMem isSpace (space ++ (sign ++ ds)) = none := by
        rw [hne, List.append_nil]
        exact spanMem_eq_none_iff.mpr hspace
      rw [strtolMem, hall]
    · obtain ⟨b, r, hbr⟩ := List.exists_cons_of_ne_nil hne
      have hb : isSpace b = false := by
        have hmem : b ∈ sign ++ ds := by
          rw [hbr]
          exact List.mem_cons_self
        rcases List.mem_append.mp hmem with hmem | hmem
        · rcases hsign with rfl | rfl | rfl
          · exact absurd hmem List.not_mem_nil
          · rw [List.mem_singleton.mp hmem]
            decide
          · rw [List.mem_singleton.mp hmem]
            decide
        · exact (not_special_of_isDigit (hds b hmem)).1
      have hrun : spanMem isSpace (space ++ (sign ++ ds)) = some (space, sign ++ ds) := by
        rw [hbr]
        exact spanMem_run hspace hb r
      obtain ⟨neg, k, hread⟩ := readSign_of_sign hsign hds hne
      rw [strtolMem, hrun]
      dsimp only
      rw [hread]
      dsimp only
      rw [spanMem_eq_none_iff.mpr hds, Option.map_none]

/-- A string is due at a place where none can be read inside the reply: behind the end, or at a
`$` with a number that runs to the end or a length that leads before the reply. -/
def StringOutside (reply : Bytes) (p : ℕ) : Prop :=
  reply.length ≤ p ∨ reply[p]? = some (ch '$') ∧ (NumberRunsOut (reply.drop (p + 1)) ∨
    ∃ n k, strtolMem (reply.drop (p + 1)) = some (n, k) ∧
      (skipBreaks reply (p + 1 + k) : ℤ) + n < 0)

theorem redisString_eq_none_iff (reply : Bytes) (p : ℕ) :
    redisString reply p = none ↔ StringOutside reply p := by
  unfold redisString StringOutside
  split
  · rename_i hnone
    simp [List.getElem?_eq_none_iff.mp hnone]
  · rename_i b hb
    have hlt := (List.getElem?_eq_some_iff.mp hb).1
    rw [← strtolMem_eq_none_iff, hb]
    by_cases hdollar : b = ch '$'
    · rw [if_neg (not_not.mpr hdollar), hdollar]
      cases hnumber : strtolMem (reply.drop (p + 1)) with
      | none => simp
      | some number =>
        obtain ⟨n, k⟩ := number
        simp only [Option.bind_some, Option.some.injEq, Prod.mk.injEq]
        split_ifs with hbefore
        · simp only [true_iff]
          exact Or.inr ⟨trivial, Or.inr ⟨n, k, ⟨rfl, rfl⟩, hbefore⟩⟩
        · constructor
          · intro h
            exact h.elim
          · rintro (hle | ⟨-, h | ⟨n', k', ⟨rfl, rfl⟩, hneg⟩⟩)
            · omega
            · exact h.elim
            · exact absurd hneg hbefore
    · rw [if_pos hdollar]
      constructor
      · intro h
        exact absurd h (Option.some_ne_none _)
      · rintro (hle | ⟨h, -⟩)
        · omega
        · exact absurd (Option.some.inj h) hdollar

/-- The strings that are still due, and the place that the parser has come to. -/
abbrev RedisPlace := ℕ × ℕ

/-- A string is read at a place: a value always, a field inside the reply only. -/
def Due (reply : Bytes) (s : RedisPlace) : Prop :=
  0 < s.1 ∧ (Even s.1 → s.2 < reply.length)

/-- The parser goes from one string to the next. -/
def RedisStep (reply : Bytes) (s t : RedisPlace) : Prop :=
  Due reply s ∧ s.1 = t.1 + 1 ∧ ∃ f, redisString reply s.2 = some (.ok f) ∧ f.next = t.2

/-- A place from which the parser comes to a string outside of the reply. -/
def LeadsOutside (reply : Bytes) (s : RedisPlace) : Prop :=
  ∃ t, Relation.ReflTransGen (RedisStep reply) s t ∧ Due reply t ∧ StringOutside reply t.2

/-- At the place itself, or at the next one. -/
theorem leadsOutside_iff (reply : Bytes) (s : RedisPlace) : LeadsOutside reply s ↔
    Due reply s ∧ StringOutside reply s.2 ∨ ∃ t, RedisStep reply s t ∧ LeadsOutside reply t := by
  constructor
  · intro ⟨t, ht, hdue, hout⟩
    rcases Relation.ReflTransGen.cases_head ht with rfl | ⟨u, hu, ht⟩
    · exact Or.inl ⟨hdue, hout⟩
    · exact Or.inr ⟨u, hu, t, ht, hdue, hout⟩
  · rintro (⟨hdue, hout⟩ | ⟨u, hu, t, ht, hdue, hout⟩)
    · exact ⟨s, .refl, hdue, hout⟩
    · exact ⟨t, .head hu ht, hdue, hout⟩

/-- One string that is due. -/
theorem leadsOutside_due {reply : Bytes} {n p : ℕ} (h : Due reply (n + 1, p)) :
    LeadsOutside reply (n + 1, p) ↔ redisString reply p = none ∨
      ∃ f, redisString reply p = some (.ok f) ∧ LeadsOutside reply (n, f.next) := by
  rw [leadsOutside_iff, redisString_eq_none_iff]
  constructor
  · rintro (⟨-, hout⟩ | ⟨t, ⟨-, hn, f, hf, hnext⟩, ht⟩)
    · exact Or.inl hout
    · obtain ⟨m, q⟩ := t
      obtain rfl := Nat.succ.inj hn
      obtain rfl := hnext
      exact Or.inr ⟨f, hf, ht⟩
  · rintro (hout | ⟨f, hf, ht⟩)
    · exact Or.inl ⟨h, hout⟩
    · exact Or.inr ⟨(n, f.next), ⟨h, rfl, f, hf, rfl⟩, ht⟩

theorem not_leadsOutside_of_not_due {reply : Bytes} {s : RedisPlace} (h : ¬ Due reply s) :
    ¬ LeadsOutside reply s := by
  rw [leadsOutside_iff]
  rintro (⟨hdue, -⟩ | ⟨t, ⟨hdue, -⟩, -⟩)
  · exact h hdue
  · exact h hdue

/-- The rounds read outside of the reply exactly when they come to such a string. -/
theorem redisPairs_eq_none_iff (reply : Bytes) (rounds p : ℕ) (out : RedisHgetallCtx) :
    redisPairs reply rounds p out = none ↔ LeadsOutside reply (2 * rounds, p) := by
  induction rounds generalizing p out with
  | zero =>
    have hnot : ¬ LeadsOutside reply (2 * 0, p) :=
      not_leadsOutside_of_not_due fun h => Nat.lt_irrefl 0 h.1
    rw [redisPairs]
    exact ⟨fun h => absurd h (Option.some_ne_none _), fun h => absurd h hnot⟩
  | succ rounds ih =>
    have hcount : 2 * (rounds + 1) = 2 * rounds + 1 + 1 := by omega
    have heven : Even (2 * rounds + 1 + 1) := ⟨rounds + 1, by omega⟩
    have hodd : ¬ Even (2 * rounds + 1) := by
      rw [Nat.not_even_iff]
      omega
    rw [redisPairs, hcount]
    by_cases hend : reply.length ≤ p
    · rw [if_pos hend]
      have hnot : ¬ LeadsOutside reply (2 * rounds + 1 + 1, p) :=
        not_leadsOutside_of_not_due fun h => Nat.not_lt.mpr hend (h.2 heven)
      exact ⟨fun h => absurd h (Option.some_ne_none _), fun h => absurd h hnot⟩
    · have hdue : Due reply (2 * rounds + 1 + 1, p) :=
        ⟨Nat.succ_pos _, fun _ => Nat.lt_of_not_le hend⟩
      rw [if_neg hend, leadsOutside_due hdue]
      cases hf : redisString reply p with
      | none => simp
      | some r =>
        cases r with
        | error e => simp
        | ok f =>
          have hdue' : Due reply (2 * rounds + 1, f.next) :=
            ⟨Nat.succ_pos _, fun h => absurd h hodd⟩
          simp only [Option.some.injEq, Except.ok.injEq, exists_eq_left', reduceCtorEq, false_or]
          rw [leadsOutside_due hdue']
          cases hv : redisString reply f.next with
          | none => simp
          | some r =>
            cases r with
            | error e => simp
            | ok v =>
              simp only [Option.some.injEq, Except.ok.injEq, exists_eq_left', reduceCtorEq,
                false_or]
              exact ih v.next _

/-- The parser reads inside a reply: the number behind the star does not run to the end, and the
strings that the parser comes to are not outside. -/
def ReadsInside (reply : Bytes) : Prop :=
  ∀ s, reply = ch '*' :: s → ¬ NumberRunsOut s ∧
    ∀ n k, strtolMem s = some (n, k) → 0 < n → n.tmod 2 = 0 →
      ¬ LeadsOutside reply (2 * (n.tdiv 2).toNat, skipBreaks reply (1 + k))

/-- The parser stays inside of a reply if and only if no number and no string leads it outside. -/
theorem redisParseHgetall_ne_none_iff (reply : Bytes) :
    redisParseHgetall reply ≠ none ↔ ReadsInside reply := by
  unfold redisParseHgetall ReadsInside
  cases reply with
  | nil => simp
  | cons b s =>
    simp only [List.cons.injEq]
    by_cases hstar : b = ch '*'
    · rw [if_neg (not_not.mpr hstar)]
      simp only [hstar, true_and, forall_eq']
      rw [← strtolMem_eq_none_iff]
      cases hnumber : strtolMem s with
      | none => simp
      | some number =>
        obtain ⟨n, k⟩ := number
        simp only [Option.some.injEq, Prod.mk.injEq, reduceCtorEq, not_false_eq_true, true_and]
        split_ifs with hcount
        · constructor
          · rintro - n' k' ⟨rfl, rfl⟩ hpos heven
            rcases hcount with hle | hodd
            · omega
            · exact absurd heven hodd
          · intro _
            exact Option.some_ne_none _
        · rw [ne_eq, redisPairs_eq_none_iff]
          rw [not_or, not_le, not_not] at hcount
          constructor
          · rintro h n' k' ⟨rfl, rfl⟩ - -
            exact h
          · intro h
            exact h n k ⟨rfl, rfl⟩ hcount.1 hcount.2
    · rw [if_pos hstar]
      simp [hstar]

/-- A name is compared inside of the reply, once the string behind it is. -/
theorem redisString_name_inside {reply : Bytes} {p : ℕ} {f : RedisString}
    (h : redisString reply p = some (.ok f)) (hnext : f.next ≤ reply.length) :
    (f.start : ℤ) + f.len ≤ reply.length := by
  unfold redisString at h
  split at h
  · exact absurd h (by simp)
  · split_ifs at h with hdollar
    · exact absurd (Option.some.inj h) (by simp)
    · obtain ⟨number, -, hnumber⟩ := Option.bind_eq_some_iff.mp h
      dsimp only at hnumber
      split_ifs at hnumber with hbefore
      obtain rfl := Except.ok.inj (Option.some.inj hnumber)
      dsimp only at hnext ⊢
      unfold skipBreaks at hnext ⊢
      omega

/-! ## Both promises -/

/-- Pairs are read back when no string starts with the end of a line; a reply is read inside if
and only if no number and no string leads outside. -/
theorem redisParseHgetall_spec (pairs : List (Bytes × Bytes)) (reply : Bytes) :
    (pairs ≠ [] → Framed pairs → Clean pairs → YieldsValues pairs) ∧
      (redisParseHgetall reply ≠ none ↔ ReadsInside reply) :=
  ⟨yieldsValues_of_clean, redisParseHgetall_ne_none_iff reply⟩

/-- One pair. -/
theorem redisParseHgetall_spec_one : YieldsValues [(ascii "content", ascii "x")] := by
  have hframed : Framed [(ascii "content", ascii "x")] := by
    refine ⟨by decide, ?_⟩
    intro p hp
    rw [List.mem_singleton.mp hp]
    decide
  have hclean : Clean [(ascii "content", ascii "x")] := by
    intro p hp
    rw [List.mem_singleton.mp hp]
    decide
  exact (redisParseHgetall_spec _ []).1 (List.cons_ne_nil _ _) hframed hclean

/-- The reply for a value that starts with a line feed. -/
def lineFeedReply : Bytes := ascii "*2\r\n$7\r\ncontent\r\n$2\r\n\nx\r\n"

/-- The line feed of a value is skipped, and a count without its line end is read past the end. -/
theorem redisParseHgetall_skips_value :
    ¬ YieldsValues [(ascii "content", ascii "\nx")] ∧ redisParseHgetall (ascii "*2") = none := by
  refine ⟨?_, by decide⟩
  rintro ⟨out, hout, hfields⟩
  have hreply : redisHash [(ascii "content", ascii "\nx")] = lineFeedReply := by
    simp [redisHash, redisArrayStart, redisBulk, fmtNat, crlf]
    decide
  have hread : ((redisParseHgetall lineFeedReply).bind fun r => r.toOption.bind fun out =>
      (out .content).bind (redisValue lineFeedReply)) = some (ascii "x\r") := by
    decide
  have hcontent := hfields .content
  rw [hreply] at hout hcontent
  rw [hout] at hread
  have hwrong : valueOf [(ascii "content", ascii "\nx")] .content = some (ascii "x\r") :=
    hcontent.symm.trans hread
  exact absurd hwrong (by decide)

end SeaClaw.Memory
