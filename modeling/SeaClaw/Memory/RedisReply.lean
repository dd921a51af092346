import SeaClaw.Core.Error
import SeaClaw.Lib.NumberTokens
import SeaClaw.Lib.Printf
import SeaClaw.Lib.Strtol

/-!
# Replies of a Redis server

`redis_parse_hgetall` of `memory/engines/redis.c`, and the framing of `redis_send_array_start` and
`redis_send_bulk`. Places are offsets into the reply; a result is missing when the parser reads an
octet that is not in the reply.
-/

namespace SeaClaw.Memory

open SeaClaw.Lib

/-! ## Framing -/

/-- The end of a line. -/
def crlf : Bytes := [0x0d, 0x0a]

/-- `redis_send_array_start` -/
def redisArrayStart (count : ℕ) : Bytes := ch '*' :: fmtNat count ++ crlf

/-- `redis_send_bulk` -/
def redisBulk (str : Bytes) : Bytes := ch '$' :: fmtNat str.length ++ crlf ++ str ++ crlf

/-- The reply for some fields with their values. -/
def redisHash (pairs : List (Bytes × Bytes)) : Bytes :=
  redisArrayStart (2 * pairs.length) ++ pairs.flatMap fun p => redisBulk p.1 ++ redisBulk p.2

/-! ## Parsing -/

/-- `*p == '\r' || *p == '\n'` -/
def isBreak (b : UInt8) : Bool := b == 0x0d || b == 0x0a

/-- A number as a `long`, at its nearer end when it does not fit. -/
def clampLong (neg : Bool) (n : ℕ) : ℤ := if neg then max (-n) longMin else min n longMax

/-- `strtol(p, &p, 10)` in the octets that are left: the value, and how far it went. -/
def strtolMem (s : Bytes) : Option (ℤ × ℕ) :=
  match spanMem isSpace s with
  | none => none
  | some (space, r) =>
    match readSign r with
    | none => none
    | some (neg, k, r) =>
      (spanMem isDigit r).map fun d =>
        if d.1 = [] then (0, 0)
        else (clampLong neg (natOfDigits 10 d.1), space.length + k + d.1.length)

/-- `while (p < end && (*p == '\r' || *p == '\n')) p++;` -/
def skipBreaks (reply : Bytes) (p : ℕ) : ℕ := p + ((reply.drop p).takeWhile isBreak).length

/-- A string of the reply: `fstart`, `flen` and where the parser goes on. -/
structure RedisString where
  start : ℕ
  len : ℤ
  next : ℕ
  deriving DecidableEq

/-- One string of a round of `redis_parse_hgetall`: an error of the parser when it does not start
with `$`, nothing when an octet outside of the reply is read. -/
def redisString (reply : Bytes) (p : ℕ) : Option (Except ScError RedisString) :=
  match reply[p]? with
  | none => none
  | some b =>
    if b ≠ ch '$' then some (.error .parse)
    else
      (strtolMem (reply.drop (p + 1))).bind fun number =>
        let start := skipBreaks reply (p + 1 + number.2)
        let stop : ℤ := start + number.1
        -- A place before the reply is read at once.
        if stop < 0 then none
        else some (.ok ⟨start, number.1, skipBreaks reply stop.toNat⟩)

/-- The fields of `redis_hgetall_ctx_t`. -/
inductive RedisField where
  | content | category | sessionId | key
  deriving DecidableEq

/-- The name of a field. -/
def RedisField.name : RedisField → Bytes
  | .content => ascii "content"
  | .category => ascii "category"
  | .sessionId => ascii "session_id"
  | .key => ascii "key"

/-- `redis_hgetall_ctx_t`: where the value of each field is, and its length. -/
abbrev RedisHgetallCtx := RedisField → Option (ℕ × ℤ)

/-- The field of a name, `flen == 7 && memcmp(fstart, "content", 7) == 0` and so on. -/
def redisField (reply : Bytes) (f : RedisString) : Option RedisField :=
  [RedisField.content, .category, .sessionId, .key].find? fun field =>
    f.len = field.name.length ∧ (reply.drop f.start).take field.name.length = field.name

/-- What a round stores. -/
def RedisHgetallCtx.put (out : RedisHgetallCtx) (reply : Bytes) (f v : RedisString) :
    RedisHgetallCtx :=
  match redisField reply f with
  | none => out
  | some field => Function.update out field (some (v.start, v.len))

/-- The rounds of `redis_parse_hgetall`. -/
def redisPairs (reply : Bytes) : ℕ → ℕ → RedisHgetallCtx → Option (Except ScError RedisHgetallCtx)
  | 0, _, out => some (.ok out)
  | rounds + 1, p, out =>
    if reply.length ≤ p then some (.ok out)
    else
      match redisString reply p with
      | none => none
      | some (.error e) => some (.error e)
      | some (.ok f) =>
        match redisString reply f.next with
        | none => none
        | some (.error e) => some (.error e)
        | some (.ok v) => redisPairs reply rounds v.next (out.put reply f v)

/-- `redis_parse_hgetall` -/
def redisParseHgetall (reply : Bytes) : Option (Except ScError RedisHgetallCtx) :=
  match reply with
  | [] => some (.error .parse)
  | b :: s =>
    if b ≠ ch '*' then some (.error .parse)
    else
      match strtolMem s with
      | none => none
      | some (n, k) =>
        if n ≤ 0 ∨ n.tmod 2 ≠ 0 then some (.error .parse)
        else redisPairs (b :: s) (n.tdiv 2).toNat (skipBreaks (b :: s) (1 + k)) fun _ => none

/-! ## Values -/

/-- The octets of a value. -/
def redisValue (reply : Bytes) (v : ℕ × ℤ) : Option Bytes :=
  if 0 ≤ v.2 then some ((reply.drop v.1).take v.2.toNat) else none

/-- The value of a field: that of the last pair with its name. -/
def valueOf (pairs : List (Bytes × Bytes)) (field : RedisField) : Option Bytes :=
  (pairs.reverse.find? (·.1 = field.name)).map (·.2)

/-- The parser yields exactly the values of the fields. -/
def YieldsValues (pairs : List (Bytes × Bytes)) : Prop :=
  ∃ out, redisParseHgetall (redisHash pairs) = some (.ok out) ∧
    ∀ field, (out field).bind (redisValue (redisHash pairs)) = valueOf pairs field

/-- A text that starts with the end of a line. -/
def StartsWithBreak (s : Bytes) : Prop := s.head?.any isBreak = true

instance (s : Bytes) : Decidable (StartsWithBreak s) := inferInstanceAs (Decidable (_ = true))

/-- Numbers of the framing that fit: the count is an `int`, the lengths are those of objects. -/
structure Framed (pairs : List (Bytes × Bytes)) : Prop where
  count : 2 * pairs.length < 2 ^ 31
  lengths : ∀ p ∈ pairs, p.1.length < 2 ^ 63 ∧ p.2.length < 2 ^ 63

/-! ## Reading what was framed -/

section Framed

variable {reply x post : Bytes} {p : ℕ}

theorem skipBreaks_of_drop {l : Bytes} (h : reply.drop p = l) :
    skipBreaks reply p = p + (l.takeWhile isBreak).length := by
  rw [skipBreaks, h]

/-- A printed number that something else follows. -/
theorem strtolMem_fmtNat {n : ℕ} (hn : n < 2 ^ 63) {b : UInt8} {r : Bytes}
    (hb : isDigit b = false) :
    strtolMem (fmtNat n ++ b :: r) = some ((n : ℤ), (fmtNat n).length) := by
  obtain ⟨hdigits, hne, -⟩ := fmtNat_integerText n
  have hrun := spanMem_run hdigits hb r
  have hvalue := natOfDigits_fmtNat n
  obtain ⟨d, ds, hds⟩ := List.exists_cons_of_ne_nil hne
  obtain ⟨hspace, hminus, hplus, -⟩ :=
    not_special_of_isDigit (hdigits d (by rw [hds]; exact List.mem_cons_self))
  rw [hds, List.cons_append] at hrun
  rw [hds] at hvalue
  have hclamp : clampLong false n = (n : ℤ) := by
    rw [clampLong, if_neg Bool.false_ne_true, longMax]
    omega
  rw [hds, List.cons_append, strtolMem, spanMem, hspace, if_neg Bool.false_ne_true]
  simp only [readSign, if_neg hminus, if_neg hplus, hrun, Option.map_some,
    if_neg (List.cons_ne_nil d ds), hvalue, hclamp, List.length_nil, Nat.zero_add]

theorem takeWhile_isBreak_of_not {s : Bytes} (h : ¬ StartsWithBreak s) :
    s.takeWhile isBreak = [] := by
  cases s with
  | nil => rfl
  | cons b s => exact List.takeWhile_cons_of_neg h

/-- A line ends, and no other one does. -/
theorem takeWhile_crlf {s : Bytes} (h : ¬ StartsWithBreak s) :
    (crlf ++ s).takeWhile isBreak = crlf := by
  have hbreaks : ∀ b ∈ crlf, isBreak b = true := by
    intro b hb
    rcases List.mem_pair.mp hb with rfl | rfl
    · rfl
    · rfl
  rw [List.takeWhile_append_of_pos hbreaks, takeWhile_isBreak_of_not h, List.append_nil]

theorem takeWhile_crlf_append (s : Bytes) :
    (crlf ++ s).takeWhile isBreak = crlf ++ s.takeWhile isBreak := rfl

theorem length_redisBulk (x : Bytes) :
    (redisBulk x).length = 1 + (fmtNat x.length).length + 2 + x.length + 2 := by
  simp only [redisBulk, crlf, List.length_append, List.length_cons, List.length_nil]
  omega

/-- A string that was framed is read, when it does not start with the end of a line and something
else follows. -/
theorem redisString_bulk (hdrop : reply.drop p = redisBulk x ++ post) (hx : ¬ StartsWithBreak x)
    (hpost : ¬ StartsWithBreak post) (hlen : x.length < 2 ^ 63) :
    ∃ start, redisString reply p = some (.ok ⟨start, x.length, p + (redisBulk x).length⟩) ∧
      (reply.drop start).take x.length = x := by
  have htail : ∀ k, reply.drop (p + k) = (redisBulk x ++ post).drop k := by
    intro k
    rw [← hdrop, List.drop_drop]
  have hfirst : reply[p]? = some (ch '$') := by
    have hget : (reply.drop p)[0]? = reply[p + 0]? := List.getElem?_drop
    rw [hdrop, Nat.add_zero] at hget
    exact hget.symm
  have hnumber : strtolMem (reply.drop (p + 1)) =
      some ((x.length : ℤ), (fmtNat x.length).length) := by
    rw [htail]
    have hrest : (redisBulk x ++ post).drop 1 =
        fmtNat x.length ++ 0x0d :: (0x0a :: (x ++ (crlf ++ post))) := by
      simp [redisBulk, crlf]
    rw [hrest, strtolMem_fmtNat hlen (by decide)]
  have hbehind : reply.drop (p + 1 + (fmtNat x.length).length) = crlf ++ (x ++ (crlf ++ post)) := by
    rw [Nat.add_assoc, htail]
    have hsplit : redisBulk x ++ post =
        (ch '$' :: fmtNat x.length) ++ (crlf ++ (x ++ (crlf ++ post))) := by
      simp [redisBulk]
    have hl : 1 + (fmtNat x.length).length = (ch '$' :: fmtNat x.length).length := by
      rw [List.length_cons, Nat.add_comm]
    rw [hsplit, hl, List.drop_left]
  have hread : redisString reply p =
      let start := skipBreaks reply (p + 1 + (fmtNat x.length).length)
      some (.ok ⟨start, x.length, skipBreaks reply (start + x.length)⟩) := by
    rw [redisString, hfirst]
    dsimp only
    rw [if_neg (not_not.mpr rfl), hnumber, Option.bind_some]
    dsimp only
    rw [if_neg (by omega), ← Nat.cast_add, Int.toNat_natCast]
  rw [hread, length_redisBulk]
  dsimp only
  rw [skipBreaks_of_drop hbehind]
  have htake := takeWhile_crlf hpost
  by_cases hempty : x = []
  · have hboth : (crlf ++ (x ++ (crlf ++ post))).takeWhile isBreak = crlf ++ crlf := by
      rw [hempty, List.nil_append, takeWhile_crlf_append, htake]
    have hend : reply.drop (p + 1 + (fmtNat x.length).length + 4) = post := by
      rw [← List.drop_drop, hbehind, hempty]
      rfl
    have hzero : x.length = 0 := by rw [hempty, List.length_nil]
    have hfour : (crlf ++ crlf).length = 4 := rfl
    refine ⟨p + 1 + (fmtNat x.length).length + 4, ?_, ?_⟩
    · have hnext : skipBreaks reply (p + 1 + (fmtNat x.length).length + 4 + x.length) =
          p + (1 + (fmtNat x.length).length + 2 + x.length + 2) := by
        rw [hzero, Nat.add_zero, ← hzero, skipBreaks_of_drop hend, takeWhile_isBreak_of_not hpost,
          List.length_nil]
        omega
      rw [hboth, hfour, hnext]
    · rw [hzero, List.take_zero, hempty]
  · have hone : (crlf ++ (x ++ (crlf ++ post))).takeWhile isBreak = crlf := by
      apply takeWhile_crlf
      obtain ⟨b, r, rfl⟩ := List.exists_cons_of_ne_nil hempty
      exact hx
    have htext : reply.drop (p + 1 + (fmtNat x.length).length + 2) = x ++ (crlf ++ post) := by
      rw [← List.drop_drop, hbehind]
      rfl
    have hend : reply.drop (p + 1 + (fmtNat x.length).length + 2 + x.length) = crlf ++ post := by
      rw [← List.drop_drop, htext, List.drop_left]
    have htwo : crlf.length = 2 := rfl
    refine ⟨p + 1 + (fmtNat x.length).length + 2, ?_, ?_⟩
    · have hnext : skipBreaks reply (p + 1 + (fmtNat x.length).length + 2 + x.length) =
          p + (1 + (fmtNat x.length).length + 2 + x.length + 2) := by
        rw [skipBreaks_of_drop hend, htake, htwo]
        omega
      rw [hone, htwo, hnext]
    · rw [htext, List.take_left]

end Framed

end SeaClaw.Memory
