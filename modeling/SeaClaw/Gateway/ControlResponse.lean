import SeaClaw.Gateway.ControlProtocol
import SeaClaw.Json.RoundTrip

/-!
# The response to a request

The response buffer has room for an escaped id of 212 octets, or 211 when the call
failed. Within that room the text is the one meant; past it the last octets land
outside the buffer, whichever way the id was escaped. The text is the JSON object with
the id of the request unless the id holds a control octet, which is copied as it is.
-/

namespace SeaClaw.Gateway

open Lib Json

/-! ## Escaping the id -/

/-- The id as the loops write it. -/
def escapeId (id : Bytes) : Bytes := id.flatMap escapeIdOctet

theorem length_escapeIdOctet (c : UInt8) :
    1 ≤ (escapeIdOctet c).length ∧ (escapeIdOctet c).length ≤ 2 := by
  unfold escapeIdOctet
  split_ifs <;> simp

theorem length_escapeId_le (id : Bytes) : (escapeId id).length ≤ 2 * id.length := by
  induction id with
  | nil => simp [escapeId]
  | cons c id ih =>
    have hc := length_escapeIdOctet c
    simp only [escapeId, List.flatMap_cons, List.length_append, List.length_cons] at ih ⊢
    omega

/-- `id_esc` has room for every octet of the id. -/
theorem escapeLoop_eq (cap : ℕ) (id out : Bytes) (h : out.length + 2 * id.length + 4 ≤ cap) :
    escapeLoop cap id out = out ++ escapeId id := by
  induction id generalizing out with
  | nil => simp [escapeLoop, escapeId]
  | cons c id ih =>
    have hc := length_escapeIdOctet c
    rw [List.length_cons] at h
    rw [escapeLoop, if_pos (by omega), ih _ (by rw [List.length_append]; omega)]
    simp [escapeId]

/-- The loop into the buffer writes the whole id if it is told there is room. -/
theorem writeId_prefix (id buf p : Bytes) (hp : p <+: buf)
    (hlt : p.length + (escapeId id).length + 4 ≤ buf.length) :
    ∃ buf', writeId id buf p.length = some (buf', (p ++ escapeId id).length) ∧
      p ++ escapeId id <+: buf' ∧ buf'.length = buf.length := by
  induction id generalizing buf p with
  | nil => exact ⟨buf, by simp [writeId, escapeId], by simpa [escapeId] using hp, rfl⟩
  | cons c id ih =>
    have hc := length_escapeIdOctet c
    have hesc : escapeId (c :: id) = escapeIdOctet c ++ escapeId id := by simp [escapeId]
    rw [hesc, List.length_append] at hlt
    obtain ⟨b, hb, hpre, hlen⟩ := poke_prefix (x := escapeIdOctet c) hp (by omega)
    obtain ⟨b', hb', hpre', hlen'⟩ := ih b (p ++ escapeIdOctet c) hpre
      (by rw [List.length_append]; omega)
    refine ⟨b', ?_, by simpa [hesc] using hpre', hlen'.trans hlen⟩
    rw [writeId, if_pos (by omega), hb]
    simpa [hesc] using hb'

/-- Past that the loop still keeps to the buffer, and leaves fewer than four octets of it. -/
theorem writeId_pos {id buf buf' : Bytes} {pos pos' : ℕ}
    (h : writeId id buf pos = some (buf', pos')) :
    buf'.length = buf.length ∧ (pos' = pos + (escapeId id).length ∨ buf.length ≤ pos' + 4) := by
  induction id generalizing buf pos with
  | nil =>
    rw [writeId] at h
    cases h
    exact ⟨rfl, Or.inl (by simp [escapeId])⟩
  | cons c id ih =>
    rw [writeId] at h
    split_ifs at h with hpos
    · cases hb : poke buf pos (escapeIdOctet c) with
      | none => simp [hb] at h
      | some b =>
        rw [hb] at h
        have hlen := poke_length hb
        obtain ⟨hl, hp⟩ := ih h
        refine ⟨hl.trans hlen, ?_⟩
        simp only [escapeId, List.flatMap_cons, List.length_append] at hp ⊢
        omega
    · cases h
      exact ⟨rfl, Or.inr (by omega)⟩

/-! ## The buffer of the response -/

/-- The response as it is meant. -/
def responseText (id payload : Bytes) (ok : Bool) : Bytes :=
  responseHead ++ escapeId id ++ [ch '"'] ++ responseMiddle ok ++ payload ++ [ch '}']

/-- The octets of the escaped id for which there is room. -/
def idRoom (ok : Bool) : ℕ := if ok then 212 else 211

theorem length_responseHead : responseHead.length = 20 := by decide

theorem length_responseMiddle (ok : Bool) : (responseMiddle ok).length = if ok then 21 else 22 := by
  cases ok <;> decide

theorem length_responseText (id payload : Bytes) (ok : Bool) :
    (responseText id payload ok).length =
      (escapeId id).length + payload.length + if ok then 43 else 44 := by
  have hmid := length_responseMiddle ok
  simp only [responseText, List.length_append, length_responseHead, hmid, List.length_singleton]
  cases ok <;> simp <;> omega

/-- Both ways of writing the id give the same text when there is room. -/
theorem placeId_prefix (escAlloc : Bool) (id buf p : Bytes) (hp : p <+: buf)
    (hlt : p.length + (escapeId id).length + 4 ≤ buf.length) :
    ∃ buf', placeId escAlloc id buf p.length =
        some (buf', (p ++ escapeId id ++ [ch '"']).length) ∧
      p ++ escapeId id ++ [ch '"'] <+: buf' ∧ buf'.length = buf.length := by
  cases escAlloc with
  | true =>
    have hloop := escapeLoop_eq (id.length * 2 + 16) id [] (by simp; omega)
    rw [List.nil_append] at hloop
    obtain ⟨b, hb, hpre, hlen⟩ := snprintf_prefix (x := escapeId id ++ [ch '"']) hp
      (by simp; omega)
    refine ⟨b, ?_, by simpa using hpre, hlen⟩
    simp only [placeId, ite_true, hloop, hb]
    simp
  | false =>
    obtain ⟨b, hb, hpre, hlen⟩ := writeId_prefix id buf p hp hlt
    obtain ⟨b', hb', hpre', hlen'⟩ := poke_prefix (x := [ch '"']) hpre (by simp; omega)
    refine ⟨b', ?_, hpre', hlen'.trans hlen⟩
    have hroom : (p ++ escapeId id).length < b.length := by
      rw [List.length_append]
      omega
    simp only [placeId, Bool.false_eq_true, ite_false, hb, Option.bind_eq_bind, Option.bind_some,
      hroom, ite_true, hb']
    have hone : (p ++ escapeId id ++ [ch '"']).length = (p ++ escapeId id).length + 1 :=
      List.length_append
    rw [hone]

/-- Both ways leave `pos` after the whole id or close to the end of the buffer. -/
theorem placeId_pos {escAlloc : Bool} {id buf buf' : Bytes} {pos pos' : ℕ}
    (h : placeId escAlloc id buf pos = some (buf', pos')) :
    buf'.length = buf.length ∧
      (pos' = pos + (escapeId id).length + 1 ∨ buf.length ≤ pos' + 4) := by
  unfold placeId at h
  split_ifs at h with he
  · have hloop := escapeLoop_eq (id.length * 2 + 16) id [] (by simp; omega)
    simp only [hloop, List.nil_append, Option.bind_eq_bind, Option.bind_eq_some_iff] at h
    obtain ⟨⟨b, n⟩, hb, heq⟩ := h
    obtain ⟨hlen, hn⟩ := snprintf_length hb
    cases heq
    refine ⟨hlen, Or.inl ?_⟩
    rw [hn, List.length_append, List.length_singleton]
    omega
  · simp only [Option.bind_eq_bind, Option.bind_eq_some_iff] at h
    obtain ⟨⟨b, n⟩, hb, heq⟩ := h
    obtain ⟨hlen, hn⟩ := writeId_pos hb
    simp only at heq
    split_ifs at heq with hroom
    · obtain ⟨b', hb', heq⟩ := Option.bind_eq_some_iff.mp heq
      have hlen' := poke_length hb'
      cases heq
      exact ⟨hlen'.trans hlen, by omega⟩
    · cases heq
      exact ⟨hlen, by omega⟩

/-- With room for the id, the text is the one meant. -/
theorem buildResponse_fits (escAlloc : Bool) (id payload : Bytes) (ok : Bool)
    (h : (escapeId id).length ≤ idRoom ok) :
    buildResponse escAlloc id payload ok = some (responseText id payload ok) := by
  have hhead := length_responseHead
  have hmid := length_responseMiddle ok
  have hroom : (escapeId id).length ≤ 212 ∧
      (escapeId id).length + (responseMiddle ok).length ≤ 233 := by
    unfold idRoom at h
    cases ok <;> simp at h hmid <;> omega
  have hcap : (List.replicate (256 + payload.length) (0 : UInt8)).length = 256 + payload.length :=
    List.length_replicate
  obtain ⟨b1, h1, hp1, hl1⟩ := snprintf_prefix (x := responseHead) (List.nil_prefix
    (l := List.replicate (256 + payload.length) (0 : UInt8))) (by rw [hcap]; simp [hhead]; omega)
  rw [List.nil_append] at hp1
  rw [hcap] at h1 hl1
  obtain ⟨b2, h2, hp2, hl2⟩ := placeId_prefix escAlloc id b1 responseHead hp1 (by omega)
  obtain ⟨b3, h3, hp3, hl3⟩ := snprintf_prefix (x := responseMiddle ok) hp2
    (by simp only [List.length_append, List.length_singleton]; omega)
  obtain ⟨b4, h4, hp4, hl4⟩ := poke_prefix (x := payload) hp3
    (by simp only [List.length_append, List.length_singleton]; omega)
  obtain ⟨b5, h5, hp5, hl5⟩ := poke_prefix (x := [ch '}']) hp4
    (by simp only [List.length_append, List.length_singleton]; omega)
  obtain ⟨b6, h6, hp6, hl6⟩ := poke_prefix (x := [0]) hp5
    (by simp only [List.length_append, List.length_singleton]; omega)
  rw [hl2, hl1] at h3
  simp only [List.length_append, List.length_singleton, List.length_nil, sizeSub_of_le,
    Nat.zero_le, Nat.sub_zero] at h1 h2 h3 h4 h5 h6
  have htake : b6.take (responseText id payload ok).length = responseText id payload ok := by
    refine (List.prefix_iff_eq_take.mp ?_).symm
    exact (List.prefix_append _ _).trans hp6
  rw [responseText] at htake ⊢
  simp only [List.length_append, List.length_singleton] at htake
  simp only [buildResponse, Option.bind_eq_bind, h1, h2, h3, h4, h5, h6, Option.bind_some, htake]

/-- Without, some write lies outside the buffer. -/
theorem buildResponse_overflows (escAlloc : Bool) (id payload : Bytes) (ok : Bool)
    (h : idRoom ok < (escapeId id).length) : buildResponse escAlloc id payload ok = none := by
  rw [Option.eq_none_iff_forall_not_mem]
  intro text htext
  have hbuild : buildResponse escAlloc id payload ok = some text := htext
  simp only [buildResponse, Option.bind_eq_bind, Option.bind_eq_some_iff] at hbuild
  obtain ⟨⟨b1, n1⟩, h1, ⟨b2, pos2⟩, h2, ⟨b3, n3⟩, h3, b4, h4, b5, h5, b6, h6, -⟩ := hbuild
  obtain ⟨hl1, hn1⟩ := snprintf_length h1
  obtain ⟨hl2, hp2⟩ := placeId_pos h2
  obtain ⟨hl3, hn3⟩ := snprintf_length h3
  have hl4 := poke_length h4
  have hl5 := poke_length h5
  have hend : b5.length < pos2 + n3 + payload.length + 1 + [(0 : UInt8)].length := by
    have hhead := length_responseHead
    have hmid := length_responseMiddle ok
    simp only [List.length_replicate] at hl1 hl2 hp2 hl3 hl4 hl5 hn1 hn3 ⊢
    simp only [List.length_singleton]
    unfold idRoom at h
    cases ok <;> simp at h hmid <;> omega
  rw [poke_eq_none hend] at h6
  exact absurd h6 (by simp)

/-- The other response function always has room. -/
theorem scControlSendResponse_eq (id : Bytes) (ok : Bool) (payload : Bytes) :
    scControlSendResponse id ok payload = some (responseText id payload ok) := by
  have hhead := length_responseHead
  have hmid : (responseMiddle ok).length ≤ 22 := by
    rw [length_responseMiddle]
    split_ifs <;> omega
  have hid := length_escapeId_le id
  have hcap : (List.replicate (96 + id.length * 2 + payload.length) (0 : UInt8)).length =
      96 + id.length * 2 + payload.length := List.length_replicate
  obtain ⟨b1, h1, hp1, hl1⟩ := snprintf_prefix (x := responseHead) (List.nil_prefix
    (l := List.replicate (96 + id.length * 2 + payload.length) (0 : UInt8)))
    (by rw [hcap]; simp [hhead]; omega)
  rw [List.nil_append] at hp1
  rw [hcap] at h1 hl1
  obtain ⟨b2, h2, hp2, hl2⟩ := writeId_prefix id b1 responseHead hp1 (by omega)
  obtain ⟨b3, h3, hp3, hl3⟩ := snprintf_prefix
    (x := [ch '"'] ++ responseMiddle ok ++ payload ++ [ch '}']) hp2
    (by simp only [List.length_append, List.length_singleton]; omega)
  rw [hl2, hl1] at h3
  have htake : b3.take (responseText id payload ok).length = responseText id payload ok := by
    refine (List.prefix_iff_eq_take.mp ?_).symm
    simpa [responseText] using hp3
  simp only [List.length_append, List.length_singleton, List.length_nil, sizeSub_of_le,
    Nat.zero_le, Nat.sub_zero] at h1 h2 h3
  have hlen : (responseText id payload ok).length = responseHead.length + (escapeId id).length +
      (1 + (responseMiddle ok).length + payload.length + 1) := by
    simp only [responseText, List.length_append, List.length_singleton]
    omega
  rw [hlen] at htake
  simp only [scControlSendResponse, Option.bind_eq_bind, h1, h2, h3, Option.bind_some, htake]

/-! ## Reading the response -/

theorem stringLoop_escapeIdOctet {c : UInt8} (hc : ¬ c < 0x20) (t : Bytes) (buf : StrBuf) :
    stringLoop (escapeIdOctet c ++ t) buf = stringLoop t (buf.push c) := by
  unfold escapeIdOctet
  split_ifs with h
  · rcases h with rfl | rfl <;> exact stringLoop_simple t buf (by decide)
  · rw [not_or] at h
    exact stringLoop_plain t buf h.1 h.2 hc

/-- An id without control octets is read back. -/
theorem stringLoop_escapeId {id : Bytes} (hid : ∀ b ∈ id, ¬ b < 0x20) (t : Bytes)
    (buf : StrBuf) :
    stringLoop (escapeId id ++ ch '"' :: t) buf = .closed (buf.bytes ++ id) t := by
  induction id generalizing buf with
  | nil => simp [escapeId]
  | cons c id ih =>
    rw [List.forall_mem_cons] at hid
    rw [escapeId, List.flatMap_cons, List.append_assoc, stringLoop_escapeIdOctet hid.1]
    simpa [escapeId] using ih hid.2 (buf.push c)

/-- A control octet of the id stands as it is in the literal, which is then none. -/
theorem stringLoop_escapeId_control {id : Bytes} (hid : ∃ b ∈ id, b < 0x20) (t : Bytes)
    (buf : StrBuf) : ∃ r, stringLoop (escapeId id ++ t) buf = .malformed r := by
  induction id generalizing buf with
  | nil => simp at hid
  | cons c id ih =>
    rw [escapeId, List.flatMap_cons, List.append_assoc]
    by_cases hc : c < 0x20
    · have hne : ¬ (c = ch '"' ∨ c = ch '\\') := by
        rintro (rfl | rfl) <;> exact absurd hc (by decide)
      rw [escapeIdOctet, if_neg hne]
      exact ⟨_, stringLoop_control _ buf hc⟩
    · rw [stringLoop_escapeIdOctet hc]
      refine ih ?_ (buf.push c)
      obtain ⟨b, hb, hlt⟩ := hid
      rcases List.mem_cons.mp hb with rfl | hb
      · exact absurd hlt hc
      · exact ⟨b, hb, hlt⟩

/-- The payload is the text of `v` inside an object. -/
def PayloadText (payload : Bytes) (v : Value) : Prop :=
  ∀ t, ReadsValue t 1 (payload ++ [ch '}']) v [ch '}']

/-- The object a client should find in a response. -/
def responseObject (id : Bytes) (ok : Bool) (v : Value) : Value :=
  .object [(ascii "type", .string (ascii "res")), (ascii "id", .string id),
    (ascii "ok", .bool ok), (ascii "payload", v)]

/-- The response text member by member. -/
theorem responseText_eq (id payload : Bytes) (ok : Bool) : responseText id payload ok =
    ch '{' :: (stringifyString (ascii "type") ++ ch ':' :: (stringifyString (ascii "res") ++
      ch ',' :: (stringifyString (ascii "id") ++ ch ':' :: ch '"' :: (escapeId id ++
        ch '"' :: ch ',' :: (stringifyString (ascii "ok") ++
          ch ':' :: (ascii (if ok then "true" else "false") ++
            ch ',' :: (stringifyString (ascii "payload") ++ ch ':' :: (payload ++ [ch '}'])))))))) := by
  have hhead : responseHead = ch '{' :: (stringifyString (ascii "type") ++
      ch ':' :: (stringifyString (ascii "res") ++ ch ',' :: (stringifyString (ascii "id") ++
        [ch ':', ch '"']))) := by decide
  have hok : ascii ",\"ok\":" = ch ',' :: (stringifyString (ascii "ok") ++ [ch ':']) := by decide
  have hpayload : ascii ",\"payload\":" =
      ch ',' :: (stringifyString (ascii "payload") ++ [ch ':']) := by decide
  rw [responseText, responseMiddle, hhead, hok, hpayload]
  simp

section Reading

variable (t : Bytes)

theorem reads_string (s rest : Bytes) {d : ℕ} :
    ReadsValue t d (stringifyString s ++ rest) (.string s) rest := by
  obtain ⟨u, hu, hl⟩ := stringLoop_key s rest
  rw [hu]
  exact .string rfl hl

/-- A member whose key is printed like a string, before another member. -/
theorem reads_member {d : ℕ} (key : Bytes) {s x rest : Bytes} {v : Value}
    {ms : List (Bytes × Value)} (hv : ReadsValue t d s v (ch ',' :: x)) (hms : ReadsMembers t d x ms rest) :
    ReadsMembers t d (stringifyString key ++ ch ':' :: s) ((key, v) :: ms) rest := by
  obtain ⟨u, hu, hk⟩ := stringLoop_key key (ch ':' :: s)
  rw [hu]
  exact .cons rfl hk rfl hv rfl hms

/-- A readable id is read back, and so are the members after it. -/
theorem reads_afterId {id payload : Bytes} (ok : Bool) {v : Value} (hid : ∀ b ∈ id, ¬ b < 0x20)
    (hp : PayloadText payload v) :
    ReadsMembers t 1 (stringifyString (ascii "id") ++ ch ':' :: ch '"' :: (escapeId id ++
        ch '"' :: ch ',' :: (stringifyString (ascii "ok") ++
          ch ':' :: (ascii (if ok then "true" else "false") ++
            ch ',' :: (stringifyString (ascii "payload") ++ ch ':' :: (payload ++ [ch '}']))))))
      [(ascii "id", .string id), (ascii "ok", .bool ok), (ascii "payload", v)] [] := by
  have hpayload : ReadsMembers t 1 (stringifyString (ascii "payload") ++
      ch ':' :: (payload ++ [ch '}'])) [(ascii "payload", v)] [] := by
    obtain ⟨u, hu, hk⟩ := stringLoop_key (ascii "payload") (ch ':' :: (payload ++ [ch '}']))
    rw [hu]
    exact .last rfl hk rfl (hp t) rfl
  have hok : ∀ x, ReadsValue t 1 (ascii (if ok then "true" else "false") ++ x) (.bool ok) x := by
    intro x
    cases ok with
    | true => exact .true rfl
    | false => exact .false rfl
  have hstr : ∀ x, ReadsValue t 1 (ch '"' :: (escapeId id ++ ch '"' :: x)) (.string id) x := by
    intro x
    refine .string rfl ?_
    simpa using stringLoop_escapeId hid x StrBuf.empty
  exact reads_member t _ (hstr _) (reads_member t _ (hok _) hpayload)

/-- An object that is printed without white space. -/
theorem reads_braced {d : ℕ} {u rest : Bytes} {ms : List (Bytes × Value)} (hd : d < jsonMaxDepth)
    (hu : dropWs u = u) (hne : u.head? ≠ some (ch '}')) (hm : ReadsMembers t (d + 1) u ms rest) :
    ReadsValue t d (ch '{' :: u) (.object (storePairs [] ms)) rest :=
  .object (u := u) (dropWs_cons (by decide) u) hd (by rwa [hu]) (by rwa [hu])

/-- With a readable id the response is the object meant. -/
theorem reads_responseText {id payload : Bytes} (ok : Bool) {v : Value}
    (hid : ∀ b ∈ id, ¬ b < 0x20) (hp : PayloadText payload v) :
    ReadsValue t 0 (responseText id payload ok) (responseObject id ok v) [] := by
  rw [responseText_eq]
  have hmembers := reads_member t (ascii "type") (reads_string t (ascii "res") _)
    (reads_afterId t ok hid hp)
  have hread := reads_braced t (d := 0) (by decide) (dropWs_cons (by decide) _) (by
    simp [stringifyString, ch]) hmembers
  rwa [storePairs_nodup _ _ (by simp [ascii, ch])] at hread

end Reading

/-- A value that is a malformed string spoils the object around it. -/
theorem objectLoop_badString {key s r t : Bytes} {d fuel : ℕ} {pairs : List (Bytes × Value)}
    (hl : stringLoop s StrBuf.empty = .malformed r) :
    objectLoop (fuel + 2) ⟨stringifyString key ++ ch ':' :: ch '"' :: s, t, 0, d⟩ pairs =
      .err .jsonParse ⟨r, t, 0, d⟩ := by
  obtain ⟨u, hu, hk⟩ := stringLoop_key key (ch ':' :: ch '"' :: s)
  rw [hu, objectLoop_key t 0 d (fuel + 1) (dropWs_cons (by decide) u) hk
    (dropWs_cons (by decide) _), parseValue_string t 0 d fuel (dropWs_cons (by decide) s),
    parseString, parseStringRaw_mk, hl]

/-- With a control octet in the id the response is no JSON text. -/
theorem scJsonParse_responseText_control {id : Bytes} (hid : ∃ b ∈ id, b < 0x20)
    (payload t : Bytes) (ok : Bool) :
    ∃ c, scJsonParse (responseText id payload ok) t = .err .jsonParse c := by
  rw [responseText_eq]
  generalize hw : ch ',' :: (stringifyString (ascii "ok") ++
    ch ':' :: (ascii (if ok then "true" else "false") ++
      ch ',' :: (stringifyString (ascii "payload") ++ ch ':' :: (payload ++ [ch '}'])))) = w
  obtain ⟨r, hr⟩ := stringLoop_escapeId_control hid (ch '"' :: w) StrBuf.empty
  generalize hx : stringifyString (ascii "id") ++ ch ':' :: ch '"' :: (escapeId id ++ ch '"' :: w) = x
  obtain ⟨u, hu, hk⟩ := stringLoop_key (ascii "type")
    (ch ':' :: (stringifyString (ascii "res") ++ ch ',' :: x))
  have hlen := stringLoop_length hk
  obtain ⟨fuel, hfuel⟩ : ∃ fuel, fuelFor (ch '{' :: ch '"' :: u) = fuel + 5 := by
    exact ⟨3 * u.length + 4, by simp only [fuelFor, List.length_cons]; omega⟩
  rw [hu, scJsonParse, hfuel, parseValue_object t 0 0 _ (dropWs_cons (by decide) _),
    parseObject_mk, if_neg (by decide), dropWs_cons (by decide), List.headD_cons,
    if_neg (by decide), objectLoop_key t 0 1 (fuel + 2) (dropWs_cons (by decide) u) hk
    (dropWs_cons (by decide) _), (reads_string t (ascii "res") (ch ',' :: x)).parse (fuel + 2) ?_]
  · rw [← hx]
    simp only [peek_mk, dropWs_cons (show isWs (ch ',') = false by decide), List.headD_cons,
      ite_true, advance_peeked (dropWs_cons (show isWs (ch ',') = false by decide) _)]
    exact ⟨_, objectLoop_badString hr⟩
  · simp only [fuelFor, List.length_cons] at hfuel hlen
    omega

/-! ## Requests -/

/-- The request in `data` gets as far as its handler. -/
structure Dispatched (p : ControlProtocol) (authenticated : Bool) (now : UInt64)
    (data beyond : Bytes) (members : List (Bytes × Value)) (id method : Bytes) : Prop where
  budget : ¬ (countCall p now).rpcCount > 60
  parsed : ∃ c, scJsonParse data beyond = .ok (.object members) c
  isRequest : scJsonGetString (.object members) (ascii "type") = some (ascii "req")
  hasId : scJsonObjectGet (.object members) (ascii "id") = some (.string id)
  hasMethod : scJsonGetString (.object members) (ascii "method") = some method
  authorized : ¬ (p.requirePairing ∧ ¬ authenticated ∧ ¬ isPublicMethod method ∧
    method ≠ ascii "auth.token")

/-- The reply stays inside its buffer and is the response object for the id. -/
def WellFormedReply (id : Bytes) (ok : Bool) (v : Value) (r : Reply) : Prop :=
  ∃ text, r = .sent text ∧
    ∀ t, scJsonParse text (0 :: t) = .ok (responseObject id ok v) ⟨[], 0 :: t, 0, 0⟩

theorem countCall_requirePairing (p : ControlProtocol) (now : UInt64) :
    (countCall p now).requirePairing = p.requirePairing := by
  simp only [countCall]
  split_ifs <;> rfl

/-- A dispatched request is answered with the id up to its first NUL. -/
theorem scControlOnMessage_dispatched {table : List (Bytes × Handler)} {p : ControlProtocol}
    {authenticated : Bool} (escAlloc : Bool) {now : UInt64} {data beyond : Bytes}
    {members : List (Bytes × Value)} {id method : Bytes}
    (h : Dispatched p authenticated now data beyond members id method) :
    (scControlOnMessage table p authenticated escAlloc now data beyond).2 =
      Reply.ofText (buildResponse escAlloc (cString id)
        (responsePayload (buildMethodResponse table method (.object members)))
        (succeeded (buildMethodResponse table method (.object members)))) := by
  obtain ⟨c, hparse⟩ := h.parsed
  have hid : scJsonGetString (.object members) (ascii "id") = some (cString id) := by
    simp only [scJsonGetString, h.hasId]
  have hauth := h.authorized
  rw [← countCall_requirePairing p now] at hauth
  simp only [scControlOnMessage, h.budget, ite_false, hparse, h.isRequest, ite_true, hid, h.hasMethod,
    answer, hauth]

theorem cString_eq_self {s : Bytes} (h : ∀ b ∈ s, b ≠ 0) : cString s = s := by
  rw [cString, List.takeWhile_eq_self_iff]
  simpa using h

/-- The reply to a dispatched request is well formed exactly when the escaped id fits and
the id has no control octet. -/
theorem scControlOnMessage_wellFormed_iff (table : List (Bytes × Handler)) {p : ControlProtocol}
    {authenticated : Bool} (escAlloc : Bool) {now : UInt64} {data beyond : Bytes}
    {members : List (Bytes × Value)} {id method : Bytes} {v : Value}
    (h : Dispatched p authenticated now data beyond members id method)
    (hp : PayloadText
      (responsePayload (buildMethodResponse table method (.object members))) v) :
    WellFormedReply id (succeeded (buildMethodResponse table method (.object members))) v
        (scControlOnMessage table p authenticated escAlloc now data beyond).2 ↔
      (escapeId id).length ≤ idRoom
          (succeeded (buildMethodResponse table method (.object members))) ∧
        ∀ b ∈ id, ¬ b < 0x20 := by
  rw [scControlOnMessage_dispatched escAlloc h]
  generalize buildMethodResponse table method (.object members) = r at hp ⊢
  constructor
  · rintro ⟨text, htext, hparse⟩
    by_cases hroom : (escapeId (cString id)).length ≤ idRoom (succeeded r)
    · rw [buildResponse_fits escAlloc _ _ _ hroom] at htext
      cases htext
      by_cases hctl : ∃ b ∈ cString id, b < 0x20
      · obtain ⟨c, hc⟩ := scJsonParse_responseText_control hctl (responsePayload r) [0] (succeeded r)
        rw [hparse []] at hc
        cases hc
      · have hplain : ∀ b ∈ cString id, ¬ b < 0x20 := by
          intro b hb hlt
          exact hctl ⟨b, hb, hlt⟩
        have hok := (reads_responseText [0] (succeeded r) hplain hp).parse _ le_rfl
        have hsame := (hparse []).symm.trans hok
        have hid : id = cString id := by
          simpa [responseObject] using hsame
        rw [← hid] at hroom hplain
        exact ⟨hroom, hplain⟩
    · rw [buildResponse_overflows escAlloc _ _ _ (by omega)] at htext
      cases htext
  · rintro ⟨hroom, hplain⟩
    have hid : cString id = id := cString_eq_self fun b hb h0 => hplain b hb (by rw [h0]; decide)
    rw [hid, buildResponse_fits escAlloc _ _ _ hroom]
    exact ⟨_, rfl, fun t => (reads_responseText (0 :: t) _ hplain hp).parse _ le_rfl⟩

/-- A request for the method `health` on a server without pairing. -/
def healthMembers (id : Bytes) : List (Bytes × Value) :=
  [(ascii "type", .string (ascii "req")), (ascii "id", .string id),
    (ascii "method", .string (ascii "health"))]

theorem dispatched_health (id : Bytes) :
    Dispatched ⟨false, 0, 0⟩ false 0 (scJsonStringify (.object (healthMembers id))) [0]
      (healthMembers id) id (ascii "health") where
  budget := by decide
  parsed := by
    refine ⟨_, scJsonParse_of_follows ?_ ?_ (follows_cons (by decide) [])⟩
    · exact ⟨by simp [healthMembers, ascii, ch], trivial, trivial, trivial, trivial⟩
    · simp [healthMembers, Value.depth, pairsDepth, jsonMaxDepth]
  isRequest := rfl
  hasId := rfl
  hasMethod := rfl
  authorized := by simp

theorem payloadText_empty : PayloadText (ascii "\x7b\x7d") (.object []) :=
  fun _ => .emptyObject rfl (by decide) rfl

/-- The request with id `7`, answered by a handler without payload. -/
theorem scControlOnMessage_health : WellFormedReply (ascii "7") true (.object [])
    (scControlOnMessage [(ascii "health", fun _ => .ok none)] ⟨false, 0, 0⟩ false true 0
      (scJsonStringify (.object (healthMembers (ascii "7")))) [0]).2 :=
  (scControlOnMessage_wellFormed_iff [(ascii "health", fun _ => .ok none)] true
    (dispatched_health (ascii "7")) payloadText_empty).mpr ⟨by decide +kernel, by decide +kernel⟩

/-- The same request with an id of three hundred letters is written past the buffer. -/
theorem scControlOnMessage_longId :
    (scControlOnMessage [(ascii "health", fun _ => .ok none)] ⟨false, 0, 0⟩ false true 0
      (scJsonStringify (.object (healthMembers (List.replicate 300 (ch 'a'))))) [0]).2 =
        .corrupt := by
  rw [scControlOnMessage_dispatched true (dispatched_health _)]
  have hlong : idRoom true < (escapeId (cString (List.replicate 300 (ch 'a')))).length := by
    decide +kernel
  exact congrArg Reply.ofText (buildResponse_overflows true _ (ascii "\x7b\x7d") true hlong)

end SeaClaw.Gateway
