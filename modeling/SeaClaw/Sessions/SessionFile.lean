import SeaClaw.Json.Documents
import SeaClaw.Lib.Binary64
import SeaClaw.Sessions.Messages

/-!
# The file of the sessions

`sc_session_save` and `sc_session_load` of `session.c`. The file is written by hand, octet by octet,
and read by the JSON parser; the sessions are created and filled again by the calls that made them.
What is asked of the file system succeeds, and there is memory.
-/

namespace SeaClaw.Sessions

open SeaClaw.Lib SeaClaw.Json

/-! ## Writing -/

/-- `json_esc`, for one octet. -/
def jsonEsc (b : UInt8) : Bytes :=
  if b = ch '"' then ascii "\\\""
  else if b = ch '\\' then ascii "\\\\"
  else if b = 0x0A then ascii "\\n"
  else if b = 0x0D then ascii "\\r"
  else if b = 0x09 then ascii "\\t"
  else if b < 0x20 then ascii "\\u" ++ fmtHex4 b
  else [b]

/-- A text between quotes. -/
def escaped (s : CString) : Bytes := ch '"' :: (s.octets.flatMap jsonEsc ++ [ch '"'])

/-- A message in the file. -/
def messageText (m : SessionMessage) : Bytes :=
  ascii "\x7b\"role\":" ++ escaped m.role ++ ascii ",\"content\":" ++ escaped m.content ++
    ascii "\x7d"

/-- A session in the file. -/
def sessionText (s : Session) : Bytes :=
  ascii "\x7b\"key\":" ++ escaped s.sessionKey ++ ascii ",\"label\":" ++ escaped s.label ++
    ascii ",\"created_at\":" ++ fmtInt s.createdAt ++ ascii ",\"last_active\":" ++
    fmtInt s.lastActive ++ ascii ",\"turn_count\":" ++ fmtNat s.turnCount ++
    ascii ",\"messages\":[" ++ commaList (s.messages.map messageText) ++ ascii "]\x7d"

/-- The entries in the order of the two loops. -/
def SessionManager.entries (mgr : SessionManager) : List SessionEntry :=
  (List.range sessionMapCap).flatMap mgr.buckets

/-- The sessions in the order of the file. -/
def SessionManager.listed (mgr : SessionManager) : List Session :=
  mgr.entries.map fun e => mgr.sessions e.session

/-- `sc_session_save`: what is in the file. -/
def scSessionSave (mgr : SessionManager) : Bytes :=
  ascii "[" ++ commaList (mgr.listed.map fun s => ascii "\n" ++ sessionText s) ++ ascii "\n]\n"

/-! ## Reading -/

/-- `sc_session_append_message` with memory there. No result stands for a slot outside of the
block. -/
def appendMessage (s : Session) (role content : CString) (now : ℤ) : Option Session :=
  let cap := if s.messages.length ≥ s.messageCap then newCap s.messageCap else s.messageCap
  if s.messages.length < cap then
    some { s with
      messages := s.messages ++
        [⟨cut role (sessionMsgRoleLen - 1), cut content (sessionMsgContentCap - 1)⟩]
      messageCap := cap
      lastActive := now
      turnCount := (s.turnCount + 1) % 2 ^ 64 }
  else none

/-- `sc_json_get_number` -/
def scJsonGetNumber (v : Value) (key : Bytes) (defaultVal : Binary64) : Binary64 :=
  match scJsonObjectGet v key with
  | some (.number x) => x
  | _ => defaultVal

/-- A double as an integer from `lo` to `hi`, without its fraction. The conversion of any other
number is not defined. -/
def truncated (lo hi : ℤ) : Binary64 → Option ℤ
  | .finite neg mag _ =>
    let i := if neg then -⌊mag⌋ else ⌊mag⌋
    if lo ≤ i ∧ i ≤ hi then some i else none
  | _ => none

theorem zero_lt_two_pow_53 : (0 : ℤ).natAbs < 2 ^ 53 := by decide

/-- The zero that stands for a number that is missing. -/
def zeroNumber : Binary64 := .ofInt 0 zero_lt_two_pow_53

/-- One round of the inner loop of `sc_session_load`. -/
def loadMessage (s : Session) (msg : Value × ℤ) : Option Session :=
  match scJsonGetString msg.1 (ascii "role"), scJsonGetString msg.1 (ascii "content") with
  | some role, some content => appendMessage s (.ofBytes role) (.ofBytes content) msg.2
  | _, _ => some s

/-- The fields of a session that are read before its messages. -/
def loadFields (item : Value) (s : Session) : Option Session :=
  let label := match scJsonGetString item (ascii "label") with
    | some label => cut (.ofBytes label) (sessionLabelLen - 1)
    | none => s.label
  (truncated (-2 ^ 63) (2 ^ 63 - 1) (scJsonGetNumber item (ascii "created_at") zeroNumber)).bind
    fun createdAt =>
  (truncated (-2 ^ 63) (2 ^ 63 - 1) (scJsonGetNumber item (ascii "last_active") zeroNumber)).bind
    fun lastActive =>
  (truncated 0 (2 ^ 64 - 1) (scJsonGetNumber item (ascii "turn_count") zeroNumber)).map
    fun turnCount =>
  { s with
    label := label
    createdAt := createdAt
    lastActive := lastActive
    turnCount := turnCount.toNat }

/-- The messages of an item, each with the reading of the clock at its round. -/
def itemMessages (now : ℕ → ℤ) (item : Value) : List (Value × ℤ) :=
  match scJsonObjectGet item (ascii "messages") with
  | some (.array msgs) => msgs.zipIdx.map fun p => (p.1, now (p.2 + 1))
  | _ => []

/-- One round of the outer loop of `sc_session_load`, at the readings of the clock. -/
def loadSession (now : ℕ → ℤ) (mgr : SessionManager) (item : Value) : Option SessionManager :=
  match scJsonGetString item (ascii "key") with
  | none => some mgr
  | some key =>
    if key = [] then some mgr
    else match scSessionGetOrCreate mgr (.ofBytes key) (now 0) ⟨true, true⟩ with
      | (none, mgr) => some mgr
      | (some a, mgr) =>
        ((loadFields item (mgr.sessions a)).bind fun s =>
          (itemMessages now item).foldlM loadMessage s).map fun s => mgr.change a fun _ => s

/-- The outer loop. -/
def loadSessions (now : ℕ → ℕ → ℤ) : ℕ → List Value → SessionManager → Option SessionManager
  | _, [], mgr => some mgr
  | i, item :: items, mgr => (loadSession (now i) mgr item).bind (loadSessions now (i + 1) items)

/-- The longest file that is read. -/
def sessionFileMax : ℕ := 10 * 1024 * 1024

/-- `sc_session_load`; `none` is what the C code does not define. -/
def scSessionLoad (now : ℕ → ℕ → ℤ) (file : Bytes) (mgr : SessionManager) :
    Option (Except ScError Unit × SessionManager) :=
  if file.length ≤ 2 ∨ file.length > sessionFileMax then some (.ok (), mgr)
  else
    match scJsonParse file [0] with
    | .ok (.array items) _ => (loadSessions now 0 items mgr).map fun mgr => (.ok (), mgr)
    | .ok _ _ => some (.ok (), mgr)
    | .err _ _ => some (.error .parse, mgr)
    | .overread _ => none
    | .outOfFuel => none

/-! ## What the file spells -/

theorem stringLoop_jsonEsc (c : UInt8) (t : Bytes) (buf : StrBuf) :
    stringLoop (jsonEsc c ++ t) buf = stringLoop t (buf.push c) := by
  unfold jsonEsc
  split_ifs with hquote hback hnewline hreturn htab hlow
  · exact hquote ▸ stringLoop_simple t buf (by decide)
  · exact hback ▸ stringLoop_simple t buf (by decide)
  · exact hnewline ▸ stringLoop_simple t buf (by decide)
  · exact hreturn ▸ stringLoop_simple t buf (by decide)
  · exact htab ▸ stringLoop_simple t buf (by decide)
  · have hlt : c.toNat < 0x20 := hlow
    have hpush : buf.pushEscape c.toNat = buf.push c := by
      simp [StrBuf.pushEscape, show c.toNat < 0x80 by omega]
    rw [← hpush]
    exact stringLoop_unicode t buf (codeUnit_fmtHex4 c) (by omega)
  · exact stringLoop_plain t buf hquote hback hlow

theorem spells_escaped {d : ℕ} (s : CString) : Spells d (escaped s) (.string s.octets) :=
  spells_quoted stringLoop_jsonEsc s.octets

/-- The value of a message. -/
def messageValue (m : SessionMessage) : Value :=
  .object [(ascii "role", .string m.role.octets), (ascii "content", .string m.content.octets)]

/-- The value of a session. -/
def sessionValue (s : Session) : Value :=
  .object [(ascii "key", .string s.sessionKey.octets), (ascii "label", .string s.label.octets),
    (ascii "created_at", .number (nearestDouble s.createdAt)),
    (ascii "last_active", .number (nearestDouble s.lastActive)),
    (ascii "turn_count", .number (nearestDouble s.turnCount)),
    (ascii "messages", .array (s.messages.map messageValue))]

theorem sessionKeys_nodup : [ascii "key", ascii "label", ascii "created_at", ascii "last_active",
    ascii "turn_count", ascii "messages"].Nodup := by decide

/-- What the fields of a session have room for. -/
structure Session.Fits (s : Session) : Prop where
  createdAt : -2 ^ 63 ≤ s.createdAt ∧ s.createdAt < 2 ^ 63
  lastActive : -2 ^ 63 ≤ s.lastActive ∧ s.lastActive < 2 ^ 63
  turnCount : s.turnCount < 2 ^ 64
  sessionKey : s.sessionKey.octets.length < sessionKeyLen
  label : s.label.octets.length < sessionLabelLen
  messages : s.messages.length ≤ sessionMsgCap
  message : ∀ m ∈ s.messages, m.role.octets.length < sessionMsgRoleLen ∧
    m.content.octets.length < sessionMsgContentCap

theorem spells_messageText {d : ℕ} (hd : d < jsonMaxDepth) (m : SessionMessage) :
    Spells d (messageText m) (messageValue m) := by
  have htext : messageText m = ch '{' :: (commaList
      ([(ascii "role", escaped m.role), (ascii "content", escaped m.content)].map memberText) ++
        [ch '}']) := by
    simp [messageText, commaList, memberText, stringifyString, escapeOctet, ascii, ch]
  rw [htext]
  exact Spells.object hd (.cons ⟨rfl, spells_escaped _⟩ (.cons ⟨rfl, spells_escaped _⟩ .nil))
    (by simp [ascii, ch])

theorem spells_sessionText {d : ℕ} (hd : d + 2 < jsonMaxDepth) {s : Session}
    (hs : s.Fits) : Spells d (sessionText s) (sessionValue s) := by
  have hmessages : Spells (d + 1) (ch '[' :: (commaList (s.messages.map messageText) ++ [ch ']']))
      (.array (s.messages.map messageValue)) := by
    refine Spells.array (by omega) ?_
    rw [List.forall₂_map_left_iff, List.forall₂_map_right_iff, List.forall₂_same]
    exact fun m _ => spells_messageText hd m
  have hcreated := hs.createdAt
  have hactive := hs.lastActive
  have hturns : fmtInt (s.turnCount : ℤ) = fmtNat s.turnCount := by
    rw [fmtInt, if_neg (by omega), Int.natAbs_natCast, List.nil_append]
  have hcount : Spells (d + 1) (fmtNat s.turnCount) (.number (nearestDouble s.turnCount)) := by
    rw [← hturns]
    exact spells_nearestDouble (by rw [Int.natAbs_natCast]; exact hs.turnCount)
  have htext : sessionText s = ch '{' :: (commaList
      ([(ascii "key", escaped s.sessionKey), (ascii "label", escaped s.label),
        (ascii "created_at", fmtInt s.createdAt), (ascii "last_active", fmtInt s.lastActive),
        (ascii "turn_count", fmtNat s.turnCount),
        (ascii "messages", ch '[' :: (commaList (s.messages.map messageText) ++ [ch ']']))].map
          memberText) ++ [ch '}']) := by
    simp [sessionText, commaList, memberText, stringifyString, escapeOctet, ascii, ch]
  rw [htext]
  refine Spells.object (by omega) ?_ sessionKeys_nodup
  exact .cons ⟨rfl, spells_escaped _⟩ (.cons ⟨rfl, spells_escaped _⟩
    (.cons ⟨rfl, spells_nearestDouble (by omega)⟩ (.cons ⟨rfl, spells_nearestDouble (by omega)⟩
      (.cons ⟨rfl, hcount⟩ (.cons ⟨rfl, hmessages⟩ .nil)))))

theorem isWs_newline : ∀ c ∈ ascii "\n", isWs c = true := by
  intro c hc
  obtain rfl : c = 0x0A := List.mem_singleton.mp hc
  rfl

/-- The file spells the sessions. -/
theorem scJsonParse_scSessionSave {mgr : SessionManager} (h : ∀ s ∈ mgr.listed, s.Fits)
    (t : Bytes) : ∃ c, scJsonParse (scSessionSave mgr) (0 :: t) =
      .ok (.array (mgr.listed.map sessionValue)) c := by
  have hspells : Spells 0 (ch '[' :: (commaList ((mgr.listed.map sessionText).map
      fun x => ascii "\n" ++ x) ++ (ascii "\n" ++ [ch ']'])))
        (.array (mgr.listed.map sessionValue)) := by
    refine Spells.whiteArray isWs_newline isWs_newline (by decide) ?_
    rw [List.forall₂_map_left_iff, List.forall₂_map_right_iff, List.forall₂_same]
    exact fun s hs => spells_sessionText (by decide) (h s hs)
  have htext : scSessionSave mgr = (ch '[' :: (commaList ((mgr.listed.map sessionText).map
      fun x => ascii "\n" ++ x) ++ (ascii "\n" ++ [ch ']']))) ++ [0x0A] := by
    rw [scSessionSave, List.map_map]
    simp only [List.append_assoc, List.cons_append]
    rfl
  have hread := hspells.reads (0 :: t) [0x0A] (follows_cons (by decide) _)
  rw [htext]
  exact ⟨_, hread.parse _ (by rw [fuelFor])⟩

/-! ## What is read of what was written -/

/-- What a session is for its users, but for the time of its last use. -/
structure SessionFacts where
  label : CString
  createdAt : ℤ
  turnCount : ℕ
  messages : List SessionMessage
  deriving DecidableEq

def Session.facts (s : Session) : SessionFacts := ⟨s.label, s.createdAt, s.turnCount, s.messages⟩

/-- What is known for a key. -/
def SessionManager.factsAt (mgr : SessionManager) (key : CString) : Option SessionFacts :=
  (findSession mgr key).map fun a => (mgr.sessions a).facts

/-- An integer that is written, read as a double and converted back. -/
def throughDouble (lo hi i : ℤ) : Option ℤ := truncated lo hi (nearestDouble i)

/-- What becomes of a session that is written and read: the messages are counted once more. -/
def Session.readBack (s : Session) : Option SessionFacts :=
  (throughDouble (-2 ^ 63) (2 ^ 63 - 1) s.createdAt).bind fun createdAt =>
  (throughDouble (-2 ^ 63) (2 ^ 63 - 1) s.lastActive).bind fun _ =>
  (throughDouble 0 (2 ^ 64 - 1) s.turnCount).map fun turnCount =>
  ⟨s.label, createdAt, (turnCount.toNat + s.messages.length) % 2 ^ 64, s.messages⟩

/-- The messages of the session are in its block. -/
def Session.InBlock (s : Session) : Prop := s.messages.length ≤ s.messageCap

/-- The session found for a key has an address that was given away. -/
def SessionManager.Named (mgr : SessionManager) : Prop :=
  ∀ key a, findSession mgr key = some a → a < mgr.next

theorem scJsonGetString_text {v : Value} {key : Bytes} {s : CString}
    (h : scJsonObjectGet v key = some (.string s.octets)) :
    scJsonGetString v key = some s.octets := by
  rw [scJsonGetString, h]
  exact congrArg some (CString.octets_ofBytes.mpr s.noNul)

theorem ofBytes_text (s : CString) : CString.ofBytes s.octets = s :=
  CString.ext (CString.octets_ofBytes.mpr s.noNul)

/-- Below the limit there is a slot for the next message. -/
theorem appendMessage_room {s : Session} (hblock : s.InBlock)
    (hroom : s.messages.length < sessionMsgCap) {m : SessionMessage}
    (hrole : m.role.octets.length < sessionMsgRoleLen)
    (hcontent : m.content.octets.length < sessionMsgContentCap) (now : ℤ) :
    ∃ s', appendMessage s m.role m.content now = some s' ∧ s'.InBlock ∧
      s'.facts = ⟨s.label, s.createdAt, (s.turnCount + 1) % 2 ^ 64, s.messages ++ [m]⟩ := by
  have hslot : s.messages.length <
      if s.messages.length ≥ s.messageCap then newCap s.messageCap else s.messageCap := by
    rw [Session.InBlock] at hblock
    split_ifs with hfull
    · rw [newCap]
      split_ifs with hcap
      · omega
      · rw [not_not.mp hcap] at hblock
        simp only [sessionMsgCap] at hroom ⊢
        omega
    · omega
  refine ⟨_, if_pos hslot, ?_, ?_⟩
  · simp only [Session.InBlock, List.length_append, List.length_singleton]
    omega
  · rw [cut_eq_self m.role (by omega), cut_eq_self m.content (by omega)]
    rfl

theorem loadMessage_messageValue (s : Session) (m : SessionMessage) (now : ℤ) :
    loadMessage s (messageValue m, now) = appendMessage s m.role m.content now := by
  have hrole : scJsonGetString (messageValue m) (ascii "role") = some m.role.octets :=
    scJsonGetString_text rfl
  have hcontent : scJsonGetString (messageValue m) (ascii "content") = some m.content.octets :=
    scJsonGetString_text rfl
  simp only [loadMessage, hrole, hcontent, ofBytes_text]

/-- The messages go behind those that are there, and each of them is counted. -/
theorem foldlM_loadMessage (ms : List SessionMessage) (now : ℕ → ℤ) : ∀ (i : ℕ) (s : Session),
    s.InBlock → s.messages.length + ms.length ≤ sessionMsgCap → s.turnCount < 2 ^ 64 →
    (∀ m ∈ ms, m.role.octets.length < sessionMsgRoleLen ∧
      m.content.octets.length < sessionMsgContentCap) →
    ∃ s', (((ms.map messageValue).zipIdx i).map fun p => (p.1, now (p.2 + 1))).foldlM
        loadMessage s = some s' ∧
      s'.facts = ⟨s.label, s.createdAt, (s.turnCount + ms.length) % 2 ^ 64, s.messages ++ ms⟩ := by
  induction ms with
  | nil =>
    intro i s _ _ hturns _
    refine ⟨s, rfl, ?_⟩
    rw [List.length_nil, Nat.add_zero, Nat.mod_eq_of_lt hturns, List.append_nil]
    rfl
  | cons m ms ih =>
    intro i s hblock hroom hturns hfits
    rw [List.length_cons] at hroom
    obtain ⟨hrole, hcontent⟩ := hfits m List.mem_cons_self
    obtain ⟨t, ht, htblock, htfacts⟩ :=
      appendMessage_room hblock (by omega) hrole hcontent (now (i + 1))
    simp only [Session.facts, SessionFacts.mk.injEq] at htfacts
    obtain ⟨hlabel, hcreated, hcount, hmessages⟩ := htfacts
    have hlength : t.messages.length = s.messages.length + 1 := by
      rw [hmessages, List.length_append, List.length_singleton]
    obtain ⟨s', hs', hfacts⟩ := ih (i + 1) t htblock (by omega)
      (by rw [hcount]; exact Nat.mod_lt _ (by decide))
      fun m hm => hfits m (List.mem_cons_of_mem _ hm)
    refine ⟨s', ?_, ?_⟩
    · rw [List.map_cons, List.zipIdx_cons, List.map_cons, List.foldlM_cons,
        loadMessage_messageValue, ht]
      exact hs'
    · rw [hfacts, hlabel, hcreated, hcount, hmessages, Nat.mod_add_mod, List.append_assoc,
        List.length_cons]
      congr 2
      omega

theorem loadFields_sessionValue {s t : Session} (hs : s.Fits) :
    loadFields (sessionValue s) t =
      (throughDouble (-2 ^ 63) (2 ^ 63 - 1) s.createdAt).bind fun createdAt =>
      (throughDouble (-2 ^ 63) (2 ^ 63 - 1) s.lastActive).bind fun lastActive =>
      (throughDouble 0 (2 ^ 64 - 1) s.turnCount).map fun turnCount =>
      { t with
        label := s.label
        createdAt := createdAt
        lastActive := lastActive
        turnCount := turnCount.toNat } := by
  have hlabel : scJsonGetString (sessionValue s) (ascii "label") = some s.label.octets :=
    scJsonGetString_text rfl
  have hfits := hs.label
  simp only [loadFields, hlabel, ofBytes_text, cut_eq_self s.label (show
    s.label.octets.length ≤ sessionLabelLen - 1 by omega)]
  rfl

theorem truncated_bounds {lo hi : ℤ} {x : Binary64} {i : ℤ} (h : truncated lo hi x = some i) :
    lo ≤ i ∧ i ≤ hi := by
  cases x with
  | finite neg mag grid =>
    rw [truncated, Option.ite_none_right_eq_some] at h
    obtain ⟨hbounds, hi⟩ := h
    rw [← Option.some.inj hi]
    exact hbounds
  | inf neg => cases h
  | nan neg => cases h

theorem factsAt_eq_none {mgr : SessionManager} {key : CString} :
    mgr.factsAt key = none ↔ findSession mgr key = none := by
  rw [SessionManager.factsAt, Option.map_eq_none_iff]

/-- A new session is found by its key, and by no other. -/
theorem findSession_create {mgr : SessionManager} {key : CString}
    (hkey : key.octets.length < sessionKeyLen) (now : ℤ) (k : CString) :
    findSession (mgr.create key now) k =
      if k = key then some mgr.next else findSession mgr k := by
  have hcut : cut key (sessionKeyLen - 1) = key := cut_eq_self key (by omega)
  have hbuckets : (mgr.create key now).buckets =
      HashTable.push mgr.buckets (findBucket key) ⟨key, mgr.next⟩ := by
    rw [SessionManager.create, hcut]
  rw [findSession, findSession, hbuckets]
  split_ifs with hk
  · rw [hk, HashTable.find_push_self (by rfl)]
    rfl
  · rw [HashTable.find_push_of_ne _ (Ne.symm hk)]

/-- A session is read into a manager: it is known by its key, and the others stay. -/
structure Gains (mgr : SessionManager) (key : CString) (f : SessionFacts)
    (mgr' : SessionManager) : Prop where
  named : mgr'.Named
  gained : mgr'.factsAt key = some f
  others : ∀ k, k ≠ key → mgr'.factsAt k = mgr.factsAt k

theorem gains_create {mgr : SessionManager} (hnamed : mgr.Named) {key : CString}
    (hkey : key.octets.length < sessionKeyLen) (now : ℤ) (t : Session) :
    Gains mgr key t.facts ((mgr.create key now).change mgr.next fun _ => t) := by
  have hfind : ∀ k, findSession ((mgr.create key now).change mgr.next fun _ => t) k =
      if k = key then some mgr.next else findSession mgr k := findSession_create hkey now
  constructor
  · intro k a ha
    rw [hfind] at ha
    split_ifs at ha with hk
    · cases ha
      exact Nat.lt_succ_self _
    · exact (hnamed k a ha).trans (Nat.lt_succ_self _)
  · rw [SessionManager.factsAt, hfind, if_pos rfl, Option.map_some]
    exact congrArg (fun t : Session => some t.facts) (Function.update_self _ _ _)
  · intro k hk
    rw [SessionManager.factsAt, SessionManager.factsAt, hfind, if_neg hk]
    cases hold : findSession mgr k with
    | none => rfl
    | some a =>
      have hne : a ≠ mgr.next := (hnamed k a hold).ne
      have hsession : ((mgr.create key now).change mgr.next fun _ => t).sessions a =
          mgr.sessions a := (Function.update_of_ne hne _ _).trans (Function.update_of_ne hne _ _)
      rw [Option.map_some, Option.map_some, hsession]

section Load

variable {s : Session} {mgr : SessionManager}

theorem scJsonGetString_key (s : Session) :
    scJsonGetString (sessionValue s) (ascii "key") = some s.sessionKey.octets :=
  scJsonGetString_text rfl

/-- A session for the empty key is passed over. -/
theorem loadSession_noKey (hkey : s.sessionKey.octets = []) (now : ℕ → ℤ) :
    loadSession now mgr (sessionValue s) = some mgr := by
  simp only [loadSession, scJsonGetString_key, hkey, if_true]

theorem loadSession_eq (hkey : s.sessionKey.octets ≠ [])
    (hnew : findSession mgr s.sessionKey = none) (now : ℕ → ℤ) :
    loadSession now mgr (sessionValue s) =
      ((loadFields (sessionValue s)
          ((mgr.create s.sessionKey (now 0)).sessions mgr.next)).bind fun t =>
        (itemMessages now (sessionValue s)).foldlM loadMessage t).map fun t =>
          (mgr.create s.sessionKey (now 0)).change mgr.next fun _ => t := by
  simp only [loadSession, scJsonGetString_key, if_neg hkey, ofBytes_text, scSessionGetOrCreate,
    hnew, Bool.true_eq_false, if_false]

/-- A session with a number that does not survive is not read. -/
theorem loadSession_none (hs : s.Fits) (hkey : s.sessionKey.octets ≠ [])
    (hnew : findSession mgr s.sessionKey = none) (h : s.readBack = none) (now : ℕ → ℤ) :
    loadSession now mgr (sessionValue s) = none := by
  have hfields : ∀ t, loadFields (sessionValue s) t = none := by
    intro t
    rw [loadFields_sessionValue hs]
    rw [Session.readBack] at h
    cases hcreated : throughDouble (-2 ^ 63) (2 ^ 63 - 1) s.createdAt with
    | none => rfl
    | some createdAt =>
      cases hactive : throughDouble (-2 ^ 63) (2 ^ 63 - 1) s.lastActive with
      | none => rfl
      | some lastActive =>
        rw [hcreated, hactive, Option.bind_some, Option.bind_some, Option.map_eq_none_iff] at h
        rw [h]
        rfl
  rw [loadSession_eq hkey hnew, hfields]
  rfl

/-- Any other session is read. -/
theorem loadSession_some (hs : s.Fits) (hnamed : mgr.Named) (hkey : s.sessionKey.octets ≠ [])
    (hnew : findSession mgr s.sessionKey = none) {f : SessionFacts} (h : s.readBack = some f)
    (now : ℕ → ℤ) : ∃ mgr', loadSession now mgr (sessionValue s) = some mgr' ∧
      Gains mgr s.sessionKey f mgr' := by
  simp only [Session.readBack, Option.bind_eq_some_iff, Option.map_eq_some_iff] at h
  obtain ⟨createdAt, hcreated, lastActive, hactive, turnCount, hturns, rfl⟩ := h
  have hbounds := truncated_bounds hturns
  have hfresh : (mgr.create s.sessionKey (now 0)).sessions mgr.next =
      { Session.zero with
        sessionKey := cut s.sessionKey (sessionKeyLen - 1)
        createdAt := now 0
        lastActive := now 0 } := Function.update_self _ _ _
  have hroom : ([] : List SessionMessage).length + s.messages.length ≤ sessionMsgCap := by
    rw [List.length_nil, Nat.zero_add]
    exact hs.messages
  obtain ⟨t, ht, hfacts⟩ := foldlM_loadMessage s.messages now 0
    { Session.zero with
      sessionKey := cut s.sessionKey (sessionKeyLen - 1)
      label := s.label
      createdAt := createdAt
      lastActive := lastActive
      turnCount := turnCount.toNat } le_rfl hroom (show turnCount.toNat < 2 ^ 64 by omega)
      hs.message
  refine ⟨_, ?_, hfacts ▸ gains_create hnamed hs.sessionKey (now 0) t⟩
  rw [loadSession_eq hkey hnew, loadFields_sessionValue hs, hcreated, hactive, hturns, hfresh]
  refine Option.map_eq_some_iff.mpr ⟨t, ?_, rfl⟩
  exact ht

/-- The sessions with keys are read, if each of them is. -/
theorem loadSessions_sessionValue (now : ℕ → ℕ → ℤ) : ∀ (ss : List Session) (i : ℕ)
    (mgr : SessionManager), mgr.Named → (∀ s ∈ ss, s.Fits) → (ss.map (·.sessionKey)).Nodup →
    (∀ s ∈ ss, mgr.factsAt s.sessionKey = none) →
    ((∃ s ∈ ss, s.sessionKey.octets ≠ [] ∧ s.readBack = none) ∧
      loadSessions now i (ss.map sessionValue) mgr = none) ∨
    ((∀ s ∈ ss, s.sessionKey.octets ≠ [] → s.readBack ≠ none) ∧
      ∃ mgr', loadSessions now i (ss.map sessionValue) mgr = some mgr' ∧
        (∀ s ∈ ss, s.sessionKey.octets ≠ [] → mgr'.factsAt s.sessionKey = s.readBack) ∧
        ∀ key, (∀ s ∈ ss, s.sessionKey.octets ≠ [] → key ≠ s.sessionKey) →
          mgr'.factsAt key = mgr.factsAt key) := by
  intro ss
  induction ss with
  | nil =>
    intro i mgr _ _ _ _
    exact Or.inr ⟨fun s hs => absurd hs List.not_mem_nil, mgr, rfl,
      fun s hs => absurd hs List.not_mem_nil, fun _ _ => rfl⟩
  | cons s ss ih =>
    intro i mgr hnamed hfits hnodup hnew
    rw [List.map_cons, List.nodup_cons] at hnodup
    have hfits' : ∀ s ∈ ss, s.Fits := fun s hs => hfits s (List.mem_cons_of_mem _ hs)
    have hne : ∀ t ∈ ss, t.sessionKey ≠ s.sessionKey := by
      intro t ht heq
      exact hnodup.1 (heq ▸ List.mem_map_of_mem ht)
    rw [List.map_cons, loadSessions]
    by_cases hkey : s.sessionKey.octets = []
    · rw [loadSession_noKey hkey, Option.bind_some]
      rcases ih (i + 1) mgr hnamed hfits' hnodup.2
        (fun t ht => hnew t (List.mem_cons_of_mem _ ht)) with
        ⟨⟨t, ht, hbad⟩, hnone⟩ | ⟨hgood, mgr', hload, hread, hold⟩
      · exact Or.inl ⟨⟨t, List.mem_cons_of_mem _ ht, hbad⟩, hnone⟩
      · refine Or.inr ⟨?_, mgr', hload, ?_, ?_⟩
        · exact List.forall_mem_cons.mpr ⟨fun h => absurd hkey h, hgood⟩
        · exact List.forall_mem_cons.mpr ⟨fun h => absurd hkey h, hread⟩
        · intro key h
          exact hold key fun t ht => h t (List.mem_cons_of_mem _ ht)
    · have hnone := factsAt_eq_none.mp (hnew s List.mem_cons_self)
      cases hback : s.readBack with
      | none =>
        refine Or.inl ⟨⟨s, List.mem_cons_self, hkey, hback⟩, ?_⟩
        rw [loadSession_none (hfits s List.mem_cons_self) hkey hnone hback]
        rfl
      | some f =>
        obtain ⟨mid, hmid, hgains⟩ :=
          loadSession_some (hfits s List.mem_cons_self) hnamed hkey hnone hback (now i)
        rw [hmid, Option.bind_some]
        rcases ih (i + 1) mid hgains.named hfits' hnodup.2 (fun t ht => by
          rw [hgains.others _ (hne t ht)]
          exact hnew t (List.mem_cons_of_mem _ ht)) with
          ⟨⟨t, ht, hbad⟩, hnone⟩ | ⟨hgood, mgr', hload, hread, hold⟩
        · exact Or.inl ⟨⟨t, List.mem_cons_of_mem _ ht, hbad⟩, hnone⟩
        · refine Or.inr ⟨?_, mgr', hload, ?_, ?_⟩
          · exact List.forall_mem_cons.mpr ⟨fun _ => by rw [hback]; exact Option.some_ne_none _,
              hgood⟩
          · refine List.forall_mem_cons.mpr ⟨fun _ => ?_, hread⟩
            rw [hold _ fun t ht _ => (hne t ht).symm, hgains.gained, hback]
          · intro key h
            rw [hold key fun t ht => h t (List.mem_cons_of_mem _ ht),
              hgains.others key (h s List.mem_cons_self hkey)]

end Load

end SeaClaw.Sessions
