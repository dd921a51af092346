import SeaClaw.Security.AuditEscape

/-!
# The members of an audit event

An event is an object of objects. Their members are listed here with the texts of the values, and
bounded by what the buffers of the strings and the digits of the numbers let them take.
-/

namespace SeaClaw.Security

open Lib Json

/-! ## The object of an event -/

/-- A string of an event. -/
inductive AuditField where
  | modelVersion | authTokenHash
  | triggerType | triggerSource | promptHash
  | decision | ruleName
  | channel | userId | username
  | command | riskLevel
  | errMsg
  | sandboxBackend
  deriving DecidableEq

/-- The size of the buffer that the string is escaped in. -/
def AuditField.cap : AuditField → ℕ
  | modelVersion => 128
  | authTokenHash => 32
  | triggerType => 64
  | triggerSource => 64
  | promptHash => 80
  | decision => 64
  | ruleName => 64
  | channel => 256
  | userId => 256
  | username => 256
  | command => 512
  | riskLevel => 64
  | errMsg => 256
  | sandboxBackend => 64

/-- What is escaped of the string. -/
def AuditField.kept (f : AuditField) (s : CString) : Bytes :=
  if f = command then keptCommand s else s.octets

/-- The string of a field, if it is written: the names of the user only with a channel. -/
def AuditEvent.string (ev : AuditEvent) : AuditField → Option CString
  | .modelVersion => ev.modelVersion
  | .authTokenHash => ev.authTokenHash
  | .triggerType => ev.triggerType
  | .triggerSource => ev.triggerSource
  | .promptHash => ev.promptHash
  | .decision => ev.decision
  | .ruleName => ev.ruleName
  | .channel => ev.channel
  | .userId => if ev.channel.isSome then ev.userId else none
  | .username => if ev.channel.isSome then ev.username else none
  | .command => ev.command
  | .riskLevel => ev.riskLevel
  | .errMsg => ev.errMsg
  | .sandboxBackend => ev.sandboxBackend

/-- The members of an object, as keys and texts of values. -/
abbrev Entries := List (String × Bytes)

/-- The texts of the members. -/
def Entries.texts (ms : Entries) : List Bytes := ms.map fun m => member m.1 m.2

/-- The text of an object. -/
def Entries.object (ms : Entries) : Bytes := ch '{' :: (commaList ms.texts ++ [ch '}'])

/-- The entry of a string that may be missing. -/
def stringEntry (key : String) (value : Option Bytes) : Entries :=
  value.toList.map fun v => (key, quoted v)

section Entries

variable (ev : AuditEvent) (t : AuditField → Option Bytes)

def identityEntries : Entries :=
  ("agent_id", fmtNat ev.agentId.toNat) :: (stringEntry "model_version" (t .modelVersion) ++
    stringEntry "auth_token_hash" (t .authTokenHash))

def inputEntries : Entries :=
  stringEntry "trigger_type" (t .triggerType) ++ stringEntry "trigger_source" (t .triggerSource) ++
    stringEntry "prompt_hash" (t .promptHash) ++
    if ev.promptLength > 0 then [("prompt_length", fmtNat ev.promptLength.toNat)] else []

def reasoningEntries : Entries :=
  stringEntry "decision" (t .decision) ++ stringEntry "rule_name" (t .ruleName) ++
    (if notNegative ev.confidence then [("confidence", fmtFixed2 ev.confidence)] else []) ++
    if ev.contextTokens > 0 then [("context_tokens", fmtNat ev.contextTokens.toNat)] else []

def actorEntries : Entries :=
  stringEntry "channel" (t .channel) ++ (stringEntry "user_id" (t .userId) ++
    stringEntry "username" (t .username))

def actionEntries : Entries :=
  stringEntry "command" (t .command) ++ stringEntry "risk_level" (t .riskLevel) ++
    [("approved", boolText ev.approved), ("allowed", boolText ev.allowed)]

def resultEntries : Entries :=
  ("success", boolText ev.success) ::
    ((if ev.exitCode ≥ 0 then [("exit_code", fmtInt ev.exitCode.toInt)] else []) ++
      (if ev.durationMs > 0 then [("duration_ms", fmtNat ev.durationMs.toNat)] else []) ++
      stringEntry "error" (t .errMsg))

def securityEntries : Entries :=
  ("policy_violation", boolText ev.policyViolation) ::
    ((if ev.rateLimitRemaining > 0 then
        [("rate_limit_remaining", fmtNat ev.rateLimitRemaining.toNat)] else []) ++
      stringEntry "sandbox_backend" (t .sandboxBackend))

def identityGroup : Entries :=
  if ev.agentId > 0 ∨ ev.modelVersion.isSome ∨ ev.authTokenHash.isSome then
    [("identity", (identityEntries ev t).object)] else []

def inputGroup : Entries :=
  if ev.triggerType.isSome ∨ ev.triggerSource.isSome ∨ ev.promptHash.isSome ∨
      ev.promptLength > 0 then [("input", (inputEntries ev t).object)] else []

def reasoningGroup : Entries :=
  if ev.decision.isSome ∨ ev.ruleName.isSome ∨ notNegative ev.confidence ∨
      ev.contextTokens > 0 then [("reasoning", (reasoningEntries ev t).object)] else []

def actorGroup : Entries :=
  if ev.channel.isSome then [("actor", (actorEntries t).object)] else []

def actionGroup : Entries :=
  if ev.command.isSome ∨ ev.riskLevel.isSome ∨ ev.approved ∨ ev.allowed then
    [("action", (actionEntries ev t).object)] else []

def resultGroup : Entries :=
  if ev.durationMs > 0 ∨ ev.errMsg.isSome then [("result", (resultEntries ev t).object)] else []

def headEntries : Entries :=
  [("timestamp_s", fmtInt ev.timestamp.toInt), ("event_id", fmtNat ev.eventId.toNat),
    ("event_type", quoted (scAuditEventTypeString ev.eventType))]

/-- The members of the object of an event, with these texts for its strings. -/
def auditEntries : Entries :=
  headEntries ev ++ (identityGroup ev t ++ (inputGroup ev t ++ (reasoningGroup ev t ++
    (actorGroup ev t ++ (actionGroup ev t ++ (resultGroup ev t ++
      [("security", (securityEntries ev t).object)]))))))

end Entries

/-- The text for a string that is in the buffer behind its escaping. -/
def AuditEvent.value (ev : AuditEvent) (f : AuditField) : Option Bytes :=
  (ev.string f).map fun s => (escapeLoop f.cap (f.kept s) []).1

/-! ## Room -/

/-- The octets that entries take, each with a comma. -/
def Entries.room (ms : Entries) : ℕ := (ms.map fun m => m.1.length + m.2.length + 4).sum

section Room

variable {ev : AuditEvent}

theorem length_ascii (s : String) : (ascii s).length = s.length := by
  rw [ascii, List.length_map, String.length_toList]

theorem length_member (key : String) (value : Bytes) :
    (member key value).length = key.length + value.length + 3 := by
  rw [member, octetMember, quoted]
  simp only [List.length_append, List.length_cons, List.length_nil, length_ascii]
  omega

@[simp] theorem room_nil : Entries.room [] = 0 := rfl

@[simp] theorem room_cons (m : String × Bytes) (ms : Entries) :
    Entries.room (m :: ms) = m.1.length + m.2.length + 4 + Entries.room ms := rfl

@[simp] theorem room_append (ms ns : Entries) :
    Entries.room (ms ++ ns) = Entries.room ms + Entries.room ns := by
  rw [Entries.room, List.map_append, List.sum_append]
  rfl

/-- The text behind other members. -/
def Entries.more (ms : Entries) : Bytes := ms.texts.flatMap (ch ',' :: ·)

theorem more_append (ms ns : Entries) : Entries.more (ms ++ ns) = ms.more ++ ns.more := by
  rw [Entries.more, Entries.texts, List.map_append, List.flatMap_append]
  rfl

theorem length_more (ms : Entries) : ms.more.length = ms.room := by
  induction ms with
  | nil => rfl
  | cons m ms ih =>
    rw [Entries.more, Entries.texts, List.map_cons, List.flatMap_cons, List.length_append,
      List.length_cons, length_member, ← Entries.texts, ← Entries.more, ih, room_cons]

theorem length_commaList_le (ms : Entries) : (commaList ms.texts).length ≤ ms.room := by
  cases ms with
  | nil => exact le_rfl
  | cons m ms =>
    have hmore := length_more ms
    rw [Entries.more] at hmore
    rw [Entries.texts, List.map_cons, commaList, List.length_append, length_member, ← Entries.texts,
      hmore, room_cons]
    omega

theorem length_object_le (ms : Entries) : ms.object.length ≤ ms.room + 2 := by
  have h := length_commaList_le ms
  rw [Entries.object, List.length_cons, List.length_append, List.length_singleton]
  omega

theorem room_stringEntry_le {key : String} {value : Option Bytes} {n : ℕ}
    (h : ∀ v ∈ value, v.length < n) : (stringEntry key value).room ≤ key.length + n + 5 := by
  cases value with
  | none => exact Nat.zero_le _
  | some v =>
    have hv := h v rfl
    rw [stringEntry, Option.toList_some, List.map_singleton, room_cons, room_nil, quoted]
    simp only [List.length_cons, List.length_append, List.length_nil]
    omega

theorem room_ite_le (c : Prop) [Decidable c] (m : String × Bytes) {n : ℕ}
    (h : m.1.length + m.2.length + 4 ≤ n) : Entries.room (if c then [m] else []) ≤ n := by
  split_ifs
  · exact h
  · exact Nat.zero_le n

theorem room_group_le (c : Prop) [Decidable c] (key : String) (ms : Entries) {n : ℕ}
    (h : key.length + ms.room + 6 ≤ n) :
    Entries.room (if c then [(key, ms.object)] else []) ≤ n := by
  have hobject := length_object_le ms
  apply room_ite_le
  simp only
  omega

/-- Cut or not, a value is shorter than its buffer. -/
theorem length_value_lt (f : AuditField) : ∀ v ∈ ev.value f, v.length < f.cap := by
  intro v hv
  obtain ⟨s, -, rfl⟩ := Option.map_eq_some_iff.mp hv
  exact length_escapeLoop_lt (f.kept s) (by cases f <;> decide)

theorem room_value_le (ev : AuditEvent) (key : String) (f : AuditField) :
    (stringEntry key (ev.value f)).room ≤ key.length + f.cap + 5 :=
  room_stringEntry_le (length_value_lt f)

theorem length_fmtNat64 (n : UInt64) : (fmtNat n.toNat).length ≤ 20 := by
  have hn := n.toNat_lt
  exact length_fmtNat_le (by decide) (by omega)

theorem length_fmtNat32 (n : UInt32) : (fmtNat n.toNat).length ≤ 10 := by
  have hn := n.toNat_lt
  exact length_fmtNat_le (by decide) (by omega)

theorem length_fmtInt_le {w : ℕ} (hw : 0 < w) {i : ℤ} (hi : i.natAbs < 10 ^ w) :
    (fmtInt i).length ≤ w + 1 := by
  have h := length_fmtNat_le hw hi
  rw [fmtInt, List.length_append]
  split_ifs
  · rw [List.length_singleton]
    omega
  · rw [List.length_nil]
    omega

theorem length_fmtInt64 (i : Int64) : (fmtInt i.toInt).length ≤ 20 := by
  have hlt := i.toInt_lt
  have hle := i.le_toInt
  exact length_fmtInt_le (w := 19) (by decide) (by omega)

theorem length_fmtInt32 (i : Int32) : (fmtInt i.toInt).length ≤ 11 := by
  have hlt := i.toInt_lt
  have hle := i.le_toInt
  exact length_fmtInt_le (w := 10) (by decide) (by omega)

theorem length_boolText (b : Bool) : (boolText b).length ≤ 5 := by
  cases b <;> decide

theorem OnGrid.nonneg {q : ℚ} (h : OnGrid q) : 0 ≤ q := by
  obtain ⟨m, e, -, -, -, rfl⟩ := h
  positivity

theorem OnGrid.lt {q : ℚ} (h : OnGrid q) : q < 2 ^ 1024 := by
  obtain ⟨m, e, hm, -, he, rfl⟩ := h
  have hcast : (m : ℚ) < 2 ^ 53 := by exact_mod_cast hm
  calc (m : ℚ) * 2 ^ e < 2 ^ 53 * 2 ^ e := mul_lt_mul_of_pos_right hcast (by positivity)
    _ ≤ 2 ^ 53 * 2 ^ (971 : ℤ) := by
        apply mul_le_mul_of_nonneg_left _ (by positivity)
        exact zpow_le_zpow_right₀ (by norm_num) he
    _ = 2 ^ 1024 := by
        rw [show (971 : ℤ) = ((971 : ℕ) : ℤ) from rfl, zpow_natCast, ← pow_add]

/-- A double has at most 309 digits in front of the point. -/
theorem length_fmtFixed2 (x : Binary64) : (fmtFixed2 x).length ≤ 313 := by
  cases x with
  | inf neg => cases neg <;> decide
  | nan neg => cases neg <;> decide
  | finite neg mag grid =>
    obtain ⟨top, htop⟩ : ∃ n : ℕ, n = 2 ^ 1024 := ⟨_, rfl⟩
    have hmag : mag < top := by
      rw [htop, Nat.cast_pow, Nat.cast_ofNat]
      exact OnGrid.lt grid
    have hpos := OnGrid.nonneg grid
    have hn : roundHalfEven (mag * 100) ≤ top * 100 := by
      apply roundHalfEven_le (mul_nonneg hpos (by norm_num))
      push_cast
      exact mul_lt_mul_of_pos_right hmag (by norm_num)
    have hdigits : top < 10 ^ 309 := by
      rw [htop]
      decide +kernel
    have hint : (fmtNat (roundHalfEven (mag * 100) / 100)).length ≤ 309 :=
      length_fmtNat_le (by decide) (lt_of_le_of_lt (by omega) hdigits)
    have hfrac : (fmtPad 2 (roundHalfEven (mag * 100) % 100)).length = 2 :=
      length_fmtPad (by decide) (Nat.mod_lt _ (by decide))
    have hsign : (if neg then [ch '-'] else []).length ≤ 1 := by cases neg <;> decide
    simp only [fmtFixed2, List.length_append, List.length_cons, hfrac]
    omega

theorem room_identityGroup : (identityGroup ev ev.value).room ≤ 250 := by
  have hkeys : "agent_id".length = 8 ∧ "identity".length = 8 ∧ "model_version".length = 13 ∧
    "auth_token_hash".length = 15 := by decide
  have hagent := length_fmtNat64 ev.agentId
  have hmodel := room_value_le ev "model_version" .modelVersion
  have htoken := room_value_le ev "auth_token_hash" .authTokenHash
  apply room_group_le
  simp only [identityEntries, room_cons, room_append]
  simp only [AuditField.cap] at *
  omega

theorem room_inputGroup : (inputGroup ev ev.value).room ≤ 310 := by
  have hkeys : "input".length = 5 ∧ "trigger_type".length = 12 ∧ "trigger_source".length = 14 ∧
    "prompt_hash".length = 11 ∧ "prompt_length".length = 13 := by decide
  have htype := room_value_le ev "trigger_type" .triggerType
  have hsource := room_value_le ev "trigger_source" .triggerSource
  have hhash := room_value_le ev "prompt_hash" .promptHash
  have hlen := length_fmtNat64 ev.promptLength
  have hprompt : Entries.room (if ev.promptLength > 0 then
      [("prompt_length", fmtNat ev.promptLength.toNat)] else []) ≤ 37 := by
    apply room_ite_le
    simp only
    omega
  apply room_group_le
  simp only [inputEntries, room_append]
  simp only [AuditField.cap] at *
  omega

theorem room_reasoningGroup : (reasoningGroup ev ev.value).room ≤ 530 := by
  have hkeys : "reasoning".length = 9 ∧ "decision".length = 8 ∧ "rule_name".length = 9 ∧
    "confidence".length = 10 ∧ "context_tokens".length = 14 := by decide
  have hdecision := room_value_le ev "decision" .decision
  have hrule := room_value_le ev "rule_name" .ruleName
  have hfixed := length_fmtFixed2 ev.confidence
  have hconfidence : Entries.room (if notNegative ev.confidence then
      [("confidence", fmtFixed2 ev.confidence)] else []) ≤ 327 := by
    apply room_ite_le
    simp only
    omega
  have hlen := length_fmtNat32 ev.contextTokens
  have htokens : Entries.room (if ev.contextTokens > 0 then
      [("context_tokens", fmtNat ev.contextTokens.toNat)] else []) ≤ 28 := by
    apply room_ite_le
    simp only
    omega
  apply room_group_le
  simp only [reasoningEntries, room_append]
  simp only [AuditField.cap] at *
  omega

theorem room_actorGroup : (actorGroup ev ev.value).room ≤ 820 := by
  have hkeys : "actor".length = 5 ∧ "channel".length = 7 ∧ "user_id".length = 7 ∧
    "username".length = 8 := by decide
  have hchannel := room_value_le ev "channel" .channel
  have hid := room_value_le ev "user_id" .userId
  have hname := room_value_le ev "username" .username
  apply room_group_le
  simp only [actorEntries, room_append]
  simp only [AuditField.cap] at *
  omega

theorem room_actionGroup : (actionGroup ev ev.value).room ≤ 650 := by
  have hkeys : "allowed".length = 7 ∧ "approved".length = 8 ∧ "action".length = 6 ∧
    "command".length = 7 ∧ "risk_level".length = 10 := by decide
  have hcommand := room_value_le ev "command" .command
  have hrisk := room_value_le ev "risk_level" .riskLevel
  have happroved := length_boolText ev.approved
  have hallowed := length_boolText ev.allowed
  apply room_group_le
  simp only [actionEntries, room_append, room_cons, room_nil]
  simp only [AuditField.cap] at *
  omega

theorem room_resultGroup : (resultGroup ev ev.value).room ≤ 360 := by
  have hkeys : "success".length = 7 ∧ "result".length = 6 ∧ "exit_code".length = 9 ∧
    "duration_ms".length = 11 ∧ "error".length = 5 := by decide
  have hsuccess := length_boolText ev.success
  have hexit := length_fmtInt32 ev.exitCode
  have hcode : Entries.room (if ev.exitCode ≥ 0 then
      [("exit_code", fmtInt ev.exitCode.toInt)] else []) ≤ 24 := by
    apply room_ite_le
    simp only
    omega
  have hlen := length_fmtNat64 ev.durationMs
  have hduration : Entries.room (if ev.durationMs > 0 then
      [("duration_ms", fmtNat ev.durationMs.toNat)] else []) ≤ 35 := by
    apply room_ite_le
    simp only
    omega
  have herror := room_value_le ev "error" .errMsg
  apply room_group_le
  simp only [resultEntries, room_append, room_cons]
  simp only [AuditField.cap] at *
  omega

theorem room_securityGroup :
    Entries.room [("security", (securityEntries ev ev.value).object)] ≤ 160 := by
  have hkeys : "policy_violation".length = 16 ∧ "security".length = 8 ∧
    "rate_limit_remaining".length = 20 ∧ "sandbox_backend".length = 15 := by decide
  have hviolation := length_boolText ev.policyViolation
  have hlen := length_fmtNat32 ev.rateLimitRemaining
  have hrate : Entries.room (if ev.rateLimitRemaining > 0 then
      [("rate_limit_remaining", fmtNat ev.rateLimitRemaining.toNat)] else []) ≤ 34 := by
    apply room_ite_le
    simp only
    omega
  have hsandbox := room_value_le ev "sandbox_backend" .sandboxBackend
  have hobject := length_object_le (securityEntries ev ev.value)
  have hentries : (securityEntries ev ev.value).room ≤ 143 := by
    simp only [securityEntries, room_append, room_cons]
    simp only [AuditField.cap] at *
    omega
  simp only [room_cons, room_nil]
  omega

theorem length_auditHead : (auditHead ev).length ≤ 110 := by
  have hkeys : "event_type".length = 10 ∧ "event_id".length = 8 ∧
    "timestamp_s".length = 11 := by decide
  have htimestamp := length_fmtInt64 ev.timestamp
  have hevent := length_fmtNat64 ev.eventId
  have htype : (scAuditEventTypeString ev.eventType).length ≤ 17 := by
    cases ev.eventType <;> decide
  simp only [auditHead, quoted, List.length_cons, List.length_append, length_member,
    List.length_nil]
  omega

end Room

end SeaClaw.Security
