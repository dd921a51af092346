import SeaClaw.Security.AuditEntries

/-!
# Printing an audit event

With room for all of its pieces, each part of the function prints its object, provided that the
terminators of the escaped strings stay inside their buffers. The buffer of the logger has this
room for every event.
-/

namespace SeaClaw.Security

open Lib Json

/-! ## Printing with room -/

section Printing

variable {size : ℕ} {text : Bytes}

theorem appendPieces_eq {pieces : List Bytes}
    (h : text.length + pieces.flatten.length < size) :
    appendPieces size text pieces = text ++ pieces.flatten := by
  induction pieces generalizing text with
  | nil => rw [List.flatten_nil, List.append_nil]; rfl
  | cons piece pieces ih =>
    rw [List.flatten_cons, List.length_append] at h
    have hfits : text.length + piece.length < size := by omega
    rw [appendPieces, List.foldl_cons, appendPiece, if_pos hfits, ← appendPieces, ih,
      List.flatten_cons, List.append_assoc]
    rw [List.length_append]
    omega

theorem commaList_concat (xs : List Bytes) (x : Bytes) : commaList (xs ++ [x]) =
    commaList xs ++ ((if xs ≠ [] then ascii "," else []) ++ x) := by
  cases xs with
  | nil => simp [commaList]
  | cons y xs =>
    rw [if_pos (List.cons_ne_nil y xs), List.cons_append, commaList, commaList,
      List.flatMap_append, List.append_assoc]
    simp only [List.flatMap_cons, List.flatMap_nil, List.append_nil]
    rfl

/-- Members with their commas, when some are already printed. -/
theorem foldl_appendMember {done ms : List Bytes}
    (h : text.length + (commaList (done ++ ms)).length < size) :
    ms.foldl (appendMember size) (text ++ commaList done, decide (done ≠ [])) =
      (text ++ commaList (done ++ ms), decide (done ++ ms ≠ [])) := by
  induction ms generalizing done with
  | nil => rw [List.append_nil, List.foldl_nil]
  | cons m ms ih =>
    have hsplit : done ++ m :: ms = (done ++ [m]) ++ ms := by
      rw [List.append_assoc, List.singleton_append]
    rw [hsplit] at h ⊢
    have hle : (commaList (done ++ [m])).length ≤ (commaList ((done ++ [m]) ++ ms)).length := by
      cases done <;> simp only [List.nil_append, List.cons_append, commaList, List.length_append,
        List.flatMap_append, List.flatMap_cons, List.flatMap_nil, List.length_nil] <;> omega
    rw [List.foldl_cons, ← ih h]
    congr 1
    have hconcat := commaList_concat done m
    have hfits : (text ++ commaList done).length +
        ((if decide (done ≠ []) = true then ascii "," else []) ++ m).length < size := by
      simp only [decide_eq_true_eq]
      rw [hconcat, List.length_append] at hle
      rw [List.length_append]
      omega
    rw [appendMember]
    simp only
    rw [if_pos hfits, hconcat, List.append_assoc]
    simp

end Printing

section Texts

theorem texts_append (ms ns : Entries) : Entries.texts (ms ++ ns) = ms.texts ++ ns.texts :=
  List.map_append

theorem texts_ite (c : Prop) [Decidable c] (key : String) (value : Bytes) :
    Entries.texts (if c then [(key, value)] else []) = if c then [member key value] else [] := by
  split_ifs <;> rfl

theorem texts_stringEntry (key : String) (value : Option Bytes) :
    Entries.texts (stringEntry key value) = stringMember key value := by
  cases value <;> rfl

theorem member_append (key : String) (v w : Bytes) : member key v ++ w = member key (v ++ w) := by
  simp only [member, octetMember, List.append_assoc, List.cons_append]

theorem more_singleton (key : String) (value : Bytes) :
    Entries.more [(key, value)] = ch ',' :: member key value := by
  rw [Entries.more, Entries.texts, List.map_cons, List.map_nil, List.flatMap_singleton]

/-- A group that is printed with its first member. -/
theorem flatten_group (key first : String) (value : Bytes) (ms : Entries) (close : Bytes) :
    ((openGroup key ++ member first value) :: ms.texts.map (ch ',' :: ·) ++
      [ch '}' :: close]).flatten =
        Entries.more [(key, Entries.object ((first, value) :: ms))] ++ close := by
  have hmore : (ms.texts.map (ch ',' :: ·)).flatten = ms.more := by
    rw [Entries.more, List.flatMap_def]
  rw [List.cons_append, List.flatten_cons, List.flatten_append, hmore, openGroup, more_singleton,
    Entries.object]
  simp only [Entries.texts, List.map_cons, commaList, Entries.more, List.flatten_cons,
    List.flatten_nil, List.cons_append, List.nil_append, List.append_nil, List.append_assoc,
    member_append]

/-- A group whose members are printed with the flag for the comma. -/
theorem openGroup_object (key : String) (ms : Entries) (close : Bytes) :
    openGroup key ++ (commaList ms.texts ++ ch '}' :: close) =
      Entries.more [(key, ms.object)] ++ close := by
  rw [openGroup, more_singleton, Entries.object]
  simp only [List.cons_append, List.nil_append, List.append_assoc, member_append]

end Texts
/-! ## The parts of the function -/

/-- The escaping of the string stays inside its buffer. -/
def AuditEvent.Fits (ev : AuditEvent) (f : AuditField) : Prop :=
  ∀ s ∈ ev.string f, (escapeField f.cap s).isSome

theorem escapeField_eq {cap : ℕ} {s : CString} (h : (escapeField cap s).isSome) :
    escapeField cap s = some (escapeLoop cap s.octets []).1 := by
  rw [escapeField] at h ⊢
  split_ifs at h ⊢ with hlt
  · rfl
  · cases h

theorem escapeOptional_eq {cap : ℕ} {s : Option CString}
    (h : ∀ x ∈ s, (escapeField cap x).isSome) :
    escapeOptional cap s = some (s.map fun x => (escapeLoop cap x.octets []).1) := by
  cases s with
  | none => rfl
  | some x =>
    rw [escapeOptional, escapeField_eq (h x rfl)]
    rfl

theorem escapeOptional_none {cap : ℕ} {s : Option CString}
    (h : ¬ ∀ x ∈ s, (escapeField cap x).isSome) : escapeOptional cap s = none := by
  cases s with
  | none => exact absurd (fun x hx => absurd hx (Option.not_mem_none x)) h
  | some x =>
    have hx : escapeField cap x = none := by
      rw [← Option.not_isSome_iff_eq_none]
      intro hsome
      apply h
      intro y hy
      rw [← Option.some.inj hy]
      exact hsome
    rw [escapeOptional, hx, Option.map_none]

section Parts

variable {ev : AuditEvent} {size : ℕ} {text : Bytes}

theorem writeIdentity_eq (hmodel : ev.Fits .modelVersion) (htoken : ev.Fits .authTokenHash)
    (hsize : text.length + 250 < size) : writeIdentity size ev text =
      some (text ++ (identityGroup ev ev.value).more) := by
  have hroom := @room_identityGroup ev
  rw [← length_more] at hroom
  rw [writeIdentity, identityGroup]
  by_cases hpresent : ev.agentId > 0 ∨ ev.modelVersion.isSome ∨ ev.authTokenHash.isSome
  · rw [if_pos hpresent, if_pos hpresent]
    rw [identityGroup, if_pos hpresent] at hroom
    have hflat := flatten_group "identity" "agent_id" (fmtNat ev.agentId.toNat)
      (stringEntry "model_version" (ev.value .modelVersion) ++
        stringEntry "auth_token_hash" (ev.value .authTokenHash)) []
    rw [texts_append, texts_stringEntry, texts_stringEntry, List.append_nil] at hflat
    have hm : escapeOptional 128 ev.modelVersion = some (ev.value .modelVersion) :=
      escapeOptional_eq hmodel
    have ha : escapeOptional 32 ev.authTokenHash = some (ev.value .authTokenHash) :=
      escapeOptional_eq htoken
    simp only [hm, ha, Option.bind_eq_bind, Option.bind_some, Option.some.injEq]
    rw [appendPieces_eq]
    · rw [hflat]
      rfl
    · rw [hflat]
      exact lt_of_le_of_lt (Nat.add_le_add_left hroom _) hsize
  · rw [if_neg hpresent, if_neg hpresent]
    exact congrArg some (List.append_nil text).symm

theorem appendPiece_eq {piece : Bytes} (h : text.length + piece.length < size) :
    appendPiece size text piece = text ++ piece := if_pos h

/-- The front of a group with the members that are printed with the flag. -/
theorem printMembers_eq {key : String} {ms : Entries}
    (h : text.length + (openGroup key ++ commaList ms.texts).length < size) :
    ms.texts.foldl (appendMember size) (appendPiece size text (openGroup key), false) =
      (text ++ (openGroup key ++ commaList ms.texts), decide (ms.texts ≠ [])) := by
  rw [List.length_append] at h
  have hmembers := @foldl_appendMember size (text ++ openGroup key) [] ms.texts (by
    rw [List.length_append, List.nil_append]
    omega)
  rw [appendPiece_eq (by omega)]
  simp only [commaList, List.append_nil, List.nil_append, ne_eq, not_true_eq_false, decide_false,
    List.append_assoc] at hmembers
  exact hmembers

theorem printGroup_eq {key : String} {ms : Entries}
    (h : text.length + (Entries.more [(key, ms.object)]).length < size) :
    appendPiece size (ms.texts.foldl (appendMember size)
      (appendPiece size text (openGroup key), false)).1 [ch '}'] =
        text ++ Entries.more [(key, ms.object)] := by
  have hgroup := openGroup_object key ms []
  rw [List.append_nil, ← List.append_assoc] at hgroup
  rw [← hgroup, List.length_append, List.length_singleton] at h
  rw [printMembers_eq (by omega)]
  simp only
  rw [appendPiece_eq, ← hgroup, List.append_assoc]
  rw [List.length_append, List.length_singleton]
  omega

theorem writeInput_eq (htype : ev.Fits .triggerType) (hsource : ev.Fits .triggerSource)
    (hhash : ev.Fits .promptHash) (hsize : text.length + 310 < size) :
    writeInput size ev text = some (text ++ (inputGroup ev ev.value).more) := by
  have hroom := @room_inputGroup ev
  rw [← length_more] at hroom
  rw [writeInput, inputGroup]
  by_cases hpresent : ev.triggerType.isSome ∨ ev.triggerSource.isSome ∨ ev.promptHash.isSome ∨
      ev.promptLength > 0
  · rw [if_pos hpresent, if_pos hpresent]
    rw [inputGroup, if_pos hpresent] at hroom
    have ht : escapeOptional 64 ev.triggerType = some (ev.value .triggerType) :=
      escapeOptional_eq htype
    have hs : escapeOptional 64 ev.triggerSource = some (ev.value .triggerSource) :=
      escapeOptional_eq hsource
    have hh : escapeOptional 80 ev.promptHash = some (ev.value .promptHash) :=
      escapeOptional_eq hhash
    have hgroup := @printGroup_eq size text "input" (inputEntries ev ev.value) (by omega)
    simp only [inputEntries, texts_append, texts_stringEntry, texts_ite] at hgroup
    simp only [ht, hs, hh, Option.bind_eq_bind, Option.bind_some, Option.some.injEq]
    exact hgroup
  · rw [if_neg hpresent, if_neg hpresent]
    exact congrArg some (List.append_nil text).symm

theorem writeReasoning_eq (hdecision : ev.Fits .decision) (hrule : ev.Fits .ruleName)
    (hsize : text.length + 530 < size) :
    writeReasoning size ev text = some (text ++ (reasoningGroup ev ev.value).more) := by
  have hroom := @room_reasoningGroup ev
  rw [← length_more] at hroom
  rw [writeReasoning, reasoningGroup]
  by_cases hpresent : ev.decision.isSome ∨ ev.ruleName.isSome ∨ notNegative ev.confidence ∨
      ev.contextTokens > 0
  · rw [if_pos hpresent, if_pos hpresent]
    rw [reasoningGroup, if_pos hpresent] at hroom
    have hd : escapeOptional 64 ev.decision = some (ev.value .decision) :=
      escapeOptional_eq hdecision
    have hr : escapeOptional 64 ev.ruleName = some (ev.value .ruleName) :=
      escapeOptional_eq hrule
    have hgroup := @printGroup_eq size text "reasoning" (reasoningEntries ev ev.value) (by omega)
    simp only [reasoningEntries, texts_append, texts_stringEntry, texts_ite] at hgroup
    simp only [hd, hr, Option.bind_eq_bind, Option.bind_some, Option.some.injEq]
    exact hgroup
  · rw [if_neg hpresent, if_neg hpresent]
    exact congrArg some (List.append_nil text).symm

/-- With its piece in the buffer, the function goes on behind the actor. -/
theorem writeActor_eq (hchannel : ev.Fits .channel) (hid : ev.Fits .userId)
    (hname : ev.Fits .username) (hsize : text.length + 820 < size) :
    writeActor size ev text = some (text ++ (actorGroup ev ev.value).more, true) := by
  have hroom := @room_actorGroup ev
  rw [← length_more] at hroom
  rw [writeActor, actorGroup]
  cases hpresent : ev.channel with
  | none => exact congrArg (fun t => some (t, true)) (List.append_nil text).symm
  | some channel =>
    rw [actorGroup, hpresent, if_pos (show (some channel).isSome = true from rfl)] at hroom
    have hc : escapeField 256 channel = some (escapeLoop 256 channel.octets []).1 :=
      escapeField_eq (hchannel channel hpresent)
    have hvalue : ev.value .channel = some (escapeLoop 256 channel.octets []).1 := by
      rw [AuditEvent.value, AuditEvent.string, hpresent]
      rfl
    have hstring (f : AuditField) (s : Option CString)
        (h : ev.string f = if ev.channel.isSome then s else none) : ev.string f = s := by
      rw [h, hpresent]
      rfl
    have hi : escapeOptional 256 ev.userId = some (ev.value .userId) := by
      rw [← hstring .userId ev.userId rfl]
      exact escapeOptional_eq hid
    have hn : escapeOptional 256 ev.username = some (ev.value .username) := by
      rw [← hstring .username ev.username rfl]
      exact escapeOptional_eq hname
    have hflat := flatten_group "actor" "channel" (quoted (escapeLoop 256 channel.octets []).1)
      (stringEntry "user_id" (ev.value .userId) ++ stringEntry "username" (ev.value .username)) []
    rw [texts_append, texts_stringEntry, texts_stringEntry, List.append_nil, List.cons_append,
      List.flatten_cons] at hflat
    have hentries : actorEntries ev.value =
        ("channel", quoted (escapeLoop 256 channel.octets []).1) ::
          (stringEntry "user_id" (ev.value .userId) ++
            stringEntry "username" (ev.value .username)) := by
      rw [actorEntries, hvalue]
      rfl
    rw [← hentries] at hflat
    rw [if_pos (show (some channel).isSome = true from rfl), ← hflat]
    rw [← hflat, List.length_append] at hroom
    simp only [hc, hi, hn, Option.bind_eq_bind, Option.bind_some]
    rw [if_neg (by omega), appendPieces_eq, List.append_assoc]
    rw [List.length_append]
    omega

theorem writeAction_eq (hrisk : ev.Fits .riskLevel) (hsize : text.length + 650 < size) :
    writeAction size ev text = some (text ++ (actionGroup ev ev.value).more) := by
  have hroom := @room_actionGroup ev
  rw [← length_more] at hroom
  rw [writeAction, actionGroup]
  by_cases hpresent : ev.command.isSome ∨ ev.riskLevel.isSome ∨ ev.approved ∨ ev.allowed
  · rw [if_pos hpresent, if_pos hpresent]
    rw [actionGroup, if_pos hpresent] at hroom
    have hr : escapeOptional 64 ev.riskLevel = some (ev.value .riskLevel) :=
      escapeOptional_eq hrisk
    have hc : ev.command.map escapeCommand = ev.value .command := by
      rw [AuditEvent.value, AuditEvent.string]
      rfl
    obtain ⟨ms, hms⟩ : ∃ ms, ms = stringEntry "command" (ev.value .command) ++
        stringEntry "risk_level" (ev.value .riskLevel) := ⟨_, rfl⟩
    have hmembers : stringMember "command" (ev.value .command) ++
        stringMember "risk_level" (ev.value .riskLevel) = ms.texts := by
      rw [hms, texts_append, texts_stringEntry, texts_stringEntry]
    have hgroup := openGroup_object "action" (actionEntries ev ev.value) []
    rw [actionEntries, ← hms] at hgroup hroom
    rw [actionEntries, ← hms]
    have htexts : Entries.texts (ms ++ [("approved", boolText ev.approved),
        ("allowed", boolText ev.allowed)]) =
          (ms.texts ++ [member "approved" (boolText ev.approved)]) ++
            [member "allowed" (boolText ev.allowed)] := by
      rw [texts_append, List.append_assoc]
      rfl
    have hne : ms.texts ++ [member "approved" (boolText ev.approved)] ≠ [] :=
      List.append_ne_nil_of_right_ne_nil _ (List.cons_ne_nil _ _)
    rw [htexts, commaList_concat, commaList_concat, if_pos hne] at hgroup
    simp only [List.append_nil, List.append_assoc] at hgroup
    simp only [hr, hc, hmembers, Option.bind_eq_bind, Option.bind_some, Option.some.injEq]
    rw [← hgroup] at hroom ⊢
    simp only [List.length_append] at hroom
    rw [printMembers_eq (by rw [List.length_append]; omega)]
    simp only [decide_eq_true_eq]
    rw [appendPiece_eq]
    · simp only [List.append_assoc]
      rfl
    · have hcomma : (ascii ",").length = 1 := rfl
      simp only [List.length_append, List.length_cons, List.length_nil] at hroom ⊢
      omega
  · rw [if_neg hpresent, if_neg hpresent]
    exact congrArg some (List.append_nil text).symm

theorem writeResult_eq (herror : ev.Fits .errMsg) (hsize : text.length + 360 < size) :
    writeResult size ev text = some (text ++ (resultGroup ev ev.value).more) := by
  have hroom := @room_resultGroup ev
  rw [← length_more] at hroom
  rw [writeResult, resultGroup]
  by_cases hpresent : ev.durationMs > 0 ∨ ev.errMsg.isSome
  · rw [if_pos hpresent, if_pos hpresent]
    rw [resultGroup, if_pos hpresent] at hroom
    have hflat := flatten_group "result" "success" (boolText ev.success)
      ((if ev.exitCode ≥ 0 then [("exit_code", fmtInt ev.exitCode.toInt)] else []) ++
        (if ev.durationMs > 0 then [("duration_ms", fmtNat ev.durationMs.toNat)] else []) ++
        stringEntry "error" (ev.value .errMsg)) []
    rw [List.append_nil] at hflat
    simp only [texts_append, texts_stringEntry, texts_ite] at hflat
    have he : escapeOptional 256 ev.errMsg = some (ev.value .errMsg) := escapeOptional_eq herror
    simp only [he, Option.bind_eq_bind, Option.bind_some, Option.some.injEq]
    rw [appendPieces_eq]
    · rw [hflat]
      rfl
    · rw [hflat]
      exact lt_of_le_of_lt (Nat.add_le_add_left hroom _) hsize
  · rw [if_neg hpresent, if_neg hpresent]
    exact congrArg some (List.append_nil text).symm

theorem writeSecurity_eq (hsandbox : ev.Fits .sandboxBackend) (hsize : text.length + 162 < size) :
    writeSecurity size ev text = some (text ++
      (Entries.more [("security", (securityEntries ev ev.value).object)] ++ [ch '}'])) := by
  have hroom := @room_securityGroup ev
  rw [← length_more] at hroom
  have hflat := flatten_group "security" "policy_violation" (boolText ev.policyViolation)
    ((if ev.rateLimitRemaining > 0 then
        [("rate_limit_remaining", fmtNat ev.rateLimitRemaining.toNat)] else []) ++
      stringEntry "sandbox_backend" (ev.value .sandboxBackend)) [ch '}']
  simp only [texts_append, texts_stringEntry, texts_ite] at hflat
  rw [← securityEntries] at hflat
  have hs : escapeOptional 64 ev.sandboxBackend = some (ev.value .sandboxBackend) :=
    escapeOptional_eq hsandbox
  rw [writeSecurity]
  simp only [hs, Option.bind_eq_bind, Option.bind_some, Option.some.injEq]
  rw [appendPieces_eq]
  · exact congrArg (text ++ ·) hflat
  · have hlen := congrArg List.length hflat
    rw [List.length_append, List.length_singleton] at hlen
    exact lt_of_le_of_lt (Nat.add_le_add_left (le_of_eq hlen) _) (by omega)

end Parts

end SeaClaw.Security
