import SeaClaw.Security.AuditPrinting

/-!
# Writing an audit event

The function fails on an event with a cut field, since the terminator is written past the buffer
of the field. Any other event is written whole: its text is the object of the event.
-/

namespace SeaClaw.Security

open Lib Json

/-! ## Fields that are cut -/

section Misfit

variable {ev : AuditEvent} {size : ℕ} {text : Bytes}

/-- A string whose terminator leaves the buffer is there. -/
theorem isSome_of_not_fits {f : AuditField} (h : ¬ ev.Fits f) : (ev.string f).isSome := by
  rw [Option.isSome_iff_ne_none]
  intro hnone
  apply h
  intro s hs
  rw [hnone] at hs
  cases hs

theorem writeIdentity_none (h : ¬ (ev.Fits .modelVersion ∧ ev.Fits .authTokenHash)) :
    writeIdentity size ev text = none := by
  by_cases hmodel : ev.Fits .modelVersion
  · have htoken : ¬ ev.Fits .authTokenHash := fun ht => h ⟨hmodel, ht⟩
    have hnone : escapeOptional 32 ev.authTokenHash = none := escapeOptional_none htoken
    have hthere : ev.authTokenHash.isSome := isSome_of_not_fits htoken
    rw [writeIdentity, if_pos (Or.inr (Or.inr hthere)), hnone]
    exact Option.bind_fun_none _
  · have hnone : escapeOptional 128 ev.modelVersion = none := escapeOptional_none hmodel
    have hthere : ev.modelVersion.isSome := isSome_of_not_fits hmodel
    rw [writeIdentity, if_pos (Or.inr (Or.inl hthere)), hnone]
    rfl

theorem writeInput_none
    (h : ¬ (ev.Fits .triggerType ∧ ev.Fits .triggerSource ∧ ev.Fits .promptHash)) :
    writeInput size ev text = none := by
  rw [writeInput]
  by_cases htype : ev.Fits .triggerType
  · by_cases hsource : ev.Fits .triggerSource
    · have hhash : ¬ ev.Fits .promptHash := fun hh => h ⟨htype, hsource, hh⟩
      have hnone : escapeOptional 80 ev.promptHash = none := escapeOptional_none hhash
      have hthere : ev.promptHash.isSome := isSome_of_not_fits hhash
      rw [if_pos (Or.inr (Or.inr (Or.inl hthere)))]
      simp only [hnone, Option.bind_eq_bind, Option.bind_none, Option.bind_fun_none]
    · have hnone : escapeOptional 64 ev.triggerSource = none := escapeOptional_none hsource
      have hthere : ev.triggerSource.isSome := isSome_of_not_fits hsource
      rw [if_pos (Or.inr (Or.inl hthere))]
      simp only [hnone, Option.bind_eq_bind, Option.bind_none, Option.bind_fun_none]
  · have hnone : escapeOptional 64 ev.triggerType = none := escapeOptional_none htype
    have hthere : ev.triggerType.isSome := isSome_of_not_fits htype
    rw [if_pos (Or.inl hthere), hnone]
    rfl

theorem writeReasoning_none (h : ¬ (ev.Fits .decision ∧ ev.Fits .ruleName)) :
    writeReasoning size ev text = none := by
  rw [writeReasoning]
  by_cases hdecision : ev.Fits .decision
  · have hrule : ¬ ev.Fits .ruleName := fun hr => h ⟨hdecision, hr⟩
    have hnone : escapeOptional 64 ev.ruleName = none := escapeOptional_none hrule
    have hthere : ev.ruleName.isSome := isSome_of_not_fits hrule
    rw [if_pos (Or.inr (Or.inl hthere))]
    simp only [hnone, Option.bind_eq_bind, Option.bind_none, Option.bind_fun_none]
  · have hnone : escapeOptional 64 ev.decision = none := escapeOptional_none hdecision
    have hthere : ev.decision.isSome := isSome_of_not_fits hdecision
    rw [if_pos (Or.inl hthere), hnone]
    rfl

/-- With room for its front, the actor fails with each of its strings. -/
theorem writeActor_none (hsize : text.length + 820 < size)
    (h : ¬ (ev.Fits .channel ∧ ev.Fits .userId ∧ ev.Fits .username)) :
    writeActor size ev text = none := by
  rw [writeActor]
  cases hpresent : ev.channel with
  | none =>
    have habsent (f : AuditField) (hf : ev.string f = none) : ev.Fits f := by
      intro s hs
      rw [hf] at hs
      cases hs
    refine absurd ⟨habsent _ hpresent, habsent _ ?_, habsent _ ?_⟩ h
    · exact if_neg (by rw [hpresent]; decide)
    · exact if_neg (by rw [hpresent]; decide)
  | some channel =>
    by_cases hchannel : ev.Fits .channel
    · have hthere : ev.channel.isSome := by rw [hpresent]; rfl
      have hc : escapeField 256 channel = some (escapeLoop 256 channel.octets []).1 :=
        escapeField_eq (hchannel channel hpresent)
      have hlen := @length_escapeLoop_lt 256 [] channel.octets (by decide)
      have hkeys : "channel".length = 7 ∧ "actor".length = 5 := by decide
      have hroom : ¬ text.length + (openGroup "actor" ++
          member "channel" (quoted (escapeLoop 256 channel.octets []).1)).length ≥ size := by
        simp only [openGroup, quoted, length_member, List.length_append, List.length_cons,
          List.length_nil]
        omega
      have hid : ev.string .userId = ev.userId := if_pos hthere
      have hname : ev.string .username = ev.username := if_pos hthere
      simp only [hc, Option.bind_eq_bind, Option.bind_some]
      rw [if_neg hroom]
      by_cases huser : ev.Fits .userId
      · have hnone : escapeOptional 256 ev.username = none := by
          rw [← hname]
          exact escapeOptional_none fun hn => h ⟨hchannel, huser, hn⟩
        rw [hnone]
        exact Option.bind_fun_none _
      · have hnone : escapeOptional 256 ev.userId = none := by
          rw [← hid]
          exact escapeOptional_none huser
        rw [hnone]
        rfl
    · have hnone : escapeField 256 channel = none := by
        rw [← Option.not_isSome_iff_eq_none]
        intro hsome
        apply hchannel
        intro s hs
        obtain rfl := Option.some.inj (hpresent.symm.trans hs)
        exact hsome
      simp only [hnone, Option.bind_eq_bind, Option.bind_none]

theorem writeAction_none (h : ¬ ev.Fits .riskLevel) : writeAction size ev text = none := by
  have hnone : escapeOptional 64 ev.riskLevel = none := escapeOptional_none h
  have hthere : ev.riskLevel.isSome := isSome_of_not_fits h
  rw [writeAction, if_pos (Or.inr (Or.inl hthere)), hnone]
  rfl

theorem writeResult_none (h : ¬ ev.Fits .errMsg) : writeResult size ev text = none := by
  have hnone : escapeOptional 256 ev.errMsg = none := escapeOptional_none h
  have hthere : ev.errMsg.isSome := isSome_of_not_fits h
  rw [writeResult, if_pos (Or.inr hthere), hnone]
  rfl

theorem writeSecurity_none (h : ¬ ev.Fits .sandboxBackend) :
    writeSecurity size ev text = none := by
  have hnone : escapeOptional 64 ev.sandboxBackend = none := escapeOptional_none h
  rw [writeSecurity, hnone]
  rfl

end Misfit

/-! ## The whole function -/

section Outcome

variable {ev : AuditEvent}

/-- The object of the event is the head with the groups behind it. -/
theorem object_auditEntries (t : AuditField → Option Bytes) : (auditEntries ev t).object =
    auditHead ev ++ (identityGroup ev t).more ++ (inputGroup ev t).more ++
      (reasoningGroup ev t).more ++ (actorGroup ev t).more ++ (actionGroup ev t).more ++
      (resultGroup ev t).more ++
      (Entries.more [("security", (securityEntries ev t).object)] ++ [ch '}']) := by
  have hhead : ∀ ms : Entries, Entries.object (headEntries ev ++ ms) =
      auditHead ev ++ (ms.more ++ [ch '}']) := by
    intro ms
    simp only [headEntries, auditHead, Entries.object, Entries.texts, Entries.more, List.map_cons,
      List.cons_append, List.nil_append, commaList, List.flatMap_cons,
      List.append_assoc]
  rw [auditEntries, hhead]
  simp only [more_append, List.append_assoc]

/-- The text of an event is much shorter than the buffer of the logger. -/
theorem length_groups (ev : AuditEvent) : (auditHead ev).length + (identityGroup ev ev.value).more.length +
    (inputGroup ev ev.value).more.length + (reasoningGroup ev ev.value).more.length +
    (actorGroup ev ev.value).more.length + (actionGroup ev ev.value).more.length +
    (resultGroup ev ev.value).more.length ≤ 3030 := by
  have hhead := @length_auditHead ev
  have hidentity := @room_identityGroup ev
  have hinput := @room_inputGroup ev
  have hreasoning := @room_reasoningGroup ev
  have hactor := @room_actorGroup ev
  have haction := @room_actionGroup ev
  have hresult := @room_resultGroup ev
  rw [← length_more] at hidentity hinput hreasoning hactor haction hresult
  omega

theorem writeJson_start (ev : AuditEvent) : scAuditEventWriteJson ev auditJsonBufSize =
    ((writeIdentity auditJsonBufSize ev (auditHead ev)).bind fun text =>
      (writeInput auditJsonBufSize ev text).bind fun text =>
        (writeReasoning auditJsonBufSize ev text).bind fun text =>
          (writeActor auditJsonBufSize ev text).bind fun st =>
            if st.2 then (writeAction auditJsonBufSize ev st.1).bind fun text =>
              (writeResult auditJsonBufSize ev text).bind fun text =>
                writeSecurity auditJsonBufSize ev text
            else some st.1) := by
  have hlen := length_groups ev
  rw [scAuditEventWriteJson, if_neg (by decide), if_neg (by rw [auditJsonBufSize]; omega)]
  rfl

/-- The event is written whole if the terminators stay inside the buffers of its strings. -/
theorem writeJson_some (h : ∀ f, f ≠ .command → ev.Fits f) :
    scAuditEventWriteJson ev auditJsonBufSize = some (auditEntries ev ev.value).object := by
  have hlen := length_groups ev
  have hsize : auditJsonBufSize = 4096 := rfl
  rw [writeJson_start, object_auditEntries]
  rw [writeIdentity_eq (h _ (by decide)) (h _ (by decide)) (by omega), Option.bind_some]
  rw [writeInput_eq (h _ (by decide)) (h _ (by decide)) (h _ (by decide))
    (by simp only [List.length_append]; omega), Option.bind_some]
  rw [writeReasoning_eq (h _ (by decide)) (h _ (by decide))
    (by simp only [List.length_append]; omega), Option.bind_some]
  rw [writeActor_eq (h _ (by decide)) (h _ (by decide)) (h _ (by decide))
    (by simp only [List.length_append]; omega), Option.bind_some, if_pos rfl]
  rw [writeAction_eq (h _ (by decide)) (by simp only [List.length_append]; omega),
    Option.bind_some]
  rw [writeResult_eq (h _ (by decide)) (by simp only [List.length_append]; omega),
    Option.bind_some]
  exact writeSecurity_eq (h _ (by decide)) (by simp only [List.length_append]; omega)

/-- Otherwise it is not written at all. -/
theorem writeJson_none (h : ¬ ∀ f, f ≠ .command → ev.Fits f) :
    scAuditEventWriteJson ev auditJsonBufSize = none := by
  have hlen := length_groups ev
  have hsize : auditJsonBufSize = 4096 := rfl
  rw [writeJson_start]
  -- the first part with a string that does not fit fails
  by_cases hidentity : ev.Fits .modelVersion ∧ ev.Fits .authTokenHash
  case neg =>
    rw [writeIdentity_none hidentity]
    rfl
  rw [writeIdentity_eq hidentity.1 hidentity.2 (by omega), Option.bind_some]
  by_cases hinput : ev.Fits .triggerType ∧ ev.Fits .triggerSource ∧ ev.Fits .promptHash
  case neg =>
    rw [writeInput_none hinput]
    rfl
  rw [writeInput_eq hinput.1 hinput.2.1 hinput.2.2 (by simp only [List.length_append]; omega),
    Option.bind_some]
  by_cases hreasoning : ev.Fits .decision ∧ ev.Fits .ruleName
  case neg =>
    rw [writeReasoning_none hreasoning]
    rfl
  rw [writeReasoning_eq hreasoning.1 hreasoning.2 (by simp only [List.length_append]; omega),
    Option.bind_some]
  by_cases hactor : ev.Fits .channel ∧ ev.Fits .userId ∧ ev.Fits .username
  case neg =>
    rw [writeActor_none (by simp only [List.length_append]; omega) hactor]
    rfl
  rw [writeActor_eq hactor.1 hactor.2.1 hactor.2.2 (by simp only [List.length_append]; omega),
    Option.bind_some, if_pos rfl]
  by_cases haction : ev.Fits .riskLevel
  case neg =>
    rw [writeAction_none haction]
    rfl
  rw [writeAction_eq haction (by simp only [List.length_append]; omega), Option.bind_some]
  by_cases hresult : ev.Fits .errMsg
  case neg =>
    rw [writeResult_none hresult]
    rfl
  rw [writeResult_eq hresult (by simp only [List.length_append]; omega), Option.bind_some]
  apply writeSecurity_none
  intro hsecurity
  apply h
  intro f hf
  cases f with
  | modelVersion => exact hidentity.1
  | authTokenHash => exact hidentity.2
  | triggerType => exact hinput.1
  | triggerSource => exact hinput.2.1
  | promptHash => exact hinput.2.2
  | decision => exact hreasoning.1
  | ruleName => exact hreasoning.2
  | channel => exact hactor.1
  | userId => exact hactor.2.1
  | username => exact hactor.2.2
  | command => exact absurd rfl hf
  | riskLevel => exact haction
  | errMsg => exact hresult
  | sandboxBackend => exact hsecurity

end Outcome

end SeaClaw.Security
