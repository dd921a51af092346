import SeaClaw.Security.Shell

/-!
# The allowlist against the shell

A command that the policy validates is sound if the shell runs allowed commands only.
The policy ends a word at a space and not at a tab, looks at 127 octets of it, and does
not look up an empty base name. So the commands it validates are sound exactly where the
names of the shell are among those it looks up.
-/

namespace SeaClaw.Security

open Lib

/-- The names that the policy looks up. -/
def lookedUp (command : Bytes) : List Bytes :=
  ((segments (normalizeCommand command)).map baseName).filter (· ≠ [])

/-- No entry of the allowlist is the one that allows everything. -/
def NoStar (p : SecurityPolicy) : Prop := ∀ a, some a ∈ p.allowlist → a.octets ≠ ascii "*"

/-- Every simple command that the shell runs is allowed, and none is of high risk where
those are blocked. -/
structure Sound (p : SecurityPolicy) (command : Bytes) : Prop where
  allowed : ∀ name ∈ shellNames command, ∃ a, some a ∈ p.allowlist ∧ SameFold a.octets name
  blocked : p.blockHighRiskCommands = true →
    ∀ name ∈ shellNames command, isHighRiskCommand name = false

/-- The tests that do not depend on the policy let the command through. -/
structure Passable (command : Bytes) : Prop where
  text : commandTextAllowed command = true
  named : lookedUp command ≠ []
  noStar : ascii "*" ∉ lookedUp command
  plain : ∀ seg ∈ segments (normalizeCommand command), skipEnvAssignments seg = seg
  safe : ∀ seg ∈ segments (normalizeCommand command), baseName seg ≠ [] →
    isArgsSafe (baseName seg) seg = true

/-- Every name of the shell is one that the policy looks up. -/
def NamesAgree (command : Bytes) : Prop :=
  ∀ name ∈ shellNames command, ∃ base ∈ lookedUp command, SameFold base name

/-- The first word ends at a space and not at a tab, fits the buffer, and has a base name. -/
structure PlainWord (seg : Bytes) : Prop where
  noTab : ch '\t' ∉ firstWord seg
  short : (firstWord seg).length ≤ 127
  named : baseName seg ≠ []

/-! ## The loops -/

theorem mem_lookedUp {command base : Bytes} : base ∈ lookedUp command ↔
    ∃ seg ∈ segments (normalizeCommand command), baseName seg = base ∧ base ≠ [] := by
  simp only [lookedUp, List.mem_filter, List.mem_map, decide_eq_true_eq]
  constructor
  · rintro ⟨⟨seg, hseg, rfl⟩, hne⟩
    exact ⟨seg, hseg, rfl, hne⟩
  · rintro ⟨seg, hseg, rfl, hne⟩
    exact ⟨⟨seg, hseg, rfl⟩, hne⟩

theorem baseName_of_empty {seg : Bytes} (h : (firstWord seg).length = 0) : baseName seg = [] := by
  rw [baseName, List.length_eq_zero_iff.mp h]
  rfl

/-- What the loop over the segments accepts. -/
theorem allowedLoop_iff {allowed : List (Option CString)} {segs : List Bytes} {hasCmd : Bool} :
    allowedLoop allowed segs hasCmd = true ↔
      (∀ seg ∈ segs, skipEnvAssignments seg = seg ∧ (baseName seg ≠ [] →
        allowed.any (entryMatches (baseName seg)) = true ∧
          isArgsSafe (baseName seg) seg = true)) ∧
      (hasCmd = true ∨ ∃ seg ∈ segs, baseName seg ≠ []) := by
  induction segs generalizing hasCmd with
  | nil => simp [allowedLoop]
  | cons seg segs ih =>
    rw [allowedLoop]
    by_cases henv : skipEnvAssignments seg = seg
    · simp only [henv, ne_eq, not_true_eq_false, ite_false, List.forall_mem_cons, true_and,
        List.exists_mem_cons_iff]
      by_cases hbase : baseName seg = []
      · simp only [hbase, not_true_eq_false, ite_true, ite_self, ih, false_implies, true_and,
          false_or]
      · have hword : (firstWord seg).length ≠ 0 := fun h => hbase (baseName_of_empty h)
        simp only [hword, hbase, ite_false, not_false_eq_true, true_implies, true_or, or_true,
          and_true]
        by_cases hany : allowed.any (entryMatches (baseName seg)) = true
        · by_cases hsafe : isArgsSafe (baseName seg) seg = true
          · simp [hany, hsafe, ih]
          · simp [hany, hsafe]
        · simp [hany]
    · simp [henv]

/-- A command that is not of high risk has no segment that is. -/
theorem riskLoop_ne_high {segs : List Bytes} {sawMedium : Bool}
    (h : riskLoop segs sawMedium ≠ .high) :
    ∀ seg ∈ segs, isHighRiskCommand ((baseName (skipEnvAssignments seg)).map toLower) = false := by
  induction segs generalizing sawMedium with
  | nil => simp
  | cons seg segs ih =>
    rw [riskLoop] at h
    by_cases hhigh : isHighRiskCommand ((baseName (skipEnvAssignments seg)).map toLower) = true
    · simp [hhigh] at h
    · refine List.forall_mem_cons.mpr ⟨by simpa using hhigh, ?_⟩
      simp only [hhigh, Bool.false_eq_true, ite_false] at h
      split_ifs at h
      · exact absurd rfl h
      · exact ih h

theorem isHighRiskCommand_congr {s t : Bytes} (h : SameFold s t) :
    isHighRiskCommand s = isHighRiskCommand t := by
  unfold isHighRiskCommand
  congr 1
  funext x
  exact decide_eq_decide.mpr ⟨h.symm.trans, h.trans⟩

/-! ## The text of a command -/

theorem commandTextAllowed_length {command : Bytes} (h : commandTextAllowed command = true) :
    command.length ≤ maxAnalysisLen := by
  by_contra hlen
  rw [commandTextAllowed, if_pos (by omega)] at h
  cases h

theorem commandTextAllowed_pipe {command : Bytes} (h : commandTextAllowed command = true) :
    ch '|' ∉ command := by
  intro hmem
  rw [commandTextAllowed] at h
  split_ifs at h

/-- The names of the shell, segment by segment. -/
theorem shellNames_of_text {command : CString} (h : commandTextAllowed command.octets = true) :
    shellNames command.octets =
      (segments (normalizeCommand command.octets)).map shellName :=
  shellNames_segments command.noNul (commandTextAllowed_pipe h) (commandTextAllowed_length h)

theorem firstWord_eq {seg : Bytes} (h : ch '\t' ∉ firstWord seg) :
    seg.takeWhile (¬ isBlank ·) = firstWord seg := by
  induction seg with
  | nil => rfl
  | cons b s ih =>
    by_cases hspace : b = ch ' '
    · simp [firstWord, isBlank, hspace]
    · have hcons : firstWord (b :: s) = b :: firstWord s := by simp [firstWord, hspace]
      rw [hcons, List.mem_cons, not_or] at h
      have hblank : isBlank b = false := by simp [isBlank, hspace, Ne.symm h.1]
      rw [hcons, List.takeWhile_cons_of_pos (by simp [hblank]), ih h.2]

/-- The shell takes the name of a plain word as the policy does. -/
theorem PlainWord.shellName_eq {seg : Bytes} (h : PlainWord seg) : shellName seg = baseName seg := by
  rw [shellName, firstWord_eq h.noTab, baseName, List.take_of_length_le h.short]

/-- Where all first words are plain, the names agree. -/
theorem namesAgree_of_plain {command : CString} (h : commandTextAllowed command.octets = true)
    (hplain : ∀ seg ∈ segments (normalizeCommand command.octets), PlainWord seg) :
    NamesAgree command.octets := by
  intro name hname
  rw [shellNames_of_text h] at hname
  obtain ⟨seg, hseg, rfl⟩ := List.mem_map.mp hname
  refine ⟨baseName seg, mem_lookedUp.mpr ⟨seg, hseg, rfl, (hplain seg hseg).named⟩, ?_⟩
  rw [(hplain seg hseg).shellName_eq]

/-! ## Commands that are let through -/

section Policies

variable {p : SecurityPolicy} {command : CString}

/-- What the policy allows. -/
theorem scPolicyIsCommandAllowed_iff : scPolicyIsCommandAllowed p command = true ↔
    p.autonomy ≠ .locked ∧ commandTextAllowed command.octets = true ∧
      (∀ seg ∈ segments (normalizeCommand command.octets), skipEnvAssignments seg = seg ∧
        (baseName seg ≠ [] → p.allowlist.any (entryMatches (baseName seg)) = true ∧
          isArgsSafe (baseName seg) seg = true)) ∧
      ∃ seg ∈ segments (normalizeCommand command.octets), baseName seg ≠ [] := by
  unfold scPolicyIsCommandAllowed
  by_cases hlock : p.autonomy = .locked
  · simp [hlock]
  · by_cases htext : commandTextAllowed command.octets = true
    · simp [hlock, htext, allowedLoop_iff]
    · simp [hlock, htext]

theorem scPolicyValidateCommand_ok {approved : Bool} {risk : CommandRiskLevel}
    (h : scPolicyValidateCommand p command approved = .ok risk) :
    scPolicyIsCommandAllowed p command = true ∧ (p.blockHighRiskCommands = true →
      scPolicyCommandRiskLevel command.octets ≠ .high) := by
  unfold scPolicyValidateCommand at h
  simp only at h
  split_ifs at h with hallowed hblock
  exact ⟨by simpa using hallowed, fun hb hhigh => hblock ⟨hhigh, hb⟩⟩

/-- Only `*` itself is `*` in either case of letters. -/
theorem sameFold_star {s : Bytes} (h : SameFold s (ascii "*")) : s = ascii "*" := by
  have hone : ∀ b : UInt8, toLower b = toLower (ch '*') → b = ch '*' := by
    intro b hb
    exact eq_of_toLower_eq (by decide) (hb.trans (by decide))
  obtain ⟨b, rfl⟩ : ∃ b, s = [b] :=
    List.length_eq_one_iff.mp (by simpa [ascii] using congrArg List.length h)
  exact congrArg (fun b => [b]) (hone b (List.cons.inj h).1)

theorem entryMatches_iff (hstar : NoStar p) {a : CString} (ha : some a ∈ p.allowlist)
    (base : Bytes) : entryMatches base (some a) = true ↔ SameFold a.octets base := by
  simp [entryMatches, hstar a ha]

/-- An allowed command passes the tests on its text, and its looked up names are allowed. -/
theorem passable_of_allowed (hstar : NoStar p) (h : scPolicyIsCommandAllowed p command = true) :
    Passable command.octets ∧
      ∀ base ∈ lookedUp command.octets, ∃ a, some a ∈ p.allowlist ∧ SameFold a.octets base := by
  obtain ⟨-, htext, hsegs, seg, hseg, hne⟩ := scPolicyIsCommandAllowed_iff.mp h
  have hfound : ∀ base ∈ lookedUp command.octets,
      ∃ a, some a ∈ p.allowlist ∧ SameFold a.octets base := by
    intro base hbase
    obtain ⟨seg, hseg, rfl, hne⟩ := mem_lookedUp.mp hbase
    obtain ⟨entry, hentry, hmatch⟩ := List.any_eq_true.mp ((hsegs seg hseg).2 hne).1
    cases entry with
    | none => cases hmatch
    | some a => exact ⟨a, hentry, (entryMatches_iff hstar hentry _).mp hmatch⟩
  refine ⟨⟨htext, List.ne_nil_of_mem (mem_lookedUp.mpr ⟨seg, hseg, rfl, hne⟩), ?_,
    fun seg hseg => (hsegs seg hseg).1, fun seg hseg hne => ((hsegs seg hseg).2 hne).2⟩, hfound⟩
  intro hmem
  obtain ⟨a, ha, hfold⟩ := hfound _ hmem
  exact hstar a ha (sameFold_star hfold)

/-- Where the names agree, a validated command is sound. -/
theorem sound_of_namesAgree {approved : Bool} {risk : CommandRiskLevel} (hstar : NoStar p)
    (h : scPolicyValidateCommand p command approved = .ok risk)
    (hagree : NamesAgree command.octets) : Sound p command.octets := by
  obtain ⟨hallowed, hrisk⟩ := scPolicyValidateCommand_ok h
  obtain ⟨hpass, hfound⟩ := passable_of_allowed hstar hallowed
  refine ⟨fun name hname => ?_, fun hblock name hname => ?_⟩
  · obtain ⟨base, hbase, hfold⟩ := hagree name hname
    obtain ⟨a, ha, hmatch⟩ := hfound base hbase
    exact ⟨a, ha, hmatch.trans hfold⟩
  · obtain ⟨base, hbase, hfold⟩ := hagree name hname
    obtain ⟨seg, hseg, rfl, -⟩ := mem_lookedUp.mp hbase
    have hhigh := hrisk hblock
    rw [scPolicyCommandRiskLevel,
      if_neg (Nat.not_lt.mpr (commandTextAllowed_length hpass.text))] at hhigh
    have hlow := riskLoop_ne_high hhigh seg hseg
    rw [hpass.plain seg hseg] at hlow
    rwa [isHighRiskCommand_congr (sameFold_map_left.mpr hfold)] at hlow

end Policies

/-! ## The policy that allows what is looked up -/

theorem segmentLoop_noNul {fuel : ℕ} {s seg : Bytes} (h : seg ∈ segmentLoop fuel s) : 0 ∉ seg := by
  induction fuel generalizing s with
  | zero => simp [segmentLoop] at h
  | succ fuel ih =>
    rw [segmentLoop] at h
    split_ifs at h with hnil
    · simp at h
    · rcases List.mem_cons.mp h with rfl | h
      · intro hmem
        simpa using List.mem_takeWhile_imp hmem
      · exact ih h

theorem lookedUp_noNul {command base : Bytes} (h : base ∈ lookedUp command) : 0 ∉ base := by
  obtain ⟨seg, hseg, rfl, -⟩ := mem_lookedUp.mp h
  intro hmem
  refine segmentLoop_noNul hseg ?_
  have hword := (afterLast_suffix _ _).subset hmem
  exact (List.takeWhile_prefix _).subset ((List.take_prefix _ _).subset hword)

/-- The policy that allows the names that are looked up for a command, and no others. -/
def exactPolicy (command : Bytes) : SecurityPolicy where
  autonomy := .autonomous
  allowedCommands := (lookedUp command).pmap (fun base h => some ⟨base, h⟩)
    fun _ h => lookedUp_noNul h
  requireApprovalForMediumRisk := false
  blockHighRiskCommands := false

theorem mem_allowlist_exactPolicy {command : Bytes} (h : lookedUp command ≠ []) {a : CString} :
    some a ∈ (exactPolicy command).allowlist ↔ a.octets ∈ lookedUp command := by
  have hne : (exactPolicy command).allowedCommands ≠ [] := by
    simpa [exactPolicy] using h
  rw [SecurityPolicy.allowlist, if_neg hne]
  simp only [exactPolicy, List.mem_pmap, Option.some.injEq]
  constructor
  · rintro ⟨base, hbase, rfl⟩
    exact hbase
  · exact fun ha => ⟨a.octets, ha, rfl⟩

/-- It validates every command that passes the tests on its text. -/
theorem exactPolicy_validates {command : CString} (h : Passable command.octets) :
    NoStar (exactPolicy command.octets) ∧
      ∃ risk, scPolicyValidateCommand (exactPolicy command.octets) command true = .ok risk := by
  refine ⟨fun a ha hstar => h.noStar (hstar ▸ (mem_allowlist_exactPolicy h.named).mp ha), ?_⟩
  have hallowed : scPolicyIsCommandAllowed (exactPolicy command.octets) command = true := by
    refine scPolicyIsCommandAllowed_iff.mpr ⟨by simp [exactPolicy], h.text, fun seg hseg =>
      ⟨h.plain seg hseg, fun hne => ⟨?_, h.safe seg hseg hne⟩⟩, ?_⟩
    · have hmem : baseName seg ∈ lookedUp command.octets := mem_lookedUp.mpr ⟨seg, hseg, rfl, hne⟩
      refine List.any_eq_true.mpr ⟨some ⟨baseName seg, lookedUp_noNul hmem⟩,
        (mem_allowlist_exactPolicy h.named).mpr hmem, ?_⟩
      simp [entryMatches, SameFold.refl]
    · obtain ⟨base, hbase⟩ := List.exists_mem_of_ne_nil _ h.named
      obtain ⟨seg, hseg, rfl, hne⟩ := mem_lookedUp.mp hbase
      exact ⟨seg, hseg, hne⟩
  refine ⟨scPolicyCommandRiskLevel command.octets, ?_⟩
  rw [scPolicyValidateCommand, hallowed]
  simp [exactPolicy]

/-- The commands validated by policies that do not allow everything are sound exactly where
the tests on the text turn the command down, or the policy looks up every name that the
shell runs. -/
theorem scPolicyValidateCommand_sound_iff (command : CString) :
    (∀ (p : SecurityPolicy) (approved : Bool) (risk : CommandRiskLevel), NoStar p →
        scPolicyValidateCommand p command approved = .ok risk → Sound p command.octets) ↔
      (Passable command.octets → NamesAgree command.octets) := by
  constructor
  · intro hsound hpass name hname
    obtain ⟨hstar, risk, hok⟩ := exactPolicy_validates hpass
    obtain ⟨a, ha, hfold⟩ := (hsound _ _ _ hstar hok).allowed name hname
    exact ⟨a.octets, (mem_allowlist_exactPolicy hpass.named).mp ha, hfold⟩
  · intro hagree p approved risk hstar hok
    have hpass := (passable_of_allowed hstar (scPolicyValidateCommand_ok hok).1).1
    exact sound_of_namesAgree hstar hok (hagree hpass)

theorem ls_noNul : 0 ∉ ascii "ls" := by decide

/-- A policy for `ls` alone. -/
def lsPolicy : SecurityPolicy where
  autonomy := .autonomous
  allowedCommands := [some ⟨ascii "ls", ls_noNul⟩]
  requireApprovalForMediumRisk := false
  blockHighRiskCommands := true

/-- The shell runs `rm`, and the policy looks up `ls`. -/
def tabCommand : CString := ⟨ascii "rm\t/ls", by decide⟩

theorem scPolicyValidateCommand_tab : NoStar lsPolicy ∧
    scPolicyValidateCommand lsPolicy tabCommand true = .ok .low ∧
      ¬ Sound lsPolicy tabCommand.octets := by
  have hlist : ∀ a, some a ∈ lsPolicy.allowlist → a.octets = ascii "ls" := by
    intro a ha
    have hmem : some a ∈ [some (⟨ascii "ls", ls_noNul⟩ : CString)] := ha
    simp only [List.mem_singleton, Option.some.injEq] at hmem
    rw [hmem]
  refine ⟨fun a ha hstar => ?_, by decide, fun hsound => ?_⟩
  · rw [hlist a ha] at hstar
    exact absurd hstar (by decide)
  · obtain ⟨a, ha, hfold⟩ := hsound.allowed (ascii "rm") (by decide)
    rw [hlist a ha] at hfold
    exact absurd hfold (by decide)

end SeaClaw.Security
