import SeaClaw.Cron.CrontabIds

/-!
# What the crontab keeps

Each call rewrites the file from the entries it loads. Those it does not see are lost: all of
them where the file does not open or is too long, those beyond the first 256, and those whose
copies find no memory.
-/

namespace SeaClaw.Cron

open SeaClaw.Lib SeaClaw.Json

/-! ## What a call sees -/

/-- The load of a call reads the entry at a place of a file. -/
def CronAnswers.Sees (a : CronAnswers) (es : List CrontabEntry) (i : ℕ) : Prop :=
  a.opensRead = true ∧ (crontabText es).length < 65536 ∧ i < crontabMaxEntries ∧
    a.copies i = true

section Load

variable {a : CronAnswers} {es loaded : List CrontabEntry}

theorem loadItems_cons (copies : ℕ → Bool) (i : ℕ) (e : CrontabEntry) (items : List Value) :
    loadItems copies i (entryItem e :: items) =
      if copies i then e :: loadItems copies (i + 1) items
      else loadItems copies (i + 1) items := by
  rw [loadItems]
  simp only [entryOfItem_entryItem]

theorem loadItems_take_sublist (copies : ℕ → Bool) (k n : ℕ) (es : List CrontabEntry) :
    (loadItems copies k ((es.map entryItem).take n)).Sublist es := by
  have h := loadItems_sublist copies k ((es.map entryItem).take n)
  rw [← List.map_take, filterMap_entryItem] at h
  rw [← List.map_take]
  exact h.trans (List.take_sublist n es)

/-- Of the entries with a property, the loop over the items keeps all exactly if it comes to
each of them and its copies find memory. -/
theorem filter_loadItems_iff (copies : ℕ → Bool) (p : CrontabEntry → Bool) (k n : ℕ)
    (es : List CrontabEntry) :
    (loadItems copies k ((es.map entryItem).take n)).filter p = es.filter p ↔
      ∀ i e, es[i]? = some e → p e = true → i < n ∧ copies (k + i) = true := by
  induction es generalizing k n with
  | nil => simp [loadItems]
  | cons e es ih =>
    cases n with
    | zero =>
      rw [List.take_zero, loadItems, List.filter_nil, eq_comm, List.filter_eq_nil_iff]
      constructor
      · intro h i e' hi hp
        exact absurd hp (h e' (List.mem_of_getElem? hi))
      · intro h e' he' hp
        obtain ⟨i, hi⟩ := List.mem_iff_getElem?.mp he'
        exact absurd (h i e' hi hp).1 (Nat.not_lt_zero i)
    | succ n =>
      have hshift : (∀ i e', (e :: es)[i]? = some e' → p e' = true →
          i < n + 1 ∧ copies (k + i) = true) ↔
            (p e = true → copies k = true) ∧
              ∀ i e', es[i]? = some e' → p e' = true → i < n ∧ copies (k + 1 + i) = true := by
        constructor
        · intro h
          refine ⟨fun hp => (h 0 e rfl hp).2, fun i e' hi hp => ?_⟩
          obtain ⟨hlt, hcopy⟩ := h (i + 1) e' (by rwa [List.getElem?_cons_succ]) hp
          refine ⟨by omega, ?_⟩
          rwa [Nat.add_assoc, Nat.add_comm 1]
        · rintro ⟨hfirst, hrest⟩ i e' hi hp
          cases i with
          | zero =>
            obtain rfl := Option.some.inj hi
            exact ⟨Nat.succ_pos n, hfirst hp⟩
          | succ i =>
            rw [List.getElem?_cons_succ] at hi
            obtain ⟨hlt, hcopy⟩ := hrest i e' hi hp
            refine ⟨by omega, ?_⟩
            rwa [Nat.add_assoc, Nat.add_comm 1] at hcopy
      rw [hshift, ← ih, List.map_cons, List.take_succ_cons, loadItems_cons]
      have hsub : (loadItems copies (k + 1) ((es.map entryItem).take n)).Sublist es :=
        loadItems_take_sublist copies (k + 1) n es
      cases hp : p e with
      | false =>
        rw [List.filter_cons_of_neg (by simp [hp])]
        split_ifs
        · rw [List.filter_cons_of_neg (by simp [hp])]
          simp
        · simp
      | true =>
        rw [List.filter_cons_of_pos hp]
        split_ifs with hcopy
        · rw [List.filter_cons_of_pos hp, List.cons.injEq]
          simp [hcopy]
        · -- an entry that is not copied makes the list too short
          refine iff_of_false (fun heq => ?_) fun h => hcopy (h.1 rfl)
          have hle := (hsub.filter p).length_le
          rw [heq, List.length_cons] at hle
          omega

/-- What a load of a written file finds. -/
theorem scCrontabLoad_text (a : CronAnswers) (es : List CrontabEntry) :
    scCrontabLoad a (some (crontabText es)) =
      if a.opensRead = false then .ok (if a.emptyMemory then some [] else none)
      else if (crontabText es).length ≥ 65536 then .ok none
      else if a.bufMemory = false then .error .outOfMemory
      else if a.outMemory = false then .error .outOfMemory
      else .ok (some (loadItems a.copies 0 ((es.map entryItem).take crontabMaxEntries))) := by
  have hpos : ¬ (crontabText es).length ≤ 0 := by
    simp [crontabText, scJsonStringify, stringifyValue]
  rw [scCrontabLoad.eq_def]
  cases a.opensRead with
  | false => simp only [if_true]
  | true =>
    simp only [hpos, false_or, scJsonParse_crontabText, Bool.true_eq_false, if_false]

/-- A call keeps all entries with a property exactly if it sees each of them. -/
theorem filter_loaded_iff {r : Option (List CrontabEntry)}
    (hload : scCrontabLoad a (some (crontabText es)) = .ok r) (p : CrontabEntry → Bool) :
    (r.getD []).filter p = es.filter p ↔
      ∀ i e, es[i]? = some e → p e = true → a.Sees es i := by
  have hnone : ([] : List CrontabEntry) = es.filter p ↔
      ∀ (i : ℕ) e, es[i]? = some e → p e = true → False := by
    rw [eq_comm, List.filter_eq_nil_iff]
    constructor
    · intro h i e hi hp
      exact h e (List.mem_of_getElem? hi) hp
    · intro h e he hp
      obtain ⟨i, hi⟩ := List.mem_iff_getElem?.mp he
      exact h i e hi hp
  rw [scCrontabLoad_text] at hload
  split_ifs at hload with hopens hempty hlong
  · rw [← Except.ok.inj hload, Option.getD_some, List.filter_nil, hnone]
    simp [CronAnswers.Sees, hopens]
  · rw [← Except.ok.inj hload, Option.getD_none, List.filter_nil, hnone]
    simp [CronAnswers.Sees, hopens]
  · rw [← Except.ok.inj hload, Option.getD_none, List.filter_nil, hnone]
    simp [CronAnswers.Sees, Nat.not_lt.mpr hlong]
  · rw [← Except.ok.inj hload, Option.getD_some, filter_loadItems_iff]
    rw [Bool.not_eq_false] at hopens
    simp [CronAnswers.Sees, hopens, Nat.not_le.mp hlong]

end Load

/-! ## Additions and removals -/

/-- An addition that succeeds leaves the entries as they are and the new one behind them, under
the identifier that it returns. -/
def AddKeeps (a : CronAnswers) (es : List CrontabEntry) (schedule command : Bytes) : Prop :=
  ∀ id file, scCrontabAdd a (some (crontabText es)) schedule command = (.ok id, file) →
    ∃ e, entriesOf file = es ++ [e] ∧ e.id = id ∧ e.schedule.octets = schedule ∧
      e.command.octets = command ∧ e.enabled = true

/-- A removal leaves the entries with other identifiers as they are. -/
def RemoveKeeps (a : CronAnswers) (es : List CrontabEntry) (id : CString) : Prop :=
  (entriesOf (scCrontabRemove a (some (crontabText es)) id).2).filter (·.id ≠ id) =
    es.filter (·.id ≠ id)

/-- If the addition is saved, the call sees all entries, and the texts have no NUL. -/
def AddSees (a : CronAnswers) (es : List CrontabEntry) (schedule command : Bytes) : Prop :=
  a.newMemory = true → a.Saves → ∀ r, scCrontabLoad a (some (crontabText es)) = .ok r →
    (∀ i < es.length, a.Sees es i) ∧ 0 ∉ schedule ∧ 0 ∉ command

/-- If the removal is saved, the call sees all entries with other identifiers. -/
def RemoveSees (a : CronAnswers) (es : List CrontabEntry) (id : CString) : Prop :=
  a.Saves → ∀ loaded, scCrontabLoad a (some (crontabText es)) = .ok (some loaded) →
    ∀ i e, es[i]? = some e → e.id ≠ id → a.Sees es i

section Keeps

variable {a : CronAnswers} {es : List CrontabEntry}

/-- A call loads the whole list exactly if it sees each entry. -/
theorem loaded_eq_iff {r : Option (List CrontabEntry)}
    (hload : scCrontabLoad a (some (crontabText es)) = .ok r) :
    r.getD [] = es ↔ ∀ i < es.length, a.Sees es i := by
  have h := filter_loaded_iff hload fun _ => true
  simp only [List.filter_true, forall_true_left] at h
  rw [h]
  constructor
  · intro hsees i hi
    exact hsees i es[i] (List.getElem?_eq_getElem hi)
  · intro hsees i e hi
    exact hsees i (List.getElem?_eq_some_iff.mp hi).1

theorem addKeeps_iff (schedule command : Bytes) :
    AddKeeps a es schedule command ↔ AddSees a es schedule command := by
  rcases scCrontabAdd_cases a (some (crontabText es)) schedule command with
    ⟨e, hadd, hnot⟩ | ⟨r, hload, hmemory, hsaves, hadd⟩
  · refine iff_of_true (fun id file h => ?_) fun hmemory hsaves r hload => ?_
    · rw [hadd] at h
      cases h
    · exact absurd ⟨hmemory, hsaves⟩ (hnot r hload)
  · have hsees : AddSees a es schedule command ↔ r.getD [] = es ∧ 0 ∉ schedule ∧ 0 ∉ command := by
      rw [loaded_eq_iff hload]
      constructor
      · intro h
        exact h hmemory hsaves r hload
      · intro h _ _ r' hload'
        exact h
    rw [hsees]
    constructor
    · intro h
      obtain ⟨e, hentries, -, hschedule, hcommand, -⟩ := h _ _ hadd
      rw [entriesOf_crontabText] at hentries
      obtain ⟨hold, hnew⟩ := List.append_inj' hentries rfl
      obtain rfl := List.singleton_inj.mp hnew
      exact ⟨hold, CString.octets_ofBytes.mp hschedule, CString.octets_ofBytes.mp hcommand⟩
    · rintro ⟨hold, hschedule, hcommand⟩ id file h
      rw [hadd, Prod.mk.injEq, Except.ok.injEq] at h
      obtain ⟨rfl, rfl⟩ := h
      refine ⟨newEntry (r.getD []).length schedule command, ?_, rfl,
        CString.octets_ofBytes.mpr hschedule, CString.octets_ofBytes.mpr hcommand, rfl⟩
      rw [entriesOf_crontabText, hold]

theorem removeKeeps_iff (id : CString) : RemoveKeeps a es id ↔ RemoveSees a es id := by
  rw [RemoveKeeps]
  rcases scCrontabRemove_cases a (some (crontabText es)) id with
    ⟨hremove, hnot⟩ | ⟨loaded, hload, hsaves, hremove⟩
  · rw [hremove, entriesOf_crontabText]
    refine iff_of_true rfl fun hsaves loaded hload => ?_
    exact absurd hsaves (hnot loaded hload)
  · rw [hremove, entriesOf_crontabText, List.filter_filter]
    have h := filter_loaded_iff hload fun e => e.id ≠ id
    simp only [Option.getD_some, decide_eq_true_eq] at h
    simp only [Bool.and_self, h]
    constructor
    · intro hsees _ loaded' hload'
      exact hsees
    · intro hsees
      exact hsees hsaves loaded hload

end Keeps

/-- Whatever a written file holds: an addition and a removal lose nothing exactly if they see
what they are to keep, and no NUL cuts a text that is added. -/
theorem crontab_keeps_iff (a : CronAnswers) (es : List CrontabEntry) (schedule command : Bytes)
    (id : CString) :
    (AddKeeps a es schedule command ↔ AddSees a es schedule command) ∧
      (RemoveKeeps a es id ↔ RemoveSees a es id) :=
  ⟨addKeeps_iff schedule command, removeKeeps_iff id⟩

/-- So many entries, numbered from one. -/
def numbered (n : ℕ) : List CrontabEntry :=
  (List.range n).map fun i => newEntry i (ascii "* * * * *") (ascii "a")

theorem load_allGranted (es : List CrontabEntry) :
    ∃ r, scCrontabLoad allGranted (some (crontabText es)) = .ok r := by
  rw [scCrontabLoad_text]
  split_ifs with h₁ h₂ h₃ h₄ h₅
  · exact ⟨_, rfl⟩
  · exact ⟨_, rfl⟩
  · exact ⟨_, rfl⟩
  · cases h₄
  · cases h₅
  · exact ⟨_, rfl⟩

/-- An addition to 257 entries succeeds and drops the last of them. -/
theorem crontab_drops_last :
    ¬ AddKeeps allGranted (numbered 257) (ascii "* * * * *") (ascii "b") := by
  rw [addKeeps_iff]
  intro h
  obtain ⟨r, hload⟩ := load_allGranted (numbered 257)
  have hlength : 256 < (numbered 257).length := by
    rw [numbered, List.length_map, List.length_range]
    omega
  obtain ⟨-, -, hlt, -⟩ := (h rfl ⟨rfl, rfl⟩ r hload).1 256 hlength
  exact absurd hlt (by decide)

end SeaClaw.Cron
