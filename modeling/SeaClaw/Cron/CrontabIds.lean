import SeaClaw.Cron.Crontab
import SeaClaw.Lib.Machine

/-!
# Identifiers of the crontab

A new entry is named by the number of entries, which an entry that is still there may be named
by after a removal. What a call does to the names is what it does to those of the entries it
loads.
-/

namespace SeaClaw.Cron

open SeaClaw.Lib SeaClaw.Json

/-! ## Runs of calls -/

/-- A file, the entry that the last call added with the identifier that it returned, and how
many entries the last call removed. -/
structure CronState where
  file : Option Bytes
  added : Option (CString × CrontabEntry)
  lost : ℕ

/-- A call, with what memory and disk answer to it. -/
inductive CronOp where
  | add (schedule command : Bytes) (a : CronAnswers)
  | remove (id : CString) (a : CronAnswers)

/-- One call. -/
def cronStep (s : CronState) : CronOp → Option CronState
  | .add schedule command a =>
    match scCrontabAdd a s.file schedule command with
    | (.ok id, file) => some ⟨file, some (id, ⟨id, .ofBytes schedule, .ofBytes command, true⟩), 0⟩
    | (.error _, file) => some ⟨file, none, 0⟩
  | .remove id a =>
    let file := (scCrontabRemove a s.file id).2
    some ⟨file, none, (entriesOf s.file).length - (entriesOf file).length⟩

/-- Identifiers name entries: those of the file are different, the one that was returned names
exactly the entry that was added, and a removal removes at most one entry. -/
structure IdsName (s : CronState) : Prop where
  ids : ((entriesOf s.file).map (·.id)).Nodup
  added : ∀ id e, s.added = some (id, e) → (entriesOf s.file).filter (·.id = id) = [e]
  lost : s.lost ≤ 1

/-- The disk lets a call save its entries. -/
def CronAnswers.Saves (a : CronAnswers) : Prop := a.ensureDir = .ok () ∧ a.opensWrite = true

/-- An addition that is saved finds its identifier unused among the entries it loads; a removal
that is saved overlooks or removes at most one entry. -/
def UsesFresh (s : CronState) : CronOp → Prop
  | .add _ _ a => a.newMemory = true → a.Saves → ∀ r, scCrontabLoad a s.file = .ok r →
    ∀ e ∈ r.getD [], e.id ≠ generateId crontabIdMax (r.getD []).length
  | .remove id a => a.Saves → ∀ es, scCrontabLoad a s.file = .ok (some es) →
    (entriesOf s.file).length - es.length + es.countP (·.id = id) ≤ 1

/-- A file as the calls leave it. -/
def Written (file : Option Bytes) : Prop :=
  file = none ∨ file = some [] ∨ ∃ es, file = some (crontabText es)

/-! ## What a call loads and saves -/

section Calls

variable {a : CronAnswers} {file : Option Bytes}

/-- A call loads some of the entries of the file, in their order. -/
theorem load_sublist (h : Written file) {r : Option (List CrontabEntry)}
    (hload : scCrontabLoad a file = .ok r) : (r.getD []).Sublist (entriesOf file) := by
  rw [scCrontabLoad.eq_def] at hload
  rcases h with rfl | rfl | ⟨es, rfl⟩
  · simp only at hload
    split_ifs at hload <;> rw [← Except.ok.inj hload] <;> exact List.Sublist.refl []
  · cases hopens : a.opensRead with
    | false =>
      simp only [hopens] at hload
      split_ifs at hload <;> rw [← Except.ok.inj hload] <;> exact List.Sublist.refl []
    | true =>
      simp only [hopens, List.length_nil, le_refl, true_or, if_true] at hload
      rw [← Except.ok.inj hload]
      exact List.Sublist.refl []
  · rw [entriesOf_crontabText]
    cases hopens : a.opensRead with
    | false =>
      simp only [hopens] at hload
      split_ifs at hload <;> rw [← Except.ok.inj hload] <;> exact List.nil_sublist es
    | true =>
      simp only [hopens, scJsonParse_crontabText] at hload
      split_ifs at hload
      · rw [← Except.ok.inj hload]
        exact List.nil_sublist es
      · rw [← Except.ok.inj hload, Option.getD_some]
        refine (loadItems_sublist a.copies 0 _).trans ?_
        rw [← List.map_take, filterMap_entryItem]
        exact List.take_sublist _ es

theorem save_of_saves (h : a.Saves) (es : List CrontabEntry) :
    scCrontabSave a file (some es) = (.ok (), some (crontabText es)) := by
  simp only [scCrontabSave, h.1, h.2, if_true]

theorem save_of_not_saves (file : Option Bytes) (h : ¬ a.Saves) (es : List CrontabEntry) :
    ∃ e, scCrontabSave a file (some es) = (.error e, file) := by
  rw [scCrontabSave]
  cases hdir : a.ensureDir with
  | error e => exact ⟨e, rfl⟩
  | ok _ =>
    have hopens : a.opensWrite = false := by
      rw [Bool.eq_false_iff]
      exact fun hopens => h ⟨hdir, hopens⟩
    simp only [hopens]
    exact ⟨.io, rfl⟩

/-- An addition fails and changes nothing, or it appends the new entry to those it loads. -/
theorem scCrontabAdd_cases (a : CronAnswers) (file : Option Bytes) (schedule command : Bytes) :
    (∃ e, scCrontabAdd a file schedule command = (.error e, file) ∧
      ∀ r, scCrontabLoad a file = .ok r → ¬ (a.newMemory = true ∧ a.Saves)) ∨
    ∃ r, scCrontabLoad a file = .ok r ∧ a.newMemory = true ∧ a.Saves ∧
      scCrontabAdd a file schedule command =
        (.ok (generateId crontabIdMax (r.getD []).length), some (crontabText
          (r.getD [] ++ [newEntry (r.getD []).length schedule command]))) := by
  rw [scCrontabAdd]
  cases hload : scCrontabLoad a file with
  | error e => exact Or.inl ⟨e, rfl, by simp⟩
  | ok r =>
    cases hmemory : a.newMemory with
    | false => exact Or.inl ⟨.outOfMemory, rfl, by simp⟩
    | true =>
      by_cases hsaves : a.Saves
      · refine Or.inr ⟨r, rfl, rfl, hsaves, ?_⟩
        simp only [save_of_saves hsaves]
        rfl
      · obtain ⟨e, he⟩ := save_of_not_saves file hsaves
          (r.getD [] ++ [newEntry (r.getD []).length schedule command])
        refine Or.inl ⟨e, ?_, by simp [hsaves]⟩
        simp only [he]
        rfl

/-- A removal changes nothing, or it leaves the entries it loads without those it removes. -/
theorem scCrontabRemove_cases (a : CronAnswers) (file : Option Bytes) (id : CString) :
    ((scCrontabRemove a file id).2 = file ∧
      ∀ es, scCrontabLoad a file = .ok (some es) → ¬ a.Saves) ∨
    ∃ es, scCrontabLoad a file = .ok (some es) ∧ a.Saves ∧
      (scCrontabRemove a file id).2 = some (crontabText (es.filter fun e => e.id ≠ id)) := by
  rw [scCrontabRemove]
  cases hload : scCrontabLoad a file with
  | error e => exact Or.inl ⟨rfl, by simp⟩
  | ok r =>
    cases r with
    | none => exact Or.inl ⟨rfl, by simp⟩
    | some es =>
      by_cases hsaves : a.Saves
      · refine Or.inr ⟨es, rfl, hsaves, ?_⟩
        simp only [Option.map_some, save_of_saves hsaves]
      · obtain ⟨e, he⟩ := save_of_not_saves file hsaves (es.filter fun e => e.id ≠ id)
        refine Or.inl ⟨?_, fun _ _ => hsaves⟩
        simp only [Option.map_some, he]

end Calls

/-! ## Steps -/

section Steps

variable {s : CronState}

/-- The names stay good when an addition changes nothing. -/
theorem IdsName.unchanged (h : IdsName s) : IdsName ⟨s.file, none, 0⟩ :=
  ⟨h.ids, by simp, Nat.zero_le 1⟩

/-- Entries and one more are named apart exactly if they are, and the one is named otherwise. -/
theorem idsName_append_iff {es : List CrontabEntry} (h : (es.map (·.id)).Nodup)
    (e : CrontabEntry) :
    IdsName ⟨some (crontabText (es ++ [e])), some (e.id, e), 0⟩ ↔ ∀ b ∈ es, b.id ≠ e.id := by
  constructor
  · intro hname b hb hid
    have hids := hname.ids
    simp only [entriesOf_crontabText, List.map_append, List.nodup_append] at hids
    exact hids.2.2 b.id (List.mem_map_of_mem hb) e.id (by simp) hid
  · intro hfresh
    refine ⟨?_, ?_, Nat.zero_le 1⟩
    · simp only [entriesOf_crontabText, List.map_append, List.nodup_append]
      refine ⟨h, by simp, ?_⟩
      intro i hi j hj hij
      obtain ⟨b, hb, rfl⟩ := List.mem_map.mp hi
      rw [List.map_singleton, List.mem_singleton] at hj
      exact hfresh b hb (hij.trans hj)
    · intro id e' hadded
      obtain ⟨rfl, rfl⟩ := Prod.mk.inj (Option.some.inj hadded)
      have hnone : es.filter (fun b => b.id = e.id) = [] := by
        rw [List.filter_eq_nil_iff]
        intro b hb
        simpa using hfresh b hb
      rw [entriesOf_crontabText, List.filter_append, hnone]
      simp

theorem cronStep_add (hs : Written s.file) (schedule command : Bytes) (a : CronAnswers) :
    ∃ s', cronStep s (.add schedule command a) = some s' ∧ Written s'.file ∧
      (IdsName s → (IdsName s' ↔ UsesFresh s (.add schedule command a))) := by
  rw [cronStep]
  rcases scCrontabAdd_cases a s.file schedule command with
    ⟨e, hadd, hnot⟩ | ⟨r, hload, hmemory, hsaves, hadd⟩
  · rw [hadd]
    refine ⟨_, rfl, hs, fun h => iff_of_true h.unchanged ?_⟩
    intro hmemory hsaves r hload
    exact absurd ⟨hmemory, hsaves⟩ (hnot r hload)
  · rw [hadd]
    refine ⟨_, rfl, Or.inr (Or.inr ⟨_, rfl⟩), fun h => ?_⟩
    have hids : ((r.getD []).map (·.id)).Nodup :=
      ((load_sublist hs hload).map _).nodup h.ids
    refine (idsName_append_iff hids (newEntry (r.getD []).length schedule command)).trans ?_
    constructor
    · intro hfresh _ _ r' hload'
      obtain rfl : r = r' := Except.ok.inj (hload.symm.trans hload')
      exact hfresh
    · intro hfresh
      exact hfresh hmemory hsaves r hload

theorem cronStep_remove (hs : Written s.file) (id : CString) (a : CronAnswers) :
    ∃ s', cronStep s (.remove id a) = some s' ∧ Written s'.file ∧
      (IdsName s → (IdsName s' ↔ UsesFresh s (.remove id a))) := by
  rw [cronStep]
  rcases scCrontabRemove_cases a s.file id with ⟨hremove, hnot⟩ | ⟨es, hload, hsaves, hremove⟩
  · simp only [hremove, Nat.sub_self]
    refine ⟨_, rfl, hs, fun h => iff_of_true h.unchanged ?_⟩
    intro hsaves es hload
    exact absurd hsaves (hnot es hload)
  · simp only [hremove, entriesOf_crontabText]
    refine ⟨_, rfl, Or.inr (Or.inr ⟨_, rfl⟩), fun h => ?_⟩
    have hsub : es.Sublist (entriesOf s.file) := load_sublist hs hload
    have hcount : es.length = es.countP (·.id = id) + (es.filter fun e => e.id ≠ id).length := by
      rw [← List.countP_eq_length_filter]
      simpa using es.length_eq_countP_add_countP fun e => e.id = id
    have hlost : (entriesOf s.file).length - (es.filter fun e => e.id ≠ id).length =
        (entriesOf s.file).length - es.length + es.countP (·.id = id) := by
      have := hsub.length_le
      omega
    constructor
    · intro hname _ es' hload'
      obtain rfl : es = es' := Option.some.inj (Except.ok.inj (hload.symm.trans hload'))
      rw [← hlost]
      exact hname.lost
    · intro hfresh
      refine ⟨?_, by simp, ?_⟩
      · rw [entriesOf_crontabText]
        exact ((List.filter_sublist.trans hsub).map _).nodup h.ids
      · show _ - _ ≤ 1
        rw [hlost]
        exact hfresh hsaves es hload

theorem cronStep_spec (hs : Written s.file) (op : CronOp) :
    ∃ s', cronStep s op = some s' ∧ Written s'.file ∧
      (IdsName s → (IdsName s' ↔ UsesFresh s op)) := by
  cases op with
  | add schedule command a => exact cronStep_add hs schedule command a
  | remove id a => exact cronStep_remove hs id a

end Steps

/-- A file before the first call. -/
def freshCron (file : Option Bytes) : CronState := ⟨file, none, 0⟩

/-- From an empty file, whatever is added and removed: identifiers name entries throughout,
exactly if each addition that is saved finds its identifier unused among the entries it loads,
and each removal that is saved overlooks or removes at most one entry. -/
theorem crontab_ids_iff (file : Option Bytes) (hfile : file = none ∨ file = some [])
    (ops : List CronOp) : Machine.Throughout cronStep IdsName (freshCron file) ops ↔
      Machine.EveryStep cronStep UsesFresh (freshCron file) ops := by
  have hempty : entriesOf file = [] := by
    rcases hfile with rfl | rfl <;> rfl
  refine Machine.throughout_iff_everyStep (I := fun s => Written s.file) ?_ ?_ ?_ ?_ ops
  · intro s op hs
    obtain ⟨s', hs', hwritten, -⟩ := cronStep_spec hs op
    exact ⟨s', hs', hwritten⟩
  · intro s op s' hs h hs'
    obtain ⟨t, ht, -, hiff⟩ := cronStep_spec hs op
    obtain rfl : t = s' := Option.some.inj (ht.symm.trans hs')
    exact hiff h
  · exact hfile.imp_right Or.inl
  · refine ⟨?_, by simp [freshCron], Nat.zero_le 1⟩
    rw [freshCron, hempty]
    exact List.nodup_nil

/-- Memory is found, and files open. -/
def allGranted : CronAnswers where
  opensRead := true
  emptyMemory := true
  bufMemory := true
  outMemory := true
  copies := fun _ => true
  heap := []
  newMemory := true
  ensureDir := .ok ()
  opensWrite := true

/-- A command that runs each minute. -/
def addCommand (command : String) : CronOp := .add (ascii "* * * * *") (ascii command) allGranted

theorem crontab_ids_two : Machine.Throughout cronStep IdsName (freshCron none)
    [addCommand "a", addCommand "b"] := by
  refine (crontab_ids_iff none (Or.inl rfl) _).mpr ⟨?_, fun s hs => ⟨?_, fun _ _ => trivial⟩⟩
  · intro _ _ r hr e he
    have hload : scCrontabLoad allGranted (freshCron none).file = .ok (some []) := rfl
    obtain rfl : some [] = r := Except.ok.inj (hload.symm.trans hr)
    cases he
  · intro _ _ r hr e he
    have hload : (cronStep (freshCron none) (addCommand "a")).map
        (fun s => scCrontabLoad allGranted s.file) =
          some (.ok (some [newEntry 0 (ascii "* * * * *") (ascii "a")])) := by
      decide +kernel
    rw [hs, Option.map_some, Option.some.injEq] at hload
    obtain rfl := Except.ok.inj (hload.symm.trans hr)
    obtain rfl := List.mem_singleton.mp he
    decide

/-- The first of two commands is removed, and a third is added. -/
def addAfterRemoval : List CronOp :=
  [addCommand "a", addCommand "b", .remove (.ofBytes (ascii "1")) allGranted, addCommand "c"]

/-- The second and the third command are both named `2`. -/
theorem crontab_id_twice :
    ¬ Machine.Throughout cronStep IdsName (freshCron none) addAfterRemoval := by
  intro h
  obtain ⟨s, hs, hname⟩ := h.run
  have hids : (Machine.run cronStep (freshCron none) addAfterRemoval).map
      (fun s => (entriesOf s.file).map (·.id)) =
        some [.ofBytes (ascii "2"), .ofBytes (ascii "2")] := by
    decide +kernel
  rw [hs, Option.map_some, Option.some.injEq] at hids
  have hnodup := hname.ids
  rw [hids] at hnodup
  exact absurd hnodup (by decide)

end SeaClaw.Cron
