import SeaClaw.Json.RoundTrip
import SeaClaw.Lib.CString

/-!
# The crontab

The calls load the entries from the file, change the list and save it. The functions of JSON
find memory; what else finds memory, and which files open, is up to the answers to a call.
-/

namespace SeaClaw.Cron

open SeaClaw.Lib SeaClaw.Json

/-- `SC_CRONTAB_MAX_ENTRIES` -/
def crontabMaxEntries : ℕ := 256

/-- `SC_CRONTAB_ID_MAX` -/
def crontabIdMax : ℕ := 64

/-- `sc_crontab_entry_t` -/
structure CrontabEntry where
  id : CString
  schedule : CString
  command : CString
  enabled : Bool
  deriving DecidableEq

/-- What memory and disk answer to a call. -/
structure CronAnswers where
  opensRead : Bool
  /-- whether zero octets of memory have an address -/
  emptyMemory : Bool
  bufMemory : Bool
  outMemory : Bool
  /-- whether the copies of an item find memory -/
  copies : ℕ → Bool
  /-- what stands behind the buffer of the text -/
  heap : Bytes
  /-- whether the longer array and the copies for a new entry find memory -/
  newMemory : Bool
  ensureDir : Except ScError Unit
  opensWrite : Bool

/-- `sc_json_get_bool` -/
def scJsonGetBool (v : Value) (key : Bytes) (default : Bool) : Bool :=
  match scJsonObjectGet v key with
  | some (.bool b) => b
  | _ => default

/-- The entry of an item. An item that is no object has no members. -/
def entryOfItem (item : Value) : Option CrontabEntry :=
  match scJsonGetString item (ascii "id"), scJsonGetString item (ascii "schedule"),
    scJsonGetString item (ascii "command") with
  | some id, some schedule, some command => some
    { id := .ofBytes id
      schedule := .ofBytes schedule
      command := .ofBytes command
      enabled := scJsonGetBool item (ascii "enabled") true }
  | _, _, _ => none

/-- The loop of `sc_crontab_load` over the items, from index `i` on. -/
def loadItems (copies : ℕ → Bool) : ℕ → List Value → List CrontabEntry
  | _, [] => []
  | i, item :: items =>
    match entryOfItem item with
    | none => loadItems copies (i + 1) items
    | some e =>
      if copies i then e :: loadItems copies (i + 1) items else loadItems copies (i + 1) items

/-- `sc_crontab_load`: the array of entries, which may be `NULL`. -/
def scCrontabLoad (a : CronAnswers) (file : Option Bytes) :
    Except ScError (Option (List CrontabEntry)) :=
  match file, a.opensRead with
  | some text, true =>
    if text.length ≤ 0 ∨ text.length ≥ 65536 then .ok none
    else if a.bufMemory = false then .error .outOfMemory
    else
      match scJsonParse text (0 :: a.heap) with
      | .ok (.array items) _ =>
        if a.outMemory = false then .error .outOfMemory
        else .ok (some (loadItems a.copies 0 (items.take crontabMaxEntries)))
      | _ => .ok none
  | _, _ => .ok (if a.emptyMemory then some [] else none)

/-- `generate_id` -/
def generateId (cap count : ℕ) : CString := .ofBytes ((fmtNat (count + 1)).take (cap - 1))

/-- The object of an entry. -/
def entryItem (e : CrontabEntry) : Value :=
  .object (putPair (ascii "enabled") (.bool e.enabled)
    (putPair (ascii "command") (.string e.command.octets)
      (putPair (ascii "schedule") (.string e.schedule.octets)
        (putPair (ascii "id") (.string e.id.octets) []))))

/-- The text of a list of entries. -/
def crontabText (entries : List CrontabEntry) : Bytes :=
  scJsonStringify (.array (entries.map entryItem))

/-- `sc_crontab_save` -/
def scCrontabSave (a : CronAnswers) (file : Option Bytes) (entries : Option (List CrontabEntry)) :
    Except ScError Unit × Option Bytes :=
  match entries with
  | none => (.error .invalidArgument, file)
  | some entries =>
    match a.ensureDir with
    | .error e => (.error e, file)
    | .ok () =>
      if a.opensWrite then (.ok (), some (crontabText entries)) else (.error .io, file)

/-- The entry that `sc_crontab_add` appends to so many. -/
def newEntry (count : ℕ) (schedule command : Bytes) : CrontabEntry where
  id := generateId crontabIdMax count
  schedule := .ofBytes schedule
  command := .ofBytes command
  enabled := true

/-- `sc_crontab_add` -/
def scCrontabAdd (a : CronAnswers) (file : Option Bytes) (schedule command : Bytes) :
    Except ScError CString × Option Bytes :=
  match scCrontabLoad a file with
  | .error e => (.error e, file)
  | .ok loaded =>
    let entries := loaded.getD []
    if a.newMemory = false then (.error .outOfMemory, file)
    else
      let e := newEntry entries.length schedule command
      match scCrontabSave a file (some (entries ++ [e])) with
      | (.ok (), file) => (.ok e.id, file)
      | (.error err, file) => (.error err, file)

/-- `sc_crontab_remove` -/
def scCrontabRemove (a : CronAnswers) (file : Option Bytes) (id : CString) :
    Except ScError Unit × Option Bytes :=
  match scCrontabLoad a file with
  | .error e => (.error e, file)
  | .ok entries => scCrontabSave a file (entries.map fun es => es.filter fun e => e.id ≠ id)

/-! ## What is in a file -/

/-- The entries of a file, all of them. -/
def entriesOf (file : Option Bytes) : List CrontabEntry :=
  match file with
  | none => []
  | some text =>
    match scJsonParse text [0] with
    | .ok (.array items) _ => items.filterMap entryOfItem
    | _ => []

theorem ofBytes_octets (s : CString) : CString.ofBytes s.octets = s :=
  CString.ext (CString.octets_ofBytes.mpr s.noNul)

theorem cString_octets (s : CString) : cString s.octets = s.octets :=
  CString.octets_ofBytes.mpr s.noNul

/-- The object of an entry is read as the entry. -/
@[simp] theorem entryOfItem_entryItem (e : CrontabEntry) : entryOfItem (entryItem e) = some e := by
  have hid : scJsonGetString (entryItem e) (ascii "id") = some (cString e.id.octets) := rfl
  have hschedule : scJsonGetString (entryItem e) (ascii "schedule") =
      some (cString e.schedule.octets) := rfl
  have hcommand : scJsonGetString (entryItem e) (ascii "command") =
      some (cString e.command.octets) := rfl
  have henabled : scJsonGetBool (entryItem e) (ascii "enabled") true = e.enabled := rfl
  simp only [entryOfItem, hid, hschedule, hcommand, henabled, cString_octets, ofBytes_octets]

theorem filterMap_entryItem (entries : List CrontabEntry) :
    (entries.map entryItem).filterMap entryOfItem = entries := by
  rw [List.filterMap_map]
  simp

theorem crontabKeys_nodup :
    [ascii "id", ascii "schedule", ascii "command", ascii "enabled"].Nodup := by decide

/-- The objects of entries are plain, and no deeper than the pairs of an object. -/
theorem plainItems_entryItem (entries : List CrontabEntry) :
    PlainItems (entries.map entryItem) ∧ itemsDepth (entries.map entryItem) ≤ 1 := by
  induction entries with
  | nil => exact ⟨trivial, by simp [itemsDepth]⟩
  | cons e es ih =>
    have hplain : (entryItem e).Plain :=
      ⟨crontabKeys_nodup, trivial, trivial, trivial, trivial, trivial⟩
    have hdepth : (entryItem e).depth ≤ 1 := le_refl 1
    exact ⟨⟨hplain, ih.1⟩, max_le hdepth ih.2⟩

/-- The text of entries is parsed back into their objects, whatever stands behind it. -/
theorem scJsonParse_crontabText (entries : List CrontabEntry) (t : Bytes) :
    scJsonParse (crontabText entries) (0 :: t) =
      .ok (.array (entries.map entryItem)) ⟨[], 0 :: t, 0, 0⟩ := by
  obtain ⟨hplain, hdepth⟩ := plainItems_entryItem entries
  have hplain' : (Value.array (entries.map entryItem)).Plain := by
    rw [Value.Plain]
    exact hplain
  refine scJsonParse_of_follows hplain' ?_ (follows_cons (by decide) t)
  rw [Value.depth, jsonMaxDepth]
  omega

/-- A file that was saved has the entries that were saved. -/
@[simp] theorem entriesOf_crontabText (entries : List CrontabEntry) :
    entriesOf (some (crontabText entries)) = entries := by
  rw [entriesOf]
  simp only [scJsonParse_crontabText, filterMap_entryItem]

@[simp] theorem entriesOf_none : entriesOf none = [] := rfl

@[simp] theorem entriesOf_nil : entriesOf (some []) = [] := rfl

theorem loadItems_sublist (copies : ℕ → Bool) (i : ℕ) (items : List Value) :
    (loadItems copies i items).Sublist (items.filterMap entryOfItem) := by
  induction items generalizing i with
  | nil => exact List.Sublist.slnil
  | cons item items ih =>
    rw [loadItems]
    cases he : entryOfItem item with
    | none =>
      rw [List.filterMap_cons_none he]
      exact ih (i + 1)
    | some e =>
      rw [List.filterMap_cons_some he]
      simp only
      split_ifs
      · exact (ih (i + 1)).cons_cons e
      · exact (ih (i + 1)).cons e

end SeaClaw.Cron
