import SeaClaw.Lib.Fgets
import SeaClaw.Security.Secrets

/-!
# The key ring of the audit log

`load_keys_from_base_dir` of `security/audit.c`. The keys of the history come first, then the
current one. The loop over the history stops when the ring is full, and the current key is decoded
into the row behind it all the same.
-/

namespace SeaClaw.Security

open Lib

/-! ## The code -/

/-- `SC_AUDIT_MAX_KEY_HISTORY` -/
def auditMaxKeyHistory : ℕ := 64

/-- `SC_AUDIT_HMAC_LEN` -/
def auditHmacLen : ℕ := 32

/-- `SC_AUDIT_KEY_HISTORY_LINE` -/
def auditKeyHistoryLine : ℕ := 128

/-- `SC_AUDIT_MAX_PATH` -/
def auditMaxPath : ℕ := 1024

/-- What the loop of `sc_hex_decode` decodes before it ends. -/
def leadingPairs : Bytes → Bytes
  | h :: l :: s =>
    match hexVal h, hexVal l with
    | some x, some y => (x * 16 + y).toUInt8 :: leadingPairs s
    | some _, none => []
    | none, _ => []
  | [_] => []
  | [] => []

/-- What `sc_hex_decode` writes, whether it succeeds or not. -/
def hexWrites (hex : Bytes) (outCap : ℕ) : Bytes :=
  if hex.length % 2 = 1 then []
  else if outCap < hex.length / 2 then []
  else leadingPairs hex

/-- `err == SC_OK && dlen == SC_AUDIT_HMAC_LEN` -/
def decodedKey (hex : Bytes) : Option Bytes :=
  match scHexDecode hex auditHmacLen with
  | .ok data => if data.length = auditHmacLen then some data else none
  | .error _ => none

/-- The memory from `keys` on, the rows in which something was written, and `idx`. -/
structure KeyRing where
  rows : ℕ → ℕ → UInt8
  written : List ℕ
  idx : ℕ

/-- `sc_hex_decode(hex, strlen(hex), keys[idx], SC_AUDIT_HMAC_LEN, &dlen)` -/
def KeyRing.decode (r : KeyRing) (hex : Bytes) : KeyRing :=
  let w := hexWrites hex auditHmacLen
  { r with
    rows := Function.update r.rows r.idx fun i => w[i]?.getD (r.rows r.idx i)
    written := if w = [] then r.written else r.written ++ [r.idx] }

/-- A newline or a carriage return. -/
def isLineEnd (b : UInt8) : Bool := b = ch '\n' || b = ch '\r'

/-- `hist_line` without the ends of the line. -/
def historyLine (chunk : Bytes) : Bytes := (chunk.takeWhile (· ≠ 0)).rdropWhile isLineEnd

/-- The digits behind the timestamp of a line. -/
def historyHex (line : Bytes) : Option Bytes :=
  if line.length < 70 then none
  else
    match strchr (ch ' ') line with
    | none => none
    | some space => if line.length - space.length < 10 then none else some space.tail

/-- The loop over the lines of the history. -/
def loadHistory : List Bytes → KeyRing → KeyRing
  | [], r => r
  | chunk :: chunks, r =>
    if r.idx < auditMaxKeyHistory then
      match historyHex (historyLine chunk) with
      | none => loadHistory chunks r
      | some hex =>
        if (decodedKey hex).isSome then
          loadHistory chunks { r.decode hex with idx := r.idx + 1 }
        else loadHistory chunks (r.decode hex)
    else r

/-- The digits in `.audit_hmac_key`. -/
def currentHex (text : Bytes) : Bytes :=
  ((text.take 79).rdropWhile isTrimmed).takeWhile (· ≠ 0)

/-- `load_keys_from_base_dir` for a path of `baseLen` octets, with the texts of the two files that
can be opened: the ring, and `*out_count`. -/
def loadKeysFromBaseDir (baseLen : ℕ) (history key : Option Bytes) (rows : ℕ → ℕ → UInt8) :
    KeyRing × Except ScError ℕ :=
  if auditMaxPath ≤ baseLen + 17 then (⟨rows, [], 0⟩, .error .invalidArgument)
  else
    let lines := (history.map (chunks (auditKeyHistoryLine - 1))).getD []
    let r := loadHistory lines ⟨rows, [], 0⟩
    match key with
    | none => (r, .error .io)
    | some text =>
      let hex := currentHex text
      if (decodedKey hex).isSome then
        ({ r.decode hex with idx := r.idx + 1 }, .ok (r.idx + 1))
      else (r.decode hex, .error .cryptoDecrypt)

/-! ## What is meant -/

/-- Only rows of the ring are written, and the last key of a ring that is loaded is the current
one. -/
structure RingLoads (baseLen : ℕ) (history key : Option Bytes) (rows : ℕ → ℕ → UInt8) : Prop where
  inside : ∀ i ∈ (loadKeysFromBaseDir baseLen history key rows).1.written, i < auditMaxKeyHistory
  last : ∀ n, (loadKeysFromBaseDir baseLen history key rows).2 = .ok n →
    ∃ text current, key = some text ∧ decodedKey (currentHex text) = some current ∧
      (List.range auditHmacLen).map ((loadKeysFromBaseDir baseLen history key rows).1.rows (n - 1)) =
        current

/-- A line of the history that has a key. -/
def KeyLine (chunk : Bytes) : Prop := ∃ hex ∈ historyHex (historyLine chunk), (decodedKey hex).isSome

instance (chunk : Bytes) : Decidable (KeyLine chunk) :=
  decidable_of_iff ((historyHex (historyLine chunk)).any fun hex => (decodedKey hex).isSome) (by
    rw [KeyLine, Option.any_eq_true_iff_get]
    cases historyHex (historyLine chunk) <;> simp)

/-- How many keys the history has. -/
def historyKeys (history : Option Bytes) : ℕ :=
  ((history.map (chunks (auditKeyHistoryLine - 1))).getD []).countP fun c => decide (KeyLine c)

/-- Digits of which nothing is decoded: they are odd in number, too many, or do not start with a
pair of digits. -/
def NothingDecoded (hex : Bytes) : Prop :=
  hex.length % 2 = 1 ∨ auditHmacLen < hex.length / 2 ∨
    ∀ h l s, hex = h :: l :: s → hexVal h = none ∨ hexVal l = none

/-! ## Decoding -/

/-- Of digits that spell octets all pairs are decoded. -/
theorem leadingPairs_of_hexDecode : ∀ {hex b : Bytes}, hexDecode hex = some b → leadingPairs hex = b
  | [], b, heq => Option.some.inj heq
  | [_], b, heq => by cases heq
  | h :: l :: s, b, heq => by
    rw [hexDecode] at heq
    rw [leadingPairs]
    cases hx : hexVal h with
    | none => simp [hx] at heq
    | some x =>
      cases hy : hexVal l with
      | none => simp [hx, hy] at heq
      | some y =>
        simp only [hx, hy] at heq ⊢
        obtain ⟨b', hb', rfl⟩ := Option.map_eq_some_iff.mp heq
        rw [leadingPairs_of_hexDecode hb']

theorem leadingPairs_eq_nil_iff (hex : Bytes) : leadingPairs hex = [] ↔
    ∀ h l s, hex = h :: l :: s → hexVal h = none ∨ hexVal l = none := by
  rcases hex with - | ⟨h, - | ⟨l, s⟩⟩
  · exact iff_of_true rfl (by simp)
  · exact iff_of_true rfl (by simp)
  · rw [leadingPairs]
    cases hx : hexVal h with
    | none =>
      refine iff_of_true rfl ?_
      rintro h' l' s' heq
      obtain ⟨rfl, -⟩ := List.cons.inj heq
      exact Or.inl hx
    | some x =>
      cases hy : hexVal l with
      | none =>
        refine iff_of_true rfl ?_
        rintro h' l' s' heq
        obtain ⟨-, htail⟩ := List.cons.inj heq
        obtain ⟨rfl, -⟩ := List.cons.inj htail
        exact Or.inr hy
      | some y =>
        refine iff_of_false (by simp) ?_
        intro hall
        rcases hall h l s rfl with hnone | hnone
        · rw [hx] at hnone
          cases hnone
        · rw [hy] at hnone
          cases hnone

theorem hexWrites_eq_nil_iff (hex : Bytes) :
    hexWrites hex auditHmacLen = [] ↔ NothingDecoded hex := by
  rw [hexWrites, NothingDecoded, ← leadingPairs_eq_nil_iff]
  split_ifs with hodd hcap
  · exact iff_of_true rfl (Or.inl hodd)
  · exact iff_of_true rfl (Or.inr (Or.inl hcap))
  · simp only [hodd, hcap, false_or]

/-- A key that is decoded is written whole. -/
theorem hexWrites_of_decodedKey {hex data : Bytes} (h : decodedKey hex = some data) :
    hexWrites hex auditHmacLen = data ∧ data.length = auditHmacLen := by
  rw [decodedKey] at h
  cases hd : scHexDecode hex auditHmacLen with
  | error e => simp [hd] at h
  | ok d =>
    rw [hd] at h
    simp only at h
    split_ifs at h with hlen
    obtain rfl := Option.some.inj h
    refine ⟨?_, hlen⟩
    rw [scHexDecode] at hd
    split_ifs at hd with hodd hcap
    rw [hexWrites, if_neg hodd, if_neg hcap]
    apply leadingPairs_of_hexDecode
    cases hdec : hexDecode hex with
    | none => simp [hdec] at hd
    | some d' =>
      rw [hdec] at hd
      exact congrArg some (Except.ok.inj hd)

/-! ## The loop -/

/-- The ring while the history is read. -/
structure KeyRing.Within (r : KeyRing) : Prop where
  idx : r.idx ≤ auditMaxKeyHistory
  written : ∀ i ∈ r.written, i < auditMaxKeyHistory

theorem KeyRing.mem_written_decode {r : KeyRing} {hex : Bytes} {i : ℕ}
    (h : i ∈ (r.decode hex).written) : i ∈ r.written ∨ i = r.idx := by
  simp only [KeyRing.decode] at h
  split_ifs at h
  · exact Or.inl h
  · rcases List.mem_append.mp h with h | h
    · exact Or.inl h
    · exact Or.inr (List.mem_singleton.mp h)

/-- The rows of the ring are filled by the lines that have a key, as long as there are rows. -/
theorem loadHistory_spec (lines : List Bytes) {r : KeyRing} (hr : r.Within) :
    (loadHistory lines r).Within ∧ (loadHistory lines r).idx =
      min auditMaxKeyHistory (r.idx + lines.countP fun c => decide (KeyLine c)) := by
  induction lines generalizing r with
  | nil =>
    rw [loadHistory, List.countP_nil, Nat.add_zero, min_eq_right hr.idx]
    exact ⟨hr, rfl⟩
  | cons chunk lines ih =>
    rw [loadHistory]
    split_ifs with hroom
    · have hdecode : ∀ {hex}, ∀ i ∈ (r.decode hex).written, i < auditMaxKeyHistory := by
        intro hex i hi
        rcases KeyRing.mem_written_decode hi with hi | rfl
        · exact hr.written i hi
        · exact hroom
      cases hhex : historyHex (historyLine chunk) with
      | none =>
        have hno : ¬ KeyLine chunk := by
          rintro ⟨hex, hmem, -⟩
          rw [hhex] at hmem
          cases hmem
        rw [List.countP_cons_of_neg (by simpa using hno)]
        exact ih hr
      | some hex =>
        simp only
        by_cases hkey : (decodedKey hex).isSome
        · have hyes : KeyLine chunk := ⟨hex, hhex, hkey⟩
          rw [if_pos hkey, List.countP_cons_of_pos (by simpa using hyes)]
          obtain ⟨hwithin, hidx⟩ := @ih { r.decode hex with idx := r.idx + 1 } ⟨hroom, hdecode⟩
          refine ⟨hwithin, hidx.trans ?_⟩
          congr 1
          simp only
          omega
        · have hno : ¬ KeyLine chunk := by
            rintro ⟨hex', hmem, hkey'⟩
            obtain rfl := Option.some.inj (hhex.symm.trans hmem)
            exact hkey hkey'
          rw [if_neg hkey, List.countP_cons_of_neg (by simpa using hno)]
          exact ih ⟨hr.idx, hdecode⟩
    · refine ⟨hr, ?_⟩
      have hfull := hr.idx
      omega

/-- How the ring is left by the history. -/
theorem loadHistory_idx (history : Option Bytes) (rows : ℕ → ℕ → UInt8) :
    (loadHistory ((history.map (chunks (auditKeyHistoryLine - 1))).getD []) ⟨rows, [], 0⟩).Within ∧
      ((loadHistory ((history.map (chunks (auditKeyHistoryLine - 1))).getD [])
          ⟨rows, [], 0⟩).idx < auditMaxKeyHistory ↔ historyKeys history < auditMaxKeyHistory) := by
  obtain ⟨hwithin, hidx⟩ := loadHistory_spec
    ((history.map (chunks (auditKeyHistoryLine - 1))).getD []) (r := ⟨rows, [], 0⟩)
    ⟨Nat.zero_le _, fun i hi => absurd hi List.not_mem_nil⟩
  refine ⟨hwithin, ?_⟩
  rw [hidx, Nat.zero_add, ← historyKeys, min_lt_iff]
  simp

/-- A key that is loaded stands in its row. -/
theorem KeyRing.row_decode {r : KeyRing} {hex data : Bytes} (h : decodedKey hex = some data) :
    (List.range auditHmacLen).map ((r.decode hex).rows r.idx) = data := by
  obtain ⟨hwrites, hlen⟩ := hexWrites_of_decodedKey h
  simp only [KeyRing.decode, Function.update_self, hwrites]
  apply List.ext_getElem
  · rw [List.length_map, List.length_range, hlen]
  · intro i _ hi
    rw [List.getElem_map, List.getElem_range, List.getElem?_eq_getElem hi, Option.getD_some]

/-- How the ring is left by a call that reads the files. -/
theorem loadKeysFromBaseDir_eq {baseLen : ℕ} (hbase : ¬ auditMaxPath ≤ baseLen + 17)
    (history : Option Bytes) (text : Bytes) (rows : ℕ → ℕ → UInt8) {r : KeyRing}
    (hr : loadHistory ((history.map (chunks (auditKeyHistoryLine - 1))).getD []) ⟨rows, [], 0⟩ =
      r) : loadKeysFromBaseDir baseLen history (some text) rows =
        if (decodedKey (currentHex text)).isSome then
          ({ r.decode (currentHex text) with idx := r.idx + 1 }, .ok (r.idx + 1))
        else (r.decode (currentHex text), .error .cryptoDecrypt) := by
  rw [loadKeysFromBaseDir, if_neg hbase]
  simp only [hr]

/-- A call that reads the files writes inside the ring exactly if there is a row left or nothing to
write. -/
theorem inside_iff {r : KeyRing} (hr : r.Within) (hex : Bytes) :
    (∀ i ∈ (r.decode hex).written, i < auditMaxKeyHistory) ↔
      r.idx < auditMaxKeyHistory ∨ NothingDecoded hex := by
  rw [← hexWrites_eq_nil_iff]
  simp only [KeyRing.decode]
  split_ifs with hnil
  · exact iff_of_true hr.written (Or.inr hnil)
  · simp only [hnil, or_false]
    constructor
    · intro h
      exact h _ (List.mem_append_right _ List.mem_cons_self)
    · intro hroom i hi
      rcases List.mem_append.mp hi with hi | hi
      · exact hr.written i hi
      · rw [List.mem_singleton.mp hi]
        exact hroom

/-- The ring is loaded well if and only if the path is too long, the history has fewer keys than
the ring has rows, or nothing is decoded of the current key. -/
theorem loadKeysFromBaseDir_loads_iff (baseLen : ℕ) (history key : Option Bytes)
    (rows : ℕ → ℕ → UInt8) : RingLoads baseLen history key rows ↔
      auditMaxPath ≤ baseLen + 17 ∨ historyKeys history < auditMaxKeyHistory ∨
        ∀ text ∈ key, NothingDecoded (currentHex text) := by
  by_cases hbase : auditMaxPath ≤ baseLen + 17
  · have hcall : loadKeysFromBaseDir baseLen history key rows =
        (⟨rows, [], 0⟩, .error .invalidArgument) := by
      rw [loadKeysFromBaseDir, if_pos hbase]
    refine iff_of_true ⟨?_, ?_⟩ (Or.inl hbase)
    · rw [hcall]
      intro i hi
      exact absurd hi List.not_mem_nil
    · rw [hcall]
      intro n hn
      cases hn
  · obtain ⟨hwithin, hidx⟩ := loadHistory_idx history rows
    generalize hr : loadHistory ((history.map (chunks (auditKeyHistoryLine - 1))).getD [])
      ⟨rows, [], 0⟩ = r at hwithin hidx
    simp only [hbase, false_or]
    rw [← hidx]
    cases key with
    | none =>
      have hcall : loadKeysFromBaseDir baseLen history none rows = (r, .error .io) := by
        rw [loadKeysFromBaseDir, if_neg hbase]
        simp only [hr]
      refine iff_of_true ⟨?_, ?_⟩ (Or.inr fun text htext => by cases htext)
      · rw [hcall]
        exact hwithin.written
      · rw [hcall]
        intro n hn
        cases hn
    | some text =>
      have hcall := loadKeysFromBaseDir_eq hbase history text rows hr
      have hnothing : (∀ t ∈ some text, NothingDecoded (currentHex t)) ↔
          NothingDecoded (currentHex text) :=
        ⟨fun h => h text rfl, fun h t ht => Option.some.inj ht ▸ h⟩
      have hwritten : (loadKeysFromBaseDir baseLen history (some text) rows).1.written =
          (r.decode (currentHex text)).written := by
        rw [hcall]
        split_ifs <;> rfl
      rw [hnothing, ← inside_iff hwithin, ← hwritten]
      constructor
      · exact fun h => h.inside
      · intro hinside
        refine ⟨hinside, ?_⟩
        intro n hn
        rw [hcall] at hn ⊢
        split_ifs at hn ⊢ with hkey
        · obtain ⟨current, hcurrent⟩ := Option.isSome_iff_exists.mp hkey
          obtain rfl := Except.ok.inj hn
          exact ⟨text, current, rfl, hcurrent, KeyRing.row_decode hcurrent⟩

/-! ## A history of 64 keys -/

/-- A line of the history. -/
def rotationLine : Bytes := ascii "1700000000 " ++ List.replicate 64 (ch '7') ++ [ch '\n']

/-- As many rotations as the ring has rows. -/
def fullHistory : Bytes := (List.replicate auditMaxKeyHistory rotationLine).flatten

theorem keyLine_rotationLine : KeyLine rotationLine := by decide

theorem historyKeys_fullHistory : historyKeys (some fullHistory) = auditMaxKeyHistory := by
  have hfull : IsFull (auditKeyHistoryLine - 1) rotationLine := by
    refine ⟨⟨by decide, by decide, by decide⟩, Or.inl (by decide)⟩
  have hchunks : chunks (auditKeyHistoryLine - 1) fullHistory =
      List.replicate auditMaxKeyHistory rotationLine := by
    apply ChunkList.chunks_flatten (by decide)
    apply chunkList_of_full
    intro d hd
    rw [List.eq_of_mem_replicate hd]
    exact hfull
  rw [historyKeys, Option.map_some, Option.getD_some, hchunks, List.countP_replicate,
    if_pos (by simpa using keyLine_rotationLine)]

/-- The current key of a file. -/
def keyFile : Bytes := List.replicate 64 (ch '7')

/-- With 64 keys in the history the current key is written behind the ring. -/
theorem loadKeysFromBaseDir_overruns :
    ¬ RingLoads 4 (some fullHistory) (some keyFile) (fun _ _ => 0) := by
  intro h
  obtain ⟨hwithin, hidx⟩ := loadHistory_idx (some fullHistory) fun _ _ => 0
  generalize hr : loadHistory (((some fullHistory).map (chunks (auditKeyHistoryLine - 1))).getD [])
    ⟨fun _ _ => 0, [], 0⟩ = r at hwithin hidx
  have hcall := loadKeysFromBaseDir_eq (show ¬ auditMaxPath ≤ 4 + 17 by decide) (some fullHistory)
    keyFile (fun _ _ => 0) hr
  have hwritten : (loadKeysFromBaseDir 4 (some fullHistory) (some keyFile)
      fun _ _ => 0).1.written = (r.decode (currentHex keyFile)).written := by
    rw [hcall]
    split_ifs <;> rfl
  have hinside := h.inside
  rw [hwritten, inside_iff hwithin, hidx, historyKeys_fullHistory, ← hexWrites_eq_nil_iff] at hinside
  rcases hinside with hlt | hnil
  · exact absurd hlt (lt_irrefl _)
  · exact absurd hnil (by decide)

end SeaClaw.Security
