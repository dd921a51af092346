import SeaClaw.Lib.Fgets
import SeaClaw.Lib.Printf
import SeaClaw.Memory.Entry
import SeaClaw.Lib.Machine

/-!
# The markdown memory engine

One file for each key in a directory: a header between two delimiter lines, an empty line and
the content. The file names are those of the keys with other characters replaced. Reading goes
line by line, in pieces that a buffer holds.
-/

namespace SeaClaw.Memory

open SeaClaw.Lib

/-- The files of the directory. Operations on files succeed. -/
abbrev MarkdownDir := Bytes → Option Bytes

/-- The characters that `key_to_filename` leaves. -/
def fileChar (c : UInt8) : Bool :=
  (ch 'a' ≤ c && c ≤ ch 'z') || (ch 'A' ≤ c && c ≤ ch 'Z') || (ch '0' ≤ c && c ≤ ch '9') ||
    c == ch '-' || c == ch '_' || c == ch '.'

/-- `key_to_filename` -/
def keyToFilename (key : Bytes) : Bytes :=
  key.map (fun c => if fileChar c then c else ch '_') ++ ascii ".md"

/-- `category_to_string` -/
def categoryToString (cat : Option (MemoryCategory Bytes)) : Bytes :=
  match cat with
  | none => ascii "core"
  | some cat =>
    match cat.tag with
    | .core => ascii "core"
    | .daily => ascii "daily"
    | .conversation => ascii "conversation"
    | .custom =>
      match cat.name with
      | some name => if name.length > 0 then (CString.ofBytes name).octets else ascii "custom"
      | none => ascii "custom"

/-- `%.*s` with `(int)len`: a negative precision is none at all. -/
def printPrecision (len : ℕ) (s : CString) : Bytes :=
  if len % 2 ^ 32 < 2 ^ 31 then s.octets.take (len % 2 ^ 32) else s.octets

/-- The header lines between the delimiters. -/
def markdownHeader (key : CString) (category : Option (MemoryCategory Bytes))
    (sessionId : Option Bytes) (now : ℤ) : Bytes :=
  ascii "key: " ++ printPrecision key.octets.length key ++
    ascii "\ncategory: " ++ categoryToString category ++
    ascii "\ntimestamp: " ++ fmtInt now ++ ascii "\n" ++
    match sessionId with
    | some s =>
      if s.length > 0 then
        ascii "session_id: " ++ printPrecision s.length (.ofBytes s) ++ ascii "\n"
      else []
    | none => []

/-- `impl_store` -/
def markdownStore (dir : MarkdownDir) (key content : CString)
    (category : Option (MemoryCategory Bytes)) (sessionId : Option Bytes) (now : ℤ) :
    MarkdownDir :=
  Function.update dir (keyToFilename key.octets) (some
    (ascii "---\n" ++ markdownHeader key category sessionId now ++ ascii "---\n\n" ++
      printPrecision content.octets.length content))

/-- The variables of the loop in `impl_get`. -/
structure MarkdownRead where
  category : Bytes
  timestamp : Bytes
  frontDone : Bool
  content : Bytes

/-- The room of `line`, `category`, `timestamp` and `content_buf` before the terminator. -/
def lineRoom : ℕ := 4095
def fieldRoom : ℕ := 63
def contentRoom : ℕ := 8191

/-- The value of a header line after its name: spaces are skipped, and a newline or the end of
the buffer ends it. -/
def headerValue (v : Bytes) : Bytes :=
  ((v.dropWhile (· = ch ' ')).takeWhile fun c => c ≠ 0 ∧ c ≠ newline).take fieldRoom

/-- One round of the loop in `impl_get`. -/
def markdownLine (st : MarkdownRead) (line : Bytes) : MarkdownRead :=
  if (ascii "---").isPrefixOf line then
    if st.frontDone then st else { st with frontDone := true }
  else if st.frontDone = false then
    if (ascii "category:").isPrefixOf line then { st with category := headerValue (line.drop 9) }
    else if (ascii "timestamp:").isPrefixOf line then
      { st with timestamp := headerValue (line.drop 10) }
    else st
  else
    let text := line.takeWhile (· ≠ 0)
    if st.content.length + text.length < contentRoom + 1 then
      { st with content := st.content ++ text }
    else st

/-- `while (fgets(line, sizeof(line), f) && content_len < sizeof(content_buf) - 1)` -/
def markdownLines : MarkdownRead → List Bytes → MarkdownRead
  | st, [] => st
  | st, line :: lines =>
    if st.content.length < contentRoom then markdownLines (markdownLine st line) lines else st

/-- `impl_get` -/
def markdownGet (dir : MarkdownDir) (key : CString) : Option (MemoryEntry Bytes) :=
  (dir (keyToFilename key.octets)).map fun file =>
    let st := markdownLines ⟨ascii "core", [], false, []⟩ (chunks lineRoom file)
    { id := some key.octets
      key := some key.octets
      content := some st.content
      category := ⟨.custom, some st.category⟩
      timestamp := some st.timestamp
      sessionId := none
      score := .nan false }

/-- `impl_forget` -/
def markdownForget (dir : MarkdownDir) (key : CString) : MarkdownDir :=
  Function.update dir (keyToFilename key.octets) none

/-!
# The markdown engine as a map

The reader of `impl_get` takes the first delimiter line for the end of the header, so what it
returns starts with the header lines. Only a content that is the header itself, repeated until
the buffer is full, is read back as it was stored; and a file name belongs to one key only if the
key has no character that another is replaced by.
-/

/-- The engine's directory, and the map that it is to be. -/
structure MarkdownRun where
  dir : MarkdownDir
  value : CString → Option CString

/-- A call. -/
inductive MarkdownOp where
  | store (key content : CString) (category : Option (MemoryCategory Bytes))
      (sessionId : Option Bytes) (now : ℤ)
  | get (key : CString)
  | forget (key : CString)

/-- One call, in the directory and in the map. -/
def markdownStep (s : MarkdownRun) : MarkdownOp → Option MarkdownRun
  | .store key content category sessionId now =>
    some ⟨markdownStore s.dir key content category sessionId now,
      Function.update s.value key (some content)⟩
  | .get _ => some s
  | .forget key => some ⟨markdownForget s.dir key, Function.update s.value key none⟩

/-- A look-up finds exactly what the map has. -/
def IsMap (s : MarkdownRun) : Prop :=
  ∀ key, (markdownGet s.dir key).map (·.content) = (s.value key).map fun c => some c.octets

/-- A piece of a line that the reader does not take for a delimiter. -/
def notDelimiter (line : Bytes) : Bool := !(ascii "---").isPrefixOf line

/-- The header lines that are no delimiters, and the empty line after the header, repeated as
long as something still fits in the buffer. -/
def repeatedHeader (header : Bytes) : Bytes :=
  (fit contentRoom (List.replicate contentRoom
    ((chunks lineRoom header).filter notDelimiter ++ [[newline]])).flatten).flatten

/-- Every character of the key stays in the file name, and no other becomes it. -/
def PlainKey (key : CString) : Prop := ∀ c ∈ key.octets, fileChar c = true ∧ c ≠ ch '_'

/-- A store has a plain key, and its content is the repeated header. -/
def StoresHeader : MarkdownRun → MarkdownOp → Prop
  | _, .store key content category sessionId now =>
    PlainKey key ∧ content.octets = repeatedHeader (markdownHeader key category sessionId now)
  | _, _ => True

/-! ## File names -/

/-- The character of the file name. -/
def nameChar (c : UInt8) : UInt8 := if fileChar c then c else ch '_'

theorem keyToFilename_eq (key : Bytes) : keyToFilename key = key.map nameChar ++ ascii ".md" := rfl

/-- The file name of a plain key is that of no other key. -/
theorem PlainKey.eq_of_filename {key key' : CString} (h : PlainKey key)
    (hname : keyToFilename key'.octets = keyToFilename key.octets) : key' = key := by
  rw [keyToFilename_eq, keyToFilename_eq] at hname
  have hmap := List.append_cancel_right hname
  have hsame : key.octets.map nameChar = key.octets := by
    conv_rhs => rw [← List.map_id key.octets]
    exact List.map_congr_left fun c hc => by rw [nameChar, if_pos (h c hc).1, id]
  rw [hsame] at hmap
  have hsame' : key'.octets.map nameChar = key'.octets := by
    conv_rhs => rw [← List.map_id key'.octets]
    refine List.map_congr_left fun c hc => ?_
    rw [nameChar, id]
    by_cases hf : fileChar c = true
    · rw [if_pos hf]
    · -- the replacement would stand in the plain key
      have hmem : nameChar c ∈ key.octets := hmap ▸ List.mem_map_of_mem hc
      rw [nameChar, if_neg hf] at hmem
      exact absurd rfl (h _ hmem).2
  exact CString.ext (hsame'.symm.trans hmap)

/-- A key that is not plain shares its file name with another key. -/
theorem exists_other_key {key : CString} (h : ¬ PlainKey key) :
    ∃ key', key' ≠ key ∧ keyToFilename key'.octets = keyToFilename key.octets := by
  simp only [PlainKey, not_forall] at h
  obtain ⟨c, hc, hplain⟩ := h
  have hname : nameChar c = ch '_' := by
    rw [nameChar]
    by_cases hf : fileChar c = true
    · rw [if_pos hf]
      by_contra hne
      exact hplain ⟨hf, hne⟩
    · rw [if_neg hf]
  obtain ⟨d, hdc, hdzero, hdname⟩ : ∃ d, d ≠ c ∧ d ≠ 0 ∧ nameChar d = ch '_' := by
    by_cases he : c = ch '_'
    · exact ⟨ch ' ', by rw [he]; decide, by decide, by decide⟩
    · exact ⟨ch '_', fun h => he h.symm, by decide, by decide⟩
  obtain ⟨u, v, huv⟩ := List.append_of_mem hc
  have hzero : 0 ∉ u ++ d :: v := by
    have hkey := key.noNul
    rw [huv] at hkey
    simp only [List.mem_append, List.mem_cons, not_or] at hkey ⊢
    exact ⟨hkey.1, hdzero.symm, hkey.2.2⟩
  refine ⟨⟨u ++ d :: v, hzero⟩, ?_, ?_⟩
  · intro he
    have hoctets := congrArg CString.octets he
    rw [huv] at hoctets
    exact hdc (List.cons_eq_cons.mp (List.append_cancel_left hoctets)).1
  · rw [keyToFilename_eq, keyToFilename_eq, huv]
    simp only [List.map_append, List.map_cons, hname, hdname]

/-! ## Reading a file back -/

/-- After the first delimiter every other line goes to the content as long as it fits. -/
theorem markdownLines_content {st : MarkdownRead} (hdone : st.frontDone = true) {lines : List Bytes}
    (hroom : st.content.length ≤ contentRoom) (hlines : ∀ l ∈ lines, l ≠ [] ∧ 0 ∉ l) :
    (markdownLines st lines).content = st.content ++
      (fit (contentRoom - st.content.length) (lines.filter notDelimiter)).flatten := by
  induction lines generalizing st with
  | nil => simp [markdownLines, fit]
  | cons line lines ih =>
    have hrest := fun l hl => hlines l (List.mem_cons_of_mem _ hl)
    obtain ⟨hne, hzero⟩ := hlines line List.mem_cons_self
    have htext : line.takeWhile (· ≠ 0) = line := CString.octets_ofBytes.mpr hzero
    have hpos := List.length_pos_iff.mpr hne
    rw [markdownLines]
    by_cases hfull : st.content.length < contentRoom
    · rw [if_pos hfull]
      by_cases hdash : (ascii "---").isPrefixOf line = true
      · have hst : markdownLine st line = st := by
          rw [markdownLine, if_pos hdash, if_pos hdone]
        rw [hst, List.filter_cons_of_neg (by simp [notDelimiter, hdash])]
        exact ih hdone hroom hrest
      · have hkeep : notDelimiter line = true := by
          rw [notDelimiter, Bool.eq_false_of_not_eq_true hdash, Bool.not_false]
        rw [List.filter_cons_of_pos hkeep, fit]
        have hfront : ¬ st.frontDone = false := by simp [hdone]
        by_cases hfits : line.length ≤ contentRoom - st.content.length
        · have hst : markdownLine st line = { st with content := st.content ++ line } := by
            rw [markdownLine, if_neg hdash, if_neg hfront]
            dsimp only
            rw [htext, if_pos (by omega)]
          have hlen : (st.content ++ line).length ≤ contentRoom := by
            rw [List.length_append]
            omega
          have hnext := @ih { st with content := st.content ++ line } hdone hlen hrest
          rw [hst, if_pos hfits, hnext]
          simp only [List.length_append, List.flatten_cons, List.append_assoc, Nat.sub_sub]
        · have hst : markdownLine st line = st := by
            rw [markdownLine, if_neg hdash, if_neg hfront]
            dsimp only
            rw [htext, if_neg (by omega)]
          rw [hst, if_neg hfits]
          exact ih hdone hroom hrest
    · have hzero' : contentRoom - st.content.length = 0 := by omega
      rw [if_neg hfull, hzero', fit_zero, List.flatten_nil, List.append_nil]
      intro l hl
      rcases List.mem_cons.mp (List.mem_of_mem_filter hl) with rfl | hl
      · exact hne
      · exact (hrest l hl).1

theorem zero_notMem_printPrecision (len : ℕ) (s : CString) : 0 ∉ printPrecision len s := by
  rw [printPrecision]
  split
  · exact fun h => s.noNul (List.mem_of_mem_take h)
  · exact s.noNul

theorem zero_notMem_categoryToString (cat : Option (MemoryCategory Bytes)) :
    0 ∉ categoryToString cat := by
  unfold categoryToString
  split
  · decide
  · split
    · decide
    · decide
    · decide
    · split
      · split
        · exact CString.noNul _
        · decide
      · decide

theorem zero_notMem_fmtInt (i : ℤ) : 0 ∉ fmtInt i := by
  have hdigits : 0 ∉ fmtNat i.natAbs := by
    intro h
    have hd := (fmtNat_integerText i.natAbs).digits 0 h
    exact absurd hd (by decide)
  rw [fmtInt, List.mem_append, not_or]
  refine ⟨?_, hdigits⟩
  split <;> decide

section File

variable (key content : CString) (category : Option (MemoryCategory Bytes))
  (sessionId : Option Bytes) (now : ℤ)

theorem zero_notMem_markdownHeader : 0 ∉ markdownHeader key category sessionId now := by
  have hsession : ∀ s : Bytes, 0 ∉
      ascii "session_id: " ++ printPrecision s.length (.ofBytes s) ++ ascii "\n" := by
    intro s
    simp only [List.mem_append, not_or]
    exact ⟨⟨by decide, zero_notMem_printPrecision _ _⟩, by decide⟩
  simp only [markdownHeader, List.mem_append, not_or]
  refine ⟨⟨⟨⟨⟨⟨⟨by decide, zero_notMem_printPrecision _ _⟩, by decide⟩,
    zero_notMem_categoryToString _⟩, by decide⟩, zero_notMem_fmtInt _⟩, by decide⟩, ?_⟩
  split
  · split
    · exact hsession _
    · exact List.not_mem_nil
  · exact List.not_mem_nil

/-- The header ends with a line. -/
theorem getLast_markdownHeader :
    (markdownHeader key category sessionId now).getLast? = some newline := by
  unfold markdownHeader
  split
  · split
    · rw [← List.append_assoc, ← List.append_assoc, List.getLast?_append]
      rfl
    · rw [List.append_nil, List.getLast?_append]
      rfl
  · rw [List.append_nil, List.getLast?_append]
    rfl

theorem isFull_delimiter : IsFull lineRoom (ascii "---\n") :=
  ⟨⟨by decide, by decide, by decide⟩, Or.inl rfl⟩

theorem isFull_newline : IsFull lineRoom [newline] :=
  ⟨⟨by decide, by decide, by decide⟩, Or.inl rfl⟩

/-- The lines of the header that the reader takes for content, and the empty line after it. -/
def headerPieces (header : Bytes) : List Bytes :=
  (chunks lineRoom header).filter notDelimiter ++ [[newline]]

/-- What a look-up returns after a store. -/
theorem markdownGet_store (dir : MarkdownDir) :
    (markdownGet (markdownStore dir key content category sessionId now) key).map (·.content) =
      some (some (fit contentRoom (headerPieces (markdownHeader key category sessionId now) ++
        (chunks lineRoom (printPrecision content.octets.length content)).filter
          notDelimiter)).flatten) := by
  set header := markdownHeader key category sessionId now with hheader
  set text := printPrecision content.octets.length content with htext
  have hpos : 0 < lineRoom := by decide
  have hfull := isFull_chunks hpos (getLast_markdownHeader key category sessionId now)
  rw [← hheader] at hfull
  obtain ⟨htexts, htextflat⟩ := chunkList_chunks hpos text
  have hheaderflat := (chunkList_chunks hpos header).2
  have hlist : ChunkList lineRoom ([ascii "---\n"] ++ (chunks lineRoom header ++
      ([ascii "---\n", [newline]] ++ chunks lineRoom text))) := by
    refine ChunkList.append ?_ (ChunkList.append hfull (ChunkList.append ?_ htexts))
    · simpa using isFull_delimiter
    · simpa using ⟨isFull_delimiter, isFull_newline⟩
  have hfile : ascii "---\n" ++ header ++ ascii "---\n\n" ++ text =
      ([ascii "---\n"] ++ (chunks lineRoom header ++
        ([ascii "---\n", [newline]] ++ chunks lineRoom text))).flatten := by
    simp only [List.flatten_append, List.flatten_cons, List.flatten_nil, List.append_nil,
      hheaderflat, htextflat, List.append_assoc]
    rfl
  have hchunks := hlist.chunks_flatten hpos
  rw [← hfile] at hchunks
  have hlines : ∀ l ∈ chunks lineRoom header ++ ([ascii "---\n", [newline]] ++ chunks lineRoom text),
      l ≠ [] ∧ 0 ∉ l := by
    intro l hl
    refine ⟨(hlist.isChunk l (List.mem_append_right _ hl)).nonempty, fun hzero => ?_⟩
    rw [List.mem_append, List.mem_append] at hl
    rcases hl with hl | hl | hl
    · refine zero_notMem_markdownHeader key category sessionId now ?_
      rw [← hheader, ← hheaderflat]
      exact List.mem_flatten.mpr ⟨l, hl, hzero⟩
    · rcases List.mem_pair.mp hl with rfl | rfl
      · exact absurd hzero (by decide)
      · exact absurd hzero (by decide)
    · refine zero_notMem_printPrecision content.octets.length content ?_
      rw [← htext, ← htextflat]
      exact List.mem_flatten.mpr ⟨l, hl, hzero⟩
  rw [markdownGet, markdownStore, Function.update_self, Option.map_some, Option.map_some,
    ← hheader, ← htext, hchunks]
  -- the first line ends the header as far as the reader is concerned
  have hfirst : markdownLines ⟨ascii "core", [], false, []⟩ ([ascii "---\n"] ++
      (chunks lineRoom header ++ ([ascii "---\n", [newline]] ++ chunks lineRoom text))) =
      markdownLines ⟨ascii "core", [], true, []⟩
        (chunks lineRoom header ++ ([ascii "---\n", [newline]] ++ chunks lineRoom text)) := rfl
  rw [hfirst]
  have hcontent := @markdownLines_content ⟨ascii "core", [], true, []⟩ rfl _
    (Nat.zero_le _) hlines
  simp only [hcontent, List.nil_append, List.filter_append, headerPieces, List.append_assoc]
  rfl

/-- A content is read back as it was stored exactly when it is the repeated header. -/
theorem markdownGet_store_iff (dir : MarkdownDir) :
    (markdownGet (markdownStore dir key content category sessionId now) key).map (·.content) =
        some (some content.octets) ↔
      content.octets = repeatedHeader (markdownHeader key category sessionId now) := by
  rw [markdownGet_store, Option.some.injEq, Option.some.injEq]
  set header := markdownHeader key category sessionId now with hheader
  have hpos : 0 < lineRoom := by decide
  have hfull : ∀ p ∈ headerPieces header, IsFull lineRoom p := by
    intro p hp
    rcases List.mem_append.mp hp with hp | hp
    · exact isFull_chunks hpos (getLast_markdownHeader key category sessionId now) p
        (List.mem_of_mem_filter hp)
    · rw [List.mem_singleton.mp hp]
      exact isFull_newline
  have hne : ∀ p ∈ headerPieces header, p ≠ [] := fun p hp => (hfull p hp).1.nonempty
  have hone : ∃ p ∈ headerPieces header, p.length = 1 := ⟨[newline], by simp [headerPieces], rfl⟩
  have hkeep : ∀ p ∈ headerPieces header, notDelimiter p = true := by
    intro p hp
    rcases List.mem_append.mp hp with hp | hp
    · exact List.of_mem_filter hp
    · rw [List.mem_singleton.mp hp]
      rfl
  -- a text in the buffer is printed whole, and read again in the pieces it was made of
  have hread : ∀ ds : List Bytes, ChunkList lineRoom ds → (∀ d ∈ ds, notDelimiter d = true) →
      content.octets = ds.flatten → ds.flatten.length ≤ contentRoom →
      (chunks lineRoom (printPrecision content.octets.length content)).filter notDelimiter = ds := by
    intro ds hds hkeep' hflat hlen
    have hroom : contentRoom < 2 ^ 31 := by norm_num [contentRoom]
    have hprint : printPrecision content.octets.length content = content.octets := by
      rw [← hflat] at hlen
      have hmod : content.octets.length % 2 ^ 32 = content.octets.length :=
        Nat.mod_eq_of_lt (by omega)
      rw [printPrecision, hmod, if_pos (by omega), List.take_length]
    rw [hprint, hflat, hds.chunks_flatten hpos, List.filter_eq_self.mpr hkeep']
  constructor
  · intro h
    set ds := fit contentRoom (headerPieces header ++ (chunks lineRoom
      (printPrecision content.octets.length content)).filter notDelimiter) with hds
    have hsub := fit_sublist contentRoom (headerPieces header ++ (chunks lineRoom
      (printPrecision content.octets.length content)).filter notDelimiter)
    rw [← hds] at hsub
    have hlist : ChunkList lineRoom ds := by
      refine ChunkList.sublist (ChunkList.append hfull ?_) hsub
      exact (chunkList_chunks hpos _).1.sublist List.filter_sublist
    have hkeep' : ∀ d ∈ ds, notDelimiter d = true := by
      intro d hd
      rcases List.mem_append.mp (hsub.subset hd) with hd | hd
      · exact hkeep d hd
      · exact List.of_mem_filter hd
    have hagain := hread ds hlist hkeep' h.symm (length_fit_le _ _)
    rw [hagain] at hds
    have hfix := (fit_append_self_iff hne hone (fun d hd => (hlist.isChunk d hd).nonempty)
      le_rfl).mp hds
    rw [← h, hfix]
    rfl
  · intro h
    set ds := fit contentRoom (List.replicate contentRoom (headerPieces header)).flatten with hds
    have hmem : ∀ d ∈ ds, d ∈ headerPieces header := by
      intro d hd
      obtain ⟨ps, hps, hd⟩ := List.mem_flatten.mp ((fit_sublist _ _).subset hd)
      rwa [List.eq_of_mem_replicate hps] at hd
    have hflat : content.octets = ds.flatten := h
    have hlist : ChunkList lineRoom ds := chunkList_of_full fun d hd => hfull d (hmem d hd)
    have hagain := hread ds hlist (fun d hd => hkeep d (hmem d hd)) hflat (length_fit_le _ _)
    rw [hagain, ← (fit_append_self_iff hne hone (fun d hd => hne d (hmem d hd)) le_rfl).mpr hds,
      hflat]

end File

/-! ## Every sequence of calls -/

/-- A look-up depends on the file of the key alone. -/
theorem markdownGet_congr {dir dir' : MarkdownDir} {key key' : CString}
    (h : dir (keyToFilename key.octets) = dir' (keyToFilename key'.octets)) :
    (markdownGet dir key).map (·.content) = (markdownGet dir' key').map (·.content) := by
  simp only [markdownGet, h, Option.map_map]
  rfl

/-- The directory is the map, and what is held has a plain key. -/
def Faithful (s : MarkdownRun) : Prop := IsMap s ∧ ∀ key c, s.value key = some c → PlainKey key

theorem Faithful.keeps {s : MarkdownRun} (h : Faithful s) {op : MarkdownOp} (hop : StoresHeader s op) :
    ∃ s', markdownStep s op = some s' ∧ Faithful s' := by
  obtain ⟨hmap, hplain⟩ := h
  cases op with
  | store key content category sessionId now =>
    obtain ⟨hkey, hcontent⟩ := hop
    refine ⟨_, rfl, fun key' => ?_, fun key' c hc => ?_⟩
    · dsimp only
      by_cases he : key' = key
      · subst he
        rw [(markdownGet_store_iff key' content category sessionId now s.dir).mpr hcontent,
          Function.update_self, Option.map_some]
      · rw [Function.update_of_ne he, ← hmap key']
        refine markdownGet_congr ?_
        rw [markdownStore, Function.update_of_ne]
        exact fun hname => he (hkey.eq_of_filename hname)
    · dsimp only at hc
      by_cases he : key' = key
      · exact he ▸ hkey
      · rw [Function.update_of_ne he] at hc
        exact hplain key' c hc
  | get key => exact ⟨s, rfl, hmap, hplain⟩
  | forget key =>
    refine ⟨_, rfl, fun key' => ?_, fun key' c hc => ?_⟩
    · dsimp only
      by_cases hname : keyToFilename key'.octets = keyToFilename key.octets
      · have hnone : (markdownGet (markdownForget s.dir key) key').map (·.content) = none := by
          rw [markdownGet, markdownForget, hname, Function.update_self]
          rfl
        rw [hnone]
        by_cases he : key' = key
        · rw [he, Function.update_self]
          rfl
        · rw [Function.update_of_ne he]
          -- neither key can be held, as the other has the same file name
          cases hv : s.value key' with
          | none => rfl
          | some c =>
            exact absurd ((hplain key' c hv).eq_of_filename hname.symm).symm he
      · have he : key' ≠ key := fun he => hname (he ▸ rfl)
        rw [Function.update_of_ne he, ← hmap key']
        refine markdownGet_congr ?_
        rw [markdownForget, Function.update_of_ne hname]
    · dsimp only at hc
      by_cases he : key' = key
      · rw [he, Function.update_self] at hc
        exact absurd hc nofun
      · rw [Function.update_of_ne he] at hc
        exact hplain key' c hc

theorem Faithful.breaks {s s' : MarkdownRun} (h : Faithful s) {op : MarkdownOp}
    (hstep : markdownStep s op = some s') (hop : ¬ StoresHeader s op) : ¬ IsMap s' := by
  obtain ⟨hmap, hplain⟩ := h
  cases op with
  | store key content category sessionId now =>
    obtain rfl := Option.some.inj hstep
    intro hmap'
    by_cases hkey : PlainKey key
    · refine hop ⟨hkey, (markdownGet_store_iff key content category sessionId now s.dir).mp ?_⟩
      have hself := hmap' key
      dsimp only at hself
      rwa [Function.update_self, Option.map_some] at hself
    · -- another key finds the file
      obtain ⟨key', hne, hname⟩ := exists_other_key hkey
      have hother := hmap' key'
      dsimp only at hother
      have hfound := @markdownGet_congr (markdownStore s.dir key content category sessionId now)
        (markdownStore s.dir key content category sessionId now) key' key (by rw [hname])
      rw [Function.update_of_ne hne, hfound, markdownGet_store] at hother
      cases hv : s.value key' with
      | none =>
        rw [hv] at hother
        exact absurd hother (Option.some_ne_none _)
      | some c =>
        exact hne ((hplain key' c hv).eq_of_filename hname.symm).symm
  | get key => exact absurd trivial hop
  | forget key => exact absurd trivial hop

/-- In a directory without files, the engine is a map in every state of a run exactly when each
store has a plain key and, for its content, the header of its own file repeated until the buffer
is full. -/
theorem markdown_isMap_iff (ops : List MarkdownOp) :
    Machine.Throughout markdownStep IsMap ⟨fun _ => none, fun _ => none⟩ ops ↔
      Machine.EveryStep markdownStep StoresHeader ⟨fun _ => none, fun _ => none⟩ ops :=
  Machine.throughout_iff_everyStep_of_keeps (I := Faithful) (fun _ hs => hs.1)
    (fun _ _ hs hop => hs.keeps hop) (fun _ _ _ hs hstep hop => hs.breaks hstep hop)
    ⟨fun _ => rfl, fun _ _ hc => absurd hc.symm (Option.some_ne_none _)⟩ ops

/-- A header that is repeated starts with the name of its first line. -/
theorem head_repeatedHeader (key : CString) (category : Option (MemoryCategory Bytes))
    (sessionId : Option Bytes) (now : ℤ) :
    (repeatedHeader (markdownHeader key category sessionId now)).head? = some (ch 'k') := by
  obtain ⟨u, hu⟩ : ∃ u, markdownHeader key category sessionId now = ch 'k' :: u := by
    unfold markdownHeader
    exact ⟨_, rfl⟩
  have hpos : 0 < lineRoom := by decide
  have hfgets : (fgets lineRoom (ch 'k' :: u)).1 = ch 'k' :: (fgets 4094 u).1 := rfl
  have hchunk := (isChunk_fgets hpos (List.cons_ne_nil (ch 'k') u)).1.length
  have hkeep : notDelimiter (ch 'k' :: (fgets 4094 u).1) = true := rfl
  have hroom : lineRoom ≤ contentRoom := by decide
  rw [repeatedHeader, hu, chunks, dif_pos ⟨hpos, List.cons_ne_nil _ _⟩, hfgets,
    List.filter_cons_of_pos hkeep]
  rw [hfgets] at hchunk
  obtain ⟨n, hn⟩ : ∃ n, contentRoom = n + 1 := ⟨8190, rfl⟩
  have hrep : ∀ ps : List Bytes, List.replicate contentRoom ps = ps :: List.replicate n ps := by
    intro ps
    rw [hn, List.replicate_succ]
  rw [hrep, List.flatten_cons, List.cons_append, List.cons_append, fit, if_pos (by omega)]
  rfl

/-- A note comes back with the header in front. -/
theorem markdown_returns_header :
    ¬ Machine.Throughout markdownStep IsMap ⟨fun _ => none, fun _ => none⟩
      [.store (.ofBytes (ascii "k")) (.ofBytes (ascii "v")) none none 0] := by
  rintro ⟨-, s, hs, hmap⟩
  obtain rfl := Option.some.inj hs
  have hget := hmap (.ofBytes (ascii "k"))
  dsimp only at hget
  rw [Function.update_self, Option.map_some, markdownGet_store_iff] at hget
  have hhead := congrArg List.head? hget
  rw [head_repeatedHeader] at hhead
  exact absurd hhead (by decide)

end SeaClaw.Memory
