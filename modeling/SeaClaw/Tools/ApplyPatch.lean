import SeaClaw.Lib.CString
import SeaClaw.Lib.Printf
import SeaClaw.Lib.Strtol
import SeaClaw.Lib.TextLines
import SeaClaw.Lib.Machine

/-!
# Patches

`apply_patch_execute` of `tools/apply_patch.c`, from the check of the patch's length on. The lines
of the file are kept in a table, and every hunk that is applied builds a new one with 4096 more
elements than the one before has.
-/

namespace SeaClaw.Tools

open SeaClaw.Lib

/-! ## The table of lines -/

/-- The longest file in octets. -/
def patchFileMax : ℕ := 10485760

/-- The longest patch in octets. -/
def patchMax : ℕ := 1048576

/-- The elements of the first table. -/
def tableMax : ℕ := 65536

/-- What every new table has more than the one before. -/
def tableGrowth : ℕ := 4096

/-- The loop over the octets of the file: the lines that are stored in the table, in a buffer of
`cap` octets, with the line that is being read and the numbers of octets and lines before. -/
def readTable (cap : ℕ) : Bytes → ℕ → ℕ → Bytes → List Bytes
  | line, _, count, [] => if line ≠ [] ∧ count < tableMax then [line] else []
  | line, off, count, b :: s =>
    if off < cap - 1 then
      if b = newline ∨ off + 1 = cap - 1 then
        if count < tableMax then (line ++ [b]) :: readTable cap [] (off + 1) (count + 1) s
        else readTable cap [] (off + 1) count s
      else readTable cap (line ++ [b]) (off + 1) count s
    else if line ≠ [] ∧ count < tableMax then [line] else []

/-- A write to the next element of a table of `room` elements. What lies behind the table is not
the program's. -/
def push (room : ℕ) (table : List Bytes) (line : Bytes) : Option (List Bytes) :=
  if table.length < room then some (table ++ [line]) else none

/-- The loops that copy elements of the table before. -/
def pushAll (room : ℕ) : List Bytes → List Bytes → Option (List Bytes)
  | table, [] => some table
  | table, line :: lines => (push room table line).bind fun table => pushAll room table lines

/-! ## A hunk -/

/-- The search for `@@`. -/
def seekHunk : Bytes → Bytes
  | [] => []
  | b :: s => if b = ch '@' ∧ s.head? = some (ch '@') then b :: s else seekHunk s

/-- `%d` of `sscanf`. What is stored for a number that no `int` holds is not defined by the C
standard: it is what `wide` says. -/
def scanInt (wide : ℤ → ℤ) (s : Bytes) : Option ℤ :=
  let r := optSign (s.dropWhile isSpace)
  if r.2.takeWhile isDigit = [] then none
  else
    let v : ℤ := if r.1 then -leadingNat r.2 else leadingNat r.2
    some (if -2 ^ 31 ≤ v ∧ v < 2 ^ 31 then v else wide v)

/-- What `sscanf(p, "@@ -%d,%d", …)` stores first, or `sscanf(p, "@@ -%d", …)` after it: both
read the same number or none. -/
def scanStart (wide : ℤ → ℤ) (p : Bytes) : Option ℤ :=
  if (ascii "@@").isPrefixOf p then
    match (p.drop 2).dropWhile isSpace with
    | [] => none
    | b :: s => if b = ch '-' then scanInt wide s else none
  else none

/-- What follows the line that the text starts with. -/
def afterLine (p : Bytes) : Bytes := (p.dropWhile (· ≠ newline)).drop 1

/-- What follows the sign of a line, up to its end. -/
def lineText (l : Bytes) : Bytes := l.tail.takeWhile (· ≠ newline)

/-- The loop over the lines of a hunk: how far the table `lines` has been read, the table that is
written, and the lines of the patch that are left. -/
def hunkLines (room : ℕ) (lines : List Bytes) :
    ℕ → List Bytes → List Bytes → Option (ℕ × List Bytes × List Bytes)
  | oi, table, [] => some (oi, table, [])
  | oi, table, l :: ls =>
    if (ascii "@@").isPrefixOf l then some (oi, table, l :: ls)
    else if l.head? = some (ch '-') then
      hunkLines room lines (if oi < lines.length then oi + 1 else oi) table ls
    else if l.head? = some (ch '+') then
      (push room table (lineText l)).bind fun table => hunkLines room lines oi table ls
    else if l.head? = some (ch ' ') ∨ l.head? = some (ch '\\') then
      match lines[oi]? with
      | some line =>
        (push room table line).bind fun table => hunkLines room lines (oi + 1) table ls
      | none => hunkLines room lines oi table ls
    else some (oi, table, l :: ls)

/-- The table, its number of elements, and the hunks so far. -/
structure PatchState where
  lines : List Bytes
  maxLines : ℕ
  applied : ℕ
  failed : ℕ

/-- A hunk that starts at a line of the table or behind its last one. -/
def applyHunk (st : PatchState) (insertAt : ℕ) (p : Bytes) : Option (PatchState × Bytes) :=
  let room := st.maxLines + tableGrowth
  (pushAll room [] (st.lines.take insertAt)).bind fun table =>
    (hunkLines room st.lines insertAt table (textLines p)).bind fun (oi, table, ls) =>
      (pushAll room table (st.lines.drop oi)).map fun table =>
        (⟨table, st.maxLines + tableGrowth, st.applied + 1, st.failed⟩, ls.flatten)

/-- The loop over the hunks of the patch; the fuel is more than the octets that are left. -/
def hunkLoop (wide : ℤ → ℤ) : ℕ → Bytes → PatchState → Option PatchState
  | 0, _, _ => none
  | fuel + 1, p, st =>
    match seekHunk p with
    | [] => some st
    | b :: s =>
      match scanStart wide (b :: s) with
      | none => hunkLoop wide fuel s st
      | some start =>
        let p := afterLine (b :: s)
        if start < 1 ∨ start > st.lines.length + 1 then
          hunkLoop wide fuel (seekHunk p) { st with failed := st.failed + 1 }
        else
          (applyHunk st (start - 1).toNat p).bind fun (st, p) => hunkLoop wide fuel p st

/-! ## The tool -/

/-- How a line is written: one without a newline gets it. -/
def writeLine (l : Bytes) : Bytes := if l.getLast? = some newline then l else l ++ [newline]

/-- What the tool says, and whether it has failed. -/
structure ToolResult where
  success : Bool
  output : Bytes

/-- The file after the call, and the result. -/
structure PatchOutcome where
  file : Bytes
  result : ToolResult

/-- The file that is there, the patch with `NUL` behind it. `none` stands for a write outside of a
table. -/
def applyPatch (wide : ℤ → ℤ) (file : Bytes) (patch : CString) : Option PatchOutcome :=
  if patch.octets.length > patchMax then
    some ⟨file, false, ascii "patch too large (max 1MB)"⟩
  else if file.length > patchFileMax then some ⟨file, false, ascii "file too large"⟩
  else
    let lines := readTable (file.length + patch.octets.length + 4096) [] 0 0 file
    (hunkLoop wide (patch.octets.length + 1) patch.octets ⟨lines, tableMax, 0, 0⟩).map fun st =>
      ⟨st.lines.flatMap writeLine, true, ascii "patch applied: " ++ fmtNat st.applied ++
        ascii " hunk(s) succeeded, " ++ fmtNat st.failed ++ ascii " failed"⟩

/-!
# What the hunks of a patch do

A hunk is a place and lines that are removed, added or kept. What it makes of the lines of a file
is a splice, and the tables of the code hold the lines that the splices give as long as they have
room for them.
-/

/-! ## Hunks -/

/-- A line of a hunk, without its sign. -/
inductive HunkLine where
  | removed (text : Bytes)
  | added (text : Bytes)
  | kept (text : Bytes)
  deriving DecidableEq

/-- A hunk: the line that its header names, from 1 on, and its lines. -/
structure Hunk where
  start : ℤ
  body : List HunkLine

/-- The line of a patch in a hunk. -/
def hunkLine (l : Bytes) : Option HunkLine :=
  if l.head? = some (ch '-') then some (.removed (lineText l))
  else if l.head? = some (ch '+') then some (.added (lineText l))
  else if l.head? = some (ch ' ') ∨ l.head? = some (ch '\\') then some (.kept (lineText l))
  else none

/-- The lines of a hunk, and the lines of the patch behind it. -/
def hunkBody : List Bytes → List HunkLine × List Bytes
  | [] => ([], [])
  | l :: ls =>
    match hunkLine l with
    | none => ([], l :: ls)
    | some h => (h :: (hunkBody ls).1, (hunkBody ls).2)

/-- What the lines of a hunk make of the lines from its place on: what is written, and what they
have not come to. -/
def fill : List Bytes → List HunkLine → List Bytes × List Bytes
  | lines, [] => ([], lines)
  | lines, .removed _ :: body => fill lines.tail body
  | lines, .added text :: body => (text :: (fill lines body).1, (fill lines body).2)
  | [], .kept _ :: body => fill [] body
  | line :: lines, .kept _ :: body => (line :: (fill lines body).1, (fill lines body).2)

namespace Hunk

/-- The lines in front of the hunk. -/
def place (h : Hunk) : ℕ := (h.start - 1).toNat

/-- The header names one of `n` lines, or the place behind them. -/
def InFile (h : Hunk) (n : ℕ) : Prop := ¬ (h.start < 1 ∨ h.start > n + 1)

instance (h : Hunk) (n : ℕ) : Decidable (h.InFile n) := inferInstanceAs (Decidable (¬ _))

/-- The hunk at its place. -/
def splice (h : Hunk) (lines : List Bytes) : List Bytes :=
  lines.take h.place ++ ((fill (lines.drop h.place) h.body).1 ++
    (fill (lines.drop h.place) h.body).2)

/-- What becomes of the lines of the file. -/
def apply (h : Hunk) (lines : List Bytes) : List Bytes :=
  if h.InFile lines.length then h.splice lines else lines

end Hunk

/-- The hunks that are read from a patch; where the next one is looked for depends on whether the
one before lies in the file. -/
def patchHunks (wide : ℤ → ℤ) : ℕ → Bytes → List Bytes → List Hunk
  | 0, _, _ => []
  | fuel + 1, p, lines =>
    match seekHunk p with
    | [] => []
    | b :: s =>
      match scanStart wide (b :: s) with
      | none => patchHunks wide fuel s lines
      | some start =>
        let p := afterLine (b :: s)
        let h : Hunk := ⟨start, (hunkBody (textLines p)).1⟩
        h :: patchHunks wide fuel
          (if h.InFile lines.length then (hunkBody (textLines p)).2.flatten else seekHunk p)
          (h.apply lines)

/-! ## Counting lines -/

/-- The lines that are added. -/
def addedLines : List HunkLine → ℕ
  | [] => 0
  | .removed _ :: body => addedLines body
  | .added _ :: body => addedLines body + 1
  | .kept _ :: body => addedLines body

/-- The lines that are removed, of `n` lines from the place of the hunk on. -/
def removedLines : ℕ → List HunkLine → ℕ
  | _, [] => 0
  | n, .added _ :: body => removedLines n body
  | 0, .removed _ :: body => removedLines 0 body
  | n + 1, .removed _ :: body => removedLines n body + 1
  | 0, .kept _ :: body => removedLines 0 body
  | n + 1, .kept _ :: body => removedLines n body

theorem length_fill (lines : List Bytes) (body : List HunkLine) :
    (fill lines body).1.length + (fill lines body).2.length + removedLines lines.length body =
      lines.length + addedLines body := by
  induction body generalizing lines with
  | nil =>
    rw [fill, removedLines, addedLines]
    exact Nat.zero_add _
  | cons l body ih =>
    cases l with
    | removed text =>
      cases lines with
      | nil =>
        rw [fill, List.tail_nil, addedLines, List.length_nil, removedLines]
        exact ih []
      | cons line lines =>
        have h := ih lines
        rw [fill, List.tail_cons, addedLines, List.length_cons, removedLines]
        omega
    | added text =>
      have h := ih lines
      rw [fill, addedLines, removedLines]
      dsimp only
      rw [List.length_cons]
      omega
    | kept text =>
      cases lines with
      | nil =>
        rw [fill, addedLines, List.length_nil, removedLines]
        exact ih []
      | cons line lines =>
        have h := ih lines
        rw [fill, addedLines]
        dsimp only
        rw [List.length_cons, List.length_cons, removedLines]
        omega

/-- Every table has room for the lines that come into it: a hunk that is applied makes the next
one larger by 4096 elements. -/
def FitsTables : ℕ → List Bytes → List Hunk → Prop
  | _, _, [] => True
  | maxLines, lines, h :: hs =>
    if h.InFile lines.length then
      lines.length + addedLines h.body ≤
          maxLines + tableGrowth + removedLines (lines.length - h.place) h.body ∧
        FitsTables (maxLines + tableGrowth) (h.splice lines) hs
    else FitsTables maxLines lines hs

/-- The splice has as many lines as are counted. -/
theorem Hunk.length_splice (h : Hunk) (lines : List Bytes) :
    (h.splice lines).length + removedLines (lines.length - h.place) h.body =
      lines.length + addedLines h.body := by
  have hfill := length_fill (lines.drop h.place) h.body
  have hsplit := congrArg List.length (List.take_append_drop h.place lines)
  rw [List.length_append] at hsplit
  rw [List.length_drop] at hfill hsplit
  rw [Hunk.splice, List.length_append, List.length_append]
  omega

/-! ## The tables hold the splices -/

theorem pushAll_eq {room : ℕ} {table : List Bytes} (h : table.length ≤ room) (lines : List Bytes) :
    pushAll room table lines =
      if table.length + lines.length ≤ room then some (table ++ lines) else none := by
  induction lines generalizing table with
  | nil => rw [pushAll, List.append_nil, List.length_nil, Nat.add_zero, if_pos h]
  | cons line lines ih =>
    rw [pushAll, push, List.length_cons]
    by_cases hroom : table.length < room
    · rw [if_pos hroom, Option.bind_some, ih (by rw [List.length_append]; exact hroom),
        List.length_append, List.length_singleton, List.append_assoc, List.singleton_append]
      congr 1
      rw [Nat.add_assoc, Nat.add_comm 1]
    · rw [if_neg hroom, Option.bind_none, if_neg (by omega)]

/-- A line of a hunk in the loop. -/
theorem hunkLine_eq_none {l : Bytes} (h : (ascii "@@").isPrefixOf l = true) :
    hunkLine l = none := by
  obtain ⟨s, rfl⟩ := List.isPrefixOf_iff_prefix.mp h
  rw [hunkLine]
  rfl

theorem hunkLines_cons_of_none {l : Bytes} (h : hunkLine l = none) (room : ℕ) (lines : List Bytes)
    (oi : ℕ) (table ls : List Bytes) :
    hunkLines room lines oi table (l :: ls) = some (oi, table, l :: ls) := by
  rw [hunkLine] at h
  split_ifs at h with hminus hplus hkept
  rw [hunkLines, if_neg hminus, if_neg hplus, if_neg hkept, ite_self]

/-- The loop over the lines of a hunk fills the table. -/
theorem hunkLines_eq {room : ℕ} {lines : List Bytes} (oi : ℕ) (table : List Bytes)
    (hoi : oi ≤ lines.length) (h : table.length ≤ room) (ls : List Bytes) :
    ∃ oi', lines.drop oi' = (fill (lines.drop oi) (hunkBody ls).1).2 ∧
      hunkLines room lines oi table ls =
        if table.length + (fill (lines.drop oi) (hunkBody ls).1).1.length ≤ room then
          some (oi', table ++ (fill (lines.drop oi) (hunkBody ls).1).1, (hunkBody ls).2)
        else none := by
  induction ls generalizing oi table with
  | nil =>
    refine ⟨oi, rfl, ?_⟩
    rw [hunkLines, hunkBody, fill, List.append_nil, List.length_nil, Nat.add_zero, if_pos h]
  | cons l ls ih =>
    cases hl : hunkLine l with
    | none =>
      refine ⟨oi, by rw [hunkBody, hl]; rfl, ?_⟩
      rw [hunkLines_cons_of_none hl, hunkBody, hl]
      dsimp only
      rw [fill, List.append_nil, List.length_nil, Nat.add_zero, if_pos h]
    | some line =>
      have hbody : hunkBody (l :: ls) = (line :: (hunkBody ls).1, (hunkBody ls).2) := by
        rw [hunkBody, hl]
      have hmark : ¬ (ascii "@@").isPrefixOf l = true := by
        intro hmark
        rw [hunkLine_eq_none hmark] at hl
        cases hl
      rw [hbody]
      dsimp only
      rw [hunkLine] at hl
      split_ifs at hl with hminus hplus hkept
      · obtain rfl := Option.some.inj hl
        have hdrop : (lines.drop oi).tail =
            lines.drop (if oi < lines.length then oi + 1 else oi) := by
          split
          · rw [List.tail_drop]
          · next hge =>
            rw [List.drop_eq_nil_of_le (not_lt.mp hge), List.tail_nil]
        rw [fill, hdrop, hunkLines, if_neg hmark, if_pos hminus]
        exact ih _ table (by split <;> omega) h
      · obtain rfl := Option.some.inj hl
        rw [fill, hunkLines, if_neg hmark, if_neg hminus, if_pos hplus, push]
        dsimp only
        rw [List.length_cons]
        by_cases hroom : table.length < room
        · obtain ⟨oi', hdrop, hloop⟩ := ih oi (table ++ [lineText l]) hoi
            (by rw [List.length_append]; exact hroom)
          refine ⟨oi', hdrop, ?_⟩
          rw [if_pos hroom, Option.bind_some, hloop, List.length_append, List.length_singleton,
            List.append_assoc, List.singleton_append, Nat.add_assoc, Nat.add_comm 1]
        · obtain ⟨oi', hdrop, -⟩ := ih oi table hoi h
          exact ⟨oi', hdrop, by rw [if_neg hroom, Option.bind_none, if_neg (by omega)]⟩
      · obtain rfl := Option.some.inj hl
        rw [hunkLines, if_neg hmark, if_neg hminus, if_neg hplus, if_pos hkept]
        rcases Nat.lt_or_ge oi lines.length with hlt | hge
        · rw [List.getElem?_eq_getElem hlt, List.drop_eq_getElem_cons hlt, fill]
          dsimp only
          rw [List.length_cons, push]
          by_cases hroom : table.length < room
          · obtain ⟨oi', hdrop, hloop⟩ := ih (oi + 1) (table ++ [lines[oi]]) hlt
              (by rw [List.length_append]; exact hroom)
            refine ⟨oi', hdrop, ?_⟩
            rw [if_pos hroom, Option.bind_some, hloop, List.length_append, List.length_singleton,
              List.append_assoc, List.singleton_append, Nat.add_assoc, Nat.add_comm 1]
          · obtain ⟨oi', hdrop, -⟩ := ih (oi + 1) table hlt h
            exact ⟨oi', hdrop, by rw [if_neg hroom, Option.bind_none, if_neg (by omega)]⟩
        · have hnil := List.drop_eq_nil_of_le hge
          obtain ⟨oi', hdrop, hloop⟩ := ih oi table hoi h
          rw [hnil] at hdrop hloop
          rw [List.getElem?_eq_none hge, hnil, fill]
          exact ⟨oi', hdrop, hloop⟩

theorem Hunk.place_le {h : Hunk} {n : ℕ} (hin : h.InFile n) : h.place ≤ n := by
  rw [InFile, not_or] at hin
  rw [place]
  omega

/-- A hunk of the patch in the table: the splice, if there is room for it. -/
theorem applyHunk_eq (st : PatchState) (start : ℤ) (p : Bytes)
    (hin : (Hunk.mk start (hunkBody (textLines p)).1).InFile st.lines.length) :
    applyHunk st (Hunk.mk start (hunkBody (textLines p)).1).place p =
      if ((Hunk.mk start (hunkBody (textLines p)).1).splice st.lines).length ≤
          st.maxLines + tableGrowth then
        some (⟨(Hunk.mk start (hunkBody (textLines p)).1).splice st.lines,
          st.maxLines + tableGrowth, st.applied + 1, st.failed⟩,
            (hunkBody (textLines p)).2.flatten)
      else none := by
  set h : Hunk := ⟨start, (hunkBody (textLines p)).1⟩ with hdef
  have hplace := h.place_le hin
  have hsplice : (h.splice st.lines).length = (st.lines.take h.place).length +
      ((fill (st.lines.drop h.place) h.body).1.length +
        (fill (st.lines.drop h.place) h.body).2.length) := by
    rw [Hunk.splice, List.length_append, List.length_append]
  rw [applyHunk, pushAll_eq (Nat.zero_le _), List.nil_append, List.length_nil, Nat.zero_add,
    hsplice]
  dsimp only
  by_cases htake : (st.lines.take h.place).length ≤ st.maxLines + tableGrowth
  · obtain ⟨oi, hdrop, hlines⟩ := hunkLines_eq h.place _ hplace htake (textLines p)
    rw [if_pos htake, Option.bind_some, hlines]
    by_cases hfill : (st.lines.take h.place).length +
        (fill (st.lines.drop h.place) h.body).1.length ≤ st.maxLines + tableGrowth
    · rw [if_pos hfill, Option.bind_some, hdrop, pushAll_eq (by rw [List.length_append]; exact hfill),
        List.length_append, Nat.add_assoc]
      by_cases hroom : (st.lines.take h.place).length +
          ((fill (st.lines.drop h.place) h.body).1.length +
            (fill (st.lines.drop h.place) h.body).2.length) ≤ st.maxLines + tableGrowth
      · rw [if_pos hroom, if_pos hroom, Option.map_some, Hunk.splice, List.append_assoc]
      · rw [if_neg hroom, if_neg hroom, Option.map_none]
    · rw [if_neg hfill, Option.bind_none, if_neg (by omega)]
  · rw [if_neg htake, Option.bind_none, if_neg (by omega)]

/-! ## The loop over the patch -/

theorem length_seekHunk_le (p : Bytes) : (seekHunk p).length ≤ p.length := by
  induction p with
  | nil => exact le_rfl
  | cons b s ih =>
    rw [seekHunk]
    split
    · exact le_rfl
    · exact ih.trans (Nat.le_succ _)

theorem length_afterLine_le (b : UInt8) (s : Bytes) :
    (afterLine (b :: s)).length ≤ s.length := by
  rw [afterLine, List.length_drop]
  have hle : ((b :: s).dropWhile (· ≠ newline)).length ≤ (b :: s).length :=
    (List.dropWhile_sublist _).length_le
  rw [List.length_cons] at hle
  omega

theorem length_hunkBody_le (ls : List Bytes) :
    (hunkBody ls).2.flatten.length ≤ ls.flatten.length := by
  induction ls with
  | nil => exact le_rfl
  | cons l ls ih =>
    rw [hunkBody]
    split
    · exact le_rfl
    · rw [List.flatten_cons, List.length_append]
      dsimp only
      omega

/-- One hunk, as a step. -/
def hunkStep (st : PatchState) (h : Hunk) : Option PatchState :=
  if h.InFile st.lines.length then
    if (h.splice st.lines).length ≤ st.maxLines + tableGrowth then
      some ⟨h.splice st.lines, st.maxLines + tableGrowth, st.applied + 1, st.failed⟩
    else none
  else some { st with failed := st.failed + 1 }

/-- The loop over the patch is the run of its hunks. -/
theorem hunkLoop_eq (wide : ℤ → ℤ) {fuel : ℕ} {p : Bytes} (hfuel : p.length < fuel)
    (st : PatchState) :
    hunkLoop wide fuel p st = Machine.run hunkStep st (patchHunks wide fuel p st.lines) := by
  induction fuel generalizing p st with
  | zero => omega
  | succ fuel ih =>
    rw [hunkLoop, patchHunks]
    have hseek := length_seekHunk_le p
    cases hs : seekHunk p with
    | nil => rfl
    | cons b s =>
      rw [hs, List.length_cons] at hseek
      dsimp only
      cases hstart : scanStart wide (b :: s) with
      | none => exact ih (by omega) st
      | some start =>
        dsimp only
        have hafter := length_afterLine_le b s
        set h : Hunk := ⟨start, (hunkBody (textLines (afterLine (b :: s)))).1⟩ with hdef
        rw [Machine.run, hunkStep, Hunk.apply]
        by_cases hin : h.InFile st.lines.length
        · have hnot : ¬ (start < 1 ∨ start > (st.lines.length : ℤ) + 1) := hin
          have hnext : (hunkBody (textLines (afterLine (b :: s)))).2.flatten.length < fuel := by
            have hle := length_hunkBody_le (textLines (afterLine (b :: s)))
            rw [flatten_textLines] at hle
            omega
          have happly := applyHunk_eq st start (afterLine (b :: s)) hin
          rw [Hunk.place] at happly
          rw [if_neg hnot, if_pos hin, if_pos hin, if_pos hin, happly]
          split
          · rw [Option.bind_some, Option.bind_some]
            exact ih hnext _
          · rfl
        · have hnot : start < 1 ∨ start > (st.lines.length : ℤ) + 1 := not_not.mp hin
          have hnext : (seekHunk (afterLine (b :: s))).length < fuel := by
            have hle := length_seekHunk_le (afterLine (b :: s))
            omega
          rw [if_pos hnot, if_neg hin, if_neg hin, if_neg hin, Option.bind_some]
          exact ih hnext _

/-- The run of the hunks is defined if and only if the tables have room for the lines. -/
theorem isSome_run_hunkStep (st : PatchState) (hs : List Hunk) :
    (Machine.run hunkStep st hs).isSome ↔ FitsTables st.maxLines st.lines hs := by
  induction hs generalizing st with
  | nil => exact iff_of_true rfl trivial
  | cons h hs ih =>
    rw [Machine.run, hunkStep, FitsTables]
    by_cases hin : h.InFile st.lines.length
    · have hlength := h.length_splice st.lines
      rw [if_pos hin, if_pos hin]
      by_cases hroom : (h.splice st.lines).length ≤ st.maxLines + tableGrowth
      · rw [if_pos hroom, Option.bind_some, ih]
        exact (and_iff_right (by omega)).symm
      · rw [if_neg hroom, Option.bind_none]
        refine iff_of_false Bool.false_ne_true ?_
        rintro ⟨hcount, -⟩
        omega
    · rw [if_neg hin, if_neg hin, Option.bind_some, ih]

end SeaClaw.Tools
