import SeaClaw.Tools.PatchText

/-!
# When a patch stays in its tables, and when it leaves the file as it is

The table of the file holds its first 65536 lines. The text of the patch is never compared with
that of the file, so a patch that does not fit is applied all the same.
-/

namespace SeaClaw.Tools

open SeaClaw.Lib

/-! ## The table of the file -/

theorem textLines_of_notMem {l : Bytes} (hne : l ≠ []) (hl : newline ∉ l) : textLines l = [l] := by
  induction l with
  | nil => exact absurd rfl hne
  | cons b l ih =>
    rw [List.mem_cons, not_or] at hl
    rw [textLines, if_neg (fun h => hl.1 h.symm)]
    rcases eq_or_ne l [] with rfl | hne'
    · rfl
    · rw [ih hne' hl.2]

theorem isLine_append_newline {l : Bytes} (hl : newline ∉ l) : IsLine (l ++ [newline]) := by
  refine ⟨List.getLast?_concat, ?_⟩
  rwa [List.dropLast_concat]

/-- The lines that are stored, from the middle of a line on. -/
theorem readTable_eq {cap : ℕ} {line s : Bytes} {off : ℕ} (count : ℕ) (hline : newline ∉ line)
    (hoff : off + s.length < cap - 1) :
    readTable cap line off count s = (textLines (line ++ s)).take (tableMax - count) := by
  induction s generalizing line off count with
  | nil =>
    rw [readTable, List.append_nil]
    rcases eq_or_ne line [] with rfl | hne
    · rw [if_neg fun h => h.1 rfl, textLines, List.take_nil]
    · rw [textLines_of_notMem hne hline]
      by_cases hcount : count < tableMax
      · rw [if_pos ⟨hne, hcount⟩, List.take_of_length_le]
        rw [List.length_singleton]
        omega
      · rw [if_neg fun h => hcount h.2, Nat.sub_eq_zero_of_le (not_lt.mp hcount), List.take_zero]
  | cons b s ih =>
    rw [List.length_cons] at hoff
    rw [readTable, if_pos (by omega)]
    by_cases hb : b = newline
    · subst hb
      have hlines : textLines (line ++ newline :: s) = (line ++ [newline]) :: textLines s := by
        rw [← textLines_line_append (isLine_append_newline hline), List.append_assoc,
          List.singleton_append]
      rw [if_pos (Or.inl rfl), hlines]
      by_cases hcount : count < tableMax
      · rw [if_pos hcount, ih (count + 1) List.not_mem_nil (by omega), List.nil_append,
          ← Nat.sub_add_cancel (Nat.sub_pos_of_lt hcount), List.take_succ_cons, Nat.sub_sub]
      · rw [if_neg hcount, ih count List.not_mem_nil (by omega),
          Nat.sub_eq_zero_of_le (not_lt.mp hcount), List.take_zero, List.take_zero]
    · rw [if_neg (by rw [not_or]; exact ⟨hb, by omega⟩), ih count ?_ (by omega), List.append_assoc,
        List.singleton_append]
      rw [List.mem_append, List.mem_singleton, not_or]
      exact ⟨hline, fun h => hb h.symm⟩

/-- The buffer has room for the whole file, so the table has its first lines. -/
theorem readTable_file (file patch : Bytes) :
    readTable (file.length + patch.length + 4096) [] 0 0 file = (textLines file).take tableMax :=
  readTable_eq 0 List.not_mem_nil (by omega)

/-- The hunks that the tool reads. -/
def hunksOf (wide : ℤ → ℤ) (file : Bytes) (patch : CString) : List Hunk :=
  patchHunks wide (patch.octets.length + 1) patch.octets ((textLines file).take tableMax)

section Outcome

variable {wide : ℤ → ℤ} {file : Bytes} {patch : CString}

/-- A patch that is not refused for its length makes the splices of its hunks. -/
theorem applyPatch_eq (hfile : file.length ≤ patchFileMax)
    (hpatch : patch.octets.length ≤ patchMax) :
    applyPatch wide file patch = (Machine.run hunkStep
      ⟨(textLines file).take tableMax, tableMax, 0, 0⟩ (hunksOf wide file patch)).map fun st =>
        ⟨st.lines.flatMap writeLine, true, ascii "patch applied: " ++ fmtNat st.applied ++
          ascii " hunk(s) succeeded, " ++ fmtNat st.failed ++ ascii " failed"⟩ := by
  rw [applyPatch, if_neg (not_lt.mpr hpatch), if_neg (not_lt.mpr hfile), readTable_file]
  dsimp only
  rw [hunkLoop_eq wide (Nat.lt_succ_self _)]
  rfl

/-- A call is defined if and only if the tables have room. -/
theorem applyPatch_isSome (hfile : file.length ≤ patchFileMax)
    (hpatch : patch.octets.length ≤ patchMax) :
    (applyPatch wide file patch).isSome ↔
      FitsTables tableMax ((textLines file).take tableMax) (hunksOf wide file patch) := by
  rw [applyPatch_eq hfile hpatch, Option.isSome_map, isSome_run_hunkStep]

end Outcome

/-! ## Writes behind the tables -/

/-- No write goes behind a table, and the table of the file has all of its lines, if and only if
the file has at most 65536 lines and every table has room for what its hunk adds. -/
theorem applyPatch_inTables_iff (wide : ℤ → ℤ) (file : Bytes) (patch : CString)
    (hfile : file.length ≤ patchFileMax) (hpatch : patch.octets.length ≤ patchMax) :
    ((applyPatch wide file patch).isSome ∧
        readTable (file.length + patch.octets.length + 4096) [] 0 0 file = textLines file) ↔
      (textLines file).length ≤ tableMax ∧
        FitsTables tableMax (textLines file)
          (patchHunks wide (patch.octets.length + 1) patch.octets (textLines file)) := by
  rw [applyPatch_isSome hfile hpatch, readTable_file, List.take_eq_self_iff, hunksOf, and_comm]
  refine and_congr_right fun hlength => ?_
  rw [List.take_of_length_le hlength]

/-- A hunk that adds a line to an empty file. -/
def oneAdded : HunkText where
  start := 1
  tail := []
  body := [.added []]
  lt := by decide
  oneLine := by decide
  ends := fun _ hb => absurd hb (Option.not_mem_none _)
  texts := by decide

/-- A hunk for the start of a file that adds more lines than the second table has elements. -/
def manyAdded : HunkText where
  start := 1
  tail := []
  body := List.replicate (tableMax + tableGrowth + 1) (.added [])
  lt := by decide
  oneLine := by decide
  ends := fun _ hb => absurd hb (Option.not_mem_none _)
  texts := by
    intro l hl
    obtain rfl := List.eq_of_mem_replicate hl
    decide

/-- A hunk at the first line lies in an empty file. -/
theorem inFile_nil {h : HunkText} (hstart : h.start = 1) :
    h.hunk.InFile ([] : List Bytes).length := by
  have hone : h.hunk.start = 1 := congrArg Nat.cast hstart
  rw [Hunk.InFile, hone, List.length_nil]
  decide

/-- A patch of one hunk for an empty file. -/
theorem patchHunks_empty (h : HunkText) (hstart : h.start = 1) :
    patchHunks (fun z => z) ((writtenPatch [] [h]).octets.length + 1) (writtenPatch [] [h]).octets
      [] = [h.hunk] := by
  rw [octets_writtenPatch List.not_mem_nil]
  refine patchHunks_written _ noMark_nil ?_ ⟨inFile_nil hstart, trivial⟩
  exact Nat.lt_succ_of_le (length_le_writtenHunks [h])

/-- One line is added to an empty file. -/
theorem applyPatch_inTables_oneAdded :
    (applyPatch (fun z => z) [] (writtenPatch [] [oneAdded])).isSome ∧
      readTable (0 + (writtenPatch [] [oneAdded]).octets.length + 4096) [] 0 0 [] = [] := by
  refine (applyPatch_inTables_iff (fun z => z) [] (writtenPatch [] [oneAdded]) (Nat.zero_le _) ?_).mpr
    ⟨Nat.zero_le _, ?_⟩
  · rw [octets_writtenPatch List.not_mem_nil]
    decide
  · have hhunks := patchHunks_empty oneAdded rfl
    rw [textLines, hhunks, FitsTables, if_pos (inFile_nil (h := oneAdded) rfl)]
    exact ⟨by decide, trivial⟩

theorem addedLines_replicate (n : ℕ) (t : Bytes) :
    addedLines (List.replicate n (.added t)) = n := by
  induction n with
  | zero => rfl
  | succ n ih => rw [List.replicate_succ, addedLines, ih]

theorem removedLines_replicate (k n : ℕ) (t : Bytes) :
    removedLines k (List.replicate n (.added t)) = 0 := by
  induction n with
  | zero => rfl
  | succ n ih => rw [List.replicate_succ, removedLines, ih]

/-- A patch of less than 140 kB writes behind the second table. -/
theorem applyPatch_manyAdded :
    (writtenPatch [] [manyAdded]).octets.length ≤ patchMax ∧
      applyPatch (fun z => z) [] (writtenPatch [] [manyAdded]) = none := by
  have hlength : (writtenPatch [] [manyAdded]).octets.length ≤ patchMax := by
    have hlines : ((List.replicate (tableMax + tableGrowth + 1) (HunkLine.added [])).map
        HunkLine.written).flatten.length = (tableMax + tableGrowth + 1) * 2 := by
      rw [List.map_replicate, List.length_flatten, List.map_replicate, List.sum_replicate]
      rfl
    rw [octets_writtenPatch List.not_mem_nil, List.nil_append, writtenHunks, List.flatMap_singleton,
      HunkText.written, List.length_append, List.length_cons]
    have hbody : manyAdded.body = List.replicate (tableMax + tableGrowth + 1) (.added []) := rfl
    have hheader : manyAdded.header.length = 5 := by decide
    rw [hbody, hlines, hheader]
    decide
  refine ⟨hlength, ?_⟩
  have hfits : ¬ FitsTables tableMax [] [manyAdded.hunk] := by
    rw [FitsTables, if_pos (inFile_nil (h := manyAdded) rfl)]
    rintro ⟨hcount, -⟩
    have hbody : manyAdded.hunk.body = List.replicate (tableMax + tableGrowth + 1) (.added []) := rfl
    rw [hbody, addedLines_replicate, removedLines_replicate, List.length_nil] at hcount
    omega
  rw [← Option.not_isSome_iff_eq_none, applyPatch_isSome (Nat.zero_le _) hlength, hunksOf, textLines,
    List.take_nil, patchHunks_empty manyAdded rfl]
  exact hfits

/-!
# Patches that do not fit

A hunk fits where the lines that it keeps and removes are those of the file. The tool applies what
lies in the file whether it fits or not, so the file stays as it is only where the lines that come
out are those of the file.
-/

/-- The text of a line, without its newline. -/
def chop (l : Bytes) : Bytes := l.takeWhile (· ≠ newline)

/-- The texts that a hunk says are in the file. -/
def oldTexts (body : List HunkLine) : List Bytes :=
  body.filterMap fun
    | .removed t => some t
    | .added _ => none
    | .kept t => some t

/-- The hunk lies in the file, and its lines are those of the file there. -/
def Hunk.Fits (h : Hunk) (lines : List Bytes) : Prop :=
  h.InFile lines.length ∧ oldTexts h.body <+: (lines.drop h.place).map chop

instance (h : Hunk) (lines : List Bytes) : Decidable (h.Fits lines) :=
  inferInstanceAs (Decidable (_ ∧ _))

/-- Every hunk fits when it is its turn. -/
def AllFit : List Bytes → List Hunk → Prop
  | _, [] => True
  | lines, h :: hs => h.Fits lines ∧ AllFit (h.apply lines) hs

instance decidableAllFit : ∀ lines hs, Decidable (AllFit lines hs)
  | _, [] => isTrue trivial
  | lines, h :: hs =>
    have := decidableAllFit (h.apply lines) hs
    inferInstanceAs (Decidable (h.Fits lines ∧ AllFit (h.apply lines) hs))

/-! ## Lines that come out -/

section Unchanged

variable (wide : ℤ → ℤ) (file : Bytes) (patch : CString)

end Unchanged

end SeaClaw.Tools
