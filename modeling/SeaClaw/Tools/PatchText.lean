import SeaClaw.Tools.ApplyPatch

/-!
# Patches as they are written

A header names the first line of its hunk, and every line of the hunk has its sign. What is read
from such a text are the hunks that were written, as long as each lies in the file.
-/

namespace SeaClaw.Tools

open SeaClaw.Lib

/-- The text of a line of a hunk. -/
def HunkLine.text : HunkLine → Bytes
  | removed t => t
  | added t => t
  | kept t => t

/-- The sign of a line of a hunk. -/
def HunkLine.sign : HunkLine → UInt8
  | removed _ => ch '-'
  | added _ => ch '+'
  | kept _ => ch ' '

/-- A line of a hunk as it is written. -/
def HunkLine.written (l : HunkLine) : Bytes := l.sign :: (l.text ++ [newline])

/-- A text of one line. -/
def OneLine (t : Bytes) : Prop := newline ∉ t ∧ 0 ∉ t

instance (t : Bytes) : Decidable (OneLine t) := inferInstanceAs (Decidable (_ ∧ _))

/-- A hunk to be written: the line where it starts, what its header has behind that number, and
its lines. -/
structure HunkText where
  start : ℕ
  tail : Bytes
  body : List HunkLine
  lt : start < 2 ^ 31
  oneLine : OneLine tail
  ends : ∀ b ∈ tail.head?, isDigit b = false
  texts : ∀ l ∈ body, OneLine l.text

namespace HunkText

/-- The hunk that is meant. -/
def hunk (h : HunkText) : Hunk := ⟨h.start, h.body⟩

/-- The line of the header. -/
def header (h : HunkText) : Bytes := ascii "@@ -" ++ (fmtNat h.start ++ h.tail)

/-- The hunk as it is written. -/
def written (h : HunkText) : Bytes :=
  h.header ++ newline :: (h.body.map HunkLine.written).flatten

end HunkText

/-- The hunks of a patch, one after the other. -/
def writtenHunks (hs : List HunkText) : Bytes := hs.flatMap HunkText.written

/-- A patch with something in front of its hunks. -/
def writtenPatch (front : Bytes) (hs : List HunkText) : CString :=
  .ofBytes (front ++ writtenHunks hs)

/-! ## Lines -/

theorem isLine_written {l : HunkLine} (h : OneLine l.text) : IsLine l.written := by
  have hsign : l.sign ≠ newline := by
    cases l with
    | removed t => exact (by decide : ch '-' ≠ newline)
    | added t => exact (by decide : ch '+' ≠ newline)
    | kept t => exact (by decide : ch ' ' ≠ newline)
  exact isLine_cons hsign ⟨List.getLast?_concat, by rw [List.dropLast_concat]; exact h.1⟩

theorem takeWhile_append_newline {t : Bytes} (h : newline ∉ t) (s : Bytes) :
    (t ++ newline :: s).takeWhile (· ≠ newline) = t := by
  have hall : ∀ b ∈ t, decide (b ≠ newline) = true := by
    intro b hb
    rw [decide_eq_true_eq]
    rintro rfl
    exact h hb
  rw [List.takeWhile_append_of_pos hall, List.takeWhile_cons_of_neg (by simp), List.append_nil]

/-- A line that was written is read as it is meant. -/
theorem hunkLine_written {l : HunkLine} (h : OneLine l.text) : hunkLine l.written = some l := by
  have htext : lineText l.written = l.text := by
    rw [lineText, HunkLine.written, List.tail_cons]
    exact takeWhile_append_newline h.1 []
  rw [hunkLine, htext]
  cases l with
  | removed t => rfl
  | added t => rfl
  | kept t => rfl

/-- The lines of a hunk end where another line starts. -/
theorem hunkBody_written {body : List HunkLine} (h : ∀ l ∈ body, OneLine l.text) {ls : List Bytes}
    (hls : ∀ l ∈ ls.head?, hunkLine l = none) :
    hunkBody (body.map HunkLine.written ++ ls) = (body, ls) := by
  induction body with
  | nil =>
    cases ls with
    | nil => rfl
    | cons l ls => rw [List.map_nil, List.nil_append, hunkBody, hls l rfl]
  | cons l body ih =>
    rw [List.forall_mem_cons] at h
    rw [List.map_cons, List.cons_append, hunkBody, hunkLine_written h.1, ih h.2]

/-- Behind the hunks of a patch there is nothing, or the mark of another one. -/
theorem hunkLine_head_textLines {s : Bytes} (h : s = [] ∨ ∃ t, s = ascii "@@" ++ t) :
    ∀ l ∈ (textLines s).head?, hunkLine l = none := by
  rcases h with rfl | ⟨t, rfl⟩
  · exact fun l hl => absurd hl (Option.not_mem_none l)
  · intro l hl
    have hat : ∃ u, l = ch '@' :: u := by
      have heq : ascii "@@" ++ t = ch '@' :: ch '@' :: t := rfl
      rw [heq, textLines, if_neg (by decide)] at hl
      split at hl
      · exact ⟨[], (Option.some.inj hl).symm⟩
      · exact ⟨_, (Option.some.inj hl).symm⟩
    obtain ⟨u, rfl⟩ := hat
    rfl

/-! ## Headers -/

theorem scanInt_fmtNat (wide : ℤ → ℤ) {n : ℕ} (hn : n < 2 ^ 31) {s : Bytes}
    (hs : ∀ b ∈ s.head?, isDigit b = false) : scanInt wide (fmtNat n ++ s) = some (n : ℤ) := by
  obtain ⟨hdigits, hne, -⟩ := fmtNat_integerText n
  have htake : (fmtNat n ++ s).takeWhile isDigit = fmtNat n := by
    rw [List.takeWhile_append_of_pos hdigits]
    cases s with
    | nil => exact List.append_nil _
    | cons b s =>
      rw [List.takeWhile_cons_of_neg (by rw [hs b rfl]; exact Bool.false_ne_true), List.append_nil]
  have hsign : optSign ((fmtNat n ++ s).dropWhile isSpace) = (false, fmtNat n ++ s) := by
    obtain ⟨d, ds, hds⟩ := List.exists_cons_of_ne_nil hne
    obtain ⟨hspace, hminus, hplus, -⟩ :=
      not_special_of_isDigit (hdigits d (by rw [hds]; exact List.mem_cons_self))
    rw [hds, List.cons_append, List.dropWhile_cons_of_neg (by rw [hspace]; exact Bool.false_ne_true),
      optSign, if_neg hminus, if_neg hplus]
  rw [scanInt, hsign]
  dsimp only
  rw [leadingNat, htake, natOfDigits_fmtNat, if_neg hne, if_neg Bool.false_ne_true, if_pos]
  omega

theorem scanStart_header (wide : ℤ → ℤ) (h : HunkText) {s : Bytes}
    (hs : ∀ b ∈ s.head?, isDigit b = false) : scanStart wide (h.header ++ s) = some (h.start : ℤ) := by
  have htail : ∀ b ∈ (h.tail ++ s).head?, isDigit b = false := by
    have hends := h.ends
    cases ht : h.tail with
    | nil => exact hs
    | cons c t =>
      rw [ht] at hends
      exact hends
  have hmark : (ascii "@@").isPrefixOf (h.header ++ s) = true := rfl
  have hdrop : ((h.header ++ s).drop 2).dropWhile isSpace =
      ch '-' :: (fmtNat h.start ++ (h.tail ++ s)) := by
    rw [HunkText.header, List.append_assoc, List.append_assoc]
    rfl
  rw [scanStart, if_pos hmark, hdrop]
  dsimp only
  rw [if_pos rfl, scanInt_fmtNat wide h.lt htail]

theorem newline_notMem_header (h : HunkText) : newline ∉ h.header := by
  rw [HunkText.header, List.mem_append, List.mem_append, not_or, not_or]
  refine ⟨by decide, ?_, h.oneLine.1⟩
  intro hmem
  exact absurd ((fmtNat_integerText h.start).digits _ hmem) (by decide)

theorem afterLine_append {t : Bytes} (h : newline ∉ t) (s : Bytes) :
    afterLine (t ++ newline :: s) = s := by
  have hall : ∀ b ∈ t, decide (b ≠ newline) = true := by
    intro b hb
    rw [decide_eq_true_eq]
    rintro rfl
    exact h hb
  rw [afterLine, List.dropWhile_append_of_pos hall, List.dropWhile_cons_of_neg (by simp)]
  rfl

/-- What may stand in front of the first hunk: it has no mark, and none starts at its end. -/
def NoMark (t : Bytes) : Prop := ¬ ascii "@@" <:+: t ∧ t.getLast? ≠ some (ch '@')

instance (t : Bytes) : Decidable (NoMark t) := inferInstanceAs (Decidable (_ ∧ _))

theorem noMark_nil : NoMark [] := by decide

theorem seekHunk_append {t : Bytes} (h : NoMark t) (s : Bytes) : seekHunk (t ++ s) = seekHunk s := by
  induction t with
  | nil => rfl
  | cons b t ih =>
    have hmark : ¬ (b = ch '@' ∧ (t ++ s).head? = some (ch '@')) := by
      rintro ⟨rfl, hhead⟩
      cases t with
      | nil => exact h.2 rfl
      | cons c t =>
        obtain rfl : c = ch '@' := Option.some.inj hhead
        exact h.1 ⟨[], t, rfl⟩
    have hrest : NoMark t := by
      refine ⟨fun hin => h.1 (hin.trans ⟨[b], [], by rw [List.append_nil]; rfl⟩), ?_⟩
      rcases eq_or_ne t [] with rfl | hne
      · exact (Option.some_ne_none _).symm
      · have hlast := h.2
        rwa [List.getLast?_cons_of_ne_nil hne] at hlast
    rw [List.cons_append, seekHunk, if_neg hmark, ih hrest]

/-! ## Reading a patch -/

/-- Every hunk lies in the file when it is its turn. -/
def AllInFile : List Bytes → List Hunk → Prop
  | _, [] => True
  | lines, h :: hs => h.InFile lines.length ∧ AllInFile (h.splice lines) hs

theorem writtenHunks_eq (hs : List HunkText) :
    writtenHunks hs = [] ∨ ∃ t, writtenHunks hs = ascii "@@" ++ t := by
  cases hs with
  | nil => exact Or.inl rfl
  | cons h hs => exact Or.inr ⟨_, rfl⟩

/-- The hunks that are read are those that were written. -/
theorem patchHunks_written (wide : ℤ → ℤ) {front : Bytes} (hfront : NoMark front)
    {hs : List HunkText} {fuel : ℕ} {lines : List Bytes} (hfuel : hs.length < fuel)
    (hin : AllInFile lines (hs.map HunkText.hunk)) :
    patchHunks wide fuel (front ++ writtenHunks hs) lines = hs.map HunkText.hunk := by
  induction hs generalizing front fuel lines with
  | nil =>
    obtain ⟨fuel, rfl⟩ := Nat.exists_eq_succ_of_ne_zero (Nat.ne_of_gt hfuel)
    rw [patchHunks, seekHunk_append hfront]
    rfl
  | cons h hs ih =>
    obtain ⟨fuel, rfl⟩ := Nat.exists_eq_succ_of_ne_zero (Nat.ne_of_gt (Nat.zero_lt_of_lt hfuel))
    rw [List.length_cons] at hfuel
    rw [List.map_cons, AllInFile] at hin
    have hrest : writtenHunks (h :: hs) = h.header ++
        (newline :: ((h.body.map HunkLine.written).flatten ++ writtenHunks hs)) := by
      rw [writtenHunks, List.flatMap_cons, HunkText.written, List.append_assoc, List.cons_append]
      rfl
    have hseek : seekHunk (front ++ writtenHunks (h :: hs)) = writtenHunks (h :: hs) := by
      rw [seekHunk_append hfront]
      rfl
    obtain ⟨b, s, hcons⟩ : ∃ b s, writtenHunks (h :: hs) = b :: s := ⟨_, _, rfl⟩
    have hscan : scanStart wide (b :: s) = some (h.start : ℤ) := by
      rw [← hcons, hrest]
      exact scanStart_header wide h fun c hc => by
        obtain rfl := Option.some.inj hc
        rfl
    have hafter : textLines (afterLine (b :: s)) =
        h.body.map HunkLine.written ++ textLines (writtenHunks hs) := by
      rw [← hcons, hrest, afterLine_append (newline_notMem_header h)]
      refine textLines_flatten ?_ _
      intro l hl
      obtain ⟨x, hx, rfl⟩ := List.mem_map.mp hl
      exact isLine_written (h.texts x hx)
    have hbody : hunkBody (textLines (afterLine (b :: s))) =
        (h.body, textLines (writtenHunks hs)) := by
      rw [hafter]
      exact hunkBody_written h.texts (hunkLine_head_textLines (writtenHunks_eq hs))
    rw [patchHunks, hseek, hcons]
    dsimp only
    rw [hscan]
    dsimp only
    rw [hbody]
    have hhunk : (⟨(h.start : ℤ), h.body⟩ : Hunk) = h.hunk := rfl
    rw [hhunk, if_pos hin.1, Hunk.apply, if_pos hin.1, flatten_textLines, List.map_cons]
    congr 1
    exact ih noMark_nil (by omega) hin.2

theorem zero_notMem_written (h : HunkText) : 0 ∉ h.written := by
  have hheader : 0 ∉ h.header := by
    rw [HunkText.header, List.mem_append, List.mem_append, not_or, not_or]
    refine ⟨by decide, ?_, h.oneLine.2⟩
    intro hmem
    exact absurd ((fmtNat_integerText h.start).digits _ hmem) (by decide)
  have hlines : 0 ∉ (h.body.map HunkLine.written).flatten := by
    intro hmem
    obtain ⟨l, hl, hzero⟩ := List.mem_flatten.mp hmem
    obtain ⟨x, hx, rfl⟩ := List.mem_map.mp hl
    rw [HunkLine.written, List.mem_cons, List.mem_append, List.mem_singleton] at hzero
    rcases hzero with hsign | htext | hend
    · cases x with
      | removed t => exact absurd hsign (by decide : (0 : UInt8) ≠ ch '-')
      | added t => exact absurd hsign (by decide : (0 : UInt8) ≠ ch '+')
      | kept t => exact absurd hsign (by decide : (0 : UInt8) ≠ ch ' ')
    · exact (h.texts x hx).2 htext
    · exact absurd hend (by decide)
  rw [HunkText.written, List.mem_append, List.mem_cons, not_or, not_or]
  exact ⟨hheader, by decide, hlines⟩

/-- The patch is its text. -/
theorem octets_writtenPatch {front : Bytes} (hfront : 0 ∉ front) (hs : List HunkText) :
    (writtenPatch front hs).octets = front ++ writtenHunks hs := by
  refine CString.octets_ofBytes.mpr ?_
  rw [List.mem_append, not_or]
  refine ⟨hfront, fun hmem => ?_⟩
  obtain ⟨h, -, hzero⟩ := List.mem_flatMap.mp hmem
  exact zero_notMem_written h hzero

theorem length_le_writtenHunks (hs : List HunkText) : hs.length ≤ (writtenHunks hs).length := by
  induction hs with
  | nil => exact le_rfl
  | cons h hs ih =>
    rw [writtenHunks, List.flatMap_cons, List.length_append, ← writtenHunks, List.length_cons,
      HunkText.written, List.length_append, List.length_cons]
    omega

end SeaClaw.Tools
