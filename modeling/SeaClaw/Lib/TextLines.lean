import SeaClaw.Lib.Fgets

/-!
# The lines of a text

A line ends with its newline; only the last one of a text may be without. The lines of a text are
the only list of lines that makes it up.
-/

namespace SeaClaw.Lib

/-- The lines of a text, each with its newline. -/
def textLines : Bytes → List Bytes
  | [] => []
  | b :: s =>
    if b = newline then [b] :: textLines s
    else match textLines s with
      | [] => [[b]]
      | l :: ls => (b :: l) :: ls

/-- A line with its newline, and no other. -/
def IsLine (l : Bytes) : Prop := l.getLast? = some newline ∧ newline ∉ l.dropLast

theorem isLine_cons {b : UInt8} {l : Bytes} (hb : b ≠ newline) (hl : IsLine l) :
    IsLine (b :: l) := by
  have hne : l ≠ [] := by
    rintro rfl
    exact absurd hl.1 (Option.some_ne_none _).symm
  refine ⟨?_, ?_⟩
  · rw [List.getLast?_cons, hl.1, Option.getD_some]
  · rw [List.dropLast_cons_of_ne_nil hne, List.mem_cons, not_or]
    exact ⟨hb.symm, hl.2⟩

theorem flatten_textLines (s : Bytes) : (textLines s).flatten = s := by
  induction s with
  | nil => rfl
  | cons b s ih =>
    rw [textLines]
    split
    · rw [List.flatten_cons, ih, List.singleton_append]
    · split
      · next h =>
        rw [h] at ih
        rw [← ih]
        rfl
      · next l ls h =>
        rw [h] at ih
        rw [List.flatten_cons, List.cons_append, ← List.flatten_cons, ih]

theorem textLines_eq_nil {s : Bytes} : textLines s = [] ↔ s = [] := by
  constructor
  · intro h
    rw [← flatten_textLines s, h, List.flatten_nil]
  · rintro rfl
    rfl

theorem textLines_line_append {l : Bytes} (hl : IsLine l) (s : Bytes) :
    textLines (l ++ s) = l :: textLines s := by
  induction l with
  | nil => exact absurd hl.1 (Option.some_ne_none _).symm
  | cons b l ih =>
    rcases eq_or_ne l [] with rfl | hne
    · obtain rfl : b = newline := Option.some.inj hl.1
      rw [List.singleton_append, textLines, if_pos rfl]
    · rw [IsLine, List.dropLast_cons_of_ne_nil hne, List.mem_cons, not_or,
        List.getLast?_cons_of_ne_nil hne] at hl
      rw [List.cons_append, textLines, if_neg (fun h => hl.2.1 h.symm), ih ⟨hl.1, hl.2.2⟩]

/-- Lines that each have their newline are those of the text that they make up. -/
theorem textLines_flatten {ls : List Bytes} (h : ∀ l ∈ ls, IsLine l) (s : Bytes) :
    textLines (ls.flatten ++ s) = ls ++ textLines s := by
  induction ls with
  | nil => rfl
  | cons l ls ih =>
    rw [List.forall_mem_cons] at h
    rw [List.flatten_cons, List.append_assoc, textLines_line_append h.1, ih h.2, List.cons_append]

/-- In a text that ends with a newline every line has its own. -/
theorem isLine_of_mem_textLines {s : Bytes} (hs : s.getLast? = some newline) :
    ∀ l ∈ textLines s, IsLine l := by
  induction s with
  | nil => exact absurd hs (Option.some_ne_none _).symm
  | cons b s ih =>
    have hrest : ∀ l ∈ textLines s, IsLine l := by
      rcases eq_or_ne s [] with rfl | hne
      · exact fun l hl => absurd hl List.not_mem_nil
      · exact ih (by rwa [List.getLast?_cons_of_ne_nil hne] at hs)
    rw [textLines]
    split
    · next hb =>
      refine List.forall_mem_cons.mpr ⟨?_, hrest⟩
      rw [hb]
      exact ⟨rfl, List.not_mem_nil⟩
    · next hb =>
      split
      · next h =>
        rw [textLines_eq_nil.mp h] at hs
        exact absurd (Option.some.inj hs) hb
      · next l ls h =>
        rw [h, List.forall_mem_cons] at hrest
        exact List.forall_mem_cons.mpr ⟨isLine_cons hb hrest.1, hrest.2⟩

end SeaClaw.Lib
