import Mathlib.Data.List.TakeWhile

/-!
# Words between separators

A text is cut at its separators, and what is not empty is a word. A scanner that skips separators
and takes what follows reads the words one after the other.
-/

namespace SeaClaw.Lib.Words

variable {α : Type*} {sep : α → Bool}

/-- The words of a text, in their order. -/
def words (sep : α → Bool) (s : List α) : List (List α) := (s.splitOnP sep).filter (· ≠ [])

theorem words_nil : words sep [] = [] := rfl

theorem words_cons_of_sep {b : α} (hb : sep b = true) (s : List α) :
    words sep (b :: s) = words sep s := by
  rw [words, List.splitOnP_cons_eq_if_modifyHead, if_pos hb, List.filter_cons_of_neg (by simp)]
  rfl

/-- Separators at the start do not matter. -/
theorem words_dropWhile (sep : α → Bool) (s : List α) :
    words sep (s.dropWhile sep) = words sep s := by
  induction s with
  | nil => rfl
  | cons b s ih =>
    cases hb : sep b with
    | true => rw [List.dropWhile_cons_of_pos hb, ih, words_cons_of_sep hb]
    | false => rw [List.dropWhile_cons_of_neg (by simp [hb])]

/-- A text that does not start with a separator starts with a word. -/
theorem words_of_word {u r : List α} (hu : u ≠ []) (hword : ∀ b ∈ u, sep b = false)
    (hr : ∀ b ∈ r.head?, sep b = true) : words sep (u ++ r) = u :: words sep r := by
  cases r with
  | nil =>
    rw [List.append_nil, words, List.splitOnP_eq_singleton hword,
      List.filter_cons_of_pos (by simpa using hu)]
    rfl
  | cons b r =>
    have hb : sep b = true := hr b (by simp)
    rw [words, List.splitOnP_append_cons_of_forall_mem hword b hb,
      List.filter_cons_of_pos (by simpa using hu), words_cons_of_sep hb]
    rfl

/-- What is skipped ends at an octet of a word, if anywhere. -/
theorem head?_dropWhile_sep (sep : α → Bool) {s : List α} {b : α}
    (hb : b ∈ (s.dropWhile sep).head?) : sep b = false := by
  have hnot := List.head?_dropWhile_not sep s
  rw [Option.mem_def] at hb
  rw [hb] at hnot
  simpa using hnot

/-- One step of a scanner, at a text that does not start with a separator. -/
theorem words_eq_cons {s : List α} (hs : s ≠ []) (hhead : ∀ b ∈ s.head?, sep b = false) :
    words sep s = s.takeWhile (fun b => !sep b) :: words sep (s.dropWhile fun b => !sep b) := by
  have hword : ∀ b ∈ s.takeWhile (fun b => !sep b), sep b = false := by
    intro b hb
    simpa using List.mem_takeWhile_imp hb
  have hne : s.takeWhile (fun b => !sep b) ≠ [] := by
    cases s with
    | nil => exact absurd rfl hs
    | cons b s =>
      have hb := hhead b (by simp)
      rw [List.takeWhile_cons_of_pos (by simp [hb])]
      exact List.cons_ne_nil _ _
  have hrest : ∀ b ∈ (s.dropWhile (fun b => !sep b)).head?, sep b = true := by
    intro b hb
    have hnot := head?_dropWhile_sep _ hb
    simpa using hnot
  rw [← words_of_word hne hword hrest, List.takeWhile_append_dropWhile]

end SeaClaw.Lib.Words
