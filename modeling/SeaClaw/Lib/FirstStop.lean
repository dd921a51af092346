import Mathlib.Data.List.Basic
import Mathlib.Tactic.Common

/-!
# Trying in order until one stops

Attempts are made one after the other, and none after the first that stops.
-/

namespace SeaClaw.Lib.FirstStop

variable {α β : Type*} {stop : α → Bool}

/-- The elements up to the first that stops, this one included. -/
def through (stop : α → Bool) : List α → List α
  | [] => []
  | a :: l => if stop a then [a] else a :: through stop l

theorem through_isPrefix (stop : α → Bool) (l : List α) : through stop l <+: l := by
  induction l with
  | nil => exact List.nil_prefix
  | cons a l ih =>
    rw [through]
    split
    · exact List.prefix_append [a] l
    · exact List.prefix_cons_inj a |>.mpr ih

theorem mem_of_mem_through {l : List α} {a : α} (ha : a ∈ through stop l) : a ∈ l :=
  (through_isPrefix stop l).subset ha

/-- At least one attempt is made where one can be. -/
theorem through_ne_nil (stop : α → Bool) {l : List α} (hl : l ≠ []) : through stop l ≠ [] := by
  cases l with
  | nil => exact absurd rfl hl
  | cons a l =>
    rw [through]
    split <;> exact List.cons_ne_nil _ _

/-- Whether any attempt stops is decided by those that are made. -/
theorem any_through (stop : α → Bool) (l : List α) : (through stop l).any stop = l.any stop := by
  induction l with
  | nil => rfl
  | cons a l ih =>
    rw [through, List.any_cons]
    by_cases ha : stop a = true
    · simp [ha]
    · rw [if_neg ha, List.any_cons, ih]

/-- Where no attempt stops all are made. -/
theorem through_eq_self {l : List α} (hl : l.any stop = false) : through stop l = l := by
  induction l with
  | nil => rfl
  | cons a l ih =>
    rw [List.any_cons, Bool.or_eq_false_iff] at hl
    rw [through, if_neg (by simp [hl.1]), ih hl.2]

/-- Only the last attempt stops. -/
theorem not_stop_of_mem_dropLast {l : List α} {a : α} (ha : a ∈ (through stop l).dropLast) :
    stop a = false := by
  induction l with
  | nil => simp [through] at ha
  | cons b l ih =>
    rw [through] at ha
    by_cases hb : stop b = true
    · rw [if_pos hb] at ha
      simp at ha
    · rw [if_neg hb] at ha
      cases hrest : through stop l with
      | nil =>
        rw [hrest] at ha
        simp at ha
      | cons c m =>
        rw [hrest, List.dropLast_cons_cons, List.mem_cons] at ha
        rcases ha with rfl | ha
        · simpa using hb
        · exact ih (hrest ▸ ha)

/-- Where an attempt stops the last that is made does. -/
theorem stop_of_getLast? {l : List α} (hl : l.any stop = true) {a : α}
    (ha : (through stop l).getLast? = some a) : stop a = true := by
  have hany : (through stop l).any stop = true := (any_through stop l).trans hl
  obtain ⟨b, hb, hstop⟩ := List.any_eq_true.mp hany
  have hsplit := List.dropLast_append_getLast? a ha
  rw [← hsplit, List.mem_append, List.mem_singleton] at hb
  rcases hb with hb | rfl
  · exact absurd hstop (by simp [not_stop_of_mem_dropLast hb])
  · exact hstop

/-- Attempts after others are made where none of the others stops. -/
theorem through_append (stop : α → Bool) (l m : List α) :
    through stop (l ++ m) = if l.any stop then through stop l else l ++ through stop m := by
  induction l with
  | nil => rfl
  | cons a l ih =>
    rw [List.cons_append, through, through, ih]
    by_cases ha : stop a = true
    · simp [ha]
    · cases hl : l.any stop <;> simp [ha, hl]

theorem through_map (stop : β → Bool) (f : α → β) (l : List α) :
    through stop (l.map f) = (through (fun a => stop (f a)) l).map f := by
  induction l with
  | nil => rfl
  | cons a l ih =>
    rw [List.map_cons, through, through]
    split
    · rfl
    · rw [ih, List.map_cons]

/-- Only what the attempts themselves do matters. -/
theorem through_congr {stop' : α → Bool} {l : List α} (h : ∀ a ∈ through stop l, stop a = stop' a) :
    through stop l = through stop' l := by
  induction l with
  | nil => rfl
  | cons a l ih =>
    rw [through] at h
    rw [through, through]
    by_cases ha : stop a = true
    · rw [if_pos ha] at h
      have ha' : stop' a = true := (h a (List.mem_singleton_self a)).symm.trans ha
      rw [if_pos ha, if_pos ha']
    · rw [if_neg ha] at h
      have ha' : stop a = stop' a := h a List.mem_cons_self
      rw [if_neg ha, if_neg (ha' ▸ ha), ih fun b hb => h b (List.mem_cons_of_mem a hb)]

end SeaClaw.Lib.FirstStop
