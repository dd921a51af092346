import Mathlib.Data.List.Range
import Mathlib.Logic.Function.Basic
import Mathlib.Tactic.Common

/-!
# Rings of slots

A window of slots starts at some position and wraps around at the capacity. Writing behind it
makes it longer by one; stepping over its first slot, or leaving out its last one, makes it
shorter.
-/

namespace SeaClaw.Lib.Ring

variable {M : Type*} (slots : ℕ → M) (cap start : ℕ)

/-- The elements of so many slots from a position on. -/
def window (count : ℕ) : List M := (List.range count).map fun i => slots ((start + i) % cap)

variable {slots cap start}

@[simp] theorem length_window (count : ℕ) : (window slots cap start count).length = count := by
  simp [window]

@[simp] theorem window_zero : window slots cap start 0 = [] := rfl

/-- The first element, and the window from the next position on. -/
theorem window_succ (count : ℕ) : window slots cap start (count + 1) =
    slots (start % cap) :: window slots cap (start + 1) count := by
  rw [window, List.range_succ_eq_map, List.map_cons, List.map_map, window]
  refine congrArg _ (List.map_congr_left fun i _ => ?_)
  simp only [Function.comp, Nat.succ_eq_add_one]
  congr 2
  omega

/-- The last element, and the window before it. -/
theorem window_concat (count : ℕ) : window slots cap start (count + 1) =
    window slots cap start count ++ [slots ((start + count) % cap)] := by
  rw [window, List.range_succ, List.map_append]
  rfl

/-- Positions count modulo the capacity. -/
theorem window_mod (count : ℕ) :
    window slots cap (start % cap) count = window slots cap start count := by
  rw [window, window]
  refine List.map_congr_left fun i _ => ?_
  rw [Nat.mod_add_mod]

theorem window_congr {a b : ℕ} (h : a % cap = b % cap) (count : ℕ) :
    window slots cap a count = window slots cap b count := by
  rw [← window_mod, h, window_mod]

/-- Positions of one window are different. -/
theorem slot_ne {i j : ℕ} (hij : i < j) (hj : j < i + cap) :
    (start + i) % cap ≠ (start + j) % cap := by
  intro h
  have hdvd : cap ∣ start + j - (start + i) :=
    Nat.dvd_of_mod_eq_zero (Nat.sub_mod_eq_zero_of_mod_eq h.symm)
  have hle := Nat.le_of_dvd (by omega) hdvd
  omega

/-- A write behind the window leaves it as it is. -/
theorem window_update {count : ℕ} (x : M) (h : count < cap) :
    window (Function.update slots ((start + count) % cap) x) cap start count =
      window slots cap start count := by
  rw [window, window]
  refine List.map_congr_left fun i hi => ?_
  rw [List.mem_range] at hi
  rw [Function.update_of_ne (slot_ne hi (by omega))]

/-- A write behind a window that is not full adds the element to it. -/
theorem window_push {count : ℕ} (x : M) (h : count < cap) :
    window (Function.update slots ((start + count) % cap) x) cap start (count + 1) =
      window slots cap start count ++ [x] := by
  rw [window_concat, window_update x h, Function.update_self]

/-- A write behind a full window takes the place of its first element. -/
theorem window_overwrite (x : M) (h : 0 < cap) :
    window (Function.update slots ((start + cap) % cap) x) cap (start + 1) cap =
      (window slots cap start cap).tail ++ [x] := by
  obtain ⟨n, rfl⟩ : ∃ n, cap = n + 1 := ⟨cap - 1, by omega⟩
  have hpos : (start + (n + 1)) % (n + 1) = (start + 1 + n) % (n + 1) := by
    congr 1
    omega
  rw [hpos, window_push x (Nat.lt_succ_self n), window_succ, List.tail_cons]

theorem getElem?_window (count i : ℕ) : (window slots cap start count)[i]? =
    if i < count then some (slots ((start + i) % cap)) else none := by
  rw [window, List.getElem?_map]
  split_ifs with h
  · rw [List.getElem?_range h, Option.map_some]
  · rw [List.getElem?_eq_none (by rw [List.length_range]; omega), Option.map_none]

/-- A write into the window changes that element of it. -/
theorem window_set {count i : ℕ} (x : M) (hi : i < count) (h : count ≤ cap) :
    window (Function.update slots ((start + i) % cap) x) cap start count =
      (window slots cap start count).set i x := by
  apply List.ext_getElem?
  intro j
  rw [List.getElem?_set, getElem?_window, getElem?_window, length_window]
  by_cases hj : j < count
  · by_cases hij : i = j
    · subst hij
      rw [Function.update_self, if_pos rfl, if_pos hi]
    · have hne : (start + j) % cap ≠ (start + i) % cap := by
        rcases Nat.lt_or_gt_of_ne hij with hlt | hlt
        · exact (slot_ne hlt (by omega)).symm
        · exact slot_ne hlt (by omega)
      rw [Function.update_of_ne hne, if_neg hij]
  · rw [if_neg hj, if_neg hj, if_neg (by omega)]

end SeaClaw.Lib.Ring
