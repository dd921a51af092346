import Mathlib.Data.List.DropRight
import SeaClaw.Lib.Bytes

/-!
# C strings

A string ends at its first NUL, so its octets have none. Comparison without regard to
letter case is that of the C locale.
-/

namespace SeaClaw.Lib

/-- The octets of a string before its terminator. -/
@[ext] structure CString where
  octets : Bytes
  noNul : 0 ∉ octets
  deriving DecidableEq

theorem zero_notMem_takeWhile (s : Bytes) : 0 ∉ s.takeWhile (· ≠ 0) := by
  intro h
  exact absurd (List.mem_takeWhile_imp h) (by simp)

/-- What a C function sees of octets in memory. -/
def CString.ofBytes (s : Bytes) : CString := ⟨s.takeWhile (· ≠ 0), zero_notMem_takeWhile s⟩

/-- Octets without a NUL are seen whole. -/
theorem CString.octets_ofBytes {s : Bytes} : (ofBytes s).octets = s ↔ 0 ∉ s := by
  rw [ofBytes, List.takeWhile_eq_self_iff]
  constructor
  · intro h hzero
    exact absurd (h 0 hzero) (by simp)
  · intro h b hb
    rw [decide_eq_true_eq]
    rintro rfl
    exact h hb

/-- `strcasecmp(s, t) == 0` -/
def SameFold (s t : Bytes) : Prop := s.map toLower = t.map toLower

instance (s t : Bytes) : Decidable (SameFold s t) := inferInstanceAs (Decidable (_ = _))

@[refl] theorem SameFold.refl (s : Bytes) : SameFold s s := rfl

theorem SameFold.symm {s t : Bytes} (h : SameFold s t) : SameFold t s := Eq.symm h

theorem SameFold.trans {s t u : Bytes} (hst : SameFold s t) (htu : SameFold t u) : SameFold s u :=
  Eq.trans hst htu

/-- Strings that agree without regard to case end in the same letter. -/
theorem SameFold.getLast {s t : Bytes} {c : UInt8} (h : SameFold s t)
    (hc : t.getLast? = some c) : ∃ b, s.getLast? = some b ∧ toLower b = toLower c := by
  have hlast := congrArg List.getLast? h
  rw [List.getLast?_map, List.getLast?_map, hc, Option.map_some, Option.map_eq_some_iff] at hlast
  exact hlast

@[simp] theorem toLower_toLower (b : UInt8) : toLower (toLower b) = toLower b := by
  revert b
  decide +kernel

/-- Folding a string first changes no comparison. -/
theorem sameFold_map_left {s t : Bytes} : SameFold (s.map toLower) t ↔ SameFold s t := by
  simp [SameFold, Function.comp_def]

/-- The octets after the last `c`, or all of them: `strrchr`. -/
def afterLast (c : UInt8) (s : Bytes) : Bytes := s.rtakeWhile (· ≠ c)

theorem afterLast_suffix (c : UInt8) (s : Bytes) : afterLast c s <:+ s :=
  List.rtakeWhile_suffix _ _

/-- `strchr`: the string from the first `c` on. -/
def strchr (c : UInt8) (s : Bytes) : Option Bytes :=
  match s.dropWhile (· ≠ c) with
  | [] => none
  | t => some t

/-- `strstr`: the string from the first occurrence on. -/
def strstr (needle : Bytes) : Bytes → Option Bytes
  | [] => if needle = [] then some [] else none
  | b :: s => if needle.isPrefixOf (b :: s) then some (b :: s) else strstr needle s

theorem strchr_of_notMem {c : UInt8} {s : Bytes} (h : c ∉ s) : strchr c s = none := by
  have hnil : s.dropWhile (· ≠ c) = [] := by
    rw [List.dropWhile_eq_nil_iff]
    intro b hb
    simp only [decide_eq_true_eq]
    rintro rfl
    exact h hb
  rw [strchr, hnil]

theorem strchr_append {c : UInt8} {s : Bytes} (h : c ∉ s) (t : Bytes) :
    strchr c (s ++ c :: t) = some (c :: t) := by
  have hdrop : (s ++ c :: t).dropWhile (· ≠ c) = c :: t := by
    rw [List.dropWhile_append_of_pos]
    · rw [List.dropWhile_cons_of_neg (by simp)]
    · intro b hb
      simp only [decide_eq_true_eq]
      rintro rfl
      exact h hb
  rw [strchr, hdrop]

theorem strchr_eq_some {c : UInt8} {s t : Bytes} (h : strchr c s = some t) :
    ∃ u r, t = c :: r ∧ s = u ++ t ∧ c ∉ u := by
  by_cases hc : c ∈ s
  · obtain ⟨u, r, rfl, hu⟩ := List.eq_append_cons_of_mem hc
    rw [strchr_append hu, Option.some.injEq] at h
    exact ⟨u, r, h.symm, by rw [h], hu⟩
  · rw [strchr_of_notMem hc] at h
    exact absurd h (by simp)

end SeaClaw.Lib
