import SeaClaw.Lib.CString

/-!
# Searching a string for another

`strstr` finds the first place where the other string starts, and nothing where it does not occur.
-/

namespace SeaClaw.Lib

/-- What is found starts with what is looked for. -/
theorem strstr_eq_some {needle s t : Bytes} (h : strstr needle s = some t) :
    needle <+: t ∧ t <:+ s := by
  induction s with
  | nil =>
    rw [strstr] at h
    split at h
    next hnil =>
      obtain rfl := Option.some.inj h
      exact ⟨hnil ▸ List.nil_prefix, List.suffix_rfl⟩
    next => exact absurd h (by simp)
  | cons b s ih =>
    rw [strstr] at h
    split at h
    next hstarts =>
      obtain rfl := Option.some.inj h
      exact ⟨List.isPrefixOf_iff_prefix.mp hstarts, List.suffix_rfl⟩
    next =>
      obtain ⟨hstarts, hsuffix⟩ := ih h
      exact ⟨hstarts, hsuffix.trans (List.suffix_cons b s)⟩

/-- What does not occur is not found. -/
theorem strstr_eq_none {needle s : Bytes} (h : ¬ needle <:+: s) : strstr needle s = none := by
  cases hfound : strstr needle s with
  | none => rfl
  | some t =>
    obtain ⟨hstarts, hsuffix⟩ := strstr_eq_some hfound
    exact absurd (hstarts.isInfix.trans hsuffix.isInfix) h

/-- The first occurrence is found. -/
theorem strstr_append {needle u t : Bytes} (ht : needle <+: t) (hne : needle ≠ [])
    (hfirst : ∀ x y, u = x ++ y → y ≠ [] → ¬ needle <+: y ++ t) :
    strstr needle (u ++ t) = some t := by
  induction u with
  | nil =>
    cases t with
    | nil => exact absurd (List.prefix_nil.mp ht) hne
    | cons b t => rw [List.nil_append, strstr, if_pos (List.isPrefixOf_iff_prefix.mpr ht)]
  | cons b u ih =>
    have hnot := hfirst [] (b :: u) rfl (List.cons_ne_nil b u)
    rw [List.cons_append] at hnot ⊢
    rw [strstr, if_neg fun hp => hnot (List.isPrefixOf_iff_prefix.mp hp)]
    apply ih
    rintro x y rfl
    exact hfirst (b :: x) y rfl

end SeaClaw.Lib
