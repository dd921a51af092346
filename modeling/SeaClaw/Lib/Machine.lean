import Mathlib.Tactic.Common

/-!
# Runs of a machine

A step takes a state and an input to the next state, or is undefined. What holds of every
state of a run is brought back to what each step does: good states lead to good states
exactly when the step meets a condition, so a run is good throughout exactly when each of
its steps meets it.
-/

namespace SeaClaw.Lib.Machine

variable {S E : Type*} (step : S → E → Option S)

/-- The state behind a list of inputs. -/
def run : S → List E → Option S
  | s, [] => some s
  | s, e :: es => (step s e).bind fun s' => run s' es

/-- Every state of the run is defined and satisfies `Q`. -/
def Throughout (Q : S → Prop) : S → List E → Prop
  | s, [] => Q s
  | s, e :: es => Q s ∧ ∃ s', step s e = some s' ∧ Throughout Q s' es

/-- Every step of the run starts in a state that satisfies `P` with its input. -/
def EveryStep (P : S → E → Prop) : S → List E → Prop
  | _, [] => True
  | s, e :: es => P s e ∧ ∀ s', step s e = some s' → EveryStep P s' es

instance decidableEveryStep (P : S → E → Prop) [∀ s e, Decidable (P s e)] :
    ∀ s es, Decidable (EveryStep step P s es)
  | _, [] => isTrue trivial
  | s, e :: es =>
    match hs : step s e with
    | none => decidable_of_iff (P s e) (by simp [EveryStep, hs])
    | some s' =>
      have := decidableEveryStep P s' es
      decidable_of_iff (P s e ∧ EveryStep step P s' es) (by simp [EveryStep, hs])

variable {step}

theorem run_append (s : S) (es fs : List E) :
    run step s (es ++ fs) = (run step s es).bind fun s' => run step s' fs := by
  induction es generalizing s with
  | nil => rfl
  | cons e es ih =>
    simp only [List.cons_append, run, Option.bind_assoc]
    congr 1
    funext s'
    exact ih s'

/-- An invariant that every step keeps holds throughout. -/
theorem throughout_of_invariant {I : S → Prop}
    (hstep : ∀ s e, I s → ∃ s', step s e = some s' ∧ I s') {s : S} (h : I s) (es : List E) :
    Throughout step I s es := by
  induction es generalizing s with
  | nil => exact h
  | cons e es ih =>
    obtain ⟨s', hs', h'⟩ := hstep s e h
    exact ⟨h, s', hs', ih h'⟩

theorem Throughout.mono {Q R : S → Prop} (hQR : ∀ s, Q s → R s) {s : S} {es : List E}
    (h : Throughout step Q s es) : Throughout step R s es := by
  induction es generalizing s with
  | nil => exact hQR s h
  | cons e es ih =>
    obtain ⟨hs, s', hs', h'⟩ := h
    exact ⟨hQR s hs, s', hs', ih h'⟩

/-- The last state of a run that is good throughout is good. -/
theorem Throughout.run {Q : S → Prop} {s : S} {es : List E} (h : Throughout step Q s es) :
    ∃ s', run step s es = some s' ∧ Q s' := by
  induction es generalizing s with
  | nil => exact ⟨s, rfl, h⟩
  | cons e es ih =>
    obtain ⟨-, s', hs', h'⟩ := h
    obtain ⟨s'', hrun, hQ⟩ := ih h'
    refine ⟨s'', ?_, hQ⟩
    simp only [Machine.run, hs', Option.bind_some, hrun]

/-- Conditions that agree in the states of an invariant agree on every step, if the steps that
meet them keep the invariant. -/
theorem everyStep_congr_along {I : S → Prop} {P R : S → E → Prop}
    (hI : ∀ s e s', I s → R s e → step s e = some s' → I s')
    (h : ∀ s e, I s → (P s e ↔ R s e)) {s : S} (hs : I s) (es : List E) :
    EveryStep step P s es ↔ EveryStep step R s es := by
  induction es generalizing s with
  | nil => exact Iff.rfl
  | cons e es ih =>
    constructor
    · rintro ⟨hP, hrest⟩
      have hR := (h s e hs).mp hP
      refine ⟨hR, fun s' hs' => ?_⟩
      exact (ih (hI s e s' hs hR hs')).mp (hrest s' hs')
    · rintro ⟨hR, hrest⟩
      refine ⟨(h s e hs).mpr hR, fun s' hs' => ?_⟩
      exact (ih (hI s e s' hs hR hs')).mpr (hrest s' hs')

/-- The same if every step keeps the invariant. -/
theorem everyStep_congr {I : S → Prop} {P R : S → E → Prop}
    (hI : ∀ s e s', I s → step s e = some s' → I s') (h : ∀ s e, I s → (P s e ↔ R s e))
    {s : S} (hs : I s) (es : List E) : EveryStep step P s es ↔ EveryStep step R s es :=
  everyStep_congr_along (fun s e s' hs _ => hI s e s' hs) h hs es

/-- An invariant that the steps keep which meet `P` holds throughout a run of such steps. -/
theorem EveryStep.throughout {I : S → Prop} {P : S → E → Prop}
    (hstep : ∀ s e, I s → P s e → ∃ s', step s e = some s' ∧ I s') {s : S} (h : I s)
    {es : List E} (hes : EveryStep step P s es) : Throughout step I s es := by
  induction es generalizing s with
  | nil => exact h
  | cons e es ih =>
    obtain ⟨hP, hrest⟩ := hes
    obtain ⟨s', hs', h'⟩ := hstep s e h hP
    exact ⟨h, s', hs', ih h' (hrest s' hs')⟩

/-- If a good state is followed by a good state exactly when the step meets `P`, then the
run is good throughout exactly when every step meets it. The invariant may count the steps
that are left. -/
theorem throughout_iff_everyStep_of_length {I : ℕ → S → Prop} {Q : S → Prop} {P : S → E → Prop}
    (hI : ∀ n s e, I (n + 1) s → ∃ s', step s e = some s' ∧ I n s')
    (hQ : ∀ n s e s', I (n + 1) s → Q s → step s e = some s' → (Q s' ↔ P s e))
    {s : S} {es : List E} (hs : I es.length s) (h : Q s) :
    Throughout step Q s es ↔ EveryStep step P s es := by
  induction es generalizing s with
  | nil => exact ⟨fun _ => trivial, fun _ => h⟩
  | cons e es ih =>
    obtain ⟨s', hs', hI'⟩ := hI es.length s e hs
    have hiff := hQ es.length s e s' hs h hs'
    have hfirst : Throughout step Q s' es → Q s' := by
      intro ht
      cases es with
      | nil => exact ht
      | cons _ _ => exact ht.1
    constructor
    · rintro ⟨-, t, ht, hrest⟩
      obtain rfl : s' = t := Option.some.inj (hs'.symm.trans ht)
      have hQ' := hfirst hrest
      refine ⟨hiff.mp hQ', ?_⟩
      intro t ht
      obtain rfl : s' = t := Option.some.inj (hs'.symm.trans ht)
      exact (ih hI' hQ').mp hrest
    · rintro ⟨hP, hrest⟩
      have hQ' := hiff.mpr hP
      exact ⟨h, s', hs', (ih hI' hQ').mpr (hrest s' hs')⟩

/-- The same with an invariant of the states alone. -/
theorem throughout_iff_everyStep {I Q : S → Prop} {P : S → E → Prop}
    (hI : ∀ s e, I s → ∃ s', step s e = some s' ∧ I s')
    (hQ : ∀ s e s', I s → Q s → step s e = some s' → (Q s' ↔ P s e))
    {s : S} (hs : I s) (h : Q s) (es : List E) :
    Throughout step Q s es ↔ EveryStep step P s es :=
  throughout_iff_everyStep_of_length (I := fun _ => I) (fun _ => hI) (fun _ => hQ) hs h

/-- If an invariant makes states good, the steps that meet `P` keep it, and the others lead out
of the good states, then a run is good throughout exactly when every step meets `P`. -/
theorem throughout_iff_everyStep_of_keeps {I Q : S → Prop} {P : S → E → Prop}
    (hQ : ∀ s, I s → Q s)
    (hkeep : ∀ s e, I s → P s e → ∃ s', step s e = some s' ∧ I s')
    (hbreak : ∀ s e s', I s → step s e = some s' → ¬ P s e → ¬ Q s')
    {s : S} (hs : I s) (es : List E) : Throughout step Q s es ↔ EveryStep step P s es := by
  induction es generalizing s with
  | nil => exact ⟨fun _ => trivial, fun _ => hQ s hs⟩
  | cons e es ih =>
    by_cases hP : P s e
    · obtain ⟨s', hs', hI'⟩ := hkeep s e hs hP
      constructor
      · rintro ⟨-, t, ht, hrest⟩
        obtain rfl : s' = t := Option.some.inj (hs'.symm.trans ht)
        refine ⟨hP, fun t ht => ?_⟩
        obtain rfl : s' = t := Option.some.inj (hs'.symm.trans ht)
        exact (ih hI').mp hrest
      · rintro ⟨-, hrest⟩
        exact ⟨hQ s hs, s', hs', (ih hI').mpr (hrest s' hs')⟩
    · refine iff_of_false ?_ fun h => hP h.1
      rintro ⟨-, t, ht, hrest⟩
      have hQt : Q t := by
        cases es with
        | nil => exact hrest
        | cons _ _ => exact hrest.1
      exact hbreak s e t hs ht hP hQt

/-- The same along a run that satisfies a condition throughout. -/
theorem throughout_iff_everyStep_along {I Q R : S → Prop} {P : S → E → Prop}
    (hQ : ∀ s, I s → Q s)
    (hkeep : ∀ s e s', I s → R s → P s e → step s e = some s' → I s')
    (hbreak : ∀ s e s', I s → R s → step s e = some s' → ¬ P s e → ¬ Q s')
    {s : S} (hs : I s) {es : List E} (hR : Throughout step R s es) :
    Throughout step Q s es ↔ EveryStep step P s es := by
  induction es generalizing s with
  | nil => exact ⟨fun _ => trivial, fun _ => hQ s hs⟩
  | cons e es ih =>
    obtain ⟨hRs, s', hs', hrest⟩ := hR
    by_cases hP : P s e
    · have hI' := hkeep s e s' hs hRs hP hs'
      constructor
      · rintro ⟨-, t, ht, ht'⟩
        obtain rfl : s' = t := Option.some.inj (hs'.symm.trans ht)
        refine ⟨hP, fun t ht => ?_⟩
        obtain rfl : s' = t := Option.some.inj (hs'.symm.trans ht)
        exact (ih hI' hrest).mp ht'
      · rintro ⟨-, hlater⟩
        exact ⟨hQ s hs, s', hs', (ih hI' hrest).mpr (hlater s' hs')⟩
    · refine iff_of_false ?_ fun h => hP h.1
      rintro ⟨-, t, ht, ht'⟩
      have hQt : Q t := by
        cases es with
        | nil => exact ht'
        | cons _ _ => exact ht'.1
      exact hbreak s e t hs hRs ht hP hQt

end SeaClaw.Lib.Machine
