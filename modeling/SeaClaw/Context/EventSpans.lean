import SeaClaw.Context.EventScan

/-!
# Spans of events

The phrases that are found follow one another inside the text, each description lies before its
phrase, and the places that are tried are known from the phrases alone.
-/

namespace SeaClaw.Context

open SeaClaw.Lib Memory Providers

/-! ## Phrases -/

/-- Where a phrase ends. -/
def Found.stop (f : Found) : ℕ := f.start + f.temporal.1

theorem mem_foundIn {text : Bytes} {f : Found} : f ∈ foundIn text ↔
    ∃ p ∈ places text, p.start = f.start ∧ p.temporal = some f.temporal := by
  unfold foundIn
  rw [List.mem_filterMap]
  constructor
  · intro ⟨p, hp, hfound⟩
    obtain ⟨m, hm, rfl⟩ := Option.map_eq_some_iff.mp hfound
    exact ⟨p, hp, rfl, hm⟩
  · intro ⟨p, hp, hstart, htemporal⟩
    refine ⟨p, hp, ?_⟩
    rw [Place.found, htemporal, hstart]
    rfl

theorem places_trace (text : Bytes) : Trace text 0 (places text) := placesFrom_trace text 0 0

/-- A phrase is what the matchers find at its start, and it ends inside the text. -/
theorem found_spec {text : Bytes} {f : Found} (h : f ∈ foundIn text) :
    temporalAt text f.start = some f.temporal ∧ f.start < f.stop ∧ f.stop ≤ text.length := by
  obtain ⟨p, hp, hstart, htemporal⟩ := mem_foundIn.mp h
  have hat := ((places_trace text).looks p hp).2.2
  rw [htemporal, hstart] at hat
  obtain ⟨hpos, hle⟩ := temporalAt_fits hat.symm
  exact ⟨hat.symm, by unfold Found.stop; omega, hle⟩

/-- Each phrase starts behind the one before it. -/
theorem foundIn_apart (text : Bytes) :
    (foundIn text).Pairwise fun a b => a.stop ≤ b.start := by
  rw [foundIn, List.pairwise_filterMap]
  apply (places_trace text).apart.imp
  intro p q hpq a ha b hb
  obtain ⟨m, hm, rfl⟩ := Option.map_eq_some_iff.mp ha
  obtain ⟨m', hm', rfl⟩ := Option.map_eq_some_iff.mp hb
  rw [Place.next, hm] at hpq
  exact hpq

/-- Two places of a trace are the same or apart. -/
theorem Trace.apart_or {text : Bytes} {i : ℕ} {l : List Place} (h : Trace text i l) {p q : Place}
    (hp : p ∈ l) (hq : q ∈ l) : p.start = q.start ∨ p.next ≤ q.start ∨ q.next ≤ p.start := by
  apply List.Pairwise.forall_of_forall_of_flip _ _ _ hp hq
  · exact fun a _ => Or.inl rfl
  · exact h.apart.imp fun hab => Or.inr (Or.inl hab)
  · exact h.apart.imp fun hab => Or.inr (Or.inr hab)

/-! ## Places -/

/-- A place that is no blank, not inside a phrase that starts before it, with room for an event
behind those before it. -/
structure Tried (text : Bytes) (q : ℕ) : Prop where
  notBlank : NotBlank text q
  room : countBefore (foundIn text) q < scEventMaxEvents
  free : ∀ f ∈ foundIn text, ¬ (f.start < q ∧ q < f.stop)

/-- There is room for an event at every place of the loop. -/
theorem room_of_mem {text : Bytes} {i k : ℕ} {p : Place} (hp : p ∈ placesFrom text i k) :
    k + countBefore ((placesFrom text i k).filterMap Place.found) p.start < scEventMaxEvents := by
  induction hn : text.length - i using Nat.strong_induction_on generalizing i k with
  | _ n ih =>
    have htrace := placesFrom_trace text i k
    rw [placesFrom_eq] at hp htrace ⊢
    split_ifs at hp htrace ⊢ with hround
    · generalize hp' : (⟨skipBlanks text i, temporalAt text (skipBlanks text i)⟩ : Place) = p' at *
      have hlooks := htrace.looks p' List.mem_cons_self
      have hnext := Place.start_lt_next hlooks.2.2
      have hlt := hlooks.2.1.lt
      have hle := hlooks.1
      have hlater := (List.pairwise_cons.mp htrace.apart).1
      have hcount : ∀ q, p'.start ≤ q → countBefore ((p' :: placesFrom text p'.next
          (k + p'.found.toList.length)).filterMap Place.found) q ≤ p'.found.toList.length +
            countBefore ((placesFrom text p'.next
              (k + p'.found.toList.length)).filterMap Place.found) q := by
        intro q _
        unfold countBefore
        rw [List.filterMap_cons]
        cases hfound : p'.found with
        | none => simp
        | some f =>
          rw [Option.toList_some, List.length_singleton, List.countP_cons]
          split_ifs <;> omega
      rcases List.mem_cons.mp hp with rfl | hp
      · have hzero : countBefore ((p :: placesFrom text p.next
            (k + p.found.toList.length)).filterMap Place.found) p.start = 0 := by
          rw [countBefore, List.countP_eq_zero]
          intro f hf
          obtain ⟨p'', hp'', hfound⟩ := List.mem_filterMap.mp hf
          obtain ⟨m, -, rfl⟩ := Option.map_eq_some_iff.mp hfound
          rw [decide_eq_true_eq, not_lt]
          rcases List.mem_cons.mp hp'' with rfl | hp''
          · exact le_rfl
          · exact hnext.le.trans (hlater p'' hp'')
        rw [hzero]
        exact hround.1
      · have hrest := ih _ (by omega) hp rfl
        have hafter := hcount p.start (hnext.le.trans (hlater p hp))
        omega
    · exact absurd hp List.not_mem_nil

/-- The matchers are tried at exactly these places. -/
theorem mem_places_iff (text : Bytes) (q : ℕ) :
    (∃ p ∈ places text, p.start = q) ↔ Tried text q := by
  have htrace := places_trace text
  constructor
  · rintro ⟨p, hp, rfl⟩
    refine ⟨(htrace.looks p hp).2.1, ?_, ?_⟩
    · have hroom := room_of_mem hp
      rw [Nat.zero_add] at hroom
      exact hroom
    · intro f hf hin
      obtain ⟨p', hp', hstart, htemporal⟩ := mem_foundIn.mp hf
      have hnext : p'.next = f.stop := by
        rw [Place.next, htemporal, hstart]
        rfl
      have hlt := Place.start_lt_next (htrace.looks p hp).2.2
      rcases htrace.apart_or hp' hp with heq | hle | hle
      · omega
      · omega
      · omega
  · intro h
    apply exists_mem_placesFrom (Nat.zero_le q) h.notBlank
    · intro p hp hin
      cases htemporal : p.temporal with
      | none =>
        rw [Place.next, htemporal, Option.map_none, Option.getD_none] at hin
        omega
      | some m =>
        rw [Place.next, htemporal, Option.map_some, Option.getD_some] at hin
        exact h.free ⟨p.start, m⟩ (mem_foundIn.mpr ⟨p, hp, rfl, htemporal⟩) hin
    · rw [Nat.zero_add]
      exact h.room

/-- A phrase is found at a place that is tried if and only if a matcher fits there. -/
theorem mem_foundIn_of_tried {text : Bytes} {q : ℕ} (h : Tried text q) (m : Temporal) :
    ⟨q, m⟩ ∈ foundIn text ↔ temporalAt text q = some m := by
  obtain ⟨p, hp, hstart⟩ := (mem_places_iff text q).mpr h
  have hlooks := ((places_trace text).looks p hp).2.2
  rw [hstart] at hlooks
  constructor
  · intro hm
    exact (found_spec hm).1
  · intro hm
    exact mem_foundIn.mpr ⟨p, hp, hstart, hlooks.trans hm⟩

/-! ## Descriptions -/

/-- A span that ends at an octet or before it. -/
def EndsBy (d : Span) (t : ℕ) : Prop := d.1 + d.2 ≤ t

theorem trimEnd_endsBy {text : Bytes} {d : Span} {t : ℕ} (h : EndsBy d t) :
    EndsBy (trimEnd text d) t := by
  have hle := (List.rdropWhile_prefix isBlank ((text.drop d.1).take d.2)).length_le
  have htake := List.length_take_le d.2 (text.drop d.1)
  unfold EndsBy trimEnd at *
  dsimp only
  omega

theorem trimStart_endsBy {text : Bytes} {d : Span} {t : ℕ} (h : EndsBy d t) :
    EndsBy (trimStart text d) t := by
  have hle := (List.takeWhile_sublist (l := (text.drop d.1).take d.2) isBlank).length_le
  have htake := List.length_take_le d.2 (text.drop d.1)
  unfold EndsBy trimStart at *
  dsimp only
  omega

theorem firstDescription_endsBy {text : Bytes} {places : List ℕ} {fits : ℕ → Bool} {d : ℕ → Span}
    {t : ℕ} (hd : ∀ i ∈ places, EndsBy (d i) t) {r : Span}
    (h : firstDescription text places fits d = some r) : EndsBy r t := by
  obtain ⟨i, hi, hr⟩ := List.exists_of_findSome?_eq_some h
  dsimp only at hr
  split_ifs at hr
  obtain rfl := Option.some.inj hr
  exact trimEnd_endsBy (hd i hi)

theorem mem_drop_range {n k i : ℕ} (h : i ∈ (List.range n).drop k) : k ≤ i ∧ i < n := by
  rw [List.range_eq_range', List.drop_range', List.mem_range'_1] at h
  omega

/-- A description ends where its phrase starts, or before. -/
theorem extractEventBefore_endsBy (text : Bytes) (t : ℕ) :
    EndsBy (extractEventBefore text t) t := by
  unfold extractEventBefore
  dsimp only
  generalize hs : ((text.take t).rdropWhile isBlank).length = s
  have hst : s ≤ t := by
    rw [← hs]
    exact (List.rdropWhile_prefix isBlank (text.take t)).length_le.trans (List.length_take_le _ _)
  by_cases hzero : s = 0
  · rw [if_pos hzero]
    exact Nat.zero_le _
  · rw [if_neg hzero]
    split
    · rename_i i hpos
      split_ifs at hpos with hmy
      have hmem := List.mem_of_find?_eq_some hpos
      have hbounds := mem_drop_range hmem
      apply trimStart_endsBy
      apply trimEnd_endsBy
      unfold EndsBy
      dsimp only
      omega
    · generalize hchoice : Option.or _ _ = choice
      have hwhole : EndsBy (((text.take s).takeWhile isBlank).length,
          s - ((text.take s).takeWhile isBlank).length) t := by
        have hle := (List.takeWhile_sublist (l := text.take s) isBlank).length_le
        have htake := List.length_take_le s text
        unfold EndsBy
        dsimp only
        omega
      cases choice with
      | none => exact hwhole
      | some r =>
        rw [Option.getD_some]
        rcases Option.or_eq_some_iff.mp hchoice with h | ⟨-, h⟩
        · apply firstDescription_endsBy _ h
          intro i hi
          rw [List.mem_range] at hi
          unfold EndsBy
          dsimp only
          omega
        · rcases Option.or_eq_some_iff.mp h with h | ⟨-, h⟩
          · apply firstDescription_endsBy _ h
            intro i hi
            rw [List.mem_range] at hi
            unfold EndsBy
            dsimp only
            omega
          · have hbefore : ∀ i ∈ (List.range s).drop 1, EndsBy (0, i) t := by
              intro i hi
              have hbounds := mem_drop_range hi
              unfold EndsBy
              dsimp only
              omega
            rcases Option.or_eq_some_iff.mp h with h | ⟨-, h⟩
            · exact firstDescription_endsBy hbefore h
            · exact firstDescription_endsBy hbefore h

end SeaClaw.Context
