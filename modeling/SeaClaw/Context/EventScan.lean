import SeaClaw.Context.EventExtract

/-!
# The search for events

The loop of `sc_event_extract`, and where it finds what: every phrase is inside the text and behind
the one before it, and a place that is not in a phrase is tried until there are enough events.
-/

namespace SeaClaw.Context

open SeaClaw.Lib Memory Providers

/-! ## Lengths of phrases -/

/-- A phrase of at least one octet, inside a text. -/
def Fits (s : Bytes) (m : Temporal) : Prop := 0 < m.1 ∧ m.1 ≤ s.length

theorem length_le_of_startsFold {p s : Bytes} (h : startsFold p s = true) :
    p.length ≤ s.length := by
  rw [startsFold, List.isPrefixOf_iff_prefix] at h
  simpa only [List.length_map] using h.length_le

/-- Digits that are read behind some octets, and what follows them. -/
theorem length_digits_add_rest {s ds : Bytes} {n : ℕ}
    (hds : ds = ((s.drop n).dropWhile (· == ch ' ')).takeWhile isDigit) :
    ds.length + (((s.drop n).dropWhile (· == ch ' ')).drop ds.length).length ≤ s.length := by
  have hle := (List.dropWhile_sublist (l := s.drop n) (· == ch ' ')).length_le
  have htake := (List.takeWhile_sublist (l := (s.drop n).dropWhile (· == ch ' '))
    isDigit).length_le
  rw [← hds] at htake
  rw [List.length_drop] at hle
  rw [List.length_drop]
  omega

theorem monthDigits_spec {month s ds r : Bytes} (h : monthDigits month s = some (ds, r)) :
    0 < ds.length ∧ ds.length + r.length ≤ s.length := by
  unfold monthDigits at h
  dsimp only at h
  split_ifs at h with hshort hds
  rw [Option.some.injEq, Prod.mk.injEq] at h
  obtain ⟨rfl, rfl⟩ := h
  rw [not_or] at hds
  exact ⟨List.length_pos_iff.mpr hds.1, length_digits_add_rest rfl⟩

theorem onTheDigits_spec {s ds r : Bytes} (h : onTheDigits s = some (ds, r)) :
    0 < ds.length ∧ ds.length + r.length ≤ s.length := by
  unfold onTheDigits at h
  dsimp only at h
  split_ifs at h with hshort hds
  rw [Option.some.injEq, Prod.mk.injEq] at h
  obtain ⟨rfl, rfl⟩ := h
  exact ⟨List.length_pos_iff.mpr hds, length_digits_add_rest rfl⟩

theorem matchMonth_fits {month s : Bytes} {m : Temporal} (h : matchMonth month s = some m) :
    Fits s m := by
  unfold matchMonth at h
  split at h
  · exact absurd h (by simp)
  · rename_i ds r hdigits
    obtain ⟨hpos, hle⟩ := monthDigits_spec hdigits
    have hsuffix : ∀ day, (daySuffix day).length = 2 := by
      intro day
      unfold daySuffix
      split_ifs <;> rfl
    dsimp only at h
    split_ifs at h with hday hends hword
    · obtain rfl := Option.some.inj h
      have htwo := length_le_of_startsFold hends.2
      rw [hsuffix] at htwo
      exact ⟨by omega, by omega⟩
    · obtain rfl := Option.some.inj h
      exact ⟨by omega, by omega⟩

theorem matchMonthDate_fits {s : Bytes} {m : Temporal} (h : matchMonthDate s = some m) :
    Fits s m := by
  obtain ⟨month, -, hm⟩ := List.exists_of_findSome?_eq_some h
  exact matchMonth_fits hm

theorem ordinalLength_le (r : Bytes) : ordinalLength r ≤ r.length := by
  unfold ordinalLength
  split_ifs with h
  · obtain ⟨suffix, hmem, hstarts⟩ := List.any_eq_true.mp h
    have htwo : suffix.length = 2 := by
      simp only [List.mem_cons, List.not_mem_nil, or_false] at hmem
      rcases hmem with rfl | rfl | rfl | rfl <;> rfl
    rw [← htwo]
    exact length_le_of_startsFold hstarts
  · exact Nat.zero_le _

theorem matchOnMonthDate_fits {s : Bytes} {m : Temporal} (h : matchOnMonthDate s = some m) :
    Fits s m := by
  unfold matchOnMonthDate at h
  split_ifs at h with hon hthe
  · split at h
    · exact absurd h (by simp)
    · rename_i ds r hdigits
      obtain ⟨hpos, hle⟩ := onTheDigits_spec hdigits
      have hord := ordinalLength_le r
      dsimp only at h
      split_ifs at h with hday
      obtain rfl := Option.some.inj h
      exact ⟨by omega, by omega⟩
  · obtain ⟨m', hm', rfl⟩ := Option.map_eq_some_iff.mp h
    obtain ⟨hpos, hle⟩ := matchMonthDate_fits hm'
    rw [not_or, not_lt] at hon
    rw [List.length_drop] at hle
    exact ⟨by omega, by omega⟩

theorem matchInDays_fits {s : Bytes} {m : Temporal} (h : matchInDays s = some m) : Fits s m := by
  unfold matchInDays at h
  dsimp only at h
  split_ifs at h with hin hnone
  generalize hu : (((s.drop 3).dropWhile (· == ch ' ')).drop _).dropWhile (· == ch ' ') = u at h
  have hlen : u.length < s.length := by
    rw [not_or, not_lt] at hin
    rw [← hu]
    have h1 := (List.dropWhile_sublist (l := s.drop 3) (· == ch ' ')).length_le
    have h2 := (List.dropWhile_sublist (l := ((s.drop 3).dropWhile (· == ch ' ')).drop
      (((s.drop 3).dropWhile (· == ch ' ')).takeWhile isDigit).length) (· == ch ' ')).length_le
    rw [List.length_drop] at h1 h2
    omega
  split at h
  · rename_i n hfound
    obtain rfl := Option.some.inj h
    obtain ⟨unit, -, hunit⟩ := List.exists_of_findSome?_eq_some hfound
    obtain ⟨fits, hfits, heq⟩ := Option.map_eq_some_iff.mp hunit
    rw [Prod.mk.injEq] at heq
    obtain ⟨-, rfl⟩ := heq
    unfold matchUnit at hfits
    split_ifs at hfits with hstarts
    have hle := length_le_of_startsFold hstarts
    exact ⟨by omega, by omega⟩
  · exact absurd h (by simp)

theorem matchPattern_fits {prev : Option UInt8} {s : Bytes} {m : Temporal}
    (h : matchPattern prev s = some m) : Fits s m := by
  obtain ⟨pat, hpat, rfl⟩ := Option.map_eq_some_iff.mp h
  have hmem := List.mem_of_find?_eq_some hpat
  have hlen : ∀ pat ∈ temporalPatterns, 0 < pat.2.1 ∧ (patternOctets pat).length = pat.2.1 := by
    decide
  obtain ⟨hpos, heq⟩ := hlen pat hmem
  have hfits := List.find?_some hpat
  rw [Bool.and_eq_true, Bool.and_eq_true] at hfits
  have hle := length_le_of_startsFold hfits.1.1
  rw [heq] at hle
  exact ⟨hpos, hle⟩

/-- A phrase that is found has octets, and ends inside the text. -/
theorem matchTemporal_fits {prev : Option UInt8} {s : Bytes} {m : Temporal}
    (h : matchTemporal prev s = some m) : Fits s m := by
  unfold matchTemporal at h
  simp only [Option.or_eq_some_iff] at h
  rcases h with h | ⟨-, h | ⟨-, h | ⟨-, h⟩⟩⟩
  · split_ifs at h
    rcases Option.or_eq_some_iff.mp h with h | ⟨-, h⟩
    · exact matchOnMonthDate_fits h
    · exact matchInDays_fits h
  · split_ifs at h
    exact matchInDays_fits h
  · split_ifs at h
    exact matchMonthDate_fits h
  · exact matchPattern_fits h

/-! ## The loop -/

/-- A place at which the matchers are tried, and what they find. -/
structure Place where
  start : ℕ
  temporal : Option Temporal

/-- What the matchers find at a place of the text. -/
def temporalAt (text : Bytes) (i : ℕ) : Option Temporal :=
  matchTemporal (if i = 0 then none else text[i - 1]?) (text.drop i)

theorem temporalAt_fits {text : Bytes} {i : ℕ} {m : Temporal} (h : temporalAt text i = some m) :
    0 < m.1 ∧ i + m.1 ≤ text.length := by
  obtain ⟨hpos, hle⟩ := matchTemporal_fits h
  rw [List.length_drop] at hle
  exact ⟨hpos, by omega⟩

/-- `while (i < text_len && text[i] <= 32) i++;` -/
def skipBlanks (text : Bytes) (i : ℕ) : ℕ := i + ((text.drop i).takeWhile isBlank).length

/-- The loop of `sc_event_extract` from the octet `i` on, when there are `k` events: the places at
which the matchers are tried. -/
def placesFrom (text : Bytes) (i k : ℕ) : List Place :=
  if i < text.length ∧ k < scEventMaxEvents then
    let j := skipBlanks text i
    if text.length ≤ j then []
    else
      match _ : temporalAt text j with
      | none => ⟨j, none⟩ :: placesFrom text (j + 1) k
      | some m => ⟨j, some m⟩ :: placesFrom text (j + m.1) (k + 1)
  else []
termination_by text.length - i
decreasing_by
  · have hskip : i ≤ j := Nat.le_add_right _ _
    omega
  · have hskip : i ≤ j := Nat.le_add_right _ _
    have hpos := (temporalAt_fits ‹_›).1
    omega

/-- The places at which the matchers are tried. -/
def places (text : Bytes) : List Place := placesFrom text 0 0

/-- The phrase that is found at a place. -/
def Place.found (p : Place) : Option Found := p.temporal.map fun m => ⟨p.start, m⟩

/-- The phrases that are found. -/
def foundIn (text : Bytes) : List Found := (places text).filterMap Place.found

/-- `sc_event_extract`: the events. -/
def scEventExtract (text : Bytes) : List ExtractedEvent :=
  (foundIn text).map (Found.event text)

/-! ## Where the loop looks -/

/-- Where the loop goes on. -/
def Place.next (p : Place) : ℕ := p.start + (p.temporal.map (·.1)).getD 1

/-- How many of some phrases start before an octet. -/
def countBefore (fs : List Found) (q : ℕ) : ℕ := fs.countP (·.start < q)

/-- One round of the loop. -/
theorem placesFrom_eq (text : Bytes) (i k : ℕ) : placesFrom text i k =
    if k < scEventMaxEvents ∧ skipBlanks text i < text.length then
      ⟨skipBlanks text i, temporalAt text (skipBlanks text i)⟩ ::
        placesFrom text
          (Place.next ⟨skipBlanks text i, temporalAt text (skipBlanks text i)⟩)
          (k + (Place.found ⟨skipBlanks text i, temporalAt text (skipBlanks text i)⟩).toList.length)
    else [] := by
  have hskip : i ≤ skipBlanks text i := Nat.le_add_right _ _
  rw [placesFrom]
  by_cases hk : k < scEventMaxEvents ∧ skipBlanks text i < text.length
  · rw [if_pos ⟨by omega, hk.1⟩, if_pos hk]
    dsimp only
    rw [if_neg (Nat.not_le.mpr hk.2)]
    split
    · rename_i hnone
      simp only [hnone]
      rfl
    · rename_i m hsome
      simp only [hsome]
      rfl
  · rw [if_neg hk]
    dsimp only
    split_ifs with h hle
    · rfl
    · exact absurd ⟨h.2, Nat.lt_of_not_le hle⟩ hk
    · rfl

/-- The octet is there and no blank. -/
def NotBlank (text : Bytes) (q : ℕ) : Prop := ∃ b, text[q]? = some b ∧ isBlank b = false

theorem NotBlank.lt {text : Bytes} {q : ℕ} (h : NotBlank text q) : q < text.length := by
  obtain ⟨b, hb, -⟩ := h
  exact (List.getElem?_eq_some_iff.mp hb).1

theorem getElem?_of_skip (text : Bytes) (i m : ℕ) : text[i + m]? =
    ((text.drop i).takeWhile isBlank ++ (text.drop i).dropWhile isBlank)[m]? := by
  rw [List.takeWhile_append_dropWhile, List.getElem?_drop]

/-- Only blanks are skipped. -/
theorem skipBlanks_le {text : Bytes} {i q : ℕ} (hi : i ≤ q) (hq : NotBlank text q) :
    skipBlanks text i ≤ q := by
  obtain ⟨b, hb, hblank⟩ := hq
  by_contra hlt
  have hm : q - i < ((text.drop i).takeWhile isBlank).length := by
    unfold skipBlanks at hlt
    omega
  rw [← Nat.add_sub_cancel' hi, getElem?_of_skip, List.getElem?_append_left hm] at hb
  have hmem := List.mem_takeWhile_imp (List.mem_of_getElem? hb)
  rw [hblank] at hmem
  exact Bool.noConfusion hmem

/-- The octet behind the blanks is none. -/
theorem notBlank_skipBlanks {text : Bytes} {i : ℕ} (h : skipBlanks text i < text.length) :
    NotBlank text (skipBlanks text i) := by
  have hget := getElem?_of_skip text i ((text.drop i).takeWhile isBlank).length
  rw [List.getElem?_append_right le_rfl, Nat.sub_self, ← List.head?_eq_getElem?] at hget
  obtain ⟨b, hb⟩ : ∃ b, text[skipBlanks text i]? = some b :=
    ⟨_, List.getElem?_eq_getElem h⟩
  refine ⟨b, hb, ?_⟩
  have hnot := List.head?_dropWhile_not isBlank (text.drop i)
  rw [← hget, show i + ((text.drop i).takeWhile isBlank).length = skipBlanks text i from rfl,
    hb] at hnot
  simpa using hnot

/-- What a trace of the loop says: it looks where it is, from its start on, one place behind the
other. -/
structure Trace (text : Bytes) (i : ℕ) (l : List Place) : Prop where
  looks : ∀ p ∈ l, i ≤ p.start ∧ NotBlank text p.start ∧ p.temporal = temporalAt text p.start
  apart : l.Pairwise fun a b => a.next ≤ b.start

theorem Place.start_lt_next {text : Bytes} {p : Place}
    (hp : p.temporal = temporalAt text p.start) : p.start < p.next := by
  unfold Place.next
  cases htemporal : p.temporal with
  | none => exact Nat.lt_succ_self _
  | some m =>
    rw [htemporal] at hp
    have hpos := (temporalAt_fits hp.symm).1
    rw [Option.map_some, Option.getD_some]
    omega

theorem placesFrom_trace (text : Bytes) (i k : ℕ) : Trace text i (placesFrom text i k) := by
  induction hn : text.length - i using Nat.strong_induction_on generalizing i k with
  | _ n ih =>
    rw [placesFrom_eq]
    split_ifs with hround
    · generalize hp : (⟨skipBlanks text i, temporalAt text (skipBlanks text i)⟩ : Place) = p
      have hstart : p.start = skipBlanks text i := by rw [← hp]
      have htemporal : p.temporal = temporalAt text p.start := by rw [← hp]
      have hskip : i ≤ p.start := by
        rw [hstart]
        exact Nat.le_add_right _ _
      have hnext := Place.start_lt_next htemporal
      have hnot : NotBlank text p.start := by
        rw [hstart]
        exact notBlank_skipBlanks hround.2
      have hlt := hnot.lt
      have hrest := ih _ (by omega) p.next (k + p.found.toList.length) rfl
      refine ⟨?_, List.pairwise_cons.mpr ⟨fun b hb => (hrest.looks b hb).1, hrest.apart⟩⟩
      intro q hq
      rcases List.mem_cons.mp hq with rfl | hq
      · exact ⟨hskip, hnot, htemporal⟩
      · obtain ⟨hle, hrest'⟩ := hrest.looks q hq
        exact ⟨by omega, hrest'⟩
    · exact ⟨fun p hp => absurd hp List.not_mem_nil, List.Pairwise.nil⟩

/-- A place that is no blank and in no phrase is reached while there is room for events. -/
theorem exists_mem_placesFrom {text : Bytes} {i k q : ℕ} (hi : i ≤ q) (hq : NotBlank text q)
    (hfree : ∀ p ∈ placesFrom text i k, ¬ (p.start < q ∧ q < p.next))
    (hroom : k + countBefore ((placesFrom text i k).filterMap Place.found) q < scEventMaxEvents) :
    ∃ p ∈ placesFrom text i k, p.start = q := by
  induction hn : text.length - i using Nat.strong_induction_on generalizing i k with
  | _ n ih =>
    have hskip := skipBlanks_le hi hq
    have hlt := hq.lt
    have hround : k < scEventMaxEvents ∧ skipBlanks text i < text.length := by omega
    have htrace := placesFrom_trace text i k
    rw [placesFrom_eq, if_pos hround] at hfree hroom htrace ⊢
    generalize hp : (⟨skipBlanks text i, temporalAt text (skipBlanks text i)⟩ : Place) = p at *
    have hstart : p.start = skipBlanks text i := by rw [← hp]
    have hle : i ≤ p.start := by
      rw [hstart]
      exact Nat.le_add_right _ _
    rcases Nat.lt_or_eq_of_le hskip with hbefore | heq
    · have hout := hfree p List.mem_cons_self
      have hnext := Place.start_lt_next (htrace.looks p List.mem_cons_self).2.2
      have hcount : countBefore ((p :: placesFrom text p.next
          (k + p.found.toList.length)).filterMap Place.found) q = p.found.toList.length +
            countBefore ((placesFrom text p.next
              (k + p.found.toList.length)).filterMap Place.found) q := by
        unfold countBefore
        rw [List.filterMap_cons]
        cases hfound : p.found with
        | none => simp
        | some f =>
          have hf : f.start = p.start := by
            unfold Place.found at hfound
            obtain ⟨m, -, rfl⟩ := Option.map_eq_some_iff.mp hfound
            rfl
          simp only [Option.toList_some, List.length_singleton]
          rw [List.countP_cons_of_pos (by rw [decide_eq_true_eq]; omega)]
          omega
      rw [hcount] at hroom
      obtain ⟨p', hp', hp'q⟩ := ih (text.length - p.next) (by omega) (by omega)
        (fun p' hp' => hfree p' (List.mem_cons_of_mem _ hp')) (by omega) rfl
      exact ⟨p', List.mem_cons_of_mem _ hp', hp'q⟩
    · exact ⟨p, List.mem_cons_self, hstart.trans heq⟩

end SeaClaw.Context
