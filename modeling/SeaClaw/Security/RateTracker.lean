import SeaClaw.Lib.Bytes
import Mathlib.Data.List.Basic
import Mathlib.Tactic.Common

/-!
# The action budget

A tracker keeps the times of the recorded actions that are still in the window. An action beyond
the budget is refused but recorded all the same, so that the times count at least the actions
that were granted.
-/

namespace SeaClaw.Security

/-- `struct sc_rate_tracker` -/
structure RateTracker where
  timestamps : List ℤ
  cap : ℕ
  maxActions : ℕ
  windowSecs : ℤ

/-- `prune_timestamps` -/
def pruneTimestamps (t : RateTracker) (now : ℤ) : RateTracker :=
  { t with timestamps := t.timestamps.filter (now - t.windowSecs < ·) }

/-- `sc_rate_tracker_create` -/
def scRateTrackerCreate (maxActions : ℕ) : RateTracker where
  timestamps := []
  cap := if maxActions > 128 then maxActions else 128
  maxActions := maxActions
  windowSecs := 3600

/-- There is room for one more time, perhaps after twice the room was found. -/
def growTimestamps (t : RateTracker) (memory : Bool) : Option RateTracker :=
  if t.timestamps.length ≥ t.cap then
    if memory then some { t with cap := t.cap * 2 } else none
  else some t

/-- `sc_rate_tracker_record_action`. The clock is read for the pruning and for the action. -/
def scRateTrackerRecordAction (t : RateTracker) (start finish : ℤ) (memory : Bool) :
    RateTracker × Bool :=
  match growTimestamps (pruneTimestamps t start) memory with
  | none => (pruneTimestamps t start, false)
  | some t =>
    let t := { t with timestamps := t.timestamps ++ [finish] }
    (t, t.timestamps.length ≤ t.maxActions)

/-- `sc_rate_tracker_is_limited` -/
def scRateTrackerIsLimited (t : RateTracker) (now : ℤ) : RateTracker × Bool :=
  let t := pruneTimestamps t now
  (t, t.timestamps.length ≥ t.maxActions)

/-- `sc_rate_tracker_remaining` -/
def scRateTrackerRemaining (t : RateTracker) (now : ℤ) : RateTracker × ℕ :=
  let t := pruneTimestamps t now
  (t, if t.timestamps.length ≥ t.maxActions then 0 else t.maxActions - t.timestamps.length)

/-! ## Runs -/

/-- A call, with what the clock says during it and whether more memory is found. -/
inductive TrackerCall where
  | recordAction (start finish : ℤ) (memory : Bool)
  | isLimited (now : ℤ)
  deriving DecidableEq

/-- What the clock says during a call. -/
def TrackerCall.readings : TrackerCall → List ℤ
  | recordAction start finish _ => [start, finish]
  | isLimited now => [now]

/-- The tracker, the times of the actions that were recorded, and those of the actions that were
granted. -/
structure TrackerRun where
  tracker : RateTracker
  recorded : List ℤ
  granted : List (ℤ × ℤ)

/-- One call. -/
def trackerStep (r : TrackerRun) : TrackerCall → TrackerRun
  | .recordAction start finish memory =>
    let answer := scRateTrackerRecordAction r.tracker start finish memory
    { tracker := answer.1
      recorded := if (growTimestamps (pruneTimestamps r.tracker start) memory).isSome then
          r.recorded ++ [finish]
        else r.recorded
      granted := if answer.2 then r.granted ++ [(start, finish)] else r.granted }
  | .isLimited now => { r with tracker := (scRateTrackerIsLimited r.tracker now).1 }

/-- The calls from a new tracker on. -/
def trackerRun (maxActions : ℕ) (cs : List TrackerCall) : TrackerRun :=
  cs.foldl trackerStep ⟨scRateTrackerCreate maxActions, [], []⟩

/-- The clock does not go back, up to the present. -/
def ClockUntil (cs : List TrackerCall) (now : ℤ) : Prop :=
  (cs.flatMap TrackerCall.readings ++ [now]).Pairwise (· ≤ ·)

instance (cs : List TrackerCall) (now : ℤ) : Decidable (ClockUntil cs now) :=
  inferInstanceAs (Decidable (List.Pairwise _ _))

/-- The action takes place, at least in part, after `lo` and within the seconds of a window. -/
def InWindow (w lo : ℤ) (a : ℤ × ℤ) : Prop := lo < a.2 ∧ a.1 ≤ lo + w

instance (w lo : ℤ) (a : ℤ × ℤ) : Decidable (InWindow w lo a) := inferInstanceAs (Decidable (_ ∧ _))

/-! ## What the times of a tracker count -/

/-- What is known of a tracker when the clock has come to `now`: behind every point that a
window can still reach back to, its times are those of the recorded actions, which are at least
the granted ones; and no window holds more granted actions than the budget. -/
structure Counts (m : ℕ) (w now : ℤ) (r : TrackerRun) : Prop where
  budget : r.tracker.maxActions = m
  window : r.tracker.windowSecs = w
  room : m ≤ r.tracker.cap
  exact : ∀ lo, now - w ≤ lo →
    r.tracker.timestamps.countP (lo < ·) = r.recorded.countP (lo < ·)
  enough : ∀ lo, r.granted.countP (lo < ·.2) ≤ r.recorded.countP (lo < ·)
  granted : ∀ lo, r.granted.countP (InWindow w lo ·) ≤ m

section Counts

variable {m : ℕ} {w now : ℤ} {r : TrackerRun}

/-- The pruned times are counted by a window that ends now. -/
theorem length_pruned (t : RateTracker) (now : ℤ) :
    (pruneTimestamps t now).timestamps.length =
      t.timestamps.countP (now - t.windowSecs < ·) := by
  rw [List.countP_eq_length_filter]
  rfl

/-- Later windows do not see what was pruned. -/
theorem countP_pruned (t : RateTracker) {now lo : ℤ} (h : now - t.windowSecs ≤ lo) :
    (pruneTimestamps t now).timestamps.countP (lo < ·) = t.timestamps.countP (lo < ·) := by
  rw [pruneTimestamps, List.countP_filter]
  refine List.countP_congr fun x _ => ?_
  simp only [Bool.and_eq_true, decide_eq_true_eq]
  omega

theorem Counts.new (m : ℕ) (now : ℤ) :
    Counts m 3600 now ⟨scRateTrackerCreate m, [], []⟩ where
  budget := rfl
  window := rfl
  room := by
    simp only [scRateTrackerCreate]
    split_ifs <;> omega
  exact := fun lo _ => rfl
  enough := fun lo => le_rfl
  granted := fun lo => Nat.zero_le m

/-- The facts stay while the clock goes on. -/
theorem Counts.later (h : Counts m w now r) {now' : ℤ} (hle : now ≤ now') : Counts m w now' r :=
  { h with exact := fun lo hlo => h.exact lo (by omega) }

/-- The times that the tracker holds after pruning are the recorded ones in the window. -/
theorem Counts.inWindow (h : Counts m w now r) :
    (pruneTimestamps r.tracker now).timestamps.length = r.recorded.countP (now - w < ·) := by
  rw [length_pruned, h.window]
  exact h.exact _ le_rfl

/-- Pruning keeps all that is known. -/
theorem Counts.prune (h : Counts m w now r) :
    Counts m w now { r with tracker := pruneTimestamps r.tracker now } where
  budget := h.budget
  window := h.window
  room := h.room
  exact := by
    intro lo hlo
    have hcut : now - r.tracker.windowSecs ≤ lo := by
      rw [h.window]
      exact hlo
    rw [countP_pruned r.tracker hcut]
    exact h.exact lo hlo
  enough := h.enough
  granted := h.granted

/-- A granted action that is in a window is there with no more than the budget. -/
theorem granted_le_budget (h : Counts m w now r) {finish lo : ℤ}
    (hgrant : (pruneTimestamps r.tracker now).timestamps.length + 1 ≤ m)
    (hin : InWindow w lo (now, finish)) : r.granted.countP (InWindow w lo ·) + 1 ≤ m := by
  have hfew : r.granted.countP (InWindow w lo ·) ≤ r.granted.countP (lo < ·.2) := by
    refine List.countP_mono_left fun a _ ha => ?_
    exact decide_eq_true (of_decide_eq_true ha).1
  have hcut : now - w ≤ lo := by
    have hle := hin.2
    simp only at hle
    omega
  have hpruned : r.recorded.countP (lo < ·) ≤ r.recorded.countP (now - w < ·) := by
    refine List.countP_mono_left fun x _ hx => ?_
    rw [decide_eq_true_eq] at hx ⊢
    omega
  have hrecorded := h.enough lo
  rw [h.inWindow] at hgrant
  omega

/-- Growing changes nothing but the room. -/
theorem growTimestamps_some {t t' : RateTracker} {memory : Bool}
    (h : growTimestamps t memory = some t') : t'.timestamps = t.timestamps ∧
      t'.maxActions = t.maxActions ∧ t'.windowSecs = t.windowSecs ∧ t.cap ≤ t'.cap := by
  rw [growTimestamps] at h
  split_ifs at h with hfull hmemory
  · cases h
    exact ⟨rfl, rfl, rfl, Nat.le_mul_of_pos_right _ (by decide)⟩
  · cases h
    exact ⟨rfl, rfl, rfl, le_rfl⟩

/-- An action whose time is recorded, granted or not. -/
theorem Counts.append (h : Counts m w now r) {finish : ℤ} (hle : now ≤ finish) {t : RateTracker}
    (htimes : t.timestamps = (pruneTimestamps r.tracker now).timestamps)
    (hbudget : t.maxActions = m) (hwindow : t.windowSecs = w) (hroom : m ≤ t.cap) :
    Counts m w finish
      { tracker := { t with timestamps := t.timestamps ++ [finish] }
        recorded := r.recorded ++ [finish]
        granted := if t.timestamps.length + 1 ≤ m then r.granted ++ [(now, finish)]
          else r.granted } where
  budget := hbudget
  window := hwindow
  room := hroom
  exact := by
    intro lo hlo
    have hcut : now - w ≤ lo := by omega
    have hold := h.prune.exact lo hcut
    simp only at hold
    rw [List.countP_append, List.countP_append, htimes, hold]
  enough := by
    intro lo
    have hold := h.enough lo
    simp only [List.countP_append]
    split_ifs
    · rw [List.countP_append]
      exact Nat.add_le_add hold (by simp)
    · omega
  granted := by
    intro lo
    have hold := h.granted lo
    simp only
    split_ifs with hgrant
    · rw [List.countP_append]
      by_cases hin : InWindow w lo (now, finish)
      · rw [htimes] at hgrant
        have hless := granted_le_budget h hgrant hin
        simpa [hin] using hless
      · simpa [hin] using hold
    · exact hold

/-- A recorded action keeps all that is known. -/
theorem Counts.record (h : Counts m w now r) {finish : ℤ} (hle : now ≤ finish) (memory : Bool) :
    Counts m w finish (trackerStep r (.recordAction now finish memory)) := by
  rw [trackerStep, scRateTrackerRecordAction]
  cases hgrow : growTimestamps (pruneTimestamps r.tracker now) memory with
  | none =>
    simp only [Option.isSome_none, Bool.false_eq_true, if_false]
    exact h.prune.later hle
  | some t =>
    obtain ⟨htimes, hmax, hwindow, hcap⟩ := growTimestamps_some hgrow
    have hbudget : t.maxActions = m := hmax.trans h.budget
    have happend := h.append hle htimes hbudget (hwindow.trans h.window) (h.room.trans hcap)
    simp only [hbudget] at happend
    simp only [Option.isSome_some, if_true, List.length_append, List.length_singleton, hbudget,
      decide_eq_true_eq]
    exact happend

/-- Asking whether the budget is spent keeps all that is known. -/
theorem Counts.query (h : Counts m w now r) : Counts m w now (trackerStep r (.isLimited now)) :=
  h.prune

end Counts

/-! ## Every run -/

/-- The clock before a call, during it and after it. -/
theorem clockUntil_concat {cs : List TrackerCall} {c : TrackerCall} {now : ℤ}
    (h : ClockUntil (cs ++ [c]) now) :
    (∀ x ∈ c.readings, ClockUntil cs x ∧ x ≤ now) ∧ c.readings.Pairwise (· ≤ ·) := by
  rw [ClockUntil, List.flatMap_append, List.flatMap_singleton, List.append_assoc] at h
  obtain ⟨hold, hnew, hcross⟩ := List.pairwise_append.mp h
  obtain ⟨hduring, -, hafter⟩ := List.pairwise_append.mp hnew
  refine ⟨fun x hx => ⟨?_, hafter x hx now (List.mem_singleton_self now)⟩, hduring⟩
  refine List.pairwise_append.mpr ⟨hold, List.pairwise_singleton _ _, fun a ha b hb => ?_⟩
  rw [List.mem_singleton.mp hb]
  exact hcross a ha x (List.mem_append_left _ hx)

/-- What is known of the tracker at any moment of a run. -/
theorem counts_trackerRun (maxActions : ℕ) {cs : List TrackerCall} {now : ℤ}
    (h : ClockUntil cs now) : Counts maxActions 3600 now (trackerRun maxActions cs) := by
  induction cs using List.reverseRecOn generalizing now with
  | nil => exact Counts.new maxActions now
  | append_singleton cs c ih =>
    obtain ⟨hreadings, hduring⟩ := clockUntil_concat h
    rw [trackerRun, List.foldl_append]
    cases c with
    | recordAction start finish memory =>
      have hstart := hreadings start List.mem_cons_self
      have hfinish := hreadings finish (List.mem_cons_of_mem _ List.mem_cons_self)
      have hle : start ≤ finish := List.rel_of_pairwise_cons hduring List.mem_cons_self
      exact ((ih hstart.1).record hle memory).later hfinish.2
    | isLimited time =>
      have htime := hreadings time List.mem_cons_self
      exact (ih htime.1).query.later htime.2

section Agree

variable {m : ℕ} {w now : ℤ} {r : TrackerRun}

/-- An action of this second is granted exactly if there are fewer than the budget. -/
theorem Counts.grants_iff (h : Counts m w now r) (memory : Bool) :
    (scRateTrackerRecordAction r.tracker now now memory).2 = true ↔
      (pruneTimestamps r.tracker now).timestamps.length < m := by
  have hroom := h.room
  rw [scRateTrackerRecordAction]
  cases hgrow : growTimestamps (pruneTimestamps r.tracker now) memory with
  | none =>
    rw [growTimestamps] at hgrow
    split_ifs at hgrow with hfull hmemory
    have hcap : r.tracker.cap ≤ (pruneTimestamps r.tracker now).timestamps.length := hfull
    simp only [Bool.false_eq_true, false_iff]
    omega
  | some t =>
    obtain ⟨htimes, hmax, -, -⟩ := growTimestamps_some hgrow
    have hbudget : t.maxActions = m := hmax.trans h.budget
    simp only [List.length_append, List.length_singleton, htimes, hbudget, decide_eq_true_eq]
    omega

theorem Counts.isLimited_iff (h : Counts m w now r) :
    (scRateTrackerIsLimited r.tracker now).2 = false ↔
      (pruneTimestamps r.tracker now).timestamps.length < m := by
  have hbudget : (pruneTimestamps r.tracker now).maxActions = m := h.budget
  simp only [scRateTrackerIsLimited, hbudget, decide_eq_false_iff_not, ge_iff_le, not_le]

theorem Counts.remaining_eq (h : Counts m w now r) :
    (scRateTrackerRemaining r.tracker now).2 = m - r.recorded.countP (now - w < ·) := by
  have hbudget : (pruneTimestamps r.tracker now).maxActions = m := h.budget
  simp only [scRateTrackerRemaining, hbudget, h.inWindow]
  split_ifs <;> omega

end Agree

/-- At every moment of a run under a clock that does not go back, no window holds more granted
actions than the budget, the query says whether an action of that second would be granted, and
what remains is the budget less the recorded actions in the window. -/
theorem rate_tracker_budget (maxActions : ℕ) (cs : List TrackerCall) (now : ℤ)
    (h : ClockUntil cs now) :
    (∀ lo, (trackerRun maxActions cs).granted.countP (InWindow 3600 lo ·) ≤ maxActions) ∧
    (∀ memory, (scRateTrackerIsLimited (trackerRun maxActions cs).tracker now).2 = false ↔
      (scRateTrackerRecordAction (trackerRun maxActions cs).tracker now now memory).2 = true) ∧
    (scRateTrackerRemaining (trackerRun maxActions cs).tracker now).2 =
      maxActions - (trackerRun maxActions cs).recorded.countP (now - 3600 < ·) := by
  have hcounts := counts_trackerRun maxActions h
  refine ⟨hcounts.granted, fun memory => ?_, hcounts.remaining_eq⟩
  rw [hcounts.isLimited_iff, hcounts.grants_iff memory]

/-- A budget of one action: the second one of the hour is refused. -/
theorem rate_tracker_budget_one :
    ClockUntil [.recordAction 0 0 true, .isLimited 10, .recordAction 20 20 true] 30 ∧
    (∀ lo, (trackerRun 1 [.recordAction 0 0 true, .isLimited 10,
      .recordAction 20 20 true]).granted.countP (InWindow 3600 lo ·) ≤ 1) ∧
    (∀ memory, (scRateTrackerIsLimited (trackerRun 1 [.recordAction 0 0 true, .isLimited 10,
      .recordAction 20 20 true]).tracker 30).2 = false ↔
      (scRateTrackerRecordAction (trackerRun 1 [.recordAction 0 0 true, .isLimited 10,
        .recordAction 20 20 true]).tracker 30 30 memory).2 = true) ∧
    (scRateTrackerRemaining (trackerRun 1 [.recordAction 0 0 true, .isLimited 10,
      .recordAction 20 20 true]).tracker 30).2 =
      1 - (trackerRun 1 [.recordAction 0 0 true, .isLimited 10,
        .recordAction 20 20 true]).recorded.countP (30 - 3600 < ·) :=
  ⟨by decide, rate_tracker_budget 1 _ 30 (by decide)⟩

end SeaClaw.Security
