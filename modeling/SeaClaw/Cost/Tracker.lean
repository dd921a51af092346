import SeaClaw.Core.Error
import SeaClaw.Lib.CString
import SeaClaw.Lib.Machine
import Mathlib.Data.Rat.Defs
import Mathlib.Algebra.Order.Ring.Rat
import Mathlib.Tactic.Linarith

/-!
# The cost tracker

A table of the usages of a session and a budget for their sum. The table has a last place, behind
which usages are taken without a record; and the verdict on the budget is told only together with
what it is about. Amounts of money are rationals, or no number.
-/

namespace SeaClaw.Cost

open SeaClaw.Lib

/-- `SC_COST_MAX_RECORDS` -/
def costMaxRecords : ℕ := 1024

/-- `sc_cost_entry_t`; a cost that is not finite is none. -/
structure CostEntry where
  model : Option CString
  inputTokens : ℕ
  outputTokens : ℕ
  totalTokens : ℕ
  costUsd : Option ℚ
  timestampSecs : ℤ

/-- `sc_cost_record_t`. Only usages of a finite cost are recorded. -/
structure CostRecord where
  model : CString
  inputTokens : ℕ
  outputTokens : ℕ
  totalTokens : ℕ
  costUsd : ℚ
  timestampSecs : ℤ
  sessionId : CString
  jobId : ℕ

/-- `sc_cost_tracker_t` -/
structure CostTracker where
  enabled : Bool
  dailyLimitUsd : ℚ
  monthlyLimitUsd : ℚ
  warnAtPercent : ℕ
  records : List CostRecord
  recordCap : ℕ

/-- `sc_cost_tracker_init` -/
def scCostTrackerInit (enabled : Bool) (dailyLimit monthlyLimit : ℚ) (warnPercent : ℕ) :
    CostTracker where
  enabled := enabled
  dailyLimitUsd := dailyLimit
  monthlyLimitUsd := monthlyLimit
  warnAtPercent := if warnPercent > 100 then 100 else warnPercent
  records := []
  recordCap := 0

theorem zero_notMem_cut (s : CString) (n : ℕ) : 0 ∉ s.octets.take n :=
  fun h => s.noNul (List.mem_of_mem_take h)

/-- The record of a usage; the name of the model is cut to the room it has. -/
def recordOf (usage : CostEntry) (cost : ℚ) (jobId : ℕ) : CostRecord where
  model := match usage.model with
    | some model => ⟨model.octets.take 63, zero_notMem_cut model 63⟩
    | none => .ofBytes []
  inputTokens := usage.inputTokens
  outputTokens := usage.outputTokens
  totalTokens := usage.totalTokens
  costUsd := cost
  timestampSecs := usage.timestampSecs
  sessionId := .ofBytes (ascii "current")
  jobId := jobId

/-- There is a place for one more record, perhaps in a table that was found for more. -/
def growRecords (t : CostTracker) (memory : Bool) : Option CostTracker :=
  if t.records.length ≥ t.recordCap then
    if memory then
      some { t with
        recordCap := min (if t.recordCap ≠ 0 then t.recordCap * 2 else 8) costMaxRecords }
    else none
  else some t

/-- `sc_cost_record_usage` -/
def scCostRecordUsage (t : CostTracker) (usage : CostEntry) (jobId : ℕ) (memory : Bool) :
    Except ScError Unit × CostTracker :=
  if ¬ t.enabled then (.ok (), t)
  else
    match usage.costUsd with
    | none => (.ok (), t)
    | some cost =>
      if cost < 0 then (.ok (), t)
      else if t.records.length ≥ costMaxRecords then (.ok (), t)
      else
        match growRecords t memory with
        | none => (.error .outOfMemory, t)
        | some t => (.ok (), { t with records := t.records ++ [recordOf usage cost jobId] })

/-- `sc_cost_session_total` -/
def scCostSessionTotal (t : CostTracker) : ℚ := (t.records.map (·.costUsd)).sum

/-! ## The budget -/

/-- `sc_usage_period_t` -/
inductive UsagePeriod where
  | session | day | month
  deriving DecidableEq

/-- `sc_budget_check_t` -/
inductive BudgetCheck where
  | allowed | warning | exceeded
  deriving DecidableEq

/-- `sc_budget_info_t` -/
structure BudgetInfo where
  currentUsd : ℚ
  limitUsd : ℚ
  period : UsagePeriod

/-- `sc_cost_check_budget`, told whether `info_out` is there, with what is written to it. -/
def scCostCheckBudget (t : CostTracker) (estimatedCostUsd : Option ℚ) (infoOut : Bool) :
    BudgetCheck × Option BudgetInfo :=
  if ¬ t.enabled then (.allowed, none)
  else
    match estimatedCostUsd with
    | none => (.allowed, none)
    | some estimated =>
      if estimated < 0 then (.allowed, none)
      else
        let sessionCost := scCostSessionTotal t
        let projected := sessionCost + estimated
        if projected > t.dailyLimitUsd ∧ infoOut then
          (.exceeded, some ⟨sessionCost, t.dailyLimitUsd, .day⟩)
        else if projected > t.monthlyLimitUsd ∧ infoOut then
          (.exceeded, some ⟨sessionCost, t.monthlyLimitUsd, .month⟩)
        else if projected ≥ t.dailyLimitUsd * ((t.warnAtPercent : ℚ) / 100) ∧ infoOut then
          (.warning, some ⟨sessionCost, t.dailyLimitUsd, .day⟩)
        else (.allowed, none)

/-! ## Runs -/

/-- A call on the tracker. -/
inductive CostCall where
  | recordUsage (usage : CostEntry) (cost : ℚ) (nonneg : 0 ≤ cost) (jobId : ℕ) (memory : Bool)
  | checkBudget (estimatedCostUsd : Option ℚ)

/-- The tracker, and the sum of the costs of the calls that succeeded. -/
structure CostRun where
  tracker : CostTracker
  spent : ℚ

/-- The usage of a call with its cost. -/
def withCost (usage : CostEntry) (cost : ℚ) : CostEntry := { usage with costUsd := some cost }

/-- One call. -/
def costStep (r : CostRun) : CostCall → Option CostRun
  | .recordUsage usage cost _ jobId memory =>
    match scCostRecordUsage r.tracker (withCost usage cost) jobId memory with
    | (.ok (), t) => some ⟨t, r.spent + cost⟩
    | (.error _, t) => some ⟨t, r.spent⟩
  | .checkBudget _ => some r

/-- The total behind a call is what was spent, and a verdict does not depend on `info_out`. -/
def Accounts (r : CostRun) (c : CostCall) : Prop :=
  (∀ r', costStep r c = some r' → scCostSessionTotal r'.tracker = r'.spent) ∧
    ∀ estimated, c = .checkBudget estimated →
      (scCostCheckBudget r.tracker estimated true).1 =
        (scCostCheckBudget r.tracker estimated false).1

/-- A usage costs nothing or finds a place, and an estimate stays below the limits and the
warning. -/
def WithinTable (r : CostRun) : CostCall → Prop
  | .recordUsage _ cost _ _ _ => cost = 0 ∨ r.tracker.records.length < costMaxRecords
  | .checkBudget none => True
  | .checkBudget (some estimated) => estimated < 0 ∨
      (scCostSessionTotal r.tracker + estimated ≤ r.tracker.dailyLimitUsd ∧
        scCostSessionTotal r.tracker + estimated ≤ r.tracker.monthlyLimitUsd ∧
        scCostSessionTotal r.tracker + estimated <
          r.tracker.dailyLimitUsd * ((r.tracker.warnAtPercent : ℚ) / 100))

section Step

variable {r : CostRun}

theorem growRecords_some {t t' : CostTracker} {memory : Bool} (h : growRecords t memory = some t') :
    t'.records = t.records ∧ t'.enabled = t.enabled := by
  rw [growRecords] at h
  by_cases hfull : t.records.length ≥ t.recordCap
  · rw [if_pos hfull] at h
    by_cases hmemory : memory = true
    · rw [if_pos hmemory] at h
      cases h
      exact ⟨rfl, rfl⟩
    · rw [if_neg hmemory] at h
      cases h
  · rw [if_neg hfull] at h
    cases h
    exact ⟨rfl, rfl⟩

/-- What a record call does to an enabled tracker. -/
theorem costStep_record (hon : r.tracker.enabled = true) (usage : CostEntry) (cost : ℚ)
    (hcost : 0 ≤ cost) (jobId : ℕ) (memory : Bool) :
    ∃ r', costStep r (.recordUsage usage cost hcost jobId memory) = some r' ∧
      r'.tracker.enabled = true ∧
      ((costMaxRecords ≤ r.tracker.records.length ∧ r'.tracker = r.tracker ∧
          r'.spent = r.spent + cost) ∨
        (r.tracker.records.length < costMaxRecords ∧
          scCostSessionTotal r'.tracker - r'.spent = scCostSessionTotal r.tracker - r.spent)) := by
  have hneg : ¬ cost < 0 := not_lt.mpr hcost
  simp only [costStep, scCostRecordUsage, hon, withCost, not_true_eq_false, if_false, hneg]
  by_cases hfull : r.tracker.records.length ≥ costMaxRecords
  · simp only [if_pos hfull]
    exact ⟨_, rfl, hon, Or.inl ⟨hfull, rfl, rfl⟩⟩
  · simp only [if_neg hfull]
    cases hgrow : growRecords r.tracker memory with
    | none => exact ⟨_, rfl, hon, Or.inr ⟨not_le.mp hfull, rfl⟩⟩
    | some t =>
      obtain ⟨hrecords, henabled⟩ := growRecords_some hgrow
      refine ⟨_, rfl, henabled.trans hon, Or.inr ⟨not_le.mp hfull, ?_⟩⟩
      simp only [scCostSessionTotal, hrecords, List.map_append, List.map_singleton,
        List.sum_append, List.sum_singleton, recordOf]
      ring

/-- The verdict without `info_out`. -/
theorem scCostCheckBudget_blind (t : CostTracker) (estimated : Option ℚ) :
    (scCostCheckBudget t estimated false).1 = .allowed := by
  unfold scCostCheckBudget
  split
  · rfl
  · cases estimated with
    | none => rfl
    | some e =>
      simp only [Bool.false_eq_true, and_false, if_false]
      split
      · rfl
      · rfl

/-- The verdict does not depend on `info_out` exactly for estimates below the limits. -/
theorem verdict_iff (hon : r.tracker.enabled = true) (estimated : Option ℚ) :
    (scCostCheckBudget r.tracker estimated true).1 =
        (scCostCheckBudget r.tracker estimated false).1 ↔
      WithinTable r (.checkBudget estimated) := by
  rw [scCostCheckBudget_blind]
  cases estimated with
  | none => simp only [scCostCheckBudget, hon, WithinTable, not_true_eq_false, if_false]
  | some e =>
    simp only [scCostCheckBudget, hon, WithinTable, not_true_eq_false, if_false, and_true]
    by_cases hneg : e < 0
    · simp only [hneg, if_true, true_or]
    · simp only [hneg, if_false, false_or]
      by_cases hdaily : scCostSessionTotal r.tracker + e > r.tracker.dailyLimitUsd
      · simp only [hdaily, if_true, reduceCtorEq, false_iff]
        exact fun h => absurd h.1 (not_le.mpr hdaily)
      · simp only [hdaily, if_false]
        by_cases hmonthly : scCostSessionTotal r.tracker + e > r.tracker.monthlyLimitUsd
        · simp only [hmonthly, if_true, reduceCtorEq, false_iff]
          exact fun h => absurd h.2.1 (not_le.mpr hmonthly)
        · simp only [hmonthly, if_false]
          by_cases hwarn : scCostSessionTotal r.tracker + e ≥
              r.tracker.dailyLimitUsd * ((r.tracker.warnAtPercent : ℚ) / 100)
          · simp only [hwarn, if_true, reduceCtorEq, false_iff]
            exact fun h => absurd h.2.2 (not_lt.mpr hwarn)
          · simp only [hwarn, if_false, true_iff]
            exact ⟨not_lt.mp hdaily, not_lt.mp hmonthly, not_le.mp hwarn⟩

/-- An enabled tracker whose total is what was spent. -/
def InStep (r : CostRun) : Prop :=
  r.tracker.enabled = true ∧ scCostSessionTotal r.tracker = r.spent

/-- From such a tracker a call accounts exactly if it stays within the table. -/
theorem accounts_iff (h : InStep r) (c : CostCall) : Accounts r c ↔ WithinTable r c := by
  obtain ⟨hon, htotal⟩ := h
  cases c with
  | recordUsage usage cost hcost jobId memory =>
    obtain ⟨r', hstep, -, hcases⟩ := costStep_record hon usage cost hcost jobId memory
    have hverdict : ∀ e, CostCall.recordUsage usage cost hcost jobId memory = .checkBudget e →
        (scCostCheckBudget r.tracker e true).1 = (scCostCheckBudget r.tracker e false).1 :=
      fun e he => nomatch he
    rw [Accounts, hstep, WithinTable]
    rcases hcases with ⟨hfull, htracker, hspent⟩ | ⟨hroom, hkept⟩
    · rw [or_iff_left (not_lt.mpr hfull)]
      constructor
      · intro h
        have hsum := h.1 r' rfl
        rw [htracker, hspent, htotal] at hsum
        linarith
      · rintro rfl
        refine ⟨fun t ht => ?_, hverdict⟩
        cases ht
        rw [htracker, hspent, htotal, add_zero]
    · refine iff_of_true ⟨fun t ht => ?_, hverdict⟩ (Or.inr hroom)
      cases ht
      linarith
  | checkBudget estimated =>
    rw [← verdict_iff hon]
    constructor
    · exact fun h => h.2 estimated rfl
    · intro h
      refine ⟨fun t ht => ?_, fun e he => ?_⟩
      · cases ht
        exact htotal
      · cases he
        exact h

theorem InStep.step (h : InStep r) {c : CostCall} (hc : WithinTable r c) {r' : CostRun}
    (hstep : costStep r c = some r') : InStep r' := by
  refine ⟨?_, ((accounts_iff h c).mpr hc).1 r' hstep⟩
  cases c with
  | recordUsage usage cost hcost jobId memory =>
    obtain ⟨t, ht, hon, -⟩ := costStep_record h.1 usage cost hcost jobId memory
    rw [hstep] at ht
    cases ht
    exact hon
  | checkBudget estimated =>
    cases hstep
    exact h.1

end Step

/-- The calls of a session on an enabled tracker all account exactly if they all stay within the
table and the limits. -/
theorem cost_accounting_iff (dailyLimit monthlyLimit : ℚ) (warnPercent : ℕ)
    (cs : List CostCall) :
    Machine.EveryStep costStep Accounts
        ⟨scCostTrackerInit true dailyLimit monthlyLimit warnPercent, 0⟩ cs ↔
      Machine.EveryStep costStep WithinTable
        ⟨scCostTrackerInit true dailyLimit monthlyLimit warnPercent, 0⟩ cs := by
  have hstart : InStep ⟨scCostTrackerInit true dailyLimit monthlyLimit warnPercent, 0⟩ :=
    ⟨rfl, rfl⟩
  exact @Machine.everyStep_congr_along _ _ costStep InStep Accounts WithinTable
    (fun r c r' h hc hstep => h.step hc hstep) (fun r c h => accounts_iff h c) _ hstart cs

/-- An estimate of two dollars on a limit of one: refused, unless nobody asks why. -/
theorem cost_verdict_blind :
    (scCostCheckBudget (scCostTrackerInit true 1 10 80) (some 2) true).1 = .exceeded ∧
      (scCostCheckBudget (scCostTrackerInit true 1 10 80) (some 2) false).1 = .allowed := by
  decide +kernel

end SeaClaw.Cost
