import SeaClaw.Core.Error
import SeaClaw.Lib.CString
import SeaClaw.Lib.Machine

/-!
# The task list

Tasks in the order in which they were added. A task is claimed by an agent when it is pending
and no task that blocks it is still to be completed.
-/

namespace SeaClaw.Agent

open SeaClaw.Lib

/-- `sc_task_list_status_t` -/
inductive TaskStatus where
  | pending | claimed | inProgress | completed | failed | cancelled
  deriving DecidableEq

/-- `sc_task_t` -/
structure Task where
  id : ℕ
  subject : Option CString
  description : Option CString
  ownerAgentId : ℕ
  status : TaskStatus
  blockedBy : List ℕ
  createdAt : ℤ
  updatedAt : ℤ
  deriving DecidableEq

/-- `struct sc_task_list` without its directory. -/
@[ext] structure TaskList where
  tasks : List Task
  maxTasks : ℕ
  count_le : tasks.length ≤ maxTasks
  nextId : ℕ

/-- `find_task` -/
def findTask (l : TaskList) (taskId : ℕ) : Option Task := l.tasks.find? fun t => t.id = taskId

/-- The tasks with the one that `find_task` finds changed. -/
def changeTask (taskId : ℕ) (f : Task → Task) : List Task → List Task
  | [] => []
  | t :: ts => if t.id = taskId then f t :: ts else t :: changeTask taskId f ts

theorem length_changeTask (taskId : ℕ) (f : Task → Task) (ts : List Task) :
    (changeTask taskId f ts).length = ts.length := by
  induction ts with
  | nil => rfl
  | cons t ts ih =>
    rw [changeTask]
    split_ifs
    · rfl
    · rw [List.length_cons, List.length_cons, ih]

def TaskList.change (l : TaskList) (taskId : ℕ) (f : Task → Task) : TaskList :=
  { l with
    tasks := changeTask taskId f l.tasks
    count_le := (length_changeTask taskId f l.tasks).trans_le l.count_le }

/-- Which of the copies of a task find memory. -/
structure TaskCopies where
  subject : Bool
  description : Bool
  blockedBy : Bool

theorem length_concat_le_of_lt {A : Type} {l : List A} {n : ℕ} (h : ¬ l.length ≥ n) (a : A) :
    (l ++ [a]).length ≤ n := by
  rw [List.length_append, List.length_singleton]
  exact Nat.lt_of_not_le h

/-- `sc_task_list_add`: the id of the new task. -/
def scTaskListAdd (l : TaskList) (subject description : Option CString) (blockedBy : List ℕ)
    (c : TaskCopies) (now : ℤ) : Except ScError ℕ × TaskList :=
  match subject with
  | none => (.error .invalidArgument, l)
  | some subject =>
    if h : l.tasks.length ≥ l.maxTasks then (.error .outOfMemory, l)
    else
      let id := l.nextId
      let l' := { l with nextId := (l.nextId + 1) % 2 ^ 64 }
      if ¬ c.subject then (.error .outOfMemory, l')
      else if blockedBy ≠ [] ∧ ¬ c.blockedBy then (.error .outOfMemory, l')
      else
        let t : Task :=
          { id, blockedBy
            subject := some subject
            description := if c.description then description else none
            ownerAgentId := 0
            status := .pending
            createdAt := now
            updatedAt := now }
        (.ok id, { l' with tasks := l.tasks ++ [t], count_le := length_concat_le_of_lt h t })

/-- `sc_task_list_is_blocked` -/
def scTaskListIsBlocked (l : TaskList) (taskId : ℕ) : Bool :=
  match findTask l taskId with
  | none => false
  | some t => t.blockedBy.any fun d =>
    match findTask l d with
    | none => true
    | some dep => dep.status ≠ .completed

/-- A task in the hands of an agent. -/
def Task.claimBy (t : Task) (agentId : ℕ) (now : ℤ) : Task :=
  { t with ownerAgentId := agentId, status := .claimed, updatedAt := now }

/-- A task with its status set; its owner stays. -/
def Task.setStatus (t : Task) (status : TaskStatus) (now : ℤ) : Task :=
  { t with status := status, updatedAt := now }

/-- `sc_task_list_claim` -/
def scTaskListClaim (l : TaskList) (taskId agentId : ℕ) (now : ℤ) : Except ScError Unit × TaskList :=
  match findTask l taskId with
  | none => (.error .notFound, l)
  | some t =>
    if t.status ≠ .pending then (.error .alreadyExists, l)
    else if scTaskListIsBlocked l taskId then (.error .invalidArgument, l)
    else (.ok (), l.change taskId fun t => t.claimBy agentId now)

/-- `sc_task_list_update_status` -/
def scTaskListUpdateStatus (l : TaskList) (taskId : ℕ) (status : TaskStatus) (now : ℤ) :
    Except ScError Unit × TaskList :=
  match findTask l taskId with
  | none => (.error .notFound, l)
  | some _ => (.ok (), l.change taskId fun t => t.setStatus status now)

/-- The copy of a task that a caller gets. -/
def copyTask (c : TaskCopies) (t : Task) : Task :=
  { t with
    subject := if c.subject then t.subject else none
    description := if c.description then t.description else none
    blockedBy := if c.blockedBy then t.blockedBy else [] }

/-- `sc_task_list_next_available` -/
def scTaskListNextAvailable (l : TaskList) (c : TaskCopies) : Except ScError Task :=
  match l.tasks.find? fun t =>
    t.status = .pending ∧ t.ownerAgentId = 0 ∧ scTaskListIsBlocked l t.id = false with
  | some t => .ok (copyTask c t)
  | none => .error .notFound

/-- A call that changes the list. -/
inductive TaskOp where
  | add (subject description : Option CString) (blockedBy : List ℕ) (copies : TaskCopies) (now : ℤ)
  | claim (taskId agentId : ℕ) (now : ℤ)
  | updateStatus (taskId : ℕ) (status : TaskStatus) (now : ℤ)

/-- The list behind a call. -/
def taskStep (l : TaskList) : TaskOp → Option TaskList
  | .add subject description blockedBy copies now =>
    some (scTaskListAdd l subject description blockedBy copies now).2
  | .claim taskId agentId now => some (scTaskListClaim l taskId agentId now).2
  | .updateStatus taskId status now => some (scTaskListUpdateStatus l taskId status now).2

/-! ## What calls leave alone -/

section Find

variable {f : Task → Task}

theorem find?_changeTask (hf : ∀ t, (f t).id = t.id) (taskId d : ℕ) (ts : List Task) :
    (changeTask taskId f ts).find? (fun t => t.id = d) =
      (ts.find? fun t => t.id = d).map fun t => if d = taskId then f t else t := by
  induction ts with
  | nil => rfl
  | cons t ts ih =>
    rw [changeTask]
    by_cases ht : t.id = taskId
    · rw [if_pos ht]
      by_cases hd : t.id = d
      · rw [List.find?_cons_of_pos (by simpa [hf] using hd), List.find?_cons_of_pos (by simpa using hd),
          Option.map_some, if_pos (hd.symm.trans ht)]
      · have hne : d ≠ taskId := fun h => hd (ht.trans h.symm)
        rw [List.find?_cons_of_neg (by simpa [hf] using hd),
          List.find?_cons_of_neg (by simpa using hd)]
        simp [hne]
    · rw [if_neg ht]
      by_cases hd : t.id = d
      · have hne : d ≠ taskId := fun h => ht (hd.trans h)
        rw [List.find?_cons_of_pos (by simpa using hd), List.find?_cons_of_pos (by simpa using hd)]
        simp [hne]
      · rw [List.find?_cons_of_neg (by simpa using hd), List.find?_cons_of_neg (by simpa using hd),
          ih]

theorem findTask_change (l : TaskList) (hf : ∀ t, (f t).id = t.id) (taskId d : ℕ) :
    findTask (l.change taskId f) d =
      (findTask l d).map fun t => if d = taskId then f t else t :=
  find?_changeTask hf taskId d l.tasks

/-- A call of `sc_task_list_add` leaves the tasks as they are, or puts a pending task without
an owner behind them. -/
theorem scTaskListAdd_cases (l : TaskList) (subject description : Option CString)
    (blockedBy : List ℕ) (c : TaskCopies) (now : ℤ) :
    (∃ e, (scTaskListAdd l subject description blockedBy c now).1 = .error e ∧
      (scTaskListAdd l subject description blockedBy c now).2.tasks = l.tasks) ∨
    ∃ t, (scTaskListAdd l subject description blockedBy c now).1 = .ok t.id ∧
      (scTaskListAdd l subject description blockedBy c now).2.tasks = l.tasks ++ [t] ∧
      t.id = l.nextId ∧ t.status = .pending ∧ t.ownerAgentId = 0 ∧ t.blockedBy = blockedBy := by
  unfold scTaskListAdd
  cases subject with
  | none => exact Or.inl ⟨_, rfl, rfl⟩
  | some subject =>
    simp only
    by_cases hfull : l.tasks.length ≥ l.maxTasks
    · rw [dif_pos hfull]
      exact Or.inl ⟨_, rfl, rfl⟩
    rw [dif_neg hfull]
    by_cases hsubject : ¬ c.subject
    · rw [if_pos hsubject]
      exact Or.inl ⟨_, rfl, rfl⟩
    rw [if_neg hsubject]
    by_cases hblocked : blockedBy ≠ [] ∧ ¬ c.blockedBy
    · rw [if_pos hblocked]
      exact Or.inl ⟨_, rfl, rfl⟩
    · rw [if_neg hblocked]
      exact Or.inr ⟨_, rfl, rfl, rfl, rfl, rfl, rfl⟩

/-- Adding a task hides none that was there. -/
theorem findTask_add {l : TaskList} {d : ℕ} {t : Task} (h : findTask l d = some t)
    (subject description : Option CString) (blockedBy : List ℕ) (c : TaskCopies) (now : ℤ) :
    findTask (scTaskListAdd l subject description blockedBy c now).2 d = some t := by
  rw [findTask] at h ⊢
  rcases scTaskListAdd_cases l subject description blockedBy c now with
    ⟨e, -, htasks⟩ | ⟨u, -, htasks, -⟩
  · rw [htasks, h]
  · rw [htasks, List.find?_append, h]
    rfl

end Find

/-!
# Claiming tasks

A claim looks at the status of a task and at what blocks it; the search for an available task
looks at the owner as well, which a task keeps when it is set back to pending. Where these
agree, the search offers a task exactly when one can be claimed.
-/

/-- The search finds a task exactly when some task could be claimed, and finds one that any
agent could claim. -/
structure Offers (l : TaskList) : Prop where
  finds : (∃ c t, scTaskListNextAvailable l c = .ok t) ↔
    ∃ taskId agentId now, (scTaskListClaim l taskId agentId now).1 = .ok ()
  claimable : ∀ c t, scTaskListNextAvailable l c = .ok t →
    ∀ agentId now, (scTaskListClaim l t.id agentId now).1 = .ok ()

/-- Between two successful claims of a task it was set back to pending, from another status. -/
def Reopened (l : TaskList) (ops : List TaskOp) : Prop :=
  ∀ before taskId agentId now between agentId' now' after s s',
    ops = before ++ .claim taskId agentId now :: between ++
      .claim taskId agentId' now' :: after →
    Machine.run taskStep l before = some s →
    (scTaskListClaim s taskId agentId now).1 = .ok () →
    Machine.run taskStep l (before ++ .claim taskId agentId now :: between) = some s' →
    (scTaskListClaim s' taskId agentId' now').1 = .ok () →
    ∃ front time back u t, between = front ++ .updateStatus taskId .pending time :: back ∧
      Machine.run taskStep l (before ++ .claim taskId agentId now :: front) = some u ∧
      findTask u taskId = some t ∧ t.status ≠ .pending

/-- The task that an id finds is pending and not blocked. -/
def Claimable (l : TaskList) (taskId : ℕ) : Prop :=
  ∃ t, findTask l taskId = some t ∧ t.status = .pending ∧ scTaskListIsBlocked l taskId = false

/-- The task is pending, has no owner and is not blocked. -/
def Unowned (l : TaskList) (t : Task) : Prop :=
  t.status = .pending ∧ t.ownerAgentId = 0 ∧ scTaskListIsBlocked l t.id = false

instance (l : TaskList) (t : Task) : Decidable (Unowned l t) :=
  inferInstanceAs (Decidable (_ ∧ _ ∧ _))

/-- Where a task can be claimed, there is one without an owner; and the first such task is not
hidden by an earlier one with its id that is no longer pending. -/
structure Offerable (l : TaskList) : Prop where
  unowned : (∃ taskId, Claimable l taskId) → ∃ t ∈ l.tasks, Unowned l t
  first : ∀ before t after, l.tasks = before ++ t :: after → (∀ u ∈ before, ¬ Unowned l u) →
    Unowned l t → ∃ u, findTask l t.id = some u ∧ u.status = .pending

section State

variable {l : TaskList}

theorem claim_ok_iff {taskId agentId : ℕ} {now : ℤ} :
    (scTaskListClaim l taskId agentId now).1 = .ok () ↔ Claimable l taskId := by
  rw [scTaskListClaim, Claimable]
  cases findTask l taskId with
  | none => simp
  | some t =>
    simp only [Option.some.injEq, exists_eq_left']
    by_cases hpending : t.status = .pending
    · cases hblocked : scTaskListIsBlocked l taskId <;> simp [hpending]
    · simp [hpending]

theorem nextAvailable_eq (c : TaskCopies) : scTaskListNextAvailable l c =
    match l.tasks.find? fun t => Unowned l t with
    | some t => .ok (copyTask c t)
    | none => .error .notFound := rfl

/-- The first task without an owner that is pending and not blocked. -/
theorem find?_unowned {t : Task} : l.tasks.find? (fun t => Unowned l t) = some t ↔
    Unowned l t ∧ ∃ before after, l.tasks = before ++ t :: after ∧
      ∀ u ∈ before, ¬ Unowned l u := by
  rw [List.find?_eq_some_iff_append, decide_eq_true_eq]
  refine and_congr Iff.rfl (exists_congr fun before => exists_congr fun after => ?_)
  refine and_congr Iff.rfl (forall₂_congr fun u _ => ?_)
  rw [Bool.not_eq_true', decide_eq_false_iff_not]

theorem nextAvailable_ok_iff {c : TaskCopies} {t : Task} : scTaskListNextAvailable l c = .ok t ↔
    ∃ u, l.tasks.find? (fun t => Unowned l t) = some u ∧ t = copyTask c u := by
  rw [nextAvailable_eq]
  cases l.tasks.find? (fun t => Unowned l t) with
  | none => simp
  | some u => simp [eq_comm]

/-- The search and the claim agree exactly when the state is offerable. -/
theorem offers_iff : Offers l ↔ Offerable l := by
  have hclaim : (∃ taskId agentId now, (scTaskListClaim l taskId agentId now).1 = .ok ()) ↔
      ∃ taskId, Claimable l taskId := by
    refine exists_congr fun taskId => ⟨?_, fun h => ⟨0, 0, claim_ok_iff.mpr h⟩⟩
    rintro ⟨agentId, now, h⟩
    exact claim_ok_iff.mp h
  constructor
  · intro h
    refine ⟨fun hsome => ?_, fun before t after hsplit hbefore ht => ?_⟩
    · obtain ⟨c, t, hnext⟩ := h.finds.mpr (hclaim.mpr hsome)
      obtain ⟨u, hu, -⟩ := nextAvailable_ok_iff.mp hnext
      exact ⟨u, List.mem_of_find?_eq_some hu, (find?_unowned.mp hu).1⟩
    · have hnext : scTaskListNextAvailable l ⟨true, true, true⟩ =
          .ok (copyTask ⟨true, true, true⟩ t) :=
        nextAvailable_ok_iff.mpr ⟨t, find?_unowned.mpr ⟨ht, before, after, hsplit, hbefore⟩, rfl⟩
      obtain ⟨u, hu, hpending, -⟩ := claim_ok_iff.mp (h.claimable _ _ hnext 0 0)
      exact ⟨u, hu, hpending⟩
  · intro h
    have hoffer : ∀ c t, scTaskListNextAvailable l c = .ok t → Claimable l t.id := by
      intro c t hnext
      obtain ⟨u, hu, rfl⟩ := nextAvailable_ok_iff.mp hnext
      obtain ⟨hunowned, before, after, hsplit, hbefore⟩ := find?_unowned.mp hu
      obtain ⟨v, hv, hpending⟩ := h.first before u after hsplit hbefore hunowned
      exact ⟨v, hv, hpending, hunowned.2.2⟩
    refine ⟨?_, fun c t hnext agentId now => claim_ok_iff.mpr (hoffer c t hnext)⟩
    rw [hclaim]
    constructor
    · rintro ⟨c, t, hnext⟩
      exact ⟨t.id, hoffer c t hnext⟩
    · intro hsome
      obtain ⟨t, ht, hunowned⟩ := h.unowned hsome
      cases hfind : l.tasks.find? fun t => Unowned l t with
      | none =>
        rw [List.find?_eq_none] at hfind
        exact absurd (decide_eq_true hunowned) (hfind t ht)
      | some u =>
        exact ⟨⟨true, true, true⟩, _, nextAvailable_ok_iff.mpr ⟨u, hfind, rfl⟩⟩

/-- What a successful claim leaves: the task in the hands of the agent. -/
theorem findTask_claim {taskId agentId : ℕ} {now : ℤ}
    (h : (scTaskListClaim l taskId agentId now).1 = .ok ()) (d : ℕ) :
    findTask (scTaskListClaim l taskId agentId now).2 d =
      (findTask l d).map fun t => if d = taskId then t.claimBy agentId now else t := by
  obtain ⟨t, ht, hpending, hblocked⟩ := claim_ok_iff.mp h
  rw [← findTask_change l (f := fun t => t.claimBy agentId now) (fun _ => rfl), scTaskListClaim, ht]
  simp [hpending, hblocked]

/-- A claim that fails changes nothing. -/
theorem claim_error {taskId agentId : ℕ} {now : ℤ}
    (h : (scTaskListClaim l taskId agentId now).1 ≠ .ok ()) :
    (scTaskListClaim l taskId agentId now).2 = l := by
  rw [scTaskListClaim] at h ⊢
  cases hfind : findTask l taskId with
  | none => rfl
  | some t =>
    simp only [hfind] at h ⊢
    split_ifs at h ⊢
    · rfl
    · rfl
    · exact absurd rfl h

theorem claim_taken {taskId agentId : ℕ} {now : ℤ}
    (h : (scTaskListClaim l taskId agentId now).1 = .ok ()) :
    ∃ t, findTask (scTaskListClaim l taskId agentId now).2 taskId = some t ∧
      t.status ≠ .pending := by
  obtain ⟨t, ht, -⟩ := claim_ok_iff.mp h
  rw [findTask_claim h, ht, Option.map_some, if_pos rfl]
  exact ⟨_, rfl, by simp [Task.claimBy]⟩

/-- A task that is not pending stays so, unless its status is set to pending. -/
theorem taskStep_taken {s s' : TaskList} {op : TaskOp} {taskId : ℕ} {t : Task}
    (hstep : taskStep s op = some s') (ht : findTask s taskId = some t)
    (hstatus : t.status ≠ .pending) :
    (∃ t', findTask s' taskId = some t' ∧ t'.status ≠ .pending) ∨
      ∃ now, op = .updateStatus taskId .pending now := by
  cases op with
  | add subject description blockedBy copies now =>
    obtain rfl := Option.some.inj hstep
    exact Or.inl ⟨t, findTask_add ht _ _ _ _ _, hstatus⟩
  | claim d agentId now =>
    obtain rfl := Option.some.inj hstep
    refine Or.inl ?_
    by_cases hclaim : (scTaskListClaim s d agentId now).1 = .ok ()
    · rw [findTask_claim hclaim, ht, Option.map_some]
      refine ⟨_, rfl, ?_⟩
      split_ifs
      · simp [Task.claimBy]
      · exact hstatus
    · rw [claim_error hclaim]
      exact ⟨t, ht, hstatus⟩
  | updateStatus d status now =>
    obtain rfl := Option.some.inj hstep
    rw [scTaskListUpdateStatus]
    cases hd : findTask s d with
    | none => exact Or.inl ⟨t, ht, hstatus⟩
    | some u =>
      simp only
      rw [findTask_change s (f := fun t => t.setStatus status now) (fun _ => rfl), ht,
        Option.map_some]
      by_cases heq : taskId = d
      · subst heq
        rw [if_pos rfl]
        by_cases hpending : status = .pending
        · exact Or.inr ⟨now, by rw [hpending]⟩
        · exact Or.inl ⟨_, rfl, hpending⟩
      · rw [if_neg heq]
        exact Or.inl ⟨t, rfl, hstatus⟩

/-- From a task that is not pending to one that is, some step sets its status. -/
theorem exists_reopen {s s' : TaskList} {ops : List TaskOp} {taskId : ℕ} {t : Task}
    (hrun : Machine.run taskStep s ops = some s') (ht : findTask s taskId = some t)
    (hstatus : t.status ≠ .pending) (hclaim : Claimable s' taskId) :
    ∃ front now back u t, ops = front ++ .updateStatus taskId .pending now :: back ∧
      Machine.run taskStep s front = some u ∧ findTask u taskId = some t ∧
      t.status ≠ .pending := by
  induction ops generalizing s t with
  | nil =>
    obtain rfl := Option.some.inj hrun
    obtain ⟨t', ht', hpending, -⟩ := hclaim
    rw [ht, Option.some.injEq] at ht'
    exact absurd (ht' ▸ hpending) hstatus
  | cons op ops ih =>
    obtain ⟨s₁, hstep, hrest⟩ := Option.bind_eq_some_iff.mp hrun
    rcases taskStep_taken hstep ht hstatus with ⟨t', ht', hstatus'⟩ | ⟨now, rfl⟩
    · obtain ⟨front, now, back, u, t'', rfl, hfront, hu, hnot⟩ := ih hrest ht' hstatus'
      refine ⟨op :: front, now, back, u, t'', rfl, ?_, hu, hnot⟩
      rw [Machine.run, hstep, Option.bind_some, hfront]
    · exact ⟨[], now, ops, s, t, rfl, rfl, ht, hstatus⟩

/-- Whatever the run, a task is claimed again only after it was set back to pending. -/
theorem reopened (l : TaskList) (ops : List TaskOp) : Reopened l ops := by
  rintro before taskId agentId now between agentId' now' after s s' - hbefore hclaim hrun hagain
  obtain ⟨t, ht, hstatus⟩ := claim_taken hclaim
  have hstep : ∀ ops, Machine.run taskStep l (before ++ .claim taskId agentId now :: ops) =
      Machine.run taskStep (scTaskListClaim s taskId agentId now).2 ops := by
    intro ops
    rw [Machine.run_append, hbefore]
    rfl
  rw [hstep] at hrun
  obtain ⟨front, time, back, u, t', hsplit, hfront, hu, hnot⟩ :=
    exists_reopen hrun ht hstatus (claim_ok_iff.mp hagain)
  exact ⟨front, time, back, u, t', hsplit, (hstep front).trans hfront, hu, hnot⟩

end State

/-! ## Runs -/

/-- In every run the search agrees with the claims in every state, and a task is claimed again
only after it was set back to pending, if and only if every state is offerable. -/
theorem task_claims_iff (l : TaskList) (ops : List TaskOp) :
    (Machine.Throughout taskStep Offers l ops ∧ Reopened l ops) ↔
      Machine.Throughout taskStep Offerable l ops := by
  constructor
  · rintro ⟨h, -⟩
    exact h.mono fun _ hs => offers_iff.mp hs
  · intro h
    exact ⟨h.mono fun _ hs => offers_iff.mpr hs, reopened l ops⟩

/-- A task that agent 7 claimed and that is set back to pending could be claimed, but is not
offered. -/
theorem task_not_offered : ¬ Machine.Throughout taskStep Offers ⟨[], 1, Nat.zero_le _, 1⟩
    [.add (some (.ofBytes (ascii "a"))) none [] ⟨true, true, true⟩ 0, .claim 1 7 0,
      .updateStatus 1 .pending 0] := by
  intro h
  obtain ⟨l, hl, hoffers⟩ := h.run
  have hstate : (Machine.run taskStep ⟨[], 1, Nat.zero_le _, 1⟩
      [.add (some (.ofBytes (ascii "a"))) none [] ⟨true, true, true⟩ 0, .claim 1 7 0,
        .updateStatus 1 .pending 0]).map (fun l =>
          (decide (Except.isOk (scTaskListClaim l 1 0 0).1 = true),
            l.tasks.any fun t => Unowned l t)) = some (true, false) := by decide
  rw [hl, Option.map_some, Option.some.injEq, Prod.mk.injEq, decide_eq_true_eq,
    List.any_eq_false] at hstate
  have hclaim : (scTaskListClaim l 1 0 0).1 = .ok () := by
    cases hr : (scTaskListClaim l 1 0 0).1 with
    | ok _ => rfl
    | error e =>
      rw [hr] at hstate
      exact absurd hstate.1 (by simp [Except.isOk, Except.toBool])
  obtain ⟨c, t, hnext⟩ := hoffers.finds.mpr ⟨1, 0, 0, hclaim⟩
  obtain ⟨u, hu, -⟩ := nextAvailable_ok_iff.mp hnext
  exact hstate.2 u (List.mem_of_find?_eq_some hu) (decide_eq_true (find?_unowned.mp hu).1)

end SeaClaw.Agent
