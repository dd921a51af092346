import SeaClaw.Core.Error
import SeaClaw.Lib.CString
import SeaClaw.Lib.Machine

/-!
# Subagents

Each task runs in a thread of its own. A task has its slot from the call that spawns it on: the
slots are taken in order, and none is ever given back. The threads and the callers take turns in
any order.
-/

namespace SeaClaw.Agent

open SeaClaw.Lib

/-- `SC_MAX_TASKS` -/
def subagentMaxTasks : ℕ := 64

/-- `sc_task_status_t` -/
inductive SubagentStatus where
  | running | completed | failed
  deriving DecidableEq

/-- How far the thread of a task is. -/
inductive ThreadPlace where
  /-- It has not looked at `cancelled` yet. -/
  | starting
  /-- It found itself cancelled. -/
  | stopping
  /-- It runs the agent. -/
  | working
  /-- It has a result and waits for the lock. -/
  | answered (result : CString)
  | ended
  deriving DecidableEq

/-- `sc_task_state_t` of a slot in use, and how far its thread is. -/
structure SubagentTask where
  status : SubagentStatus
  taskId : ℕ
  label : Option CString
  task : CString
  result : Option CString
  errorMsg : Option CString
  startedAt : ℤ
  completedAt : ℤ
  threadValid : Bool
  cancelled : Bool
  place : ThreadPlace
  deriving DecidableEq

/-- `struct sc_subagent_manager`, with the slots in use. -/
structure SubagentManager where
  tasks : List SubagentTask
  nextId : ℕ
  maxConcurrent : ℕ
  count_le : tasks.length ≤ subagentMaxTasks

/-- `get_max_concurrent` -/
def getMaxConcurrent (cfg : Option ℕ) : ℕ :=
  match cfg with
  | some n => if n > 0 then n else 4
  | none => 4

/-- `sc_subagent_create` -/
def scSubagentCreate (cfg : Option ℕ) : SubagentManager :=
  ⟨[], 1, getMaxConcurrent cfg, Nat.zero_le _⟩

/-- `running_count_locked` -/
def runningCount (mgr : SubagentManager) : ℕ := mgr.tasks.countP fun t => t.status = .running

/-- What a spawn is given: memory for its copies and for the context of the thread, and the
thread. -/
structure SpawnAnswers where
  task : Bool
  label : Bool
  ctx : Bool
  thread : Bool

/-- A task as it is spawned. -/
def spawnedTask (a : SpawnAnswers) (taskId : ℕ) (text : Bytes) (label : Option CString) (now : ℤ) :
    SubagentTask where
  status := .running
  taskId := taskId
  label := if a.label then label else none
  task := .ofBytes text
  result := none
  errorMsg := none
  startedAt := now
  completedAt := 0
  threadValid := true
  cancelled := false
  place := .starting

theorem length_spawned_le {tasks : List SubagentTask} (h : ¬ tasks.length ≥ subagentMaxTasks)
    (t : SubagentTask) : (tasks ++ [t]).length ≤ subagentMaxTasks := by
  rw [List.length_append, List.length_singleton]
  exact Nat.lt_of_not_le h

/-- `sc_subagent_spawn` of the octets at `task`: the id of the new task. -/
def scSubagentSpawn (mgr : SubagentManager) (a : SpawnAnswers) (task : Option Bytes)
    (label : Option CString) (now : ℤ) : Except ScError ℕ × SubagentManager :=
  if runningCount mgr ≥ mgr.maxConcurrent then (.error .subagentTooMany, mgr)
  else if h : mgr.tasks.length ≥ subagentMaxTasks then (.error .outOfMemory, mgr)
  else
    let taskId := mgr.nextId
    let mgr' := { mgr with nextId := (mgr.nextId + 1) % 2 ^ 64 }
    match task with
    | none => (.error .outOfMemory, mgr')
    | some text =>
      if a.task = false then (.error .outOfMemory, mgr')
      else if a.ctx = false then (.error .outOfMemory, mgr')
      else if a.thread = false then (.error .internal, mgr')
      else
        let t := spawnedTask a taskId text label now
        (.ok taskId, { mgr' with tasks := mgr.tasks ++ [t], count_le := length_spawned_le h t })

/-- A task changed in its slot. -/
def SubagentManager.modify (mgr : SubagentManager) (slot : ℕ) (f : SubagentTask → SubagentTask) :
    SubagentManager :=
  { mgr with
    tasks := mgr.tasks.modify slot f
    count_le := (List.length_modify f mgr.tasks slot).trans_le mgr.count_le }

/-- The slot that `find_task_by_id` finds. -/
def findTaskById (mgr : SubagentManager) (taskId : ℕ) : Option ℕ :=
  mgr.tasks.findIdx? fun t => t.taskId = taskId

/-- `sc_subagent_cancel` -/
def scSubagentCancel (mgr : SubagentManager) (taskId : ℕ) : Except ScError Unit × SubagentManager :=
  match findTaskById mgr taskId with
  | none => (.error .notFound, mgr)
  | some slot => (.ok (), mgr.modify slot fun t => { t with cancelled := true })

/-! ## The thread of a task -/

/-- What comes of running the agent: it is not run, it leaves no text, or some text. -/
inductive AgentAnswer where
  | notRun
  | silent
  | text (s : Bytes)

/-- The thread looks at `cancelled` when it starts. -/
def SubagentTask.check (t : SubagentTask) : SubagentTask :=
  match t.place with
  | .starting => { t with place := if t.cancelled then .stopping else .working }
  | _ => t

/-- The agent is done, and the thread has a result. -/
def SubagentTask.respond (answer : AgentAnswer) (t : SubagentTask) : SubagentTask :=
  match t.place with
  | .working =>
    let result :=
      match answer with
      | .notRun => t.task
      | .silent => if t.cancelled then .ofBytes (ascii "cancelled") else t.task
      | .text s => .ofBytes s
    { t with place := .answered result }
  | _ => t

/-- What the thread stores under the lock before it ends. -/
def SubagentTask.complete (now : ℤ) (t : SubagentTask) : SubagentTask :=
  match t.place with
  | .stopping =>
    { t with
      status := .failed
      errorMsg := some (.ofBytes (ascii "cancelled"))
      completedAt := now
      threadValid := false
      place := .ended }
  | .answered result =>
    { t with
      status := if t.cancelled then .failed else .completed
      result := some result
      errorMsg :=
        if t.cancelled ∧ t.errorMsg = none then some (.ofBytes (ascii "cancelled")) else t.errorMsg
      completedAt := now
      threadValid := false
      place := .ended }
  | _ => t

/-! ## Runs -/

/-- The manager, the ids that its spawns returned, and those of the tasks that were running when
they were cancelled. -/
structure SubagentRun where
  mgr : SubagentManager
  issued : List ℕ
  hit : List ℕ

/-- What callers and threads do. -/
inductive SubagentOp where
  | spawn (task : Option Bytes) (label : Option CString) (now : ℤ)
  | cancel (taskId : ℕ)
  | check (slot : ℕ)
  | respond (slot : ℕ) (answer : AgentAnswer)
  | complete (slot : ℕ) (now : ℤ)

/-- The task with an id is running. -/
def IsRunning (mgr : SubagentManager) (taskId : ℕ) : Prop :=
  ∃ t ∈ mgr.tasks, t.taskId = taskId ∧ t.status = .running

instance (mgr : SubagentManager) (taskId : ℕ) : Decidable (IsRunning mgr taskId) :=
  inferInstanceAs (Decidable (∃ t ∈ mgr.tasks, _))

/-- One step, where memory and threads are found. A thread that is not so far does nothing. -/
def subagentStep (s : SubagentRun) : SubagentOp → Option SubagentRun
  | .spawn task label now =>
    match scSubagentSpawn s.mgr ⟨true, true, true, true⟩ task label now with
    | (.ok taskId, mgr) => some { s with mgr, issued := s.issued ++ [taskId] }
    | (.error _, mgr) => some { s with mgr }
  | .cancel taskId =>
    some { s with
      mgr := (scSubagentCancel s.mgr taskId).2
      hit := if IsRunning s.mgr taskId then s.hit ++ [taskId] else s.hit }
  | .check slot => some { s with mgr := s.mgr.modify slot .check }
  | .respond slot answer => some { s with mgr := s.mgr.modify slot (.respond answer) }
  | .complete slot now => some { s with mgr := s.mgr.modify slot (.complete now) }

/-- A manager as it is created. -/
def SubagentRun.start (cfg : Option ℕ) : SubagentRun := ⟨scSubagentCreate cfg, [], []⟩

/-!
# How many subagents can be spawned

Ids, the number of running tasks and the way a task ends are as they should be in every run. A
slot is never given back though: when all have been used, no task is spawned any more, even if
none is running.
-/

/-! ## What should hold -/

/-- Ids are distinct, not too many tasks are running, and a task that ended failed exactly if it
was cancelled while it was running. -/
structure SubagentGood (s : SubagentRun) : Prop where
  issued : s.mgr.tasks.map SubagentTask.taskId = s.issued
  distinct : s.issued.Nodup
  running : runningCount s.mgr ≤ s.mgr.maxConcurrent
  ended : ∀ t ∈ s.mgr.tasks, t.status ≠ .running → (t.status = .failed ↔ t.taskId ∈ s.hit)

/-- As many tasks are running as may be at all. -/
def AtLimit (s : SubagentRun) : Prop :=
  min s.mgr.maxConcurrent subagentMaxTasks ≤ runningCount s.mgr

instance (s : SubagentRun) : Decidable (AtLimit s) := inferInstanceAs (Decidable (_ ≤ _))

/-- A call that spawns is refused only at the limit. -/
def RefusedAtLimit (s : SubagentRun) : SubagentOp → Prop
  | .spawn task label now =>
    (scSubagentSpawn s.mgr ⟨true, true, true, true⟩ task label now).1.isOk = false → AtLimit s
  | _ => True

instance (s : SubagentRun) : ∀ op, Decidable (RefusedAtLimit s op)
  | .spawn _ _ _ => inferInstanceAs (Decidable (_ → _))
  | .cancel _ => inferInstanceAs (Decidable True)
  | .check _ => inferInstanceAs (Decidable True)
  | .respond _ _ => inferInstanceAs (Decidable True)
  | .complete _ _ => inferInstanceAs (Decidable True)

/-- A call that spawns below the limit has a text, and fewer than `SC_MAX_TASKS` tasks were
spawned before. -/
def HasSlot (s : SubagentRun) : SubagentOp → Prop
  | .spawn task _ _ => AtLimit s ∨ (task ≠ none ∧ s.issued.length < subagentMaxTasks)
  | _ => True

/-! ## One task -/

/-- The status of a task, how far its thread is, and whether it was hit fit together. -/
structure Sound (hit : List ℕ) (t : SubagentTask) : Prop where
  place : t.status = .running ↔ t.place ≠ .ended
  stopping : t.place = .stopping → t.cancelled = true
  cancelled : t.status = .running → (t.cancelled = true ↔ t.taskId ∈ hit)
  ended : t.status ≠ .running → (t.status = .failed ↔ t.taskId ∈ hit)

section Task

variable {hit : List ℕ} {t : SubagentTask}

theorem Sound.check (h : Sound hit t) : Sound hit t.check := by
  rw [SubagentTask.check]
  split
  next hplace =>
    have hrunning : t.status = .running := h.place.mpr (by rw [hplace]; simp)
    refine ⟨?_, ?_, h.cancelled, h.ended⟩
    · split_ifs <;> simp [hrunning]
    · split_ifs with hcancelled
      · exact fun _ => hcancelled
      · simp
  next => exact h

theorem Sound.respond (h : Sound hit t) (answer : AgentAnswer) : Sound hit (t.respond answer) := by
  unfold SubagentTask.respond
  split
  next hplace =>
    have hrunning : t.status = .running := h.place.mpr (by rw [hplace]; simp)
    exact ⟨by simp [hrunning], by simp, h.cancelled, h.ended⟩
  next => exact h

/-- A task that ends keeps what was decided about it while it was running. -/
theorem Sound.complete (h : Sound hit t) (now : ℤ) : Sound hit (t.complete now) := by
  unfold SubagentTask.complete
  split
  next hplace =>
    have hrunning : t.status = .running := h.place.mpr (by rw [hplace]; simp)
    have hmem : t.taskId ∈ hit := (h.cancelled hrunning).mp (h.stopping hplace)
    exact ⟨by simp, by simp, by simp, by simp [hmem]⟩
  next result hplace =>
    have hrunning : t.status = .running := h.place.mpr (by rw [hplace]; simp)
    have hmem := h.cancelled hrunning
    cases hcancelled : t.cancelled with
    | true =>
      rw [hcancelled] at hmem
      exact ⟨by simp, by simp, by simp, by simp [hmem.mp rfl]⟩
    | false =>
      rw [hcancelled] at hmem
      have hnot : t.taskId ∉ hit := fun hin => absurd (hmem.mpr hin) (by simp)
      exact ⟨by simp, by simp, by simp, by simp [hnot]⟩
  next => exact h

/-- A task is cancelled: it is hit if it is running. -/
theorem Sound.cancel (h : Sound hit t) :
    Sound (if t.status = .running then hit ++ [t.taskId] else hit) { t with cancelled := true } := by
  refine ⟨h.place, fun _ => rfl, fun hrunning => ?_, fun hended => ?_⟩
  · have hrunning' : t.status = .running := hrunning
    simp [hrunning']
  · have hended' : t.status ≠ .running := hended
    rw [if_neg hended']
    exact h.ended hended'

/-- Another task may be hit. -/
theorem Sound.other (h : Sound hit t) {taskId : ℕ} (hne : t.taskId ≠ taskId) :
    Sound (hit ++ [taskId]) t := by
  have hmem : t.taskId ∈ hit ++ [taskId] ↔ t.taskId ∈ hit := by simp [hne]
  exact ⟨h.place, h.stopping, by rw [hmem]; exact h.cancelled, by rw [hmem]; exact h.ended⟩

end Task

/-! ## The invariant -/

/-- Tasks have the numbers of their slots as ids, and each of them is sound. -/
structure SubagentInv (s : SubagentRun) : Prop where
  issued : s.mgr.tasks.map SubagentTask.taskId = s.issued
  ids : s.issued = List.range' 1 s.mgr.tasks.length
  nextId : s.mgr.nextId = s.mgr.tasks.length + 1
  running : runningCount s.mgr ≤ s.mgr.maxConcurrent
  sound : ∀ t ∈ s.mgr.tasks, Sound s.hit t
  hit : ∀ taskId ∈ s.hit, taskId ∈ s.issued

theorem SubagentInv.good {s : SubagentRun} (h : SubagentInv s) : SubagentGood s where
  issued := h.issued
  distinct := by
    rw [h.ids]
    exact List.nodup_range'
  running := h.running
  ended t ht := (h.sound t ht).ended

theorem SubagentInv.start (cfg : Option ℕ) : SubagentInv (SubagentRun.start cfg) where
  issued := rfl
  ids := rfl
  nextId := rfl
  running := Nat.zero_le _
  sound _ ht := nomatch ht
  hit _ ht := nomatch ht

/-! ## Steps -/

/-- What is in a list with one element changed. -/
theorem mem_modify {A : Type} {l : List A} {i : ℕ} {f : A → A} {b : A} (h : b ∈ l.modify i f) :
    ∃ j a, l[j]? = some a ∧ (j = i ∧ b = f a ∨ j ≠ i ∧ b = a) := by
  obtain ⟨j, hj⟩ := List.mem_iff_getElem?.mp h
  by_cases hji : j = i
  · subst hji
    rw [List.getElem?_modify_eq] at hj
    obtain ⟨a, ha, rfl⟩ := Option.map_eq_some_iff.mp hj
    exact ⟨j, a, ha, Or.inl ⟨rfl, rfl⟩⟩
  · rw [List.getElem?_modify_ne f l (Ne.symm hji)] at hj
    exact ⟨j, b, hj, Or.inr ⟨hji, rfl⟩⟩

theorem countP_modify_le {A : Type} {p : A → Bool} {f : A → A} (h : ∀ a, p (f a) = true → p a = true)
    (l : List A) (i : ℕ) : (l.modify i f).countP p ≤ l.countP p := by
  induction l generalizing i with
  | nil => rw [List.modify_nil]
  | cons a l ih =>
    cases i with
    | zero =>
      rw [List.modify_zero_cons, List.countP_cons, List.countP_cons]
      have ha := h a
      split_ifs with hf hp
      · exact le_rfl
      · exact absurd (ha hf) hp
      · exact Nat.le_succ _
      · exact le_rfl
    | succ i =>
      rw [List.modify_succ_cons, List.countP_cons, List.countP_cons]
      exact Nat.add_le_add_right (ih i) _

theorem map_modify_of_eq {A B : Type} {g : A → B} {f : A → A} (h : ∀ a, g (f a) = g a) (l : List A)
    (i : ℕ) : (l.modify i f).map g = l.map g := by
  induction l generalizing i with
  | nil => rw [List.modify_nil]
  | cons a l ih =>
    cases i with
    | zero => rw [List.modify_zero_cons, List.map_cons, List.map_cons, h]
    | succ i => rw [List.modify_succ_cons, List.map_cons, List.map_cons, ih]

section Step

variable {s s' : SubagentRun}

/-- The id of a task is the number of its slot, counted from one. -/
theorem SubagentInv.taskId (h : SubagentInv s) {j : ℕ} {t : SubagentTask}
    (ht : s.mgr.tasks[j]? = some t) : t.taskId = j + 1 := by
  have hid := congrArg (·[j]?) (h.issued.trans h.ids)
  have hlt : j < s.mgr.tasks.length := (List.getElem?_eq_some_iff.mp ht).1
  simp only [List.getElem?_map, ht, Option.map_some, List.getElem?_range' hlt, one_mul,
    Option.some.injEq] at hid
  omega

theorem SubagentInv.length_issued (h : SubagentInv s) :
    s.issued.length = s.mgr.tasks.length := by
  rw [← h.issued, List.length_map]

/-- A change to one task that respects ids keeps the invariant if all tasks are sound after it. -/
theorem SubagentInv.change (h : SubagentInv s) (slot : ℕ) {f : SubagentTask → SubagentTask}
    {hit : List ℕ} (hid : ∀ t, (f t).taskId = t.taskId)
    (hrun : ∀ t, (f t).status = .running → t.status = .running)
    (hsound : ∀ t ∈ (s.mgr.modify slot f).tasks, Sound hit t)
    (hhit : ∀ taskId ∈ hit, taskId ∈ s.issued) :
    SubagentInv { s with mgr := s.mgr.modify slot f, hit := hit } where
  issued := (map_modify_of_eq hid s.mgr.tasks slot).trans h.issued
  ids := by
    have hlen : (s.mgr.modify slot f).tasks.length = s.mgr.tasks.length :=
      List.length_modify f s.mgr.tasks slot
    simp only [hlen, h.ids]
  nextId := by
    have hlen : (s.mgr.modify slot f).tasks.length = s.mgr.tasks.length :=
      List.length_modify f s.mgr.tasks slot
    rw [hlen, ← h.nextId]
    rfl
  running := by
    refine le_trans ?_ h.running
    refine countP_modify_le (fun t ht => ?_) s.mgr.tasks slot
    rw [decide_eq_true_eq] at ht ⊢
    exact hrun t ht
  sound := hsound
  hit := hhit

/-- A step of the thread of a task. -/
theorem SubagentInv.thread (h : SubagentInv s) (slot : ℕ) {f : SubagentTask → SubagentTask}
    (hid : ∀ t, (f t).taskId = t.taskId)
    (hrun : ∀ t, (f t).status = .running → t.status = .running)
    (hsound : ∀ t, Sound s.hit t → Sound s.hit (f t)) :
    SubagentInv { s with mgr := s.mgr.modify slot f } := by
  refine h.change slot hid hrun (fun t ht => ?_) h.hit
  obtain ⟨j, u, hu, ⟨-, rfl⟩ | ⟨-, rfl⟩⟩ := mem_modify ht
  · exact hsound u (h.sound u (List.mem_of_getElem? hu))
  · exact h.sound _ (List.mem_of_getElem? hu)

theorem check_taskId (t : SubagentTask) : t.check.taskId = t.taskId := by
  unfold SubagentTask.check
  split <;> rfl

theorem check_status (t : SubagentTask) : t.check.status = t.status := by
  unfold SubagentTask.check
  split <;> rfl

theorem respond_taskId (answer : AgentAnswer) (t : SubagentTask) :
    (t.respond answer).taskId = t.taskId := by
  unfold SubagentTask.respond
  split <;> rfl

theorem respond_status (answer : AgentAnswer) (t : SubagentTask) :
    (t.respond answer).status = t.status := by
  unfold SubagentTask.respond
  split <;> rfl

theorem complete_taskId (now : ℤ) (t : SubagentTask) : (t.complete now).taskId = t.taskId := by
  unfold SubagentTask.complete
  split <;> rfl

theorem complete_status {now : ℤ} {t : SubagentTask} (h : (t.complete now).status = .running) :
    t.status = .running := by
  revert h
  unfold SubagentTask.complete
  split
  · simp
  · simp only
    split_ifs <;> simp
  · exact id

/-- A task that is cancelled was found, and it alone has the id. -/
theorem SubagentInv.cancel (h : SubagentInv s) (taskId : ℕ) :
    SubagentInv { s with
      mgr := (scSubagentCancel s.mgr taskId).2
      hit := if IsRunning s.mgr taskId then s.hit ++ [taskId] else s.hit } := by
  cases hfind : findTaskById s.mgr taskId with
  | none =>
    have hnone : ¬ IsRunning s.mgr taskId := by
      rintro ⟨t, ht, hid, -⟩
      have hall := List.findIdx?_eq_none_iff.mp hfind t ht
      simp only [hid, decide_true] at hall
      exact absurd hall (by simp)
    simp only [scSubagentCancel, hfind, if_neg hnone]
    exact h
  | some slot =>
    obtain ⟨hlt, hid, -⟩ := List.findIdx?_eq_some_iff_getElem.mp hfind
    obtain ⟨t, ht⟩ : ∃ t, s.mgr.tasks[slot]? = some t := ⟨_, List.getElem?_eq_getElem hlt⟩
    rw [(List.getElem?_eq_some_iff.mp ht).2, decide_eq_true_eq] at hid
    have hrunning : IsRunning s.mgr taskId ↔ t.status = .running := by
      constructor
      · rintro ⟨u, hu, huid, hstatus⟩
        obtain ⟨j, hj⟩ := List.mem_iff_getElem?.mp hu
        have hslot : j = slot := by
          have hleft := h.taskId hj
          have hright := h.taskId ht
          omega
        rw [hslot, ht, Option.some.injEq] at hj
        rw [hj]
        exact hstatus
      · intro hstatus
        exact ⟨t, List.mem_of_getElem? ht, hid, hstatus⟩
    have hissued : taskId ∈ s.issued := by
      rw [← h.issued, ← hid]
      exact List.mem_map_of_mem (List.mem_of_getElem? ht)
    simp only [scSubagentCancel, hfind, hrunning]
    refine h.change slot (fun _ => rfl) (fun _ hu => hu) (fun u hu => ?_) (fun d hd => ?_)
    · obtain ⟨j, v, hv, ⟨rfl, rfl⟩ | ⟨hne, rfl⟩⟩ := mem_modify hu
      · rw [ht, Option.some.injEq] at hv
        subst hv
        subst hid
        exact (h.sound t (List.mem_of_getElem? ht)).cancel
      · have hother := h.sound _ (List.mem_of_getElem? hv)
        have hdistinct : u.taskId ≠ taskId := by
          have hleft := h.taskId hv
          have hright := h.taskId ht
          omega
        split_ifs
        · exact hother.other hdistinct
        · exact hother
    · split_ifs at hd with hstatus
      · rcases List.mem_append.mp hd with hd | hd
        · exact h.hit d hd
        · rwa [List.mem_singleton.mp hd]
      · exact h.hit d hd

/-- Below the number of slots, a text is spawned. -/
theorem scSubagentSpawn_ok {mgr : SubagentManager} {text : Bytes} (label : Option CString) (now : ℤ)
    (hrunning : runningCount mgr < mgr.maxConcurrent)
    (hslot : mgr.tasks.length < subagentMaxTasks) :
    ∃ mgr' : SubagentManager,
      scSubagentSpawn mgr ⟨true, true, true, true⟩ (some text) label now =
        (.ok mgr.nextId, mgr') ∧
      mgr'.tasks =
        mgr.tasks ++ [spawnedTask ⟨true, true, true, true⟩ mgr.nextId text label now] ∧
      mgr'.nextId = (mgr.nextId + 1) % 2 ^ 64 ∧ mgr'.maxConcurrent = mgr.maxConcurrent := by
  simp only [scSubagentSpawn, if_neg hrunning.not_ge, dif_neg hslot.not_ge, Bool.true_eq_false,
    if_false]
  exact ⟨_, rfl, rfl, rfl, rfl⟩

/-- At the limit, nothing is spawned. -/
theorem scSubagentSpawn_atLimit {mgr : SubagentManager}
    (h : min mgr.maxConcurrent subagentMaxTasks ≤ runningCount mgr) (task : Option Bytes)
    (label : Option CString) (now : ℤ) :
    ∃ e, scSubagentSpawn mgr ⟨true, true, true, true⟩ task label now = (.error e, mgr) := by
  rw [scSubagentSpawn]
  by_cases hrunning : runningCount mgr ≥ mgr.maxConcurrent
  · rw [if_pos hrunning]
    exact ⟨_, rfl⟩
  · have hcount : runningCount mgr ≤ mgr.tasks.length := List.countP_le_length
    rw [if_neg hrunning, dif_pos (by omega)]
    exact ⟨_, rfl⟩

theorem SubagentInv.spawned (h : SubagentInv s) {mgr : SubagentManager} {text : Bytes}
    {label : Option CString} {now : ℤ} (hrunning : runningCount s.mgr < s.mgr.maxConcurrent)
    (htasks : mgr.tasks = s.mgr.tasks ++
      [spawnedTask ⟨true, true, true, true⟩ s.mgr.nextId text label now])
    (hnext : mgr.nextId = (s.mgr.nextId + 1) % 2 ^ 64)
    (hmax : mgr.maxConcurrent = s.mgr.maxConcurrent) :
    SubagentInv { s with mgr, issued := s.issued ++ [s.mgr.nextId] } where
  issued := by
    simp only [htasks, List.map_append, h.issued]
    rfl
  ids := by
    simp only [htasks, List.length_append, List.length_singleton, List.range'_concat, h.ids,
      h.nextId]
    congr 2
    omega
  nextId := by
    have hle := s.mgr.count_le
    simp only [subagentMaxTasks] at hle
    simp only [hnext, h.nextId, htasks, List.length_append, List.length_singleton]
    exact Nat.mod_eq_of_lt (by omega)
  running := by
    have hcount : runningCount mgr = runningCount s.mgr + 1 := by
      simp only [runningCount, htasks, List.countP_append]
      rfl
    simp only [hcount, hmax]
    exact hrunning
  sound t ht := by
    simp only [htasks] at ht
    rcases List.mem_append.mp ht with ht | ht
    · exact h.sound t ht
    · obtain rfl := List.mem_singleton.mp ht
      have hnew : s.mgr.nextId ∉ s.hit := by
        intro hin
        have hmem := h.hit _ hin
        rw [h.ids, h.nextId, List.mem_range'_1] at hmem
        omega
      exact ⟨by simp [spawnedTask], by simp [spawnedTask], by simp [spawnedTask, hnew],
        by simp [spawnedTask]⟩
  hit taskId ht := List.mem_append_left _ (h.hit taskId ht)

/-- Every step that meets the condition keeps the invariant. -/
theorem SubagentInv.step (h : SubagentInv s) {op : SubagentOp} (hop : HasSlot s op) :
    ∃ s', subagentStep s op = some s' ∧ SubagentInv s' := by
  cases op with
  | spawn task label now =>
    by_cases hlimit : AtLimit s
    · obtain ⟨e, he⟩ := scSubagentSpawn_atLimit hlimit task label now
      simp only [subagentStep, he]
      exact ⟨_, rfl, h⟩
    · obtain ⟨htext, hslot⟩ := hop.resolve_left hlimit
      obtain ⟨text, rfl⟩ := Option.ne_none_iff_exists'.mp htext
      rw [h.length_issued] at hslot
      have hcount : runningCount s.mgr ≤ s.mgr.tasks.length := List.countP_le_length
      rw [AtLimit] at hlimit
      have hrunning : runningCount s.mgr < s.mgr.maxConcurrent := by omega
      obtain ⟨mgr, hspawn, htasks, hnext, hmax⟩ := @scSubagentSpawn_ok s.mgr text label now
        hrunning hslot
      simp only [subagentStep, hspawn]
      exact ⟨_, rfl, h.spawned hrunning htasks hnext hmax⟩
  | cancel taskId => exact ⟨_, rfl, h.cancel taskId⟩
  | check slot =>
    refine ⟨_, rfl, h.thread slot check_taskId (fun t ht => ?_) fun t ht => ht.check⟩
    rwa [← check_status]
  | respond slot answer =>
    refine ⟨_, rfl, h.thread slot (respond_taskId answer) (fun t ht => ?_)
      fun t ht => ht.respond answer⟩
    rwa [← respond_status answer]
  | complete slot now =>
    exact ⟨_, rfl, h.thread slot (complete_taskId now) (fun t ht => complete_status ht)
      fun t ht => ht.complete now⟩

/-- A call is refused at the limit alone exactly if it has a text and a slot below it. -/
theorem SubagentInv.refusedAtLimit_iff (h : SubagentInv s) (op : SubagentOp) :
    RefusedAtLimit s op ↔ HasSlot s op := by
  cases op with
  | spawn task label now =>
    by_cases hlimit : AtLimit s
    · exact iff_of_true (fun _ => hlimit) (Or.inl hlimit)
    · have hcount : runningCount s.mgr ≤ s.mgr.tasks.length := List.countP_le_length
      have hbelow := hlimit
      rw [AtLimit] at hbelow
      rw [RefusedAtLimit, HasSlot, or_iff_right hlimit, h.length_issued]
      constructor
      · intro hrefused
        have hok : (scSubagentSpawn s.mgr ⟨true, true, true, true⟩ task label now).1.isOk = true := by
          by_contra hnot
          exact hlimit (hrefused (by simpa using hnot))
        rw [scSubagentSpawn, if_neg (by omega)] at hok
        split at hok
        · exact absurd hok (by simp [Except.isOk, Except.toBool])
        next hslot =>
          cases task with
          | none => exact absurd hok (by simp [Except.isOk, Except.toBool])
          | some text => exact ⟨by simp, by omega⟩
      · rintro ⟨htext, hslot⟩ hrefused
        obtain ⟨text, rfl⟩ := Option.ne_none_iff_exists'.mp htext
        obtain ⟨mgr, hspawn, -⟩ := @scSubagentSpawn_ok s.mgr text label now (by omega) hslot
        rw [hspawn] at hrefused
        cases hrefused
  | cancel taskId => exact Iff.rfl
  | check slot => exact Iff.rfl
  | respond slot answer => exact Iff.rfl
  | complete slot now => exact Iff.rfl

end Step

/-- In every run ids are distinct, at most the allowed number of tasks runs, tasks end as they
should, and calls are refused at the limit alone, exactly if each call below the limit has a text
and comes before all slots have been used. -/
theorem subagent_slots_iff (cfg : Option ℕ) (ops : List SubagentOp) :
    (Machine.Throughout subagentStep SubagentGood (.start cfg) ops ∧
        Machine.EveryStep subagentStep RefusedAtLimit (.start cfg) ops) ↔
      Machine.EveryStep subagentStep HasSlot (.start cfg) ops := by
  have hstep : ∀ s op, SubagentInv s → HasSlot s op →
      ∃ s', subagentStep s op = some s' ∧ SubagentInv s' := fun s op h hop => h.step hop
  have hkeep : ∀ s op s', SubagentInv s → HasSlot s op → subagentStep s op = some s' →
      SubagentInv s' := by
    intro s op s' h hop hs'
    obtain ⟨t, ht, hinv⟩ := hstep s op h hop
    rw [hs', Option.some.injEq] at ht
    rwa [ht]
  rw [Machine.everyStep_congr_along hkeep (fun s op h => h.refusedAtLimit_iff op)
    (SubagentInv.start cfg) ops]
  constructor
  · rintro ⟨-, hslots⟩
    exact hslots
  · intro hslots
    refine ⟨?_, hslots⟩
    exact (hslots.throughout hstep (SubagentInv.start cfg)).mono fun s h => h.good

/-- A task that is spawned into a slot and runs to its end. -/
def wholeTask (slot : ℕ) : List SubagentOp :=
  [.spawn (some (ascii "a")) none 0, .check slot, .respond slot .notRun, .complete slot 0]

/-- One task after the other, sixty-four of them: the next one is refused while none is running. -/
theorem subagent_slots_exhausted :
    ¬ (Machine.Throughout subagentStep SubagentGood (.start none)
          ((List.range 64).flatMap wholeTask ++ [.spawn (some (ascii "a")) none 0]) ∧
        Machine.EveryStep subagentStep RefusedAtLimit (.start none)
          ((List.range 64).flatMap wholeTask ++ [.spawn (some (ascii "a")) none 0])) := by
  rintro ⟨-, h⟩
  revert h
  decide +kernel

end SeaClaw.Agent
