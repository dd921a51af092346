import SeaClaw.Agent.Dag
import SeaClaw.Agent.DagValidate
import SeaClaw.Lib.DepSchedule
import SeaClaw.Lib.Machine

/-!
# Runs of a task graph

A round asks for a batch and marks each of its nodes as done or failed. The rounds of an
accepted graph are rounds of a scheduler by dependencies.
-/

namespace SeaClaw.Agent

open SeaClaw.Lib SeaClaw.Lib.DepSchedule Relation

/-! ## What a change of status leaves alone -/

/-- The names and the dependencies. -/
def Dag.skeleton (dag : Dag) : List (CString × List CString) :=
  dag.nodes.map fun n => (n.id, n.deps)

section Skeleton

variable {dag dag' : Dag}

theorem Dag.length_of_skeleton (h : dag.skeleton = dag'.skeleton) :
    dag.nodes.length = dag'.nodes.length := by
  simpa [Dag.skeleton] using congrArg List.length h

theorem findNode_of_skeleton (h : dag.skeleton = dag'.skeleton) (id : Bytes) :
    scDagFindNode dag id = scDagFindNode dag' id := by
  have hmap : ∀ d : Dag, scDagFindNode d id = d.skeleton.findIdx? fun p => p.1.octets = id := by
    intro d
    rw [Dag.skeleton, List.findIdx?_map]
    rfl
  rw [hmap, hmap, h]

theorem depsAt_of_skeleton (h : dag.skeleton = dag'.skeleton) (i : ℕ) :
    dag.depsAt i = dag'.depsAt i := by
  have hget : ∀ d : Dag, d.depsAt i = (d.skeleton[i]?.map Prod.snd).getD [] := by
    intro d
    rw [Dag.depsAt, Dag.skeleton, List.getElem?_map]
    cases d.nodes[i]? <;> rfl
  rw [hget, hget, h]

theorem needs_of_skeleton (h : dag.skeleton = dag'.skeleton) : dag.Needs = dag'.Needs := by
  funext i j
  simp only [Dag.Needs, depsAt_of_skeleton h, findNode_of_skeleton h]

theorem mem_depsAt {n : DagNode} {i : ℕ} (h : dag.nodes[i]? = some n) : dag.depsAt i = n.deps := by
  rw [Dag.depsAt, h]

/-- Validity by places. -/
theorem Dag.Valid.found_at (h : dag.Valid) {i : ℕ} {d : CString} (hd : d ∈ dag.depsAt i) :
    ∃ j, scDagFindNode dag d.octets = some j := by
  cases hn : dag.nodes[i]? with
  | none =>
    rw [Dag.depsAt, hn] at hd
    exact absurd hd (by simp)
  | some n =>
    rw [mem_depsAt hn] at hd
    exact h.found n (List.mem_of_getElem? hn) d hd

theorem Dag.skeleton_setStatus (idx : ℕ) (status : DagStatus) :
    (dag.setStatus idx status).skeleton = dag.skeleton := by
  apply List.ext_getElem?
  intro i
  simp only [Dag.skeleton, Dag.setStatus, List.getElem?_map, List.getElem?_modify]
  cases dag.nodes[i]? with
  | none => rfl
  | some n => by_cases hi : idx = i <;> simp [hi]

theorem statusAt_setStatus (idx i : ℕ) (status : DagStatus) :
    (dag.setStatus idx status).statusAt i =
      (dag.statusAt i).map fun old => if i = idx then status else old := by
  simp only [Dag.statusAt, Dag.setStatus, List.getElem?_modify, Option.map_map]
  cases dag.nodes[i]? with
  | none => rfl
  | some n => by_cases hi : idx = i <;> simp [hi, eq_comm]

end Skeleton

/-! ## The batch -/

/-- The node is pending and all its dependencies are done. -/
def Startable (dag : Dag) (i : ℕ) : Prop :=
  dag.statusAt i = some .pending ∧ (dag.depsAt i).all (depDone dag) = true

instance (dag : Dag) (i : ℕ) : Decidable (Startable dag i) := inferInstanceAs (Decidable (_ ∧ _))

/-- The first graph with the nodes of a batch made ready. -/
structure Readied (dag dag' : Dag) (batch : List ℕ) : Prop where
  skeleton : dag'.skeleton = dag.skeleton
  status : ∀ i, dag'.statusAt i =
    (dag.statusAt i).map fun old => if i ∈ batch then .ready else old
  pending : ∀ i ∈ batch, dag.statusAt i = some .pending

section Batch

variable {dag dag' : Dag} {batch : List ℕ}

theorem Readied.depDone (h : Readied dag dag' batch) (d : CString) :
    depDone dag' d = depDone dag d := by
  rw [Agent.depDone, Agent.depDone, findNode_of_skeleton h.skeleton]
  cases scDagFindNode dag d.octets with
  | none => rfl
  | some j =>
    simp only [h.status]
    by_cases hj : j ∈ batch
    · simp [hj, h.pending j hj]
    · simp [hj]

theorem Readied.startable (h : Readied dag dag' batch) {i : ℕ} (hi : i ∉ batch) :
    Startable dag' i ↔ Startable dag i := by
  have hall : (dag'.depsAt i).all (Agent.depDone dag') = (dag.depsAt i).all (Agent.depDone dag) := by
    rw [depsAt_of_skeleton h.skeleton]
    congr 1
    funext d
    exact h.depDone d
  rw [Startable, Startable, hall, h.status]
  simp [hi]

theorem Readied.ready (h : Readied dag dag' batch) {i : ℕ} (hi : dag.statusAt i = some .pending) :
    Readied dag (dag'.setStatus i .ready) (batch ++ [i]) := by
  refine ⟨(Dag.skeleton_setStatus _ _).trans h.skeleton, fun j => ?_, fun j hj => ?_⟩
  · rw [statusAt_setStatus, h.status, Option.map_map]
    congr 1
    funext old
    by_cases hj : j = i <;> simp [hj]
  · rw [List.mem_append, List.mem_singleton] at hj
    rcases hj with hj | rfl
    · exact h.pending j hj
    · exact hi

/-- The loop takes what can start of the rest, up to a full batch. -/
theorem batchLoop_spec (is : List ℕ) (h : Readied dag dag' batch) (his : is.Nodup)
    (hdisj : ∀ i ∈ is, i ∉ batch) (hle : batch.length ≤ dagMaxBatchSize) :
    (batchLoop is dag' batch).1 =
      (batch ++ is.filter fun i => Startable dag i).take dagMaxBatchSize ∧
    Readied dag (batchLoop is dag' batch).2 (batchLoop is dag' batch).1 := by
  induction is generalizing dag' batch with
  | nil =>
    rw [batchLoop, List.filter_nil, List.append_nil, List.take_of_length_le hle]
    exact ⟨rfl, h⟩
  | cons i is ih =>
    rw [List.nodup_cons] at his
    rw [List.forall_mem_cons] at hdisj
    rw [batchLoop]
    by_cases hlt : batch.length < dagMaxBatchSize
    swap
    · rw [if_neg hlt]
      have hfull : batch.length = dagMaxBatchSize := by omega
      rw [← hfull, List.take_left']
      · exact ⟨rfl, h⟩
      · rfl
    rw [if_pos hlt]
    have hstart := h.startable hdisj.1
    by_cases hi : Startable dag i
    · obtain ⟨hpending, hdeps⟩ := hstart.mpr hi
      rw [if_neg (by simpa using hpending), if_pos hdeps, List.filter_cons_of_pos (by simpa using hi)]
      have hnext := ih (h.ready hi.1) his.2 ?_ ?_
      · rw [List.append_assoc] at hnext
        exact hnext
      · intro j hj
        rw [List.mem_append, List.mem_singleton, not_or]
        refine ⟨hdisj.2 j hj, ?_⟩
        rintro rfl
        exact his.1 hj
      · rw [List.length_append, List.length_singleton]
        exact hlt
    · rw [List.filter_cons_of_neg (by simpa using hi)]
      have hskip := ih h his.2 hdisj.2 hle
      rw [← hstart, Startable, not_and] at hi
      by_cases hpending : dag'.statusAt i = some .pending
      · rw [if_neg (by simpa using hpending), if_neg (by simpa using hi hpending)]
        exact hskip
      · rw [if_pos hpending]
        exact hskip

theorem Readied.refl (dag : Dag) : Readied dag dag [] := by
  refine ⟨rfl, fun i => ?_, by simp⟩
  cases dag.statusAt i <;> simp

/-- `sc_dag_next_batch` takes the first nodes that can start and makes them ready. -/
theorem scDagNextBatch_spec (dag : Dag) :
    (scDagNextBatch dag).1 =
      ((List.range dag.nodes.length).filter fun i => Startable dag i).take dagMaxBatchSize ∧
    Readied dag (scDagNextBatch dag).2 (scDagNextBatch dag).1 := by
  have h := batchLoop_spec (List.range dag.nodes.length) (.refl dag) List.nodup_range (by simp)
    (Nat.zero_le _)
  rw [List.nil_append] at h
  exact h

theorem nextBatch_nodup (dag : Dag) : (scDagNextBatch dag).1.Nodup := by
  rw [(scDagNextBatch_spec dag).1]
  exact (List.nodup_range.filter _).sublist (List.take_sublist _ _)

theorem startable_of_mem {i : ℕ} (h : i ∈ (scDagNextBatch dag).1) : Startable dag i := by
  rw [(scDagNextBatch_spec dag).1] at h
  simpa using (List.mem_filter.mp ((List.take_sublist _ _).subset h)).2

theorem Startable.lt {i : ℕ} (h : Startable dag i) : i < dag.nodes.length := by
  obtain ⟨hstatus, -⟩ := h
  by_contra hge
  rw [Dag.statusAt, List.getElem?_eq_none (Nat.le_of_not_lt hge)] at hstatus
  exact absurd hstatus (by simp)

/-- An empty batch means that no node can start. -/
theorem nextBatch_eq_nil (h : (scDagNextBatch dag).1 = []) (i : ℕ) : ¬ Startable dag i := by
  intro hi
  rw [(scDagNextBatch_spec dag).1, List.take_eq_nil_iff] at h
  rcases h with h | h
  · exact absurd h (by decide)
  · have hmem : i ∈ (List.range dag.nodes.length).filter fun i => Startable dag i :=
      List.mem_filter.mpr ⟨List.mem_range.mpr hi.lt, by simpa using hi⟩
    rw [h] at hmem
    exact absurd hmem (by simp)

end Batch

/-! ## Rounds -/

/-- The caller marks a node as done or failed. -/
def Dag.mark (dag : Dag) (m : ℕ × Bool) : Dag :=
  dag.setStatus m.1 (if m.2 then .done else .failed)

/-- A graph and the batches taken from it, the last one first. -/
structure DagRun where
  dag : Dag
  batches : List (List ℕ)

/-- One batch, and a mark for each of its nodes in any order. -/
def roundStep (s : DagRun) (marks : List (ℕ × Bool)) : Option DagRun :=
  let r := scDagNextBatch s.dag
  if (marks.map Prod.fst).Perm r.1 then
    some ⟨marks.foldl Dag.mark r.2, r.1 :: s.batches⟩
  else none

/-- A node that is neither done nor failed waits. -/
def DagStatus.fate : DagStatus → Fate
  | .done => .done
  | .failed => .failed
  | .pending | .ready | .running => .waiting

/-- What has become of the node at a place; there is nothing to do where none is. -/
def Dag.fate (dag : Dag) (i : ℕ) : Fate :=
  match dag.statusAt i with
  | none => .done
  | some s => s.fate

/-- Between two rounds no node is ready or running. -/
def Dag.Clear (dag : Dag) : Prop :=
  ∀ i, dag.statusAt i ≠ some .ready ∧ dag.statusAt i ≠ some .running

section Rounds

variable {dag dag' : Dag} {batch : List ℕ}

theorem foldl_mark_skeleton (marks : List (ℕ × Bool)) (dag : Dag) :
    (marks.foldl Dag.mark dag).skeleton = dag.skeleton := by
  induction marks generalizing dag with
  | nil => rfl
  | cons m marks ih =>
    rw [List.foldl_cons, ih]
    exact Dag.skeleton_setStatus _ _

/-- Marks settle the nodes that they name. -/
theorem statusAt_foldl_mark (marks : List (ℕ × Bool)) (dag : Dag) (i : ℕ) :
    (i ∉ marks.map Prod.fst → (marks.foldl Dag.mark dag).statusAt i = dag.statusAt i) ∧
    (i ∈ marks.map Prod.fst → (dag.statusAt i).isSome →
      ∃ m ∈ marks, m.1 = i ∧ (marks.foldl Dag.mark dag).statusAt i =
        some (if m.2 then .done else .failed)) := by
  induction marks generalizing dag with
  | nil => exact ⟨fun _ => rfl, fun h => absurd h (by simp)⟩
  | cons m marks ih =>
    obtain ⟨hout, hin⟩ := ih (dag.mark m)
    have hmark : (dag.mark m).statusAt i =
        (dag.statusAt i).map fun old => if i = m.1 then (if m.2 then .done else .failed) else old :=
      statusAt_setStatus _ _ _
    rw [List.foldl_cons, List.map_cons, List.mem_cons, not_or]
    refine ⟨fun ⟨hne, hnot⟩ => ?_, fun hmem hsome => ?_⟩
    · rw [hout hnot, hmark]
      cases dag.statusAt i <;> simp [hne]
    · by_cases hlater : i ∈ marks.map Prod.fst
      · obtain ⟨m', hm', heq, hstatus⟩ := hin hlater (by rw [hmark, Option.isSome_map, hsome])
        exact ⟨m', List.mem_cons_of_mem _ hm', heq, hstatus⟩
      · obtain rfl := hmem.resolve_right hlater
        refine ⟨m, List.mem_cons_self, rfl, ?_⟩
        rw [hout hlater, hmark]
        obtain ⟨s, hs⟩ := Option.isSome_iff_exists.mp hsome
        rw [hs]
        simp

theorem fate_eq_waiting (hclear : dag.Clear) {i : ℕ} :
    dag.fate i = .waiting ↔ dag.statusAt i = some .pending := by
  rw [Dag.fate]
  cases h : dag.statusAt i with
  | none => simp
  | some s =>
    obtain ⟨hready, hrunning⟩ := hclear i
    rw [h] at hready hrunning
    cases s <;> simp_all [DagStatus.fate]

theorem fate_eq_done {i : ℕ} (hi : i < dag.nodes.length) :
    dag.fate i = .done ↔ dag.statusAt i = some .done := by
  rw [Dag.fate, Dag.statusAt, List.getElem?_eq_getElem hi, Option.map_some]
  cases dag.nodes[i].status <;> simp [DagStatus.fate]

theorem fate_eq_failed {i : ℕ} : dag.fate i = .failed ↔ dag.statusAt i = some .failed := by
  rw [Dag.fate]
  cases dag.statusAt i with
  | none => simp
  | some s => cases s <;> simp [DagStatus.fate]

theorem depDone_iff {d : CString} :
    depDone dag d = true ↔ ∃ j, scDagFindNode dag d.octets = some j ∧
      dag.statusAt j = some .done := by
  rw [depDone]
  cases scDagFindNode dag d.octets <;> simp

/-- In a valid graph the code's test is that of the scheduler. -/
theorem startable_iff (hvalid : dag.Valid) (hclear : dag.Clear) (i : ℕ) :
    Startable dag i ↔ CanStart dag.Needs dag.fate i := by
  rw [Startable, CanStart, fate_eq_waiting hclear, List.all_eq_true]
  refine and_congr Iff.rfl ⟨?_, ?_⟩
  · rintro h j ⟨d, hd, hj⟩
    obtain ⟨j', hj', hdone⟩ := depDone_iff.mp (h d hd)
    obtain rfl : j = j' := Option.some.inj (hj.symm.trans hj')
    exact (fate_eq_done (Dag.Needs.lt ⟨d, hd, hj⟩)).mpr hdone
  · intro h d hd
    obtain ⟨j, hj⟩ := hvalid.found_at hd
    have hneeds : dag.Needs i j := ⟨d, hd, hj⟩
    exact depDone_iff.mpr ⟨j, hj, (fate_eq_done hneeds.lt).mp (h j hneeds)⟩

/-- What a round of calls and marks is made of. -/
theorem roundStep_some {s s' : DagRun} {marks : List (ℕ × Bool)} (h : roundStep s marks = some s') :
    (marks.map Prod.fst).Perm (scDagNextBatch s.dag).1 ∧
      s' = ⟨marks.foldl Dag.mark (scDagNextBatch s.dag).2, (scDagNextBatch s.dag).1 :: s.batches⟩ := by
  unfold roundStep at h
  rw [Option.ite_none_right_eq_some, Option.some.injEq] at h
  exact ⟨h.1, h.2.symm⟩

/-- The statuses after a round: what was batched is done or failed, as it was marked. -/
theorem statusAt_round {s s' : DagRun} {marks : List (ℕ × Bool)} (h : roundStep s marks = some s')
    (i : ℕ) :
    (i ∉ (scDagNextBatch s.dag).1 → s'.dag.statusAt i = s.dag.statusAt i) ∧
    (i ∈ (scDagNextBatch s.dag).1 → ∃ m ∈ marks, m.1 = i ∧
      s'.dag.statusAt i = some (if m.2 then .done else .failed)) := by
  obtain ⟨hperm, rfl⟩ := roundStep_some h
  obtain ⟨-, hready⟩ := scDagNextBatch_spec s.dag
  obtain ⟨hout, hin⟩ := statusAt_foldl_mark marks (scDagNextBatch s.dag).2 i
  refine ⟨fun hi => ?_, fun hi => ?_⟩
  · have hsame : (scDagNextBatch s.dag).2.statusAt i = s.dag.statusAt i := by
      rw [hready.status]
      cases s.dag.statusAt i <;> simp [hi]
    exact (hout (mt hperm.mem_iff.mp hi)).trans hsame
  · apply hin (hperm.mem_iff.mpr hi)
    rw [hready.status, hready.pending i hi]
    rfl

theorem roundStep_skeleton {s s' : DagRun} {marks : List (ℕ × Bool)}
    (h : roundStep s marks = some s') : s'.dag.skeleton = s.dag.skeleton := by
  obtain ⟨-, rfl⟩ := roundStep_some h
  exact (foldl_mark_skeleton _ _).trans (scDagNextBatch_spec s.dag).2.skeleton

theorem roundStep_clear {s s' : DagRun} {marks : List (ℕ × Bool)}
    (h : roundStep s marks = some s') (hclear : s.dag.Clear) : s'.dag.Clear := by
  intro i
  obtain ⟨hout, hin⟩ := statusAt_round h i
  by_cases hi : i ∈ (scDagNextBatch s.dag).1
  · obtain ⟨m, -, -, hm⟩ := hin hi
    rw [hm]
    cases m.2 <;> simp
  · rw [hout hi]
    exact hclear i

/-- A round of calls is a round of the scheduler. -/
theorem roundStep_round {s s' : DagRun} {marks : List (ℕ × Bool)}
    (h : roundStep s marks = some s') (hvalid : s.dag.Valid) (hclear : s.dag.Clear) :
    Round s.dag.Needs s.dag.fate (scDagNextBatch s.dag).1 s'.dag.fate := by
  refine ⟨nextBatch_nodup _, ?_, ?_, ?_, ?_⟩
  · intro i hi
    exact (startable_iff hvalid hclear i).mp (startable_of_mem hi)
  · intro i hi
    obtain ⟨m, -, -, hm⟩ := (statusAt_round h i).2 hi
    rw [Dag.fate, hm]
    cases m.2 <;> simp [DagStatus.fate]
  · intro i hi
    rw [Dag.fate, Dag.fate, (statusAt_round h i).1 hi]
  · rintro ⟨i, hi⟩ hnil
    exact nextBatch_eq_nil hnil i ((startable_iff hvalid hclear i).mpr hi)

end Rounds

/-! ## Runs of an accepted graph -/

/-- A call of `sc_dag_add_node`. -/
structure AddCall where
  copies : NodeCopies
  id : Option CString
  toolName : Option CString
  argsJson : Option CString
  deps : List (Option CString)

/-- The graph behind a call. -/
def AddCall.run (dag : Dag) (c : AddCall) : Dag :=
  (scDagAddNode dag c.copies c.id c.toolName c.argsJson c.deps).2

/-- The graph that calls build. -/
def built (calls : List AddCall) : Dag := calls.foldl AddCall.run scDagInit

/-- What the state between two rounds promises about the next batch. -/
structure Scheduled (s : DagRun) : Prop where
  /-- Each node is batched at most once. -/
  once : ((scDagNextBatch s.dag).1 :: s.batches).flatten.Nodup
  /-- A batched node has all its dependencies done. -/
  depsDone : ∀ i ∈ (scDagNextBatch s.dag).1, ∀ d ∈ s.dag.depsAt i, ∃ j,
    scDagFindNode s.dag d.octets = some j ∧ s.dag.statusAt j = some .done
  /-- No node of the batch is needed by another one. -/
  independent : ∀ i ∈ (scDagNextBatch s.dag).1, ∀ j ∈ (scDagNextBatch s.dag).1,
    ¬ TransGen s.dag.Needs i j
  /-- Where the batch is empty, a failure is behind each node that is not settled. -/
  stuck : (scDagNextBatch s.dag).1 = [] → ∀ i status, s.dag.statusAt i = some status →
    status ≠ .done → status ≠ .failed →
    ∃ j, TransGen s.dag.Needs i j ∧ s.dag.statusAt j = some .failed

section Runs

variable {dag : Dag} {calls : List AddCall}

/-- A new node is pending. -/
theorem pending_addNode (h : ∀ n ∈ dag.nodes, n.status = .pending) (c : AddCall) :
    ∀ n ∈ (c.run dag).nodes, n.status = .pending := by
  rw [AddCall.run]
  rcases scDagAddNode_cases dag c.copies c.id c.toolName c.argsJson c.deps with
    ⟨e, hcall⟩ | ⟨node, dag', hcall, hnodes, -, -, -, -, hpending, -⟩
  · rw [hcall]
    exact h
  · rw [hcall, hnodes]
    intro n hn
    rcases List.mem_append.mp hn with hn | hn
    · exact h n hn
    · rw [List.mem_singleton.mp hn, hpending]

theorem pending_built (calls : List AddCall) : ∀ n ∈ (built calls).nodes, n.status = .pending := by
  have hfold : ∀ dag : Dag, (∀ n ∈ dag.nodes, n.status = .pending) →
      ∀ n ∈ (calls.foldl AddCall.run dag).nodes, n.status = .pending := by
    induction calls with
    | nil => exact fun dag h => h
    | cons c calls ih => exact fun dag h => ih _ (pending_addNode h c)
  exact hfold scDagInit (by simp [scDagInit])

theorem statusAt_built {i : ℕ} {s : DagStatus} (h : (built calls).statusAt i = some s) :
    s = .pending := by
  obtain ⟨n, hn, rfl⟩ := Option.map_eq_some_iff.mp h
  exact pending_built calls n (List.mem_of_getElem? hn)

theorem valid_of_skeleton {dag' : Dag} (h : dag.skeleton = dag'.skeleton) (hvalid : dag.Valid) :
    dag'.Valid := by
  have hids : ∀ d : Dag, (d.nodes.map fun n => n.id.octets) =
      d.skeleton.map fun p => p.1.octets := by
    intro d
    rw [Dag.skeleton, List.map_map]
    rfl
  refine ⟨?_, ?_, ?_⟩
  · rw [hids, ← h, ← hids]
    exact hvalid.distinct
  · intro n hn d hd
    obtain ⟨i, hi⟩ := List.mem_iff_getElem?.mp hn
    rw [← mem_depsAt hi, ← depsAt_of_skeleton h] at hd
    rw [← findNode_of_skeleton h]
    exact hvalid.found_at hd
  · rw [← needs_of_skeleton h]
    exact hvalid.acyclic

/-- The state behind a run: the graph is still valid, and the rounds are those of a scheduler
from the start. -/
structure Rounds (dag : Dag) (s : DagRun) : Prop where
  skeleton : s.dag.skeleton = dag.skeleton
  clear : s.dag.Clear
  run : DepSchedule.Run dag.Needs dag.fate s.batches s.dag.fate
  lt : ∀ i ∈ s.batches.flatten, i < dag.nodes.length

theorem Rounds.step (hvalid : dag.Valid) {s s' : DagRun} (h : Rounds dag s)
    {marks : List (ℕ × Bool)} (hstep : roundStep s marks = some s') : Rounds dag s' := by
  have hround := roundStep_round hstep (valid_of_skeleton h.skeleton.symm hvalid) h.clear
  rw [needs_of_skeleton h.skeleton] at hround
  refine ⟨(roundStep_skeleton hstep).trans h.skeleton, roundStep_clear hstep h.clear, ?_, ?_⟩
  · obtain ⟨-, rfl⟩ := roundStep_some hstep
    exact h.run.round hround
  · obtain ⟨-, rfl⟩ := roundStep_some hstep
    intro i hi
    rw [List.flatten_cons, List.mem_append] at hi
    rcases hi with hi | hi
    · rw [← Dag.length_of_skeleton h.skeleton]
      exact (startable_of_mem hi).lt
    · exact h.lt i hi

theorem Rounds.of_run (hvalid : dag.Valid) {s s' : DagRun} (h : Rounds dag s)
    {rounds : List (List (ℕ × Bool))} (hrun : Machine.run roundStep s rounds = some s') :
    Rounds dag s' ∧ s'.batches.length = s.batches.length + rounds.length := by
  induction rounds generalizing s with
  | nil =>
    obtain rfl := Option.some.inj hrun
    exact ⟨h, rfl⟩
  | cons marks rounds ih =>
    obtain ⟨s₁, hstep, hrest⟩ := Option.bind_eq_some_iff.mp hrun
    obtain ⟨hrounds, hlen⟩ := ih (h.step hvalid hstep) hrest
    refine ⟨hrounds, ?_⟩
    obtain ⟨-, rfl⟩ := roundStep_some hstep
    rw [hlen, List.length_cons, List.length_cons]
    omega

theorem Rounds.scheduled (hvalid : dag.Valid) (hstart : Grounded dag.Needs dag.fate) {s : DagRun}
    (h : Rounds dag s) : Scheduled s := by
  have hvalid' := valid_of_skeleton h.skeleton.symm hvalid
  have hneeds := needs_of_skeleton h.skeleton
  have hcan : ∀ i, Startable s.dag i ↔ CanStart dag.Needs s.dag.fate i := by
    rw [← hneeds]
    exact startable_iff hvalid' h.clear
  have hground := h.run.grounded hstart
  refine ⟨?_, ?_, ?_, ?_⟩
  · rw [List.flatten_cons, List.nodup_append]
    refine ⟨nextBatch_nodup _, h.run.nodup, ?_⟩
    rintro i hi j hj rfl
    exact h.run.settled i hj ((hcan i).mp (startable_of_mem hi)).1
  · intro i hi d hd
    exact depDone_iff.mp (List.all_eq_true.mp (startable_of_mem hi).2 d hd)
  · intro i hi j hj
    rw [hneeds]
    exact hground.independent ((hcan i).mp (startable_of_mem hi))
      ((hcan j).mp (startable_of_mem hj))
  · intro hnil i status hstatus hdone hfailed
    have hwaiting : s.dag.fate i = .waiting := by
      rw [Dag.fate, hstatus]
      cases status <;> simp_all [DagStatus.fate]
    obtain ⟨j, hj, hfate⟩ := failed_of_stuck
      (fun k hk => nextBatch_eq_nil hnil k ((hcan k).mpr hk)) (hvalid.acyclic i) hwaiting
    exact ⟨j, hneeds ▸ hj, fate_eq_failed.mp hfate⟩

theorem rounds_built (calls : List AddCall) : Rounds (built calls) ⟨built calls, []⟩ ∧
    Grounded (built calls).Needs (built calls).fate := by
  refine ⟨⟨rfl, fun i => ⟨fun h => ?_, fun h => ?_⟩, .refl, by simp⟩, ?_⟩
  · exact absurd (statusAt_built h) (by simp)
  · exact absurd (statusAt_built h) (by simp)
  · rintro i hi j ⟨d, hd, -⟩
    cases hstatus : (built calls).statusAt i with
    | none =>
      rw [Dag.statusAt, Option.map_eq_none_iff] at hstatus
      rw [Dag.depsAt, hstatus] at hd
      exact absurd hd (by simp)
    | some s =>
      obtain rfl := statusAt_built hstatus
      rw [Dag.fate, hstatus] at hi
      exact absurd rfl hi

/-- Marks that name no failure leave no node failed. -/
theorem not_failed_of_run {rounds : List (List (ℕ × Bool))}
    (hmarks : ∀ marks ∈ rounds, ∀ m ∈ marks, m.2 = true) {s s' : DagRun}
    (hs : ∀ i, s.dag.statusAt i ≠ some .failed)
    (hrun : Machine.run roundStep s rounds = some s') :
    ∀ i, s'.dag.statusAt i ≠ some .failed := by
  induction rounds generalizing s with
  | nil =>
    obtain rfl := Option.some.inj hrun
    exact hs
  | cons marks rounds ih =>
    rw [List.forall_mem_cons] at hmarks
    obtain ⟨s₁, hstep, hrest⟩ := Option.bind_eq_some_iff.mp hrun
    refine ih hmarks.2 (fun i => ?_) hrest
    obtain ⟨hout, hin⟩ := statusAt_round hstep i
    by_cases hi : i ∈ (scDagNextBatch s.dag).1
    · obtain ⟨m, hm, -, hstatus⟩ := hin hi
      rw [hstatus, hmarks.1 m hm]
      simp
    · rw [hout hi]
      exact hs i

theorem isComplete_of_settled (hclear : dag.Clear) (h : ∀ i, dag.fate i ≠ .waiting) :
    scDagIsComplete dag = true := by
  rw [scDagIsComplete, List.all_eq_true]
  intro n hn
  obtain ⟨i, hi⟩ := List.mem_iff_getElem?.mp hn
  have hfate := h i
  have hstatus : dag.statusAt i = some n.status := by rw [Dag.statusAt, hi, Option.map_some]
  obtain ⟨hready, hrunning⟩ := hclear i
  rw [Dag.fate, hstatus] at hfate
  rw [hstatus] at hready hrunning
  cases hs : n.status <;> simp_all [DagStatus.fate]

/-- In every run from an accepted graph each batch is scheduled by the dependencies, and a run
without failures is complete after as many rounds as there are nodes. -/
theorem dag_scheduled (calls : List AddCall) (h : scDagValidate (built calls) = some (.ok ()))
    (rounds : List (List (ℕ × Bool))) (s : DagRun)
    (hrun : Machine.run roundStep ⟨built calls, []⟩ rounds = some s) :
    Scheduled s ∧ ((∀ marks ∈ rounds, ∀ m ∈ marks, m.2 = true) →
      (built calls).nodes.length ≤ rounds.length → scDagIsComplete s.dag = true) := by
  have hvalid := (scDagValidate_ok_iff _).2.mp h
  obtain ⟨hstart, hground⟩ := rounds_built calls
  obtain ⟨hrounds, hlen⟩ := hstart.of_run hvalid hrun
  refine ⟨hrounds.scheduled hvalid hground, fun hmarks hn => ?_⟩
  have hfailed := not_failed_of_run hmarks (s := ⟨built calls, []⟩)
    (fun i hi => absurd (statusAt_built hi) (by simp)) hrun
  apply isComplete_of_settled hrounds.clear
  apply hrounds.run.complete hvalid.acyclic (fun i hi => hfailed i (fate_eq_failed.mp hi))
    hrounds.lt
  · intro i hi
    rw [← Dag.length_of_skeleton hrounds.skeleton] at hi
    rw [Dag.fate, Dag.statusAt, List.getElem?_eq_none hi]
    simp
  · rw [hlen]
    simpa using hn

/-- A node `t1`, and a node `t2` that depends on it. -/
def pairCalls : List AddCall :=
  [⟨⟨true, true, true, fun _ => true⟩, some (.ofBytes (ascii "t1")), some (.ofBytes (ascii "a")),
      none, []⟩,
    ⟨⟨true, true, true, fun _ => true⟩, some (.ofBytes (ascii "t2")), some (.ofBytes (ascii "b")),
      none, [some (.ofBytes (ascii "t1"))]⟩]

/-- Two rounds complete the pair. -/
theorem dag_scheduled_pair : ∃ s, Machine.run roundStep ⟨built pairCalls, []⟩
    [[(0, true)], [(1, true)]] = some s ∧ Scheduled s ∧ scDagIsComplete s.dag = true := by
  obtain ⟨s, hs⟩ := Option.isSome_iff_exists.mp (show (Machine.run roundStep
    ⟨built pairCalls, []⟩ [[(0, true)], [(1, true)]]).isSome = true by decide)
  obtain ⟨hscheduled, hcomplete⟩ := dag_scheduled pairCalls (by rfl) _ s hs
  exact ⟨s, hs, hscheduled, hcomplete (by decide) (by decide)⟩

end Runs

end SeaClaw.Agent
