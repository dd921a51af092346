import SeaClaw.Core.Error
import SeaClaw.Lib.CString

/-!
# The task graph

Nodes in the order in which they were added, each with the names of the nodes it depends on.
The visit that looks for cycles is bounded by a count of nested calls.
-/

namespace SeaClaw.Agent

open SeaClaw.Lib

/-- `SC_DAG_MAX_NODES` -/
def dagMaxNodes : ℕ := 32

/-- `SC_DAG_MAX_DEPS` -/
def dagMaxDeps : ℕ := 8

/-- `sc_dag_node_status_t` -/
inductive DagStatus where
  | pending | ready | running | done | failed
  deriving DecidableEq

/-- `sc_dag_node_t`; the result is counted, the other texts are strings. -/
structure DagNode where
  id : CString
  toolName : CString
  argsJson : Option CString
  deps : List CString
  deps_le : deps.length ≤ dagMaxDeps
  status : DagStatus
  result : Option Bytes

/-- `sc_dag_t` -/
@[ext] structure Dag where
  nodes : List DagNode
  count_le : nodes.length ≤ dagMaxNodes

/-- `sc_dag_init` -/
def scDagInit : Dag := ⟨[], Nat.zero_le _⟩

/-- Which of the copies made for a node find memory. -/
structure NodeCopies where
  id : Bool
  toolName : Bool
  argsJson : Bool
  dep : ℕ → Bool

/-- The copies of the dependencies; one that is `NULL` or finds no memory is left out. -/
def copyDeps (c : NodeCopies) (deps : List (Option CString)) : List CString :=
  deps.zipIdx.filterMap fun d => if c.dep d.2 then d.1 else none

theorem copyDeps_length_le (c : NodeCopies) (deps : List (Option CString)) :
    (copyDeps c deps).length ≤ deps.length :=
  (List.length_filterMap_le _ _).trans_eq (List.length_zipIdx ..)

theorem length_concat_le {A : Type} {l : List A} {n : ℕ} (h : ¬ n ≤ l.length) (a : A) :
    (l ++ [a]).length ≤ n := by
  rw [List.length_append, List.length_singleton]
  exact Nat.lt_of_not_le h

/-- `sc_dag_add_node` -/
def scDagAddNode (dag : Dag) (c : NodeCopies) (id toolName argsJson : Option CString)
    (deps : List (Option CString)) : Except ScError Unit × Dag :=
  match id, toolName with
  | some id, some toolName =>
    if hcount : dagMaxNodes ≤ dag.nodes.length then (.error .invalidArgument, dag)
    else if hdeps : deps.length > dagMaxDeps then (.error .invalidArgument, dag)
    else if ¬ c.id then (.error .outOfMemory, dag)
    else if ¬ c.toolName then (.error .outOfMemory, dag)
    else if argsJson.isSome ∧ ¬ c.argsJson then (.error .outOfMemory, dag)
    else
      let node : DagNode :=
        { id, toolName, argsJson
          deps := copyDeps c deps
          deps_le := (copyDeps_length_le c deps).trans (Nat.le_of_not_lt hdeps)
          status := .pending
          result := none }
      (.ok (), ⟨dag.nodes ++ [node], length_concat_le hcount node⟩)
  | _, _ => (.error .invalidArgument, dag)

/-- A call fails and changes nothing, or adds the node that it describes. -/
theorem scDagAddNode_cases (dag : Dag) (c : NodeCopies) (id toolName argsJson : Option CString)
    (deps : List (Option CString)) :
    (∃ e, scDagAddNode dag c id toolName argsJson deps = (.error e, dag)) ∨
    ∃ node dag', scDagAddNode dag c id toolName argsJson deps = (.ok (), dag') ∧
      dag'.nodes = dag.nodes ++ [node] ∧ id = some node.id ∧ toolName = some node.toolName ∧
      node.argsJson = argsJson ∧ node.deps = copyDeps c deps ∧ node.status = .pending ∧
      node.result = none := by
  unfold scDagAddNode
  cases id with
  | none => exact Or.inl ⟨_, rfl⟩
  | some id =>
    cases toolName with
    | none => exact Or.inl ⟨_, rfl⟩
    | some toolName =>
      simp only
      by_cases hcount : dagMaxNodes ≤ dag.nodes.length
      · exact Or.inl ⟨_, by rw [dif_pos hcount]⟩
      by_cases hdeps : deps.length > dagMaxDeps
      · exact Or.inl ⟨_, by rw [dif_neg hcount, dif_pos hdeps]⟩
      rw [dif_neg hcount, dif_neg hdeps]
      by_cases hid : ¬ c.id
      · exact Or.inl ⟨_, by rw [if_pos hid]⟩
      by_cases htool : ¬ c.toolName
      · exact Or.inl ⟨_, by rw [if_neg hid, if_pos htool]⟩
      by_cases hargs : argsJson.isSome ∧ ¬ c.argsJson
      · exact Or.inl ⟨_, by rw [if_neg hid, if_neg htool, if_pos hargs]⟩
      · rw [if_neg hid, if_neg htool, if_neg hargs]
        exact Or.inr ⟨_, _, rfl, rfl, rfl, rfl, rfl, rfl, rfl, rfl⟩

/-- `sc_dag_find_node`: the place of the first node with this id. -/
def scDagFindNode (dag : Dag) (id : Bytes) : Option ℕ :=
  dag.nodes.findIdx? fun n => n.id.octets = id

/-- `dag_visit_t` -/
inductive DagVisit where
  | none | visiting | visited
  deriving DecidableEq

/-- The loop over the dependencies of a node; a name that no node has is passed over. -/
def visitDeps (dag : Dag) (visit : ℕ → (ℕ → DagVisit) → Option (Bool × (ℕ → DagVisit))) :
    List CString → (ℕ → DagVisit) → Option (Bool × (ℕ → DagVisit))
  | [], visited => some (false, visited)
  | d :: ds, visited =>
    match scDagFindNode dag d.octets with
    | none => visitDeps dag visit ds visited
    | some dep =>
      (visit dep visited).bind fun r => if r.1 then some r else visitDeps dag visit ds r.2

/-- The dependencies of the node at a place. -/
def Dag.depsAt (dag : Dag) (idx : ℕ) : List CString :=
  match dag.nodes[idx]? with
  | some n => n.deps
  | none => []

/-- `dag_has_cycle_visit`, at most so many calls deep; `none` when that is too few. -/
def dagHasCycleVisit (dag : Dag) : ℕ → ℕ → (ℕ → DagVisit) → Option (Bool × (ℕ → DagVisit))
  | 0, _, _ => none
  | depth + 1, idx, visited =>
    match visited idx with
    | .visiting => some (true, visited)
    | .visited => some (false, visited)
    | .none =>
      (visitDeps dag (dagHasCycleVisit dag depth) (dag.depsAt idx)
        (Function.update visited idx .visiting)).map fun r =>
          if r.1 then r else (false, Function.update r.2 idx .visited)

/-- The last loop of `sc_dag_validate`. -/
def visitAll (dag : Dag) : List ℕ → (ℕ → DagVisit) → Option Bool
  | [], _ => some false
  | i :: is, visited =>
    (dagHasCycleVisit dag (dag.nodes.length + 1) i visited).bind fun r =>
      if r.1 then some true else visitAll dag is r.2

/-- `sc_dag_validate` -/
def scDagValidate (dag : Dag) : Option (Except ScError Unit) :=
  if ¬ (dag.nodes.map fun n => n.id.octets).Nodup then some (.error .alreadyExists)
  else if ∃ n ∈ dag.nodes, ∃ d ∈ n.deps, scDagFindNode dag d.octets = none then
    some (.error .notFound)
  else
    (visitAll dag (List.range dag.nodes.length) fun _ => .none).map fun cycle =>
      if cycle then .error .parse else .ok ()

/-- `sc_dag_is_complete` -/
def scDagIsComplete (dag : Dag) : Bool :=
  dag.nodes.all fun n => n.status = .done ∨ n.status = .failed

/-!
# Batches of a task graph

A batch takes the pending nodes whose dependencies are done, in order and at most eight.
-/

/-- `SC_DAG_MAX_BATCH_SIZE` -/
def dagMaxBatchSize : ℕ := 8

theorem length_modify_le {dag : Dag} (idx : ℕ) (f : DagNode → DagNode) :
    (dag.nodes.modify idx f).length ≤ dagMaxNodes :=
  (List.length_modify ..).trans_le dag.count_le

/-- A node's status set. -/
def Dag.setStatus (dag : Dag) (idx : ℕ) (status : DagStatus) : Dag :=
  ⟨dag.nodes.modify idx fun n => { n with status := status }, length_modify_le idx _⟩

/-- The status of the node at a place, if there is one. -/
def Dag.statusAt (dag : Dag) (idx : ℕ) : Option DagStatus := dag.nodes[idx]?.map (·.status)

/-- Whether a dependency names a node that is done. -/
def depDone (dag : Dag) (d : CString) : Bool :=
  match scDagFindNode dag d.octets with
  | none => false
  | some dep => dag.statusAt dep = some .done

/-- The loop of `sc_dag_next_batch`. -/
def batchLoop : List ℕ → Dag → List ℕ → List ℕ × Dag
  | [], dag, batch => (batch, dag)
  | i :: is, dag, batch =>
    if batch.length < dagMaxBatchSize then
      if dag.statusAt i ≠ some .pending then batchLoop is dag batch
      else if (dag.depsAt i).all (depDone dag) then
        batchLoop is (dag.setStatus i .ready) (batch ++ [i])
      else batchLoop is dag batch
    else (batch, dag)

/-- `sc_dag_next_batch`: the places of the nodes in the batch. -/
def scDagNextBatch (dag : Dag) : List ℕ × Dag :=
  batchLoop (List.range dag.nodes.length) dag []

end SeaClaw.Agent
