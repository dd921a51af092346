import SeaClaw.Agent.DagSchedule
import SeaClaw.Agent.LlmCompiler
import SeaClaw.Json.Prefix

/-!
# The dependencies of a plan

What the tasks of a plan name as dependencies, against what the nodes made of them hold. Only
where the two agree does the order of the batches follow the plan.
-/

namespace SeaClaw.Agent

open SeaClaw.Lib SeaClaw.Json Relation

/-! ## The plan -/

/-- A member that is a string. -/
def stringMember (t : Value) (key : String) : Option Bytes :=
  (scJsonObjectGet t (ascii key)).bind stringItem

/-- The elements of the member `tasks`, if that is an array. -/
def taskItems (root : Value) : List Value :=
  match scJsonObjectGet root (ascii "tasks") with
  | some (.array items) => items
  | _ => []

/-- A task object with string id and tool. -/
def IsTask (t : Value) : Prop :=
  (stringMember t "id").isSome = true ∧ (stringMember t "tool").isSome = true

instance (t : Value) : Decidable (IsTask t) := inferInstanceAs (Decidable (_ ∧ _))

/-- The tasks among the elements from a place on, each with its place. -/
def tasksFrom (i : ℕ) (items : List Value) : List (Value × ℕ) :=
  (items.zipIdx i).filter fun t => IsTask t.1

/-- The tasks of a plan, each with its place among the elements of `tasks`. -/
def planTasks (root : Value) : List (Value × ℕ) := tasksFrom 0 (taskItems root)

def taskId (t : Value) : Bytes := (stringMember t "id").getD []

/-- The names listed in `deps`. -/
def listedDeps (t : Value) : List Bytes := (depItems t).filterMap stringItem

/-- The node has the id of the task, and exactly the dependencies that it lists. -/
def Matches (t : Value × ℕ) (n : DagNode) : Prop :=
  n.id.octets = taskId t.1 ∧ n.deps.map CString.octets = listedDeps t.1

/-- The nodes that a plan added are its tasks, in order. -/
def Faithful (root : Value) (dag dag' : Dag) : Prop :=
  ∃ nodes, dag'.nodes = dag.nodes ++ nodes ∧ List.Forall₂ Matches (planTasks root) nodes

/-! ## Executing it -/

/-- What an executor does with a graph: it asks for a batch, or sets the status of a node. -/
inductive DagOp where
  | nextBatch
  | setStatus (idx : ℕ) (status : DagStatus)

def dagOpStep (dag : Dag) : DagOp → Option Dag
  | .nextBatch => some (scDagNextBatch dag).2
  | .setStatus idx status => some (dag.setStatus idx status)

/-- The next batch holds no task of the plan before every task that it names as a dependency
is done; the nodes of the plan stand from `first` on. -/
def DepsFirst (root : Value) (first : ℕ) (dag : Dag) : Prop :=
  ∀ p t, (planTasks root)[p]? = some t → first + p ∈ (scDagNextBatch dag).1 →
    ∀ q u, (planTasks root)[q]? = some u → taskId u.1 ∈ listedDeps t.1 →
      dag.statusAt (first + q) = some .done

/-- The graph has the dependencies of the plan, and every run follows them. -/
structure Honoured (root : Value) (dag dag' : Dag) : Prop where
  faithful : Faithful root dag dag'
  order : ∀ ops dag'', Machine.run dagOpStep dag' ops = some dag'' →
    DepsFirst root dag.nodes.length dag''

/-- A task that its node can hold: texts without a NUL, no name behind the first eight elements
of `deps`, and memory for each copy of a name. -/
structure Carried (a : ℕ → TaskAnswers) (t : Value × ℕ) : Prop where
  id : 0 ∉ taskId t.1
  deps : ∀ name ∈ listedDeps t.1, 0 ∉ name
  few : ((depItems t.1).drop dagMaxDeps).filterMap stringItem = []
  copied : ∀ k < (listedDeps t.1).length, (a t.2).copies.dep k = true

/-! ## One node -/

section Node

/-- Copies are all there and whole exactly if each found memory and holds no NUL. -/
theorem copyDeps_eq_iff (c : NodeCopies) (names rest : List Bytes) :
    (copyDeps c (names.map fun s => some (.ofBytes s))).map CString.octets = names ++ rest ↔
      rest = [] ∧ (∀ s ∈ names, 0 ∉ s) ∧ ∀ k < names.length, c.dep k = true := by
  rw [copyDeps]
  have hgen : ∀ n, (((names.map fun s => some (CString.ofBytes s)).zipIdx n).filterMap
      fun d => if c.dep d.2 then d.1 else none).map CString.octets = names ++ rest ↔
      rest = [] ∧ (∀ s ∈ names, 0 ∉ s) ∧ ∀ k < names.length, c.dep (n + k) = true := by
    induction names with
    | nil =>
      intro n
      constructor
      · intro h
        exact ⟨h.symm, by simp, by simp⟩
      · rintro ⟨rfl, -, -⟩
        rfl
    | cons s names ih =>
      intro n
      rw [List.map_cons, List.zipIdx_cons, List.forall_mem_cons]
      by_cases hdep : c.dep n = true
      · rw [List.filterMap_cons_some (by simp [hdep]; rfl), List.map_cons, List.cons_append,
          List.cons.injEq, CString.octets_ofBytes, ih (n + 1)]
        have hcopies : (∀ k < (s :: names).length, c.dep (n + k) = true) ↔
            ∀ k < names.length, c.dep (n + 1 + k) = true := by
          constructor
          · intro h k hk
            have := h (k + 1) (by rw [List.length_cons]; omega)
            rwa [Nat.add_assoc, Nat.add_comm 1 k]
          · intro h k hk
            cases k with
            | zero => exact hdep
            | succ k =>
              have := h k (by rw [List.length_cons] at hk; omega)
              rwa [Nat.add_assoc, Nat.add_comm 1 k] at this
        rw [hcopies]
        tauto
      · rw [List.filterMap_cons_none (by simp [hdep])]
        refine iff_of_false ?_ ?_
        · intro h
          have hlen := congrArg List.length h
          have hle := List.length_filterMap_le (fun d : Option CString × ℕ =>
            if c.dep d.2 then d.1 else none)
            ((names.map fun s => some (CString.ofBytes s)).zipIdx (n + 1))
          rw [List.length_map, List.length_append, List.length_cons] at hlen
          rw [List.length_zipIdx, List.length_map] at hle
          omega
        · rintro ⟨-, -, h⟩
          exact hdep (h 0 (by simp))
  simpa using hgen 0

theorem listedDeps_eq (t : Value) :
    listedDeps t = ((depItems t).take dagMaxDeps).filterMap stringItem ++
      ((depItems t).drop dagMaxDeps).filterMap stringItem := by
  rw [listedDeps, ← List.filterMap_append, List.take_append_drop]

/-- The node that a task becomes. -/
def MadeFrom (a : ℕ → TaskAnswers) (t : Value × ℕ) (n : DagNode) : Prop :=
  n.id = .ofBytes (taskId t.1) ∧ n.deps = copyDeps (a t.2).copies (depsArr t.1)

theorem MadeFrom.matches_iff {a : ℕ → TaskAnswers} {t : Value × ℕ} {n : DagNode}
    (h : MadeFrom a t n) : Matches t n ↔ Carried a t := by
  rw [Matches, h.1, h.2, CString.octets_ofBytes, depsArr, listedDeps_eq, copyDeps_eq_iff]
  constructor
  · rintro ⟨hid, hfew, hnames, hcopied⟩
    have hlisted := listedDeps_eq t.1
    rw [hfew, List.append_nil] at hlisted
    exact ⟨hid, hlisted ▸ hnames, hfew, hlisted ▸ hcopied⟩
  · intro hc
    have hlisted := listedDeps_eq t.1
    rw [hc.few, List.append_nil] at hlisted
    exact ⟨hc.id, hc.few, hlisted ▸ hc.deps, hlisted ▸ hc.copied⟩

end Node

/-! ## Loading -/

section Loading

variable {a : ℕ → TaskAnswers} {dag dag' : Dag}

theorem scJsonGetString_eq (t : Value) (key : String) :
    scJsonGetString t (ascii key) = (stringMember t key).map cString := by
  rw [scJsonGetString, stringMember]
  cases scJsonObjectGet t (ascii key) with
  | none => rfl
  | some v => cases v <;> rfl

theorem ofBytes_cString (s : Bytes) : CString.ofBytes (cString s) = CString.ofBytes s := by
  apply CString.ext
  exact CString.octets_ofBytes.mpr (zero_notMem_takeWhile s)

/-- The loop makes a node from each task. -/
theorem taskLoop_ok (items : List Value) {i : ℕ}
    (h : taskLoop a i items dag = (.ok (), dag')) :
    ∃ nodes, dag'.nodes = dag.nodes ++ nodes ∧
      List.Forall₂ (MadeFrom a) (tasksFrom i items) nodes := by
  induction items generalizing i dag with
  | nil =>
    obtain rfl := (Prod.mk.inj h).2
    exact ⟨[], (List.append_nil _).symm, .nil⟩
  | cons t items ih =>
    rw [taskLoop, scJsonGetString_eq, scJsonGetString_eq] at h
    rw [tasksFrom, List.zipIdx_cons]
    cases hid : stringMember t "id" with
    | none =>
      rw [hid] at h
      rw [List.filter_cons_of_neg (by simp [IsTask, hid])]
      exact ih h
    | some id =>
      cases htool : stringMember t "tool" with
      | none =>
        rw [hid, htool] at h
        rw [List.filter_cons_of_neg (by simp [IsTask, htool])]
        exact ih h
      | some tool =>
        rw [hid, htool] at h
        simp only [Option.map_some] at h
        rw [List.filter_cons_of_pos (by simp [IsTask, hid, htool])]
        rcases scDagAddNode_cases dag (a i).copies (some (.ofBytes (cString id)))
          (some (.ofBytes (cString tool))) (some (argsText (a i).stringify t)) (depsArr t) with
          ⟨e, hcall⟩ | ⟨node, dag₁, hcall, hnodes, hnode, -, -, hdeps, -, -⟩
        · rw [hcall] at h
          exact absurd (congrArg Prod.fst h) (by simp)
        · rw [hcall] at h
          obtain ⟨nodes, hrest, hmade⟩ := ih h
          refine ⟨node :: nodes, by rw [hrest, hnodes, List.append_assoc, List.singleton_append],
            .cons ⟨?_, hdeps⟩ hmade⟩
          rw [← Option.some.inj hnode, ofBytes_cString, taskId, hid, Option.getD_some]

/-- A plan that loads has an object at its root. -/
theorem scDagParseJson_ok {json beyond : Bytes} {root : Value} {c : Cursor}
    (hroot : scJsonParse json beyond = .ok root c)
    (h : scDagParseJson dag a json beyond = some (.ok (), dag')) :
    taskLoop a 0 (taskItems root) dag = (.ok (), dag') := by
  rw [scDagParseJson, hroot] at h
  cases root with
  | object pairs =>
    simp only at h
    rw [taskItems]
    cases hitems : scJsonObjectGet (.object pairs) (ascii "tasks") with
    | none =>
      rw [hitems] at h
      simp at h
    | some v =>
      rw [hitems] at h
      cases v with
      | array items => exact Option.some.inj h
      | _ => simp at h
  | _ => simp at h

end Loading

/-! ## Order -/

section Order

variable {dag dag' : Dag}

theorem dagOpStep_skeleton {dag dag' : Dag} {op : DagOp} (h : dagOpStep dag op = some dag') :
    dag'.skeleton = dag.skeleton := by
  cases op with
  | nextBatch =>
    obtain rfl := Option.some.inj h
    exact (scDagNextBatch_spec dag).2.skeleton
  | setStatus idx status =>
    obtain rfl := Option.some.inj h
    exact Dag.skeleton_setStatus _ _

theorem run_skeleton (ops : List DagOp) {dag dag' : Dag}
    (h : Machine.run dagOpStep dag ops = some dag') : dag'.skeleton = dag.skeleton := by
  induction ops generalizing dag with
  | nil =>
    obtain rfl := Option.some.inj h
    rfl
  | cons op ops ih =>
    obtain ⟨dag₁, hstep, hrest⟩ := Option.bind_eq_some_iff.mp h
    exact (ih hrest).trans (dagOpStep_skeleton hstep)

/-- A valid graph with the dependencies of a plan follows them, whatever the statuses. -/
theorem Faithful.order {root : Value} (h : Faithful root dag dag') (hvalid : dag'.Valid)
    {dag'' : Dag} (hskeleton : dag''.skeleton = dag'.skeleton) :
    DepsFirst root dag.nodes.length dag'' := by
  obtain ⟨nodes, hnodes, hmatch⟩ := h
  have hnode : ∀ p t, (planTasks root)[p]? = some t → ∃ n,
      dag'.nodes[dag.nodes.length + p]? = some n ∧ Matches t n := by
    intro p t hp
    obtain ⟨hlt, rfl⟩ := List.getElem?_eq_some_iff.mp hp
    have hlt' : p < nodes.length := hmatch.length_eq ▸ hlt
    refine ⟨nodes[p], ?_, hmatch.get hlt hlt'⟩
    rw [hnodes, List.getElem?_append_right (Nat.le_add_right _ _), Nat.add_sub_cancel_left,
      List.getElem?_eq_getElem hlt']
  intro p t hp hbatch q u hq hlisted
  obtain ⟨n, hn, -, hdeps⟩ := hnode p t hp
  obtain ⟨m, hm, hid, -⟩ := hnode q u hq
  rw [← hdeps, ← hid, List.mem_map] at hlisted
  obtain ⟨d, hd, hdm⟩ := hlisted
  have hall := List.all_eq_true.mp (startable_of_mem hbatch).2
  rw [depsAt_of_skeleton hskeleton, mem_depsAt hn] at hall
  obtain ⟨j, hj, hdone⟩ := depDone_iff.mp (hall d hd)
  rw [findNode_of_skeleton hskeleton, hdm, scDagFindNode_of_nodup hvalid.distinct hm,
    Option.some.injEq] at hj
  rw [hj]
  exact hdone

end Order

/-- A plan that loads and is accepted is honoured from end to end if and only if each of its
tasks is one that its node can hold. -/
theorem plan_honoured_iff {a : ℕ → TaskAnswers} {response beyond : Bytes} {dag dag' : Dag}
    {root : Value} {c : Cursor}
    (hroot : scJsonParse (extractJsonFromResponse response beyond).1
      (extractJsonFromResponse response beyond).2 = .ok root c)
    (hload : scLlmCompilerParsePlan a response beyond dag = some (.ok (), dag'))
    (hvalid : scDagValidate dag' = some (.ok ())) :
    Honoured root dag dag' ↔ ∀ t ∈ planTasks root, Carried a t := by
  obtain ⟨nodes, hnodes, hmade⟩ := taskLoop_ok _ (scDagParseJson_ok hroot hload)
  have hfaithful : Faithful root dag dag' ↔ ∀ t ∈ planTasks root, Carried a t := by
    constructor
    · rintro ⟨nodes', hnodes', hmatch⟩
      obtain rfl : nodes = nodes' := List.append_cancel_left (hnodes.symm.trans hnodes')
      intro t ht
      obtain ⟨p, hp⟩ := List.mem_iff_getElem?.mp ht
      obtain ⟨hlt, rfl⟩ := List.getElem?_eq_some_iff.mp hp
      have hlt' : p < nodes.length := hmatch.length_eq ▸ hlt
      exact (MadeFrom.matches_iff (hmade.get hlt hlt')).mp (hmatch.get hlt hlt')
    · intro hcarried
      refine ⟨nodes, hnodes, List.forall₂_iff_get.mpr ⟨hmade.length_eq, fun p hp hp' => ?_⟩⟩
      exact (MadeFrom.matches_iff (hmade.get hp hp')).mpr (hcarried _ (List.get_mem _ _))
  constructor
  · intro h
    exact hfaithful.mp h.faithful
  · intro h
    have hf := hfaithful.mpr h
    refine ⟨hf, fun ops dag'' hrun => ?_⟩
    exact hf.order ((scDagValidate_ok_iff _).2.mp hvalid) (run_skeleton ops hrun)

/-! ## A text that is a plan -/

section Plain

variable {response beyond : Bytes}

theorem skipFences_of_not (h : ¬ ascii "```" <+: response) : skipFences response = response := by
  rw [skipFences, if_neg h]

theorem not_startsNumber_brace : ¬ startsNumber (ch '\x7b') := by
  rw [startsNumber]
  decide

/-- The slice taken from a text that is a JSON object itself. -/
theorem extract_object {w : Bytes} (h : dropWs response = ch '\x7b' :: w) :
    extractJsonFromResponse response beyond =
      (ch '\x7b' :: w.take (braceRun 1 w), w.drop (braceRun 1 w) ++ beyond) := by
  have hblank : ∀ b ∈ response.takeWhile isWs, b ≠ ch '\x7b' ∧ b ≠ ch '`' := by
    intro b hb
    have hws := List.mem_takeWhile_imp hb
    constructor <;> rintro rfl <;> exact absurd hws (by decide)
  have hsplit : response = response.takeWhile isWs ++ ch '\x7b' :: w := by
    rw [← h, Json.dropWs, List.takeWhile_append_dropWhile]
  have hfence : ¬ ascii "```" <+: response := by
    rintro ⟨r, hr⟩
    rw [hsplit] at hr
    cases hws : response.takeWhile isWs with
    | nil =>
      rw [hws, List.nil_append] at hr
      exact absurd (List.cons.inj hr).1 (by decide)
    | cons b bs =>
      rw [hws, List.cons_append] at hr
      exact (hblank b (by rw [hws]; exact List.mem_cons_self)).2 (List.cons.inj hr).1.symm
  have hopen : response.dropWhile (· ≠ ch '\x7b') = ch '\x7b' :: w := by
    rw [hsplit, List.dropWhile_append_of_pos]
    · rw [List.dropWhile_cons_of_neg (by simp)]
    · intro b hb
      exact decide_eq_true (hblank b hb).1
  rw [extractJsonFromResponse, skipFences_of_not hfence, hopen]

/-- What is read from the slice of a JSON object is the object. -/
theorem extract_root {w : Bytes} {root root' : Value} {c c' : Cursor}
    (h : dropWs response = ch '\x7b' :: w) (hwhole : scJsonParse response beyond = .ok root c)
    (hslice : scJsonParse (extractJsonFromResponse response beyond).1
      (extractJsonFromResponse response beyond).2 = .ok root' c') : root' = root := by
  rw [extract_object h] at hslice
  rcases (scJsonParse_ok_iff response).mp ⟨root, c, hwhole⟩ with
    ⟨rest, htext⟩ | ⟨b, u, _, _, _, _, hs, hb, -⟩
  · obtain ⟨x, hx⟩ := htext.reads
    have hread : scJsonParse response beyond = .ok x ⟨rest, beyond, 0, 0⟩ := hx.parse _ le_rfl
    have hdrop : scJsonParse (dropWs response) beyond = .ok x ⟨rest, beyond, 0, 0⟩ :=
      hx.skip.parse _ le_rfl
    rw [hwhole, Outcome.ok.injEq] at hread
    have hw : dropWs response = ch '\x7b' :: w.take (braceRun 1 w) ++ w.drop (braceRun 1 w) := by
      rw [List.cons_append, List.take_append_drop, h]
    rw [hw] at hdrop
    rw [hread.1]
    exact scJsonParse_front _ (w := w.take (braceRun 1 w)) (List.dropWhile_cons_of_neg (by decide))
      not_startsNumber_brace hslice hdrop
  · rw [h, List.cons.injEq] at hs
    exact absurd (hs.1 ▸ hb) not_startsNumber_brace

end Plain

/-! ## Ten tasks -/

/-- All copies find memory. -/
def plenty : ℕ → TaskAnswers := fun _ => ⟨true, ⟨true, true, true, fun _ => true⟩⟩

/-- A plan whose last task comes after all the others, with ids of one digit. -/
def planText (ids : Bytes) (last deps : Bytes) : Bytes :=
  ascii "\x7b\"tasks\":[" ++
    (ids.flatMap fun i => ascii "\x7b\"id\":\"" ++ i :: ascii "\",\"tool\":\"a\"\x7d,") ++
    ascii "\x7b\"id\":\"" ++ last ++ ascii "\",\"tool\":\"a\"," ++
    ascii "\"deps\":[" ++ deps ++ ascii "]\x7d]\x7d"

/-- Two tasks, the second one after the first. -/
def twoTasks : Bytes := planText (ascii "1") (ascii "2") (ascii "\"1\"")

/-- Nine tasks, and a tenth one after all of them. -/
def tenTasks : Bytes := planText (ascii "123456789") (ascii "10")
  (ascii "\"1\",\"2\",\"3\"," ++ ascii "\"4\",\"5\",\"6\"," ++ ascii "\"7\",\"8\",\"9\"")

/-- What a text gives when it is loaded into an empty graph: the plan and the graph. -/
def loaded (text : Bytes) : Option (Value × Dag) :=
  match scJsonParse text [0], scDagParseJson scDagInit plenty text [0] with
  | .ok root _, some (.ok (), dag) => some (root, dag)
  | _, _ => none

theorem loaded_some {text : Bytes} {root : Value} {dag : Dag}
    (hextract : extractJsonFromResponse text [0] = (text, [0])) (h : loaded text = some (root, dag)) :
    (∃ c, scJsonParse (extractJsonFromResponse text [0]).1 (extractJsonFromResponse text [0]).2 =
      .ok root c) ∧ scLlmCompilerParsePlan plenty text [0] scDagInit = some (.ok (), dag) := by
  rw [scLlmCompilerParsePlan, hextract]
  unfold loaded at h
  split at h
  · rename_i hroot hload
    obtain ⟨rfl, rfl⟩ := Prod.mk.inj (Option.some.inj h)
    exact ⟨⟨_, hroot⟩, hload⟩
  · cases h

theorem extract_twoTasks : extractJsonFromResponse twoTasks [0] = (twoTasks, [0]) := by
  rw [extractJsonFromResponse, skipFences_of_not (by decide +kernel)]
  decide +kernel

theorem extract_tenTasks : extractJsonFromResponse tenTasks [0] = (tenTasks, [0]) := by
  rw [extractJsonFromResponse, skipFences_of_not (by decide +kernel)]
  decide +kernel

/-- The plan of two tasks is honoured. -/
theorem plan_honoured_two : ∃ root dag, scLlmCompilerParsePlan plenty twoTasks [0] scDagInit =
    some (.ok (), dag) ∧ (Honoured root scDagInit dag ↔ ∀ t ∈ planTasks root, Carried plenty t) := by
  obtain ⟨⟨root, dag⟩, h⟩ := Option.isSome_iff_exists.mp
    (show (loaded twoTasks).isSome = true by decide +kernel)
  have hvalid : (loaded twoTasks).map (fun r => scDagValidate r.2) = some (some (.ok ())) := by
    decide +kernel
  rw [h, Option.map_some, Option.some.injEq] at hvalid
  obtain ⟨⟨c, hroot⟩, hload⟩ := loaded_some extract_twoTasks h
  exact ⟨root, dag, hload, plan_honoured_iff hroot hload hvalid⟩

/-- Eight tasks done, the ninth one not. -/
def eightDone : List DagOp :=
  .nextBatch :: (List.range 8).map fun idx => .setStatus idx .done

/-- The plan of ten tasks loses the ninth dependency: the tenth task is batched before the
ninth one is done. -/
theorem plan_drops_ninth : ∃ root c dag,
    scJsonParse (extractJsonFromResponse tenTasks [0]).1 (extractJsonFromResponse tenTasks [0]).2 =
      .ok root c ∧
    scLlmCompilerParsePlan plenty tenTasks [0] scDagInit = some (.ok (), dag) ∧
    scDagValidate dag = some (.ok ()) ∧ ¬ Honoured root scDagInit dag := by
  obtain ⟨⟨root, dag⟩, h⟩ := Option.isSome_iff_exists.mp
    (show (loaded tenTasks).isSome = true by decide +kernel)
  obtain ⟨⟨c, hroot⟩, hload⟩ := loaded_some extract_tenTasks h
  have hvalid : (loaded tenTasks).map (fun r => scDagValidate r.2) = some (some (.ok ())) := by
    decide +kernel
  have hplan : (loaded tenTasks).map (fun r => ((planTasks r.1)[9]?.map fun t => listedDeps t.1,
      (planTasks r.1)[8]?.map fun t => taskId t.1)) =
        some (some [[0x31], [0x32], [0x33], [0x34], [0x35], [0x36], [0x37], [0x38], [0x39]],
          some [0x39]) := by
    decide +kernel
  have hrun : (loaded tenTasks).map (fun r => (Machine.run dagOpStep r.2 eightDone).map
      fun dag => (decide (9 ∈ (scDagNextBatch dag).1), dag.statusAt 8)) =
        some (some (true, some .pending)) := by decide +kernel
  rw [h, Option.map_some, Option.some.injEq] at hvalid hplan hrun
  refine ⟨root, c, dag, hroot, hload, hvalid, fun hhonoured => ?_⟩
  obtain ⟨dag', hdag', hlast⟩ := Option.map_eq_some_iff.mp hrun
  obtain ⟨hbatch, hpending⟩ := Prod.mk.inj hlast
  obtain ⟨hdeps, hid⟩ := Prod.mk.inj hplan
  obtain ⟨t, ht, hdeps⟩ := Option.map_eq_some_iff.mp hdeps
  obtain ⟨u, hu, hid⟩ := Option.map_eq_some_iff.mp hid
  have horder : DepsFirst root 0 dag' := hhonoured.order eightDone dag' hdag'
  have hnine : taskId u.1 ∈ listedDeps t.1 := by
    rw [hdeps, hid]
    simp
  have hdone := horder 9 t ht (by rw [Nat.zero_add]; exact of_decide_eq_true hbatch) 8 u hu hnine
  rw [Nat.zero_add] at hdone
  rw [hdone] at hpending
  exact absurd hpending (by simp)

end SeaClaw.Agent
