import SeaClaw.Agent.Dag
import Mathlib.Logic.Relation

/-!
# Which graphs are accepted

The visit finds a cycle exactly when there is one, and never runs out of calls. So the
accepted graphs are those with distinct ids, without dangling dependencies and without
cycles.
-/

namespace SeaClaw.Agent

open SeaClaw.Lib Relation

/-- The node at `i` names the node at `j` as a dependency. -/
def Dag.Needs (dag : Dag) (i j : ℕ) : Prop :=
  ∃ d ∈ dag.depsAt i, scDagFindNode dag d.octets = some j

variable {dag : Dag}

theorem scDagFindNode_some {id : Bytes} {j : ℕ} (h : scDagFindNode dag id = some j) :
    ∃ n, dag.nodes[j]? = some n ∧ n.id.octets = id := by
  obtain ⟨hj, hid, -⟩ := List.findIdx?_eq_some_iff_getElem.mp h
  exact ⟨dag.nodes[j], List.getElem?_eq_getElem hj, by simpa using hid⟩

theorem Dag.Needs.lt {i j : ℕ} (h : dag.Needs i j) : j < dag.nodes.length := by
  obtain ⟨d, -, hd⟩ := h
  obtain ⟨n, hn, -⟩ := scDagFindNode_some hd
  exact (List.getElem?_eq_some_iff.mp hn).1

/-- With distinct ids a name finds the node that has it. -/
theorem scDagFindNode_of_nodup (h : (dag.nodes.map fun n => n.id.octets).Nodup) {j : ℕ}
    {n : DagNode} (hn : dag.nodes[j]? = some n) : scDagFindNode dag n.id.octets = some j := by
  obtain ⟨hj, rfl⟩ := List.getElem?_eq_some_iff.mp hn
  rw [scDagFindNode, List.findIdx?_eq_some_iff_getElem]
  refine ⟨hj, by simp, ?_⟩
  intro i hi heq
  have hlt : i < dag.nodes.length := hi.trans hj
  have hmap : (dag.nodes.map fun n => n.id.octets)[i]? =
      (dag.nodes.map fun n => n.id.octets)[j]? := by
    simpa [List.getElem?_eq_getElem hlt, List.getElem?_eq_getElem hj] using heq
  have := (List.getElem?_inj (by simpa using hlt) h).mp hmap
  omega

/-! ## The visit -/

/-- How many nodes the visit has not reached. -/
def unseen (dag : Dag) (visited : ℕ → DagVisit) : ℕ :=
  (List.range dag.nodes.length).countP fun i => visited i = .none

/-- No cycle goes through a node that the visit has left. -/
def LeftAcyclic (dag : Dag) (visited : ℕ → DagVisit) : Prop :=
  ∀ i, visited i = .visited → Acc (fun j i => dag.Needs i j) i

/-- What a visit that finds no cycle changes: it only leaves nodes. -/
structure Leaves (visited visited' : ℕ → DagVisit) : Prop where
  visiting : ∀ i, visited' i = .visiting ↔ visited i = .visiting
  visited : ∀ i, visited i = .visited → visited' i = .visited

theorem Leaves.refl (v : ℕ → DagVisit) : Leaves v v := ⟨fun _ => Iff.rfl, fun _ => id⟩

theorem Leaves.trans {u v w : ℕ → DagVisit} (h : Leaves u v) (h' : Leaves v w) : Leaves u w :=
  ⟨fun i => (h'.visiting i).trans (h.visiting i), fun i hi => h'.visited i (h.visited i hi)⟩

theorem Leaves.unseen_le {v v' : ℕ → DagVisit} (h : Leaves v v') :
    unseen dag v' ≤ unseen dag v := by
  apply List.countP_mono_left
  intro i _ hi
  rw [decide_eq_true_eq] at hi ⊢
  cases hv : v i with
  | none => rfl
  | visiting =>
    rw [(h.visiting i).mpr hv] at hi
    exact absurd hi (by simp)
  | visited =>
    rw [h.visited i hv] at hi
    exact absurd hi (by simp)

/-- Entering a node leaves one node fewer to reach. -/
theorem unseen_enter {v : ℕ → DagVisit} {idx : ℕ} (hidx : idx < dag.nodes.length)
    (hv : v idx = .none) :
    unseen dag (Function.update v idx .visiting) < unseen dag v := by
  unfold unseen
  rw [List.countP_eq_length_filter, List.countP_eq_length_filter]
  have hsplit : ∀ l : List ℕ,
      (l.filter fun i => Function.update v idx DagVisit.visiting i = .none) =
        (l.filter fun i => v i = .none).filter fun i => i ≠ idx := by
    intro l
    rw [List.filter_filter]
    apply List.filter_congr
    intro i _
    by_cases hi : i = idx <;> simp [hi]
  rw [hsplit]
  apply List.length_filter_lt_length_iff_exists.mpr
  exact ⟨idx, by simp [hidx, hv], by simp⟩

/-- What the loop over dependencies does, when each visit does what it should. -/
theorem visitDeps_spec {visit : ℕ → (ℕ → DagVisit) → Option (Bool × (ℕ → DagVisit))}
    {idx bound : ℕ}
    (hvisit : ∀ j v, j < dag.nodes.length → unseen dag v < bound → LeftAcyclic dag v →
      (∀ k, v k = .visiting → TransGen dag.Needs k j) →
      ∃ r, visit j v = some r ∧ (r.1 = true → ∃ k, TransGen dag.Needs k k) ∧
        (r.1 = false → LeftAcyclic dag r.2 ∧ Leaves v r.2 ∧ r.2 j = .visited))
    (ds : List CString) (v : ℕ → DagVisit) (hds : ∀ d ∈ ds, d ∈ dag.depsAt idx)
    (hbound : unseen dag v < bound) (hleft : LeftAcyclic dag v)
    (hpath : ∀ k, v k = .visiting → ReflTransGen dag.Needs k idx) :
    ∃ r, visitDeps dag visit ds v = some r ∧ (r.1 = true → ∃ k, TransGen dag.Needs k k) ∧
      (r.1 = false → LeftAcyclic dag r.2 ∧ Leaves v r.2 ∧
        ∀ d ∈ ds, ∀ j, scDagFindNode dag d.octets = some j → r.2 j = .visited) := by
  induction ds generalizing v with
  | nil => exact ⟨(false, v), rfl, by simp, fun _ => ⟨hleft, .refl v, by simp⟩⟩
  | cons d ds ih =>
    rw [List.forall_mem_cons] at hds
    rw [visitDeps]
    cases hfind : scDagFindNode dag d.octets with
    | none =>
      obtain ⟨r, hr, hcycle, hdone⟩ := ih v hds.2 hbound hleft hpath
      refine ⟨r, hr, hcycle, fun hfalse => ?_⟩
      obtain ⟨hleft', hleaves, hvisited⟩ := hdone hfalse
      refine ⟨hleft', hleaves, List.forall_mem_cons.mpr ⟨fun j hj => ?_, hvisited⟩⟩
      rw [hfind] at hj
      exact absurd hj (by simp)
    | some j =>
      have hneeds : dag.Needs idx j := ⟨d, hds.1, hfind⟩
      obtain ⟨r, hr, hcycle, hdone⟩ := hvisit j v hneeds.lt hbound hleft
        fun k hk => TransGen.tail' (hpath k hk) hneeds
      simp only [hr, Option.bind_some]
      cases hfound : r.1 with
      | true => exact ⟨r, by rw [if_pos rfl], hcycle, by simp [hfound]⟩
      | false =>
        obtain ⟨hleft', hleaves, hj⟩ := hdone hfound
        obtain ⟨r', hr', hcycle', hdone'⟩ := ih r.2 hds.2
          (hleaves.unseen_le.trans_lt hbound) hleft'
          fun k hk => hpath k ((hleaves.visiting k).mp hk)
        refine ⟨r', by simpa using hr', hcycle', fun hfalse => ?_⟩
        obtain ⟨hleft'', hleaves', hvisited⟩ := hdone' hfalse
        refine ⟨hleft'', hleaves.trans hleaves', List.forall_mem_cons.mpr ⟨?_, hvisited⟩⟩
        intro j' hj'
        obtain rfl : j = j' := Option.some.inj (hfind.symm.trans hj')
        exact hleaves'.visited j hj

/-- A visit finds a cycle, or leaves its node without one. It needs no more nested calls
than there are nodes to reach, and one. -/
theorem dagHasCycleVisit_spec (depth : ℕ) : ∀ (idx : ℕ) (v : ℕ → DagVisit),
    idx < dag.nodes.length → unseen dag v < depth → LeftAcyclic dag v →
    (∀ k, v k = .visiting → TransGen dag.Needs k idx) →
    ∃ r, dagHasCycleVisit dag depth idx v = some r ∧
      (r.1 = true → ∃ k, TransGen dag.Needs k k) ∧
      (r.1 = false → LeftAcyclic dag r.2 ∧ Leaves v r.2 ∧ r.2 idx = .visited) := by
  induction depth with
  | zero => exact fun idx v _ hbound => absurd hbound (Nat.not_lt_zero _)
  | succ depth ih =>
    intro idx v hidx hbound hleft hpath
    rw [dagHasCycleVisit]
    cases hv : v idx with
    | visiting => exact ⟨(true, v), rfl, fun _ => ⟨idx, hpath idx hv⟩, by simp⟩
    | visited => exact ⟨(false, v), rfl, by simp, fun _ => ⟨hleft, .refl v, hv⟩⟩
    | none =>
      have hlt := unseen_enter hidx hv
      have hleft' : LeftAcyclic dag (Function.update v idx .visiting) := by
        intro i hi
        by_cases hii : i = idx
        · rw [hii, Function.update_self] at hi
          exact absurd hi (by simp)
        · rw [Function.update_of_ne hii] at hi
          exact hleft i hi
      obtain ⟨r, hr, hcycle, hdone⟩ := visitDeps_spec ih (dag.depsAt idx)
        (Function.update v idx .visiting) (fun _ => id) (by omega) hleft' (by
          intro k hk
          by_cases hkk : k = idx
          · rw [hkk]
          · rw [Function.update_of_ne hkk] at hk
            exact (hpath k hk).to_reflTransGen)
      simp only
      rw [hr, Option.map_some]
      cases hfound : r.1 with
      | true => exact ⟨r, by rw [if_pos rfl], hcycle, by simp [hfound]⟩
      | false =>
        obtain ⟨hleft'', hleaves, hvisited⟩ := hdone hfound
        refine ⟨(false, Function.update r.2 idx .visited), by simp, by simp, fun _ => ⟨?_, ?_, ?_⟩⟩
        · intro i hi
          by_cases hii : i = idx
          · subst hii
            refine ⟨_, ?_⟩
            rintro j ⟨d, hd, hj⟩
            exact hleft'' j (hvisited d hd j hj)
          · simp only [Function.update_of_ne hii] at hi
            exact hleft'' i hi
        · refine ⟨fun i => ?_, fun i hi => ?_⟩
          · by_cases hii : i = idx
            · simp [hii, hv]
            · simpa [hii] using hleaves.visiting i
          · by_cases hii : i = idx
            · simp [hii]
            · simpa [hii] using hleaves.visited i (by simpa [hii] using hi)
        · exact Function.update_self ..

/-- The loop over all nodes. -/
theorem visitAll_spec (is : List ℕ) (v : ℕ → DagVisit) (his : ∀ i ∈ is, i < dag.nodes.length)
    (hnone : ∀ i, v i ≠ .visiting) (hleft : LeftAcyclic dag v) :
    ∃ cycle, visitAll dag is v = some cycle ∧
      (cycle = true → ∃ k, TransGen dag.Needs k k) ∧
      (cycle = false → ∀ i ∈ is, Acc (fun j i => dag.Needs i j) i) := by
  induction is generalizing v with
  | nil => exact ⟨false, rfl, by simp, by simp⟩
  | cons i is ih =>
    rw [List.forall_mem_cons] at his
    have hbound : unseen dag v < dag.nodes.length + 1 := by
      have := List.countP_le_length (p := fun i => decide (v i = .none))
        (l := List.range dag.nodes.length)
      rw [List.length_range] at this
      exact Nat.lt_succ_of_le this
    obtain ⟨r, hr, hcycle, hdone⟩ := dagHasCycleVisit_spec _ i v his.1 hbound hleft
      fun k hk => absurd hk (hnone k)
    rw [visitAll, hr, Option.bind_some]
    cases hfound : r.1 with
    | true => exact ⟨true, by rw [if_pos rfl], fun _ => hcycle hfound, by simp⟩
    | false =>
      obtain ⟨hleft', hleaves, hi⟩ := hdone hfound
      obtain ⟨cycle, hrun, hcycle', hdone'⟩ := ih r.2 his.2
        (fun k hk => hnone k ((hleaves.visiting k).mp hk)) hleft'
      refine ⟨cycle, by simpa using hrun, hcycle', fun hfalse => ?_⟩
      exact List.forall_mem_cons.mpr ⟨hleft' i hi, hdone' hfalse⟩

/-! ## Accepted graphs -/

/-- The names are distinct and name nodes, and no node needs itself in the end. -/
structure Dag.Valid (dag : Dag) : Prop where
  distinct : (dag.nodes.map fun n => n.id.octets).Nodup
  found : ∀ n ∈ dag.nodes, ∀ d ∈ n.deps, ∃ j, scDagFindNode dag d.octets = some j
  acyclic : ∀ i, Acc (fun j i => dag.Needs i j) i

theorem not_transGen_of_acc {r : ℕ → ℕ → Prop} (h : ∀ i, Acc (fun j i => r i j) i) (k : ℕ) :
    ¬ TransGen r k k := by
  have hwf : WellFounded (TransGen fun j i => r i j) := (WellFounded.intro h).transGen
  intro hk
  have hswap : TransGen (Function.swap r) k k := transGen_swap.mpr hk
  exact hwf.irrefl.irrefl k hswap

/-- A graph is accepted exactly when it is valid, and every other one is refused. -/
theorem scDagValidate_ok_iff (dag : Dag) :
    (∃ r, scDagValidate dag = some r) ∧ (scDagValidate dag = some (.ok ()) ↔ dag.Valid) := by
  have hrange : ∀ i ∈ List.range dag.nodes.length, i < dag.nodes.length :=
    fun i hi => List.mem_range.mp hi
  obtain ⟨cycle, hrun, hcycle, hdone⟩ :=
    visitAll_spec _ (fun _ => .none) hrange (by simp) (by simp [LeftAcyclic])
  rw [scDagValidate]
  by_cases hdistinct : (dag.nodes.map fun n => n.id.octets).Nodup
  swap
  · simp only [hdistinct, not_false_eq_true, if_true]
    exact ⟨⟨_, rfl⟩, iff_of_false (by simp) fun h => hdistinct h.distinct⟩
  simp only [hdistinct, not_true_eq_false, if_false]
  by_cases hdangling : ∃ n ∈ dag.nodes, ∃ d ∈ n.deps, scDagFindNode dag d.octets = none
  · rw [if_pos hdangling]
    refine ⟨⟨_, rfl⟩, iff_of_false (by simp) fun h => ?_⟩
    obtain ⟨n, hn, d, hd, hnone⟩ := hdangling
    obtain ⟨j, hj⟩ := h.found n hn d hd
    rw [hnone] at hj
    exact absurd hj (by simp)
  rw [if_neg hdangling, hrun, Option.map_some]
  refine ⟨⟨_, rfl⟩, ?_⟩
  cases cycle with
  | true =>
    obtain ⟨k, hk⟩ := hcycle rfl
    exact iff_of_false (by simp) fun h => not_transGen_of_acc h.acyclic k hk
  | false =>
    refine iff_of_true (by simp) ⟨hdistinct, ?_, ?_⟩
    · intro n hn d hd
      rw [← Option.ne_none_iff_exists']
      exact fun hnone => hdangling ⟨n, hn, d, hd, hnone⟩
    · intro i
      by_cases hi : i < dag.nodes.length
      · exact hdone rfl i (List.mem_range.mpr hi)
      · refine ⟨_, ?_⟩
        rintro j ⟨d, hd, -⟩
        rw [Dag.depsAt, List.getElem?_eq_none (Nat.le_of_not_lt hi)] at hd
        exact absurd hd (by simp)

/-! ## Cycles among the names -/

/-- A node with the first name lists the second one as a dependency. -/
def Dag.Lists (dag : Dag) (a b : Bytes) : Prop :=
  ∃ n ∈ dag.nodes, n.id.octets = a ∧ ∃ d ∈ n.deps, d.octets = b

/-- The name of the node at a place. -/
def Dag.nameAt (dag : Dag) (i : ℕ) : Bytes :=
  match dag.nodes[i]? with
  | some n => n.id.octets
  | none => []

/-- A dependency between places is one between their names. -/
theorem Dag.Needs.lists {dag : Dag} {i j : ℕ} (h : dag.Needs i j) :
    dag.Lists (dag.nameAt i) (dag.nameAt j) := by
  obtain ⟨d, hd, hj⟩ := h
  obtain ⟨m, hm, hid⟩ := scDagFindNode_some hj
  cases hn : dag.nodes[i]? with
  | none =>
    rw [Dag.depsAt, hn] at hd
    exact absurd hd List.not_mem_nil
  | some n =>
    rw [Dag.depsAt, hn] at hd
    refine ⟨n, List.mem_of_getElem? hn, ?_, d, hd, ?_⟩
    · rw [Dag.nameAt, hn]
    · rw [Dag.nameAt, hm]
      exact hid.symm

/-- With distinct names that name nodes, a dependency between names is one between places. -/
theorem Dag.Lists.needs {dag : Dag} (hdistinct : (dag.nodes.map fun n => n.id.octets).Nodup)
    (hfound : ∀ n ∈ dag.nodes, ∀ d ∈ n.deps, ∃ j, scDagFindNode dag d.octets = some j)
    {a b : Bytes} (h : dag.Lists a b) :
    dag.Needs ((scDagFindNode dag a).getD 0) ((scDagFindNode dag b).getD 0) := by
  obtain ⟨n, hn, rfl, d, hd, rfl⟩ := h
  obtain ⟨i, hi, rfl⟩ := List.getElem_of_mem hn
  obtain ⟨j, hj⟩ := hfound _ hn d hd
  have hget : dag.nodes[i]? = some dag.nodes[i] := List.getElem?_eq_getElem hi
  rw [scDagFindNode_of_nodup hdistinct hget, hj]
  refine ⟨d, ?_, hj⟩
  rw [Dag.depsAt, Option.getD_some, hget]
  exact hd

/-- There is a cycle, or every chain of dependencies ends. -/
theorem cycle_or_acc (dag : Dag) :
    (∃ k, TransGen dag.Needs k k) ∨ ∀ i, Acc (fun j i => dag.Needs i j) i := by
  obtain ⟨cycle, -, hcycle, hdone⟩ := visitAll_spec (List.range dag.nodes.length)
    (fun _ => .none) (fun i hi => List.mem_range.mp hi) (by simp) (by simp [LeftAcyclic])
  cases cycle with
  | true => exact Or.inl (hcycle rfl)
  | false =>
    refine Or.inr fun i => ?_
    by_cases hi : i < dag.nodes.length
    · exact hdone rfl i (List.mem_range.mpr hi)
    · refine ⟨_, ?_⟩
      rintro j ⟨d, hd, -⟩
      rw [Dag.depsAt, List.getElem?_eq_none (Nat.le_of_not_lt hi)] at hd
      exact absurd hd List.not_mem_nil

/-- A graph is accepted exactly if its names are distinct, every dependency is the name of a node,
and no name depends on itself, be it in one step or in several. -/
theorem dag_validate_exact (dag : Dag) : scDagValidate dag = some (.ok ()) ↔
    (dag.nodes.map fun n => n.id.octets).Nodup ∧
    (∀ n ∈ dag.nodes, ∀ d ∈ n.deps, ∃ m ∈ dag.nodes, m.id.octets = d.octets) ∧
    ∀ a, ¬ TransGen dag.Lists a a := by
  rw [(scDagValidate_ok_iff dag).2]
  constructor
  · rintro ⟨hdistinct, hfound, hacyclic⟩
    refine ⟨hdistinct, ?_, ?_⟩
    · intro n hn d hd
      obtain ⟨j, hj⟩ := hfound n hn d hd
      obtain ⟨m, hm, hid⟩ := scDagFindNode_some hj
      exact ⟨m, List.mem_of_getElem? hm, hid⟩
    · intro a ha
      have hlift := TransGen.lift (p := dag.Needs) (fun b => (scDagFindNode dag b).getD 0)
        (fun _ _ h => Dag.Lists.needs hdistinct hfound h) a a ha
      exact not_transGen_of_acc hacyclic _ hlift
  · rintro ⟨hdistinct, hnamed, hcycle⟩
    refine ⟨hdistinct, ?_, ?_⟩
    · intro n hn d hd
      obtain ⟨m, hm, hid⟩ := hnamed n hn d hd
      obtain ⟨j, hj, rfl⟩ := List.getElem_of_mem hm
      exact ⟨j, hid ▸ scDagFindNode_of_nodup hdistinct (List.getElem?_eq_getElem hj)⟩
    · rcases cycle_or_acc dag with ⟨k, hk⟩ | hacc
      · have hlift := TransGen.lift (p := dag.Lists) dag.nameAt (fun _ _ h => Dag.Needs.lists h) k k hk
        exact absurd hlift (hcycle _)
      · exact hacc

end SeaClaw.Agent
