import SeaClaw.Agent.Dag
import SeaClaw.Json.Parse
import SeaClaw.Json.Value

/-!
# Loading a plan

A plan is a JSON object in the answer of a model, perhaps behind a line that opens a block of
code. Each task object with an id and a tool becomes a node.
-/

namespace SeaClaw.Agent

open SeaClaw.Lib SeaClaw.Json

/-! ## The graph in a JSON text -/

/-- What the memory holds out for one task: for the text of its arguments, and for the copies
that its node makes. -/
structure TaskAnswers where
  stringify : Bool
  copies : NodeCopies

/-- The arguments of a task as they are handed to `sc_dag_add_node`. -/
def argsText (found : Bool) (t : Value) : CString :=
  match scJsonObjectGet t (ascii "args") with
  | some args => if found then .ofBytes (scJsonStringify args) else .ofBytes (ascii "\x7b\x7d")
  | none => .ofBytes (ascii "\x7b\x7d")

/-- A string among the elements of an array. -/
def stringItem : Value → Option Bytes
  | .string s => some s
  | _ => none

/-- The elements of the member `deps`, if that is an array. -/
def depItems (t : Value) : List Value :=
  match scJsonObjectGet t (ascii "deps") with
  | some (.array items) => items
  | _ => []

/-- `deps_arr`: the strings among the first elements of `deps`. -/
def depsArr (t : Value) : List (Option CString) :=
  (((depItems t).take dagMaxDeps).filterMap stringItem).map fun s => some (.ofBytes s)

/-- The loop of `sc_dag_parse_json` over the elements of `tasks`. -/
def taskLoop (a : ℕ → TaskAnswers) : ℕ → List Value → Dag → Except ScError Unit × Dag
  | _, [], dag => (.ok (), dag)
  | i, t :: ts, dag =>
    match scJsonGetString t (ascii "id"), scJsonGetString t (ascii "tool") with
    | some id, some tool =>
      match scDagAddNode dag (a i).copies (some (.ofBytes id)) (some (.ofBytes tool))
          (some (argsText (a i).stringify t)) (depsArr t) with
      | (.error e, dag) => (.error e, dag)
      | (.ok (), dag) => taskLoop a (i + 1) ts dag
    | _, _ => taskLoop a (i + 1) ts dag

/-- `sc_dag_parse_json` of a slice, with the memory after it; `none` where the parser leaves
the readable memory. -/
def scDagParseJson (dag : Dag) (a : ℕ → TaskAnswers) (json beyond : Bytes) :
    Option (Except ScError Unit × Dag) :=
  match scJsonParse json beyond with
  | .overread _ => none
  | .outOfFuel => none
  | .err e _ => some (.error e, dag)
  | .ok root _ =>
    match root with
    | .object pairs =>
      match scJsonObjectGet (.object pairs) (ascii "tasks") with
      | some (.array items) => some (taskLoop a 0 items dag)
      | _ => some (.error .jsonParse, dag)
    | _ => some (.error .jsonParse, dag)

/-! ## The JSON text in an answer -/

/-- What follows the three backticks of a line that opens a block of code. -/
def afterFence (s : Bytes) : Bytes :=
  let s := s.dropWhile fun b => b = ch ' ' ∨ b = ch '\t'
  let s := if ascii "json" <+: s ∨ ascii "JSON" <+: s then s.drop 4 else s
  (s.dropWhile (· ≠ ch '\n')).drop 1

theorem afterFence_length_le (s : Bytes) : (afterFence s).length ≤ s.length := by
  have hsuffix : ∀ l : Bytes, (l.dropWhile (· ≠ ch '\n')).drop 1 <:+ l := fun l =>
    (List.drop_suffix _ _).trans (List.dropWhile_suffix _)
  apply List.IsSuffix.length_le
  simp only [afterFence]
  split_ifs
  · exact ((hsuffix _).trans (List.drop_suffix _ _)).trans (List.dropWhile_suffix _)
  · exact (hsuffix _).trans (List.dropWhile_suffix _)

/-- The first loop of `extract_json_from_response`. -/
def skipFences (s : Bytes) : Bytes :=
  if ascii "```" <+: s then skipFences (afterFence (s.drop 3)) else s
termination_by s.length
decreasing_by
  rename_i h
  have hlen : 3 ≤ s.length := h.length_le
  have hle := afterFence_length_le (s.drop 3)
  rw [List.length_drop] at hle
  omega

/-- How far the last loop goes, from inside so many braces. -/
def braceRun : ℕ → Bytes → ℕ
  | 0, _ => 0
  | _ + 1, [] => 0
  | depth + 1, b :: s =>
    1 + braceRun (if b = ch '\x7b' then depth + 2 else if b = ch '\x7d' then depth else depth + 1) s

/-- `extract_json_from_response`: the slice, and the memory after it. -/
def extractJsonFromResponse (s beyond : Bytes) : Bytes × Bytes :=
  match (skipFences s).dropWhile (· ≠ ch '\x7b') with
  | [] => (s, beyond)
  | b :: rest => (b :: rest.take (braceRun 1 rest), rest.drop (braceRun 1 rest) ++ beyond)

/-- `sc_llm_compiler_parse_plan` -/
def scLlmCompilerParsePlan (a : ℕ → TaskAnswers) (response beyond : Bytes) (dag : Dag) :
    Option (Except ScError Unit × Dag) :=
  scDagParseJson dag a (extractJsonFromResponse response beyond).1
    (extractJsonFromResponse response beyond).2

end SeaClaw.Agent
