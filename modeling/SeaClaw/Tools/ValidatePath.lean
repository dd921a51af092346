import SeaClaw.Core.Error
import SeaClaw.Lib.PosixPath

/-!
# The path check of the file tools

`sc_tool_validate_path` of `tools/validation.c`, and the paths that `apply_patch_execute` and
`diff_execute` hand to `fopen` after it. Both open the text they were given, so a relative path
is looked up from the working directory of the process.
-/

namespace SeaClaw.Tools

open SeaClaw.Lib

/-- `SC_PATH_MAX` -/
def scPathMax : ℕ := 4096

/-- `\`, which the check takes for a separator. -/
def backslash : UInt8 := 0x5c

/-- What the check takes for a separator. -/
def isSep (b : UInt8) : Bool := b == slash || b == backslash

/-- Whether nothing or a separator follows. -/
def atBoundary (s : Bytes) : Bool := s.head?.all isSep

/-- The scan for `..` between separators; `sepBefore` tells of the octet before the text. -/
def hasDotDot : Bool → Bytes → Bool
  | _, [] => false
  | sepBefore, b :: s =>
    (sepBefore && dotdot.isPrefixOf (b :: s) && atBoundary (s.drop 1)) || hasDotDot (isSep b) s

/-- `isalpha` as the check spells it. -/
def isAsciiLetter (b : UInt8) : Bool :=
  (ch 'A' ≤ b && b ≤ ch 'Z') || (ch 'a' ≤ b && b ≤ ch 'z')

/-- A drive letter, a colon and a separator. -/
def hasDrive : Bytes → Bool
  | a :: b :: c :: _ => isAsciiLetter a && b == ch ':' && isSep c
  | _ => false

/-- `is_absolute` -/
def isAbsolute (path : Bytes) : Bool := startsAtRoot path || hasDrive path

/-- The workspace directory without the slashes at its end. -/
def trimSlashes (dir : Bytes) : Bytes := dir.rdropWhile (· = slash)

/-- Whether the text starts with the directory and is not continued by a longer name. -/
def isUnder (path dir : Bytes) : Bool :=
  dir.length ≤ path.length && path.take dir.length == dir && atBoundary (path.drop dir.length)

/-- `sc_tool_validate_path`; no workspace directory is `none` or the empty text. -/
def scToolValidatePath (path : CString) (workspaceDir : Option CString) : Except ScError Unit :=
  if path.octets = [] then .error .toolValidation
  else if scPathMax < path.octets.length then .error .toolValidation
  else if hasDotDot true path.octets then .error .toolValidation
  else match workspaceDir with
    | none => .ok ()
    | some dir =>
      if dir.octets ≠ [] ∧ isAbsolute path.octets ∧ ¬ isUnder path.octets (trimSlashes dir.octets)
      then .error .toolValidation
      else .ok ()

/-- The path that `apply_patch_execute` opens, or the text of its refusal. -/
def applyPatchOpens (workspaceDir file patch : Option CString) : Except Bytes CString :=
  match file, patch with
  | some file, some patch =>
    match scToolValidatePath file workspaceDir with
    | .error _ => .error (ascii "path traversal or invalid path")
    | .ok _ =>
      if 1048576 < patch.octets.length then .error (ascii "patch too large (max 1MB)")
      else .ok file
  | _, _ => .error (ascii "missing file or patch")

/-- The paths that the action `diff` of `diff_execute` opens, or the text of its refusal. -/
def diffOpens (workspaceDir fileA fileB : Option CString) : Except Bytes (CString × CString) :=
  match fileA, fileB with
  | some fileA, some fileB =>
    match scToolValidatePath fileA workspaceDir with
    | .error _ => .error (ascii "file_a path not allowed")
    | .ok _ =>
      match scToolValidatePath fileB workspaceDir with
      | .error _ => .error (ascii "file_b path not allowed")
      | .ok _ => .ok (fileA, fileB)
  | _, _ => .error (ascii "missing file_a or file_b")

/-- The path `q` that a tool opens for its argument `path`. -/
inductive ToolOpens (workspaceDir : Option CString) (path q : CString) : Prop
  | applyPatch (patch : CString)
      (h : applyPatchOpens workspaceDir (some path) (some patch) = .ok q)
  | diffA (fileB r : CString) (h : diffOpens workspaceDir (some path) (some fileB) = .ok (q, r))
  | diffB (fileA r : CString) (h : diffOpens workspaceDir (some fileA) (some path) = .ok (r, q))

/-- What an accepted path is. -/
theorem scToolValidatePath_eq_ok {path : CString} {workspaceDir : Option CString}
    (h : scToolValidatePath path workspaceDir = .ok ()) :
    path.octets ≠ [] ∧ hasDotDot true path.octets = false ∧
      ∀ dir, workspaceDir = some dir → dir.octets ≠ [] → isAbsolute path.octets = true →
        isUnder path.octets (trimSlashes dir.octets) = true := by
  unfold scToolValidatePath at h
  split_ifs at h with hnil hlong hdots
  refine ⟨hnil, by simpa using hdots, ?_⟩
  rintro dir rfl hdir habs
  by_contra hunder
  exact absurd h (by simp [hdir, habs, hunder])

theorem applyPatchOpens_eq_ok {workspaceDir : Option CString} {file patch q : CString} :
    applyPatchOpens workspaceDir (some file) (some patch) = .ok q ↔
      scToolValidatePath file workspaceDir = .ok () ∧ patch.octets.length ≤ 1048576 ∧ q = file := by
  rw [applyPatchOpens]
  rcases scToolValidatePath file workspaceDir with e | ⟨⟩
  · simp
  · simp only [true_and]
    split_ifs with hlong
    · simp [hlong]
    · simp [Nat.le_of_not_lt hlong, eq_comm]

theorem diffOpens_eq_ok {workspaceDir : Option CString} {fileA fileB q r : CString} :
    diffOpens workspaceDir (some fileA) (some fileB) = .ok (q, r) ↔
      scToolValidatePath fileA workspaceDir = .ok () ∧
        scToolValidatePath fileB workspaceDir = .ok () ∧ q = fileA ∧ r = fileB := by
  rw [diffOpens]
  rcases scToolValidatePath fileA workspaceDir with e | ⟨⟩
  · simp
  · rcases scToolValidatePath fileB workspaceDir with e | ⟨⟩
    · simp
    · simp [eq_comm]

/-- The tools open the text that was checked, and every text that passes the check. -/
theorem toolOpens_iff {workspaceDir : Option CString} {path q : CString} :
    ToolOpens workspaceDir path q ↔ scToolValidatePath path workspaceDir = .ok () ∧ q = path := by
  constructor
  · rintro (⟨patch, h⟩ | ⟨fileB, r, h⟩ | ⟨fileA, r, h⟩)
    · obtain ⟨hok, -, hq⟩ := applyPatchOpens_eq_ok.mp h
      exact ⟨hok, hq⟩
    · obtain ⟨hok, -, hq, -⟩ := diffOpens_eq_ok.mp h
      exact ⟨hok, hq⟩
    · obtain ⟨-, hok, -, hq⟩ := diffOpens_eq_ok.mp h
      exact ⟨hok, hq⟩
  · rintro ⟨hok, rfl⟩
    exact .applyPatch (CString.ofBytes []) (applyPatchOpens_eq_ok.mpr ⟨hok, by decide, rfl⟩)

/-- The scan finds `..` as a component of the path. -/
theorem dotdot_notMem_of_scan {sepBefore : Bool} {p : Bytes} (h : hasDotDot sepBefore p = false) :
    dotdot ∉ (components p).tail ∧ (sepBefore = true → (components p).head? ≠ some dotdot) := by
  induction p generalizing sepBefore with
  | nil => simp [components_of_notMem, dotdot]
  | cons b p ih =>
    rw [hasDotDot, Bool.or_eq_false_iff] at h
    obtain ⟨htail, hhead⟩ := ih h.2
    obtain ⟨cs, hcs⟩ := components_eq_cons p
    rw [hcs, List.tail_cons] at htail
    by_cases hb : b = slash
    · rw [hcs] at hhead
      rw [hb, components_cons_slash, hcs, List.tail_cons, List.mem_cons, not_or]
      refine ⟨⟨fun he => hhead (by simp [hb, isSep]) (by rw [List.head?_cons, ← he]), htail⟩, ?_⟩
      intro _
      simp [dotdot]
    · rw [components_cons_of_ne hb, hcs, List.modifyHead_cons]
      refine ⟨htail, ?_⟩
      rintro rfl hdots
      rw [List.head?_cons, Option.some.injEq, dotdot, List.cons.injEq] at hdots
      obtain ⟨rfl, hdots⟩ := hdots
      -- the rest starts with a dot that nothing or a slash follows
      have hscan : (dotdot.isPrefixOf (0x2e :: p) && atBoundary (p.drop 1)) = true := by
        cases p with
        | nil => exact absurd hdots (by simp)
        | cons x p =>
          rw [List.takeWhile_cons] at hdots
          split at hdots
          · rw [List.cons.injEq, List.takeWhile_eq_nil_iff] at hdots
            obtain ⟨rfl, hdots⟩ := hdots
            cases p with
            | nil => rfl
            | cons y p =>
              have hy : y = slash := by simpa using hdots (by simp)
              simp [hy, dotdot, atBoundary, isSep, List.isPrefixOf]
          · exact absurd hdots (by simp)
      rw [Bool.true_and, hscan] at h
      exact absurd h.1 (by simp)

/-- A path that passes the scan has no component `..`. -/
theorem dotdot_notMem_components {p : Bytes} (h : hasDotDot true p = false) :
    dotdot ∉ components p := by
  obtain ⟨htail, hhead⟩ := dotdot_notMem_of_scan h
  obtain ⟨cs, hcs⟩ := components_eq_cons p
  have hne := hhead rfl
  rw [hcs, List.head?_cons, ne_eq, Option.some.injEq] at hne
  rw [hcs, List.tail_cons] at htail
  rw [hcs, List.mem_cons, not_or]
  exact ⟨Ne.symm hne, htail⟩

/-!
# What stays in the workspace

An accepted path has no component `..`, so it only goes down. A relative one goes down from the
working directory of the process and not from the workspace directory. An absolute one starts
with the text of the workspace directory, and goes down from there unless a backslash, which is
an octet of a name like any other, makes the last name longer.
-/

/-- A workspace directory is absolute and has no component `..`. -/
def IsWorkspace (dir : CString) : Prop :=
  startsAtRoot dir.octets = true ∧ dotdot ∉ components dir.octets

instance (dir : CString) : Decidable (IsWorkspace dir) := inferInstanceAs (Decidable (_ ∧ _))

/-- Where a workspace directory lies. -/
def workspaceAt (dir : CString) : Location := resolve Location.root dir

/-- The workspace directory is the root, or the path is absolute and no backslash makes the
last name of the directory longer. -/
def StaysUnder (dir path : CString) : Prop :=
  steps dir.octets = [] ∨
    startsAtRoot path.octets = true ∧
      ((path.octets.drop (trimSlashes dir.octets).length).head? = some backslash →
        afterLast slash (trimSlashes dir.octets) = dot)

instance (dir path : CString) : Decidable (StaysUnder dir path) :=
  inferInstanceAs (Decidable (_ ∨ _ ∧ _))

theorem trimSlashes_append (dir : Bytes) :
    ∃ n, dir = trimSlashes dir ++ List.replicate n slash := by
  have hrep : dir.rtakeWhile (· = slash) =
      List.replicate (dir.rtakeWhile (· = slash)).length slash := by
    apply List.eq_replicate_of_mem
    intro b hb
    simpa using List.mem_rtakeWhile_imp hb
  refine ⟨(dir.rtakeWhile (· = slash)).length, ?_⟩
  rw [← hrep, trimSlashes, List.rdropWhile_append_rtakeWhile]

theorem steps_trimSlashes (dir : Bytes) : steps (trimSlashes dir) = steps dir := by
  obtain ⟨n, hn⟩ := trimSlashes_append dir
  rw [hn, steps_append_replicate, ← hn]

/-- A text with a slash ends with it and what follows its last one. -/
theorem exists_afterLast {s : Bytes} (h : slash ∈ s) : ∃ u, s = u ++ slash :: afterLast slash s := by
  induction s using List.reverseRecOn with
  | nil => exact absurd h List.not_mem_nil
  | append_singleton s x ih =>
    by_cases hx : x = slash
    · refine ⟨s, ?_⟩
      rw [afterLast, List.rtakeWhile_concat_neg _ _ _ (by simpa using hx), hx]
    · rw [List.mem_append, List.mem_singleton] at h
      obtain ⟨u, hu⟩ := ih (h.resolve_right (Ne.symm hx))
      refine ⟨u, ?_⟩
      rw [afterLast, List.rtakeWhile_concat_pos _ _ _ (by simpa using hx), ← List.cons_append,
        ← List.append_assoc]
      rw [afterLast] at hu
      rw [← hu]

theorem slash_notMem_afterLast (dir : Bytes) : slash ∉ afterLast slash dir := by
  intro h
  exact absurd (List.mem_rtakeWhile_imp h) (by simp)

theorem names_workspaceAt {dir : CString} (h : IsWorkspace dir) :
    (workspaceAt dir).names = steps dir.octets := by
  rw [workspaceAt, names_resolve h.2, if_pos h.1, List.nil_append]

/-- An absolute path that passes the check starts with the workspace directory. -/
theorem exists_isUnder {path dir : Bytes} (h : isUnder path dir = true) :
    ∃ rest, path = dir ++ rest ∧ atBoundary rest = true := by
  simp only [isUnder, Bool.and_eq_true, beq_iff_eq] at h
  refine ⟨path.drop dir.length, ?_, h.2⟩
  conv_lhs => rw [← List.take_append_drop dir.length path, h.1.2]

/-- A directory that is not the root keeps its first slash. -/
theorem startsAtRoot_trimSlashes {dir : Bytes} (h : startsAtRoot dir = true)
    (hne : steps dir ≠ []) : startsAtRoot (trimSlashes dir) = true := by
  obtain ⟨n, hn⟩ := trimSlashes_append dir
  cases ht : trimSlashes dir with
  | nil =>
    rw [← steps_trimSlashes, ht] at hne
    exact absurd rfl hne
  | cons b t =>
    rw [hn, ht] at h
    exact h

/-- The last name of a directory stands behind its last slash. -/
theorem exists_lastName {dir : Bytes} (h : startsAtRoot dir = true) (hne : steps dir ≠ []) :
    ∃ u, trimSlashes dir = u ++ slash :: afterLast slash (trimSlashes dir) ∧
      afterLast slash (trimSlashes dir) ≠ [] := by
  have hroot := startsAtRoot_trimSlashes h hne
  have hmem : slash ∈ trimSlashes dir := by
    rw [startsAtRoot, beq_iff_eq] at hroot
    exact List.mem_of_mem_head? hroot
  obtain ⟨u, hu⟩ := exists_afterLast hmem
  refine ⟨u, hu, ?_⟩
  intro hnil
  rw [hnil] at hu
  have hidem : trimSlashes (trimSlashes dir) = trimSlashes dir := List.rdropWhile_idempotent _ _
  rw [hu, trimSlashes, List.rdropWhile_concat_pos _ _ _ (by simp)] at hidem
  have hlen := (List.rdropWhile_prefix (· = slash) (l := u)).length_le
  rw [hidem, List.length_append, List.length_singleton] at hlen
  omega

/-- A directory other than the working directory of some process. -/
theorem exists_not_contains {d : Location} (hd : d.names ≠ []) (names : List Bytes) :
    ∃ cwd : Location, ¬ d.names <+: cwd.names ++ names := by
  obtain ⟨c, cs, hcs⟩ := List.exists_cons_of_ne_nil hd
  -- a name longer than the first one of the directory
  refine ⟨⟨[List.replicate (c.length + 3) 0x61], ?_⟩, ?_⟩
  · intro n hn
    rw [List.mem_singleton] at hn
    have hlen := congrArg List.length hn
    rw [List.length_replicate] at hlen
    refine ⟨?_, ?_, ?_, ?_⟩
    · rintro rfl
      simp at hlen
    · rintro rfl
      simp [dot] at hlen
    · rintro rfl
      simp [dotdot] at hlen
    · rw [hn, List.mem_replicate]
      exact fun h => absurd h.2 (by decide)
  · rw [hcs, List.singleton_append, List.cons_prefix_cons]
    rintro ⟨hc, -⟩
    have hlen := congrArg List.length hc
    rw [List.length_replicate] at hlen
    omega

/-- A path that starts with the directory and goes on below it. -/
theorem steps_prefix_of_isUnder {dir path : Bytes} (h : startsAtRoot dir = true)
    (hunder : isUnder path (trimSlashes dir) = true)
    (hlast : (path.drop (trimSlashes dir).length).head? = some backslash →
      afterLast slash (trimSlashes dir) = dot) : steps dir <+: steps path := by
  by_cases hne : steps dir = []
  · rw [hne]
    exact List.nil_prefix
  obtain ⟨rest, rfl, hbound⟩ := exists_isUnder hunder
  rw [List.drop_left] at hlast
  rw [← steps_trimSlashes dir]
  cases rest with
  | nil => rw [List.append_nil]
  | cons b r =>
    simp only [atBoundary, isSep, List.head?_cons, Option.all_some, Bool.or_eq_true,
      beq_iff_eq] at hbound
    rcases hbound with rfl | rfl
    · rw [steps_append_slash]
      exact List.prefix_append _ _
    · obtain ⟨u, hu, -⟩ := exists_lastName h hne
      rw [hu, hlast rfl, steps_append_slash, List.append_assoc, List.cons_append,
        steps_append_slash]
      exact (List.prefix_append_right_inj _).mpr List.nil_prefix

/-- A backslash behind the directory makes its last name longer. -/
theorem not_steps_prefix_of_backslash {dir path : Bytes} (h : startsAtRoot dir = true)
    (hne : steps dir ≠ []) (hunder : isUnder path (trimSlashes dir) = true)
    (hback : (path.drop (trimSlashes dir).length).head? = some backslash)
    (hlast : afterLast slash (trimSlashes dir) ≠ dot) : ¬ steps dir <+: steps path := by
  obtain ⟨rest, rfl, -⟩ := exists_isUnder hunder
  rw [List.drop_left] at hback
  obtain ⟨r, rfl⟩ : ∃ r, rest = backslash :: r := by
    cases rest with
    | nil => exact absurd hback (by simp)
    | cons b r => exact ⟨r, by simpa using hback⟩
  obtain ⟨u, hu, hnil⟩ := exists_lastName h hne
  have hslash := slash_notMem_afterLast (trimSlashes dir)
  rw [← steps_trimSlashes dir]
  generalize afterLast slash (trimSlashes dir) = l at hu hnil hlast hslash
  obtain ⟨cs, hcs⟩ := components_eq_cons (l ++ backslash :: r)
  have htake : (l ++ backslash :: r).takeWhile (· ≠ slash) =
      l ++ backslash :: r.takeWhile (· ≠ slash) := by
    rw [List.takeWhile_append_of_pos, List.takeWhile_cons_of_pos (by decide)]
    intro b hb
    rw [decide_eq_true_eq]
    rintro rfl
    exact hslash hb
  rw [htake] at hcs
  have hlen : (l ++ backslash :: r.takeWhile (· ≠ slash)).length ≠ l.length := by simp
  -- the longer name is neither empty nor a dot
  have hlong : steps (l ++ backslash :: r) =
      (l ++ backslash :: r.takeWhile (· ≠ slash)) :: cs.filter fun c => c ≠ [] ∧ c ≠ dot := by
    rw [steps, hcs, List.filter_cons_of_pos]
    rw [decide_eq_true_eq]
    constructor
    · simp
    · intro hdot
      have hone := congrArg List.length hdot
      rw [List.length_append, List.length_cons, dot, List.length_singleton] at hone
      exact hnil (List.length_eq_zero_iff.mp (by omega))
  rw [hu, List.append_assoc, List.cons_append, steps_append_slash, steps_append_slash,
    List.prefix_append_right_inj, hlong, steps_of_notMem hslash, if_neg (by tauto),
    List.cons_prefix_cons]
  rintro ⟨he, -⟩
  exact hlen (congrArg List.length he.symm)

/-- From every working directory the tools open what lies in the workspace, exactly for the
accepted paths that stay under the directory. -/
theorem toolOpens_contained_iff {dir path : CString} (hdir : IsWorkspace dir)
    (h : scToolValidatePath path (some dir) = .ok ()) :
    (∀ cwd q, ToolOpens (some dir) path q → (workspaceAt dir).Contains (resolve cwd q)) ↔
      StaysUnder dir path := by
  obtain ⟨-, hscan, hunder⟩ := scToolValidatePath_eq_ok h
  have hdots := dotdot_notMem_components hscan
  have hnonempty : dir.octets ≠ [] := by
    intro hnil
    have hroot := hdir.1
    rw [hnil] at hroot
    exact absurd hroot (by decide)
  have hcontains (cwd : Location) : (workspaceAt dir).Contains (resolve cwd path) ↔
      steps dir.octets <+:
        (if startsAtRoot path.octets then [] else cwd.names) ++ steps path.octets := by
    rw [Location.Contains, names_workspaceAt hdir, names_resolve hdots]
  have hopens : (∀ cwd q, ToolOpens (some dir) path q →
      (workspaceAt dir).Contains (resolve cwd q)) ↔
      ∀ cwd, (workspaceAt dir).Contains (resolve cwd path) := by
    constructor
    · intro hall cwd
      exact hall cwd path (toolOpens_iff.mpr ⟨h, rfl⟩)
    · intro hall cwd q hq
      obtain ⟨-, rfl⟩ := toolOpens_iff.mp hq
      exact hall cwd
  simp only [hopens, hcontains]
  by_cases hroot : startsAtRoot path.octets = true
  · have hpath := hunder dir rfl hnonempty (by rw [isAbsolute, hroot, Bool.true_or])
    simp only [hroot, if_true, List.nil_append, StaysUnder, true_and]
    constructor
    · intro hall
      by_contra hstay
      rw [not_or, Classical.not_imp] at hstay
      exact not_steps_prefix_of_backslash hdir.1 hstay.1 hpath hstay.2.1 hstay.2.2
        (hall Location.root)
    · rintro (hnil | hlast) -
      · rw [hnil]
        exact List.nil_prefix
      · exact steps_prefix_of_isUnder hdir.1 hpath hlast
  · simp only [hroot, StaysUnder, Bool.false_eq_true, false_and, or_false]
    constructor
    · intro hall
      by_contra hne
      rw [← names_workspaceAt hdir] at hne
      obtain ⟨cwd, hcwd⟩ := exists_not_contains hne (steps path.octets)
      rw [names_workspaceAt hdir] at hcwd
      exact hcwd (hall cwd)
    · intro hnil cwd
      rw [hnil]
      exact List.nil_prefix

/-- The place of a file of the workspace. -/
theorem toolOpens_contained_absolute :
    (workspaceAt (CString.ofBytes (ascii "/w"))).Contains
      (resolve Location.root (CString.ofBytes (ascii "/w/a"))) :=
  (@toolOpens_contained_iff (CString.ofBytes (ascii "/w")) (CString.ofBytes (ascii "/w/a"))
    (by decide) (by decide)).mpr (by decide) Location.root _ (toolOpens_iff.mpr ⟨by decide, rfl⟩)

/-- A relative path is opened wherever the process happens to be. -/
theorem toolOpens_leaves_workspace :
    ¬ ∀ dir path, IsWorkspace dir → scToolValidatePath path (some dir) = .ok () →
      ∀ cwd q, ToolOpens (some dir) path q → (workspaceAt dir).Contains (resolve cwd q) := by
  intro h
  have hopen : ToolOpens (some (CString.ofBytes (ascii "/w"))) (CString.ofBytes (ascii "a"))
      (CString.ofBytes (ascii "a")) := toolOpens_iff.mpr ⟨by decide, rfl⟩
  exact absurd (h _ _ (by decide) (by decide) Location.root _ hopen) (by decide)

end SeaClaw.Tools
