import SeaClaw.Lib.CString

/-!
# Lexical resolution of paths

A path is read component by component from the root or from the working directory. A place in
the directory tree is the list of names that leads to it, so it has neither empty components
nor `.` nor `..`; there are no symbolic links.
-/

namespace SeaClaw.Lib

/-- `/` -/
def slash : UInt8 := 0x2f

/-- The component that stays. -/
def dot : Bytes := [0x2e]

/-- The component that goes up. -/
def dotdot : Bytes := [0x2e, 0x2e]

/-- What can stand for an entry of a directory. -/
def IsName (c : Bytes) : Prop := c ≠ [] ∧ c ≠ dot ∧ c ≠ dotdot ∧ slash ∉ c

instance (c : Bytes) : Decidable (IsName c) := inferInstanceAs (Decidable (_ ∧ _))

/-- A place in the directory tree. -/
@[ext] structure Location where
  names : List Bytes
  isName : ∀ c ∈ names, IsName c
  deriving DecidableEq

/-- The root directory. -/
def Location.root : Location := ⟨[], by simp⟩

/-- `e` is the directory `d` or lies below it. -/
def Location.Contains (d e : Location) : Prop := d.names <+: e.names

instance (d e : Location) : Decidable (d.Contains e) := inferInstanceAs (Decidable (_ <+: _))

/-- One component of a path, read at the place with the given names. -/
def walk (names : List Bytes) (c : Bytes) : List Bytes :=
  if c = [] ∨ c = dot then names
  else if c = dotdot then names.dropLast
  else names ++ [c]

/-- The components of a path. -/
def components (p : Bytes) : List Bytes := p.splitOn slash

theorem components_append_slash (p q : Bytes) :
    components (p ++ slash :: q) = components p ++ components q :=
  List.splitOn_append_cons_self p q

theorem components_of_notMem {p : Bytes} (h : slash ∉ p) : components p = [p] :=
  List.splitOn_eq_singleton h

theorem components_cons_of_ne {b : UInt8} (hb : b ≠ slash) (p : Bytes) :
    components (b :: p) = (components p).modifyHead (b :: ·) := by
  rw [components, List.splitOn_cons_eq_if_modifyHead, if_neg (by simpa using hb)]
  rfl

@[simp] theorem components_cons_slash (p : Bytes) :
    components (slash :: p) = [] :: components p := by
  rw [components, List.splitOn_cons_eq_if_modifyHead, if_pos (by simp)]
  rfl

/-- The first component ends at the first slash. -/
theorem components_eq_cons (p : Bytes) :
    ∃ cs, components p = p.takeWhile (· ≠ slash) :: cs := by
  induction p with
  | nil => exact ⟨[], rfl⟩
  | cons b p ih =>
    by_cases hb : b = slash
    · subst hb
      exact ⟨components p, by simp⟩
    · obtain ⟨cs, hcs⟩ := ih
      refine ⟨cs, ?_⟩
      rw [components_cons_of_ne hb, hcs, List.takeWhile_cons_of_pos (by simpa using hb)]
      rfl

theorem slash_notMem_of_mem_components {p c : Bytes} (h : c ∈ components p) : slash ∉ c := by
  induction p generalizing c with
  | nil =>
    rw [components_of_notMem List.not_mem_nil, List.mem_singleton] at h
    rw [h]
    exact List.not_mem_nil
  | cons b p ih =>
    by_cases hb : b = slash
    · rw [hb, components_cons_slash, List.mem_cons] at h
      rcases h with rfl | h
      · exact List.not_mem_nil
      · exact ih h
    · obtain ⟨cs, hcs⟩ := components_eq_cons p
      rw [components_cons_of_ne hb, hcs, List.modifyHead_cons, List.mem_cons] at h
      rcases h with rfl | h
      · rw [List.mem_cons, not_or]
        exact ⟨Ne.symm hb, ih (hcs ▸ List.mem_cons_self)⟩
      · exact ih (hcs ▸ List.mem_cons_of_mem _ h)

theorem isName_walk {names : List Bytes} {c : Bytes} (h : ∀ n ∈ names, IsName n)
    (hc : slash ∉ c) : ∀ n ∈ walk names c, IsName n := by
  intro n hn
  rw [walk] at hn
  split at hn
  · exact h n hn
  · split at hn
    · exact h n (List.dropLast_subset _ hn)
    · rw [List.mem_append, List.mem_singleton] at hn
      rcases hn with hn | rfl
      · exact h n hn
      · exact ⟨by tauto, by tauto, by tauto, hc⟩

theorem isName_foldl_walk {names cs : List Bytes} (h : ∀ n ∈ names, IsName n)
    (hcs : ∀ c ∈ cs, slash ∉ c) : ∀ n ∈ cs.foldl walk names, IsName n := by
  induction cs generalizing names with
  | nil => exact h
  | cons c cs ih =>
    rw [List.foldl_cons]
    apply ih
    · exact isName_walk h (hcs c List.mem_cons_self)
    · intro d hd
      exact hcs d (List.mem_cons_of_mem _ hd)

/-- Whether a path starts at the root. -/
def startsAtRoot (p : Bytes) : Bool := p.head? == some slash

/-- The place that a process with the working directory `cwd` finds under a path. -/
def resolve (cwd : Location) (p : CString) : Location where
  names := (components p.octets).foldl walk (if startsAtRoot p.octets then [] else cwd.names)
  isName := by
    apply isName_foldl_walk
    · intro n hn
      split at hn
      · exact absurd hn List.not_mem_nil
      · exact cwd.isName n hn
    · intro c hc
      exact slash_notMem_of_mem_components hc

/-- The components of a path that go down. -/
def steps (p : Bytes) : List Bytes := (components p).filter fun c => c ≠ [] ∧ c ≠ dot

/-- Without `..` a path only goes down. -/
theorem foldl_walk_of_notMem {cs : List Bytes} (h : dotdot ∉ cs) (names : List Bytes) :
    cs.foldl walk names = names ++ cs.filter fun c => c ≠ [] ∧ c ≠ dot := by
  induction cs generalizing names with
  | nil => simp
  | cons c cs ih =>
    rw [List.mem_cons, not_or] at h
    rw [List.foldl_cons, ih h.2, walk]
    by_cases hc : c = [] ∨ c = dot
    · rw [if_pos hc, List.filter_cons_of_neg (by simpa [or_iff_not_imp_left] using hc)]
    · rw [if_neg hc, if_neg (Ne.symm h.1), List.filter_cons_of_pos (by simpa [not_or] using hc),
        List.append_assoc, List.singleton_append]

/-- Where a path without `..` leads. -/
theorem names_resolve {p : CString} (h : dotdot ∉ components p.octets) (cwd : Location) :
    (resolve cwd p).names =
      (if startsAtRoot p.octets then [] else cwd.names) ++ steps p.octets :=
  foldl_walk_of_notMem h _

theorem steps_append_slash (p q : Bytes) : steps (p ++ slash :: q) = steps p ++ steps q := by
  rw [steps, components_append_slash, List.filter_append]
  rfl

/-- A slash at the end leads nowhere else. -/
theorem steps_append_replicate (p : Bytes) (n : ℕ) :
    steps (p ++ List.replicate n slash) = steps p := by
  induction n generalizing p with
  | zero => simp
  | succ n ih =>
    rw [List.replicate_succ, steps_append_slash]
    have hnil := ih []
    rw [List.nil_append] at hnil
    rw [hnil]
    simp [steps, components_of_notMem]

theorem steps_of_notMem {p : Bytes} (h : slash ∉ p) :
    steps p = if p = [] ∨ p = dot then [] else [p] := by
  rw [steps, components_of_notMem h]
  by_cases hp : p = [] ∨ p = dot
  · rw [if_pos hp, List.filter_cons_of_neg (by simpa [or_iff_not_imp_left] using hp),
      List.filter_nil]
  · rw [if_neg hp, List.filter_cons_of_pos (by simpa [not_or] using hp), List.filter_nil]

end SeaClaw.Lib
