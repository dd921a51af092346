import SeaClaw.Core.Error
import SeaClaw.Lib.Bytes
import SeaClaw.Lib.Ring
import SeaClaw.Lib.Machine

/-!
# The undo stack

The operations on files that can be taken back, in a ring of entries. Its head is a counter of
64 bits that is reduced to a place only when the ring is used; a path is the octets before its
terminator.
-/

namespace SeaClaw.Agent

open SeaClaw.Lib

/-- `sc_undo_type_t` -/
inductive UndoType where
  | fileWrite | fileCreate | shellCommand
  deriving DecidableEq

/-- `sc_undo_entry_t`; a content that is there has the length that is stored. -/
structure UndoEntry where
  type : UndoType
  description : Option Bytes
  path : Option Bytes
  originalContent : Option Bytes
  originalContentLen : ℕ
  timestamp : ℤ
  reversible : Bool
  length_eq : ∀ s, originalContent = some s → s.length = originalContentLen

/-- An entry of zeros. -/
def UndoEntry.zero : UndoEntry :=
  ⟨.fileWrite, none, none, none, 0, 0, false, fun _ h => nomatch h⟩

/-- `struct sc_undo_stack` -/
structure UndoStack where
  entries : ℕ → UndoEntry
  capacity : ℕ
  count : ℕ
  head : ℕ
  capacity_pos : 0 < capacity
  capacity_lt : capacity < 2 ^ 64
  count_le : count ≤ capacity
  head_lt : head < 2 ^ 64

/-- `sc_undo_stack_create` -/
def scUndoStackCreate (maxEntries : ℕ) (h : maxEntries < 2 ^ 64) : Option UndoStack :=
  if hpos : maxEntries = 0 then none
  else some ⟨fun _ => .zero, maxEntries, 0, 0, Nat.pos_of_ne_zero hpos, h, Nat.zero_le _,
    Nat.two_pow_pos 64⟩

/-- Which of the copies of a push find memory. -/
structure Copies where
  description : Bool
  path : Bool
  content : Bool

/-- The copy of a text, by whether it finds memory. -/
def copied (found : Bool) (s : Option Bytes) : Option Bytes := if found then s else none

/-- The copy of an entry that a push stores. A content of length zero is not copied. -/
def UndoEntry.stored (e : UndoEntry) (c : Copies) : UndoEntry where
  type := e.type
  description := copied c.description e.description
  path := copied c.path e.path
  originalContent :=
    if 0 < e.originalContentLen then copied c.content e.originalContent else none
  originalContentLen := e.originalContentLen
  timestamp := e.timestamp
  reversible := e.reversible
  length_eq := by
    intro s hs
    rw [copied] at hs
    split_ifs at hs
    exact e.length_eq s hs

theorem wrapped_lt (n : ℕ) : n % 2 ^ 64 < 2 ^ 64 := Nat.mod_lt _ (Nat.two_pow_pos 64)

theorem grown_le {count capacity : ℕ} (h : count ≤ capacity) :
    (if count < capacity then count + 1 else count) ≤ capacity := by
  split_ifs with hroom
  · exact hroom
  · exact h

theorem shrunk_le {count capacity : ℕ} (h : count ≤ capacity) :
    (if 0 < count then count - 1 else 0) ≤ capacity := by
  split_ifs
  · exact (Nat.sub_le _ _).trans h
  · exact Nat.zero_le _

theorem lowered_lt {head capacity : ℕ} (hhead : head < 2 ^ 64) (h : capacity < 2 ^ 64) :
    (if 0 < head then head - 1 else capacity - 1) < 2 ^ 64 := by
  split_ifs
  · exact (Nat.sub_le _ _).trans_lt hhead
  · exact (Nat.sub_le _ _).trans_lt h

/-- `sc_undo_stack_push` -/
def scUndoStackPush (st : UndoStack) (e : UndoEntry) (c : Copies) : UndoStack :=
  { st with
    entries := Function.update st.entries (st.head % st.capacity) (e.stored c)
    head := (st.head + 1) % 2 ^ 64
    count := if st.count < st.capacity then st.count + 1 else st.count
    count_le := grown_le st.count_le
    head_lt := wrapped_lt _ }

/-- The files by their paths. -/
abbrev Files := Bytes → Option Bytes

/-- What the disk answers: whether a file opens, how many octets are written of a content, and
whether a file that is there is removed. -/
structure DiskAnswers where
  opens : Bool
  written : Bytes → ℕ
  unlinks : Bool

/-- The file operation of an undo. -/
def undoFile (e : UndoEntry) (a : DiskAnswers) (fs : Files) : Except ScError Unit × Files :=
  match e.path with
  | none => (.ok (), fs)
  | some path =>
    match e.type, e.originalContent with
    | .fileWrite, some content =>
      if a.opens then
        let n := min (a.written content) content.length
        let fs := Function.update fs path (some (content.take n))
        if n ≠ e.originalContentLen then (.error .io, fs) else (.ok (), fs)
      else (.error .io, fs)
    | .fileCreate, _ =>
      if a.unlinks ∧ (fs path).isSome then (.ok (), Function.update fs path none)
      else (.error .io, fs)
    | _, _ => (.ok (), fs)

/-- The place of the newest entry. -/
def UndoStack.top (st : UndoStack) : ℕ := (st.head + 2 ^ 64 - 1) % 2 ^ 64 % st.capacity

/-- The stack without its newest entry. -/
def UndoStack.pop (st : UndoStack) : UndoStack :=
  { st with
    entries := Function.update st.entries st.top .zero
    head := if 0 < st.head then st.head - 1 else st.capacity - 1
    count := if 0 < st.count then st.count - 1 else 0
    count_le := shrunk_le st.count_le
    head_lt := lowered_lt st.head_lt st.capacity_lt }

/-- `sc_undo_stack_execute_undo` -/
def scUndoStackExecuteUndo (st : UndoStack) (a : DiskAnswers) (fs : Files) :
    Except ScError Unit × UndoStack × Files :=
  if st.count = 0 then (.error .invalidArgument, st, fs)
  else
    match undoFile (st.entries st.top) a fs with
    | (.error e, fs) => (.error e, st, fs)
    | (.ok (), fs) => (.ok (), st.pop, fs)

/-! ## The ring as a list -/

/-- Neither the counter going around nor going below zero moves the place in the ring: it has
as many places as divide the counter, or it stays within bounds for so many pushes to come. -/
def UndoStack.Steady (st : UndoStack) (pushes : ℕ) : Prop :=
  st.capacity ∣ 2 ^ 64 ∨ (st.count ≤ st.head ∧ st.head + pushes < 2 ^ 64)

/-- The entries that can be undone, the newest first. -/
def UndoStack.contents (st : UndoStack) : List UndoEntry :=
  (Ring.window st.entries st.capacity (st.head + (st.capacity - st.count)) st.count).reverse

section Ring

variable {st : UndoStack} {n : ℕ}

@[simp] theorem length_contents_undo : st.contents.length = st.count := by
  rw [UndoStack.contents, List.length_reverse, Ring.length_window]

theorem wrapped_mod (h : st.Steady (n + 1)) :
    (st.head + 1) % 2 ^ 64 % st.capacity = (st.head + 1) % st.capacity := by
  rcases h with hdvd | ⟨-, hlt⟩
  · exact Nat.mod_mod_of_dvd _ hdvd
  · have hno : (st.head + 1) % 2 ^ 64 = st.head + 1 := Nat.mod_eq_of_lt (by omega)
    rw [hno]

/-- The newest entry stands before the place of the head. -/
theorem top_eq (h : st.Steady n) (hcount : st.count ≠ 0) :
    st.top = (st.head + (st.capacity - 1)) % st.capacity := by
  have hcap := st.capacity_pos
  rw [UndoStack.top]
  rcases h with hdvd | ⟨hle, -⟩
  · rw [Nat.mod_mod_of_dvd _ hdvd]
    obtain ⟨k, hk⟩ := hdvd
    obtain ⟨j, rfl⟩ : ∃ j, k = j + 1 := by
      cases k with
      | zero => simp at hk
      | succ j => exact ⟨j, rfl⟩
    have hshift : st.head + 2 ^ 64 - 1 = st.head + (st.capacity - 1) + st.capacity * j := by
      rw [hk, Nat.mul_succ]
      omega
    rw [hshift, Nat.add_mul_mod_self_left]
  · have hhead := st.head_lt
    have hdown : (st.head + 2 ^ 64 - 1) % 2 ^ 64 = st.head - 1 := by omega
    have hshift : st.head + (st.capacity - 1) = st.head - 1 + st.capacity := by omega
    rw [hdown, hshift, Nat.add_mod_right]

theorem lowered_mod : (if 0 < st.head then st.head - 1 else st.capacity - 1) % st.capacity =
    (st.head + (st.capacity - 1)) % st.capacity := by
  have hcap := st.capacity_pos
  split_ifs with hhead
  · have hshift : st.head + (st.capacity - 1) = st.head - 1 + st.capacity := by omega
    rw [hshift, Nat.add_mod_right]
  · rw [Nat.eq_zero_of_not_pos hhead, Nat.zero_add]

/-- A push puts the entry before the others, and drops the oldest one of a full ring. -/
theorem contents_push_undo (h : st.Steady (n + 1)) (e : UndoEntry) (c : Copies) :
    (scUndoStackPush st e c).contents = (e.stored c :: st.contents).take st.capacity := by
  have hcap := st.capacity_pos
  have hle := st.count_le
  rw [← List.reverse_inj, UndoStack.contents, List.reverse_reverse]
  simp only [scUndoStackPush]
  split_ifs with hroom
  · have hstart : ((st.head + 1) % 2 ^ 64 + (st.capacity - (st.count + 1))) % st.capacity =
        (st.head + (st.capacity - st.count)) % st.capacity := by
      rw [← Nat.mod_add_mod, wrapped_mod h, Nat.mod_add_mod]
      congr 1
      omega
    have hplace : st.head % st.capacity =
        (st.head + (st.capacity - st.count) + st.count) % st.capacity := by
      rw [Nat.add_assoc, Nat.sub_add_cancel hle, Nat.add_mod_right]
    rw [Ring.window_congr hstart, hplace, Ring.window_push _ hroom,
      List.take_of_length_le (by simpa using hroom), List.reverse_cons, UndoStack.contents,
      List.reverse_reverse]
  · have hfull : st.count = st.capacity := by omega
    have hstart : ((st.head + 1) % 2 ^ 64 + (st.capacity - st.capacity)) % st.capacity =
        (st.head + 1) % st.capacity := by
      rw [Nat.sub_self, Nat.add_zero, wrapped_mod h]
    have hold : st.contents = (Ring.window st.entries st.capacity st.head st.capacity).reverse := by
      rw [UndoStack.contents, hfull, Nat.sub_self, Nat.add_zero]
    obtain ⟨k, hk⟩ : ∃ k, st.capacity = k + 1 := ⟨st.capacity - 1, by omega⟩
    have htake : (e.stored c :: st.contents).take st.capacity =
        e.stored c :: (Ring.window st.entries st.capacity st.head st.capacity).tail.reverse := by
      rw [hold, hk, List.take_succ_cons, List.take_reverse, Ring.length_window,
        Nat.add_sub_cancel_left, List.drop_one]
    rw [htake, List.reverse_cons, List.reverse_reverse, ← Ring.window_overwrite _ hcap, hfull,
      Nat.add_mod_right, Ring.window_congr hstart]

/-- An undo works on the newest entry, and leaves the others. -/
theorem contents_pop_undo (h : st.Steady n) (hcount : st.count ≠ 0) :
    st.contents = st.entries st.top :: st.pop.contents := by
  have hcap := st.capacity_pos
  have hle := st.count_le
  obtain ⟨k, hk⟩ := Nat.exists_eq_succ_of_ne_zero hcount
  have hplace : (st.head + (st.capacity - st.count) + k) % st.capacity = st.top := by
    rw [top_eq h hcount]
    congr 1
    omega
  have hstart : (st.pop.head + (st.capacity - k)) % st.capacity =
      (st.head + (st.capacity - st.count)) % st.capacity := by
    rw [UndoStack.pop, ← Nat.mod_add_mod, lowered_mod, Nat.mod_add_mod]
    have hshift : st.head + (st.capacity - 1) + (st.capacity - k) =
        st.head + (st.capacity - st.count) + st.capacity := by omega
    rw [hshift, Nat.add_mod_right]
  have hpop : st.pop.count = k := by
    simp only [UndoStack.pop, hk]
    simp
  rw [← List.reverse_inj, UndoStack.contents, List.reverse_reverse, List.reverse_cons,
    UndoStack.contents, List.reverse_reverse, hpop, hk, Ring.window_concat, ← hk, hplace]
  refine congrArg (· ++ _) ?_
  have hentries : st.pop.entries = Function.update st.entries
      ((st.head + (st.capacity - st.count) + k) % st.capacity) .zero := by
    rw [hplace]
    rfl
  have hcapacity : st.pop.capacity = st.capacity := rfl
  rw [hcapacity, Ring.window_congr hstart, hentries, Ring.window_update _ (by omega)]

end Ring

/-!
# Taking operations back

Operations on files, each recorded before it is performed, and undos. An undo takes the newest
operation back exactly if what the stack holds of it is enough: an empty content is not stored,
and neither is a copy that finds no memory.
-/

/-! ## Operations with their past -/

/-- A disk on which every operation succeeds. -/
def goodDisk : DiskAnswers := ⟨true, List.length, true⟩

theorem length_of_eq_some (original : Bytes) (s : Bytes) (h : some original = some s) :
    s.length = original.length :=
  congrArg List.length (Option.some.inj h).symm

/-- What is recorded before a content is put into a file: the content it has, or that the file
is created. -/
def recordOf (fs : Files) (path : Bytes) (description : Option Bytes) (timestamp : ℤ)
    (reversible : Bool) : UndoEntry :=
  match fs path with
  | some original =>
    { type := .fileWrite
      path := some path
      originalContent := some original
      originalContentLen := original.length
      description, timestamp, reversible
      length_eq := length_of_eq_some original }
  | none =>
    { type := .fileCreate
      path := some path
      originalContent := none
      originalContentLen := 0
      description, timestamp, reversible
      length_eq := UndoEntry.zero.length_eq }

/-- The stack, the files, and the files as they were before each operation that can be undone,
the newest first. -/
structure UndoState where
  stack : UndoStack
  files : Files
  past : List Files

/-- A file gets a content, which writes or creates it, or the newest operation is undone. -/
inductive FileOp where
  | put (path content : Bytes) (description : Option Bytes) (timestamp : ℤ) (reversible : Bool)
      (copies : Copies)
  | undo

/-- One operation. The past is as long as the capacity of the stack allows. -/
def fileStep (s : UndoState) : FileOp → Option UndoState
  | .put path content description timestamp reversible copies => some
    { stack := scUndoStackPush s.stack
        (recordOf s.files path description timestamp reversible) copies
      files := Function.update s.files path (some content)
      past := (s.files :: s.past).take s.stack.capacity }
  | .undo =>
    match scUndoStackExecuteUndo s.stack goodDisk s.files with
    | (.ok (), stack, files) => some ⟨stack, files, s.past.tail⟩
    | (.error _, stack, files) => some ⟨stack, files, s.past⟩

/-- So many undos, each of which succeeds. -/
def undoTimes : ℕ → UndoStack → Files → Option (UndoStack × Files)
  | 0, st, fs => some (st, fs)
  | k + 1, st, fs =>
    match scUndoStackExecuteUndo st goodDisk fs with
    | (.ok (), st, fs) => undoTimes k st fs
    | (.error _, _, _) => none

/-- The stack counts the operations that can be undone, and so many undos of them succeed and
lead to the files as they were so many operations ago. -/
structure Restores (s : UndoState) : Prop where
  count : s.stack.count = s.past.length
  undo : ∀ k ≤ s.stack.count,
    (undoTimes k s.stack s.files).map Prod.snd = (s.files :: s.past)[k]?

/-- The record of an operation is enough to take it back: the copy of the path found memory,
and that of the content too, which is not empty; or the file does not change. -/
def Recorded (s : UndoState) : FileOp → Prop
  | .put path content _ _ _ copies =>
    match s.files path with
    | some original =>
      content = original ∨ (copies.path = true ∧ original ≠ [] ∧ copies.content = true)
    | none => copies.path = true
  | .undo => True

/-! ## One operation taken back -/

section One

variable {e : UndoEntry} {a : DiskAnswers} {fs : Files} {path : Bytes}

theorem undoFile_of_no_path (h : e.path = none) : undoFile e a fs = (.ok (), fs) := by
  rw [undoFile, h]

theorem undoFile_of_no_content (htype : e.type = .fileWrite) (h : e.originalContent = none) :
    undoFile e a fs = (.ok (), fs) := by
  rw [undoFile, htype, h]
  cases e.path <;> rfl

/-- The undo of a write puts the original content back. -/
theorem undoFile_write {original : Bytes} (htype : e.type = .fileWrite)
    (hpath : e.path = some path) (h : e.originalContent = some original) :
    undoFile e goodDisk fs = (.ok (), Function.update fs path (some original)) := by
  rw [undoFile, hpath, htype, h]
  simp only [goodDisk, if_true, min_self, List.take_length]
  rw [if_neg (not_not.mpr (e.length_eq original h))]

/-- The undo of a creation removes the file. -/
theorem undoFile_create (htype : e.type = .fileCreate) (hpath : e.path = some path)
    (h : (fs path).isSome) :
    undoFile e goodDisk fs = (.ok (), Function.update fs path none) := by
  rw [undoFile, hpath, htype]
  simp only [goodDisk, h, and_self, if_true]

theorem update_eq_self_iff (v : Option Bytes) : Function.update fs path v = fs ↔ v = fs path := by
  rw [Function.update_eq_iff]
  simp

variable (path) (content : Bytes) (description : Option Bytes) (timestamp : ℤ)
  (reversible : Bool) (copies : Copies)

/-- The undo of an operation on a good disk succeeds, and restores the files exactly if the
record is enough. -/
theorem undoFile_record (s : UndoState) :
    ∃ fs, undoFile ((recordOf s.files path description timestamp reversible).stored copies)
      goodDisk (Function.update s.files path (some content)) = (.ok (), fs) ∧
      (fs = s.files ↔
        Recorded s (.put path content description timestamp reversible copies)) := by
  have hput : Function.update s.files path (some content) = s.files ↔
      some content = s.files path := update_eq_self_iff _
  cases hpath : copies.path with
  | false =>
    have hnone : ((recordOf s.files path description timestamp reversible).stored copies).path =
        none := by
      simp [UndoEntry.stored, copied, hpath]
    refine ⟨_, undoFile_of_no_path hnone, ?_⟩
    rw [hput, Recorded]
    cases s.files path <;> simp [hpath]
  | true =>
    have hsome : ((recordOf s.files path description timestamp reversible).stored copies).path =
        some path := by
      cases hfile : s.files path <;> simp [UndoEntry.stored, copied, hpath, recordOf, hfile]
    rw [Recorded]
    cases hfile : s.files path with
    | none =>
      have htype : ((recordOf s.files path description timestamp reversible).stored copies).type =
          .fileCreate := by
        simp [UndoEntry.stored, recordOf, hfile]
      refine ⟨_, undoFile_create htype hsome (by simp), ?_⟩
      rw [Function.update_idem, update_eq_self_iff, hfile]
      simp [hpath]
    | some original =>
      have htype : ((recordOf s.files path description timestamp reversible).stored copies).type =
          .fileWrite := by
        simp [UndoEntry.stored, recordOf, hfile]
      have hcontent : ((recordOf s.files path description timestamp reversible).stored
          copies).originalContent =
            if 0 < original.length then copied copies.content (some original) else none := by
        simp [UndoEntry.stored, recordOf, hfile]
      by_cases hstored : 0 < original.length ∧ copies.content = true
      · rw [if_pos hstored.1, copied, if_pos hstored.2] at hcontent
        refine ⟨_, undoFile_write htype hsome hcontent, ?_⟩
        rw [Function.update_idem, update_eq_self_iff, hfile]
        exact iff_of_true rfl (Or.inr ⟨hpath, List.ne_nil_of_length_pos hstored.1, hstored.2⟩)
      · have hnone : ((recordOf s.files path description timestamp reversible).stored
            copies).originalContent = none := by
          rw [hcontent, copied]
          split_ifs with hlength hfound
          · exact absurd ⟨hlength, hfound⟩ hstored
          · rfl
          · rfl
        refine ⟨_, undoFile_of_no_content htype hnone, ?_⟩
        rw [hput, hfile, Option.some.injEq]
        refine (or_iff_left ?_).symm
        rintro ⟨-, hne, hfound⟩
        exact hstored ⟨List.length_pos_of_ne_nil hne, hfound⟩

end One

/-! ## Replaying the records -/

/-- The undo of each entry succeeds and leads to the next files of the past. -/
def Replays : List UndoEntry → Files → List Files → Prop
  | [], _, [] => True
  | e :: es, fs, past :: pasts => undoFile e goodDisk fs = (.ok (), past) ∧ Replays es past pasts
  | _, _, _ => False

theorem Replays.take {es : List UndoEntry} {fs : Files} {past : List Files}
    (h : Replays es fs past) (n : ℕ) : Replays (es.take n) fs (past.take n) := by
  induction n generalizing es fs past with
  | zero => rw [List.take_zero, List.take_zero, Replays]; trivial
  | succ n ih =>
    match es, past, h with
    | [], [], _ => exact trivial
    | e :: es, p :: past, h => exact ⟨h.1, ih h.2⟩

theorem UndoStack.Steady.push {st : UndoStack} {n : ℕ} (h : st.Steady (n + 1)) (e : UndoEntry)
    (c : Copies) : (scUndoStackPush st e c).Steady n := by
  rcases h with hdvd | ⟨hle, hlt⟩
  · exact Or.inl hdvd
  · refine Or.inr ?_
    have hno : (st.head + 1) % 2 ^ 64 = st.head + 1 := Nat.mod_eq_of_lt (by omega)
    simp only [scUndoStackPush, hno]
    constructor
    · split_ifs <;> omega
    · omega

theorem UndoStack.Steady.pop {st : UndoStack} {n : ℕ} (h : st.Steady n) (hcount : st.count ≠ 0) :
    st.pop.Steady n := by
  rcases h with hdvd | ⟨hle, hlt⟩
  · exact Or.inl hdvd
  · refine Or.inr ?_
    simp only [UndoStack.pop]
    rw [if_pos (Nat.pos_of_ne_zero hcount), if_pos (by omega)]
    omega

theorem UndoStack.Steady.mono {st : UndoStack} {n : ℕ} (h : st.Steady (n + 1)) :
    st.Steady n := by
  rcases h with hdvd | ⟨hle, hlt⟩
  · exact Or.inl hdvd
  · exact Or.inr ⟨hle, by omega⟩

section Execute

variable {st : UndoStack} {n : ℕ} {e : UndoEntry} {es : List UndoEntry} {a : DiskAnswers}
  {fs fs' : Files}

/-- The entries of a stack that has one: the newest, and those of the stack without it. -/
theorem contents_eq_cons (h : st.Steady n) (hcontents : st.contents = e :: es) :
    st.count = st.pop.count + 1 ∧ st.entries st.top = e ∧ st.pop.contents = es := by
  have hlength : st.count = es.length + 1 := by
    rw [← length_contents_undo, hcontents, List.length_cons]
  have hpop := contents_pop_undo h (by omega)
  rw [hcontents, List.cons.injEq] at hpop
  refine ⟨?_, hpop.1.symm, hpop.2.symm⟩
  rw [hlength, hpop.2, length_contents_undo]

/-- An undo that succeeds on the newest entry drops it. -/
theorem execute_ok (h : st.Steady n) (hcontents : st.contents = e :: es)
    (hundo : undoFile e a fs = (.ok (), fs')) :
    scUndoStackExecuteUndo st a fs = (.ok (), st.pop, fs') := by
  obtain ⟨hcount, htop, -⟩ := contents_eq_cons h hcontents
  rw [scUndoStackExecuteUndo, if_neg (by omega), htop, hundo]

theorem execute_error {err : ScError} (h : st.Steady n) (hcontents : st.contents = e :: es)
    (hundo : undoFile e a fs = (.error err, fs')) :
    scUndoStackExecuteUndo st a fs = (.error err, st, fs') := by
  obtain ⟨hcount, htop, -⟩ := contents_eq_cons h hcontents
  rw [scUndoStackExecuteUndo, if_neg (by omega), htop, hundo]

theorem execute_empty (h : st.count = 0) :
    scUndoStackExecuteUndo st a fs = (.error .invalidArgument, st, fs) := by
  rw [scUndoStackExecuteUndo, if_pos h]

/-- So many undos lead through the past exactly if each entry leads to the files before it. -/
theorem restores_iff_replays (h : st.Steady n) {past : List Files} :
    Restores ⟨st, fs, past⟩ ↔ Replays st.contents fs past := by
  induction past generalizing st fs with
  | nil =>
    constructor
    · intro hr
      have hempty : st.contents = [] := by
        rw [← List.length_eq_zero_iff, length_contents_undo]
        exact hr.count
      rw [hempty]
      trivial
    · intro hr
      have hempty : st.contents = [] := by
        cases hcontents : st.contents with
        | nil => rfl
        | cons e es =>
          rw [hcontents] at hr
          exact hr.elim
      have hcount : st.count = 0 := by rw [← length_contents_undo, hempty, List.length_nil]
      refine ⟨hcount, fun k hk => ?_⟩
      obtain rfl : k = 0 := by
        have : k ≤ st.count := hk
        omega
      rfl
  | cons p ps ih =>
    constructor
    · intro hr
      have hlength : st.contents.length = ps.length + 1 := by
        rw [length_contents_undo]
        exact hr.count
      obtain ⟨e, es, hcontents⟩ := List.exists_cons_of_length_eq_add_one hlength
      obtain ⟨hcount, -, hpop⟩ := contents_eq_cons h hcontents
      have hone := hr.undo 1 (by show 1 ≤ st.count; omega)
      cases hundo : undoFile e goodDisk fs with
      | mk result g =>
        cases result with
        | error err =>
          simp only [undoTimes, execute_error h hcontents hundo] at hone
          cases hone
        | ok _ =>
          simp only [undoTimes, execute_ok h hcontents hundo] at hone
          obtain rfl : g = p := Option.some.inj hone
          rw [hcontents]
          refine ⟨hundo, ?_⟩
          rw [← hpop]
          refine (ih (h.pop (by omega))).mp ⟨?_, fun k hk => ?_⟩
          · have := hr.count
            simp only [List.length_cons] at this
            show st.pop.count = ps.length
            omega
          · have hk' : k ≤ st.pop.count := hk
            have := hr.undo (k + 1) (by show k + 1 ≤ st.count; omega)
            simpa only [undoTimes, execute_ok h hcontents hundo, List.getElem?_cons_succ] using this
    · intro hr
      cases hcontents : st.contents with
      | nil =>
        rw [hcontents] at hr
        exact hr.elim
      | cons e es =>
        rw [hcontents] at hr
        obtain ⟨hcount, -, hpop⟩ := contents_eq_cons h hcontents
        obtain ⟨hundo, hrest⟩ := hr
        rw [← hpop, ← ih (h.pop (by omega))] at hrest
        have hbefore := hrest.count
        refine ⟨?_, fun k hk => ?_⟩
        · show st.count = ps.length + 1
          have : st.pop.count = ps.length := hbefore
          omega
        · cases k with
          | zero => rfl
          | succ k =>
            have hk' : k + 1 ≤ st.count := hk
            have := hrest.undo k (by show k ≤ st.pop.count; omega)
            simpa only [undoTimes, execute_ok h hcontents hundo, List.getElem?_cons_succ] using this

end Execute

/-! ## Runs -/

section Steps

variable {s : UndoState} {n : ℕ}

/-- An operation that is recorded keeps the past within reach exactly if its record is enough. -/
theorem restores_put (h : s.stack.Steady (n + 1)) (hs : Restores s) (path content : Bytes)
    (description : Option Bytes) (timestamp : ℤ) (reversible : Bool) (copies : Copies) :
    ∃ s', fileStep s (.put path content description timestamp reversible copies) = some s' ∧
      s'.stack.Steady n ∧ (Restores s' ↔
        Recorded s (.put path content description timestamp reversible copies)) := by
  refine ⟨_, rfl, h.push _ _, ?_⟩
  rw [restores_iff_replays (h.push _ _), contents_push_undo h]
  obtain ⟨k, hk⟩ := Nat.exists_eq_succ_of_ne_zero s.stack.capacity_pos.ne'
  obtain ⟨fs, hundo, hiff⟩ :=
    undoFile_record path content description timestamp reversible copies s
  rw [hk, List.take_succ_cons, List.take_succ_cons, Replays, hundo, ← hiff]
  have hold : Replays s.stack.contents s.files s.past := (restores_iff_replays h).mp hs
  rw [and_iff_left (hold.take k), Prod.mk.injEq, and_iff_right rfl]

/-- An undo keeps what is left of the past within reach. -/
theorem restores_undo (h : s.stack.Steady (n + 1)) :
    ∃ s', fileStep s .undo = some s' ∧ s'.stack.Steady n ∧ (Restores s → Restores s') := by
  rw [fileStep]
  by_cases hempty : s.stack.count = 0
  · rw [execute_empty hempty]
    exact ⟨s, rfl, h.mono, id⟩
  have hcontents := contents_pop_undo h hempty
  cases hundo : undoFile (s.stack.entries s.stack.top) goodDisk s.files with
  | mk result fs =>
    cases result with
    | ok _ =>
      rw [execute_ok h hcontents hundo]
      have hpop : s.stack.pop.Steady n := (h.pop hempty).mono
      refine ⟨_, rfl, hpop, fun hs => ?_⟩
      have hold : Replays s.stack.contents s.files s.past := (restores_iff_replays h).mp hs
      rw [restores_iff_replays hpop]
      rw [hcontents] at hold
      match hpast : s.past, hold with
      | p :: ps, hold =>
        obtain ⟨hfirst, hrest⟩ := hold
        rw [hundo, Prod.mk.injEq] at hfirst
        rw [hfirst.2]
        exact hrest
    | error err =>
      rw [execute_error h hcontents hundo]
      refine ⟨_, rfl, h.mono, fun hs => ?_⟩
      have hold : Replays s.stack.contents s.files s.past := (restores_iff_replays h).mp hs
      rw [hcontents] at hold
      match hpast : s.past, hold with
      | p :: ps, hold =>
        have hfirst := hold.1
        rw [hundo, Prod.mk.injEq] at hfirst
        cases hfirst.1

end Steps

/-- Files, and an empty stack. -/
def freshUndo (st : UndoStack) (fs : Files) : UndoState := ⟨st, fs, []⟩

/-- Files are written and created, each operation recorded before, and operations undone, in
any order: throughout, so many undos lead back so many operations, exactly if the record of
each operation is enough. The counter of the ring is not to go around, unless that does not
move its place. -/
theorem undo_restores_iff (maxEntries : ℕ) (hmax : maxEntries < 2 ^ 64) (st : UndoStack)
    (hcreate : scUndoStackCreate maxEntries hmax = some st) (fs : Files) (ops : List FileOp)
    (hops : maxEntries ∣ 2 ^ 64 ∨ ops.length < 2 ^ 64) :
    Machine.Throughout fileStep Restores (freshUndo st fs) ops ↔
      Machine.EveryStep fileStep Recorded (freshUndo st fs) ops := by
  rw [scUndoStackCreate] at hcreate
  split_ifs at hcreate with hpos
  obtain rfl := Option.some.inj hcreate
  refine Machine.throughout_iff_everyStep_of_length (I := fun n s => s.stack.Steady n) ?_ ?_ ?_ ?_
  · intro n s op h
    cases op with
    | put path content description timestamp reversible copies => exact ⟨_, rfl, h.push _ _⟩
    | undo =>
      obtain ⟨s', hs', h', -⟩ := restores_undo h
      exact ⟨s', hs', h'⟩
  · intro n s op s' h hs hs'
    cases op with
    | put path content description timestamp reversible copies =>
      obtain ⟨t, ht, -, hiff⟩ := restores_put h hs path content description timestamp reversible
        copies
      obtain rfl : t = s' := Option.some.inj (ht.symm.trans hs')
      exact hiff
    | undo =>
      obtain ⟨t, ht, -, hkept⟩ := restores_undo h
      obtain rfl : t = s' := Option.some.inj (ht.symm.trans hs')
      exact iff_of_true (hkept hs) trivial
  · exact hops.imp id fun hlt => ⟨Nat.zero_le _, by simpa [freshUndo] using hlt⟩
  · refine ⟨rfl, fun k hk => ?_⟩
    obtain rfl : k = 0 := Nat.le_zero.mp hk
    rfl

/-- A disk with one file. -/
def oneFile (path content : Bytes) : Files := Function.update (fun _ => none) path (some content)

/-- All copies find memory. -/
def allCopied : Copies := ⟨true, true, true⟩

/-- A file with content `a` that becomes `b`, then a file that is created, then an undo. -/
def writeAndCreate : List FileOp :=
  [.put (ascii "f") (ascii "b") none 0 true allCopied,
    .put (ascii "g") (ascii "c") none 0 true allCopied, .undo]

theorem hundred_lt : 100 < 2 ^ 64 := by decide

theorem undo_restores_two : ∃ st, scUndoStackCreate 100 hundred_lt = some st ∧
    Machine.Throughout fileStep Restores (freshUndo st (oneFile (ascii "f") (ascii "a")))
      writeAndCreate := by
  refine ⟨_, rfl, (undo_restores_iff 100 hundred_lt _ rfl _ writeAndCreate
    (Or.inr (by decide))).mpr ?_⟩
  refine ⟨Or.inr (by decide), fun s hs => ?_⟩
  obtain rfl := Option.some.inj hs
  exact ⟨rfl, fun _ _ => ⟨trivial, fun _ _ => trivial⟩⟩

/-- A file that is empty becomes `x`. -/
def writeOverEmpty : List FileOp := [.put (ascii "f") (ascii "x") none 0 true allCopied]

/-- The undo of a write over an empty file succeeds and leaves what was written. -/
theorem undo_leaves_content : ∃ st, scUndoStackCreate 100 hundred_lt = some st ∧
    ¬ Machine.Throughout fileStep Restores (freshUndo st (oneFile (ascii "f") []))
      writeOverEmpty := by
  refine ⟨_, rfl, fun h => ?_⟩
  obtain ⟨-, s, hs, hrestores⟩ := h
  obtain rfl := Option.some.inj hs
  have hone := Option.some.inj (hrestores.undo 1 (le_refl 1))
  have hfile := congrFun hone (ascii "f")
  revert hfile
  decide

end SeaClaw.Agent
