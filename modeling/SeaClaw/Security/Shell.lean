import SeaClaw.Security.Policy

/-!
# What the shell runs

A command line as a shell sees it: parts between newlines, semicolons and `&&`, and in
each part words between blanks. The parts that the policy looks at are those with a
word in them.
-/

namespace SeaClaw.Security

open Lib

/-! ## The shell -/

/-- One octet in front of a list of parts. -/
def prepend (b : UInt8) (parts : List Bytes) : List Bytes :=
  if b = ch '\n' ∨ b = ch ';' then [] :: parts else parts.modifyHead (b :: ·)

/-- The parts of a command line between newlines, `;` and `&&`. -/
def shellParts : Bytes → List Bytes
  | a :: b :: s =>
    if a = ch '&' ∧ b = ch '&' then [] :: shellParts s else prepend a (shellParts (b :: s))
  | [a] => prepend a [[]]
  | [] => [[]]

/-- The words of a part between spaces and tabs. -/
def shellWords (part : Bytes) : List Bytes := (part.splitOnP isBlank).filter (· ≠ [])

/-- The base names of the simple commands that the shell runs. -/
def shellNames (command : Bytes) : List Bytes :=
  (shellParts command).filterMap fun part => (shellWords part).head?.map basenamePtr

/-! ## Parts with a word in them -/

/-- The parts without the blanks in front, if anything is left of them. -/
def nonblank (parts : List Bytes) : List Bytes :=
  (parts.map (·.dropWhile isBlank)).filter (· ≠ [])

theorem nonblank_cons (part : Bytes) (parts : List Bytes) :
    nonblank (part :: parts) =
      if part.dropWhile isBlank = [] then nonblank parts
      else part.dropWhile isBlank :: nonblank parts := by
  simp only [nonblank, List.map_cons, List.filter_cons]
  split_ifs <;> simp_all

@[simp] theorem nonblank_nil_cons (parts : List Bytes) : nonblank ([] :: parts) = nonblank parts := by
  rw [nonblank_cons, List.dropWhile_nil, if_pos rfl]

/-- What stops `dropWhile`. -/
theorem dropWhile_cons_not {p : UInt8 → Bool} {s t : Bytes} {b : UInt8}
    (h : s.dropWhile p = b :: t) : p b = false := by
  have hhead := List.head_dropWhile_not p (by simp [h] : s.dropWhile p ≠ [])
  simpa [h] using hhead

/-- Splitting takes the octets up to the first separator, and goes on behind it. -/
theorem splitOnP_eq (p : UInt8 → Bool) (s : Bytes) :
    s.splitOnP p = s.takeWhile (¬ p ·) ::
      match s.dropWhile (¬ p ·) with
      | [] => []
      | _ :: t => t.splitOnP p := by
  induction s with
  | nil => simp
  | cons b s ih =>
    rw [List.splitOnP_cons_eq_if_modifyHead]
    by_cases hb : p b = true
    · simp [hb]
    · rw [if_neg hb, ih]
      simp [hb]

/-- The first word of a part stands behind its blanks. -/
theorem head_shellWords (part : Bytes) : (shellWords part).head? =
    if part.dropWhile isBlank = [] then none
    else some ((part.dropWhile isBlank).takeWhile (¬ isBlank ·)) := by
  induction part with
  | nil => simp [shellWords]
  | cons b s ih =>
    by_cases hb : isBlank b = true
    · rw [List.dropWhile_cons_of_pos hb, ← ih]
      simp [shellWords, List.splitOnP_cons_eq_if_modifyHead, hb]
    · rw [List.dropWhile_cons_of_neg hb, if_neg (List.cons_ne_nil _ _), shellWords, splitOnP_eq,
        List.takeWhile_cons_of_pos (by simpa using hb)]
      simp

/-- The name of the command that a part runs, by its text behind the blanks. -/
def shellName (seg : Bytes) : Bytes := basenamePtr (seg.takeWhile (¬ isBlank ·))

theorem shellNames_eq (command : Bytes) :
    shellNames command = (nonblank (shellParts command)).map shellName := by
  unfold shellNames
  induction shellParts command with
  | nil => rfl
  | cons part parts ih =>
    rw [List.filterMap_cons, head_shellWords, nonblank_cons]
    split_ifs with h
    · simpa using ih
    · simp [ih, shellName]

/-! ## The segments of the policy -/

/-- A NUL. -/
def isNul (b : UInt8) : Bool := b = 0

theorem nonblank_split_dropWhile (s : Bytes) :
    nonblank ((s.dropWhile fun b => b = 0 ∨ isBlank b).splitOnP isNul) =
      nonblank (s.splitOnP isNul) := by
  induction s with
  | nil => rfl
  | cons b s ih =>
    by_cases h0 : b = 0
    · subst h0
      rw [List.dropWhile_cons_of_pos (by simp), ih, List.splitOnP_cons_eq_if_modifyHead,
        if_pos (by decide), nonblank_nil_cons]
    · by_cases hb : isBlank b = true
      · rw [List.dropWhile_cons_of_pos (by simp [hb]), ih, List.splitOnP_cons_eq_if_modifyHead,
          if_neg (by simpa [isNul] using h0)]
        obtain ⟨part, parts, hs⟩ := List.exists_cons_of_ne_nil (List.splitOnP_ne_nil isNul s)
        rw [hs, List.modifyHead_cons, nonblank_cons, nonblank_cons,
          List.dropWhile_cons_of_pos hb]
      · rw [List.dropWhile_cons_of_neg (by simp [h0, hb])]

/-- The loop stops at the parts between the NULs with a word in them. -/
theorem segmentLoop_eq {fuel : ℕ} {s : Bytes} (hfuel : s.length < fuel) :
    segmentLoop fuel s = nonblank (s.splitOnP isNul) := by
  induction fuel generalizing s with
  | zero => omega
  | succ fuel ih =>
    rw [segmentLoop, ← nonblank_split_dropWhile]
    cases hseg : s.dropWhile (fun b => b = 0 ∨ isBlank b) with
    | nil => rfl
    | cons b t =>
      have hb := dropWhile_cons_not hseg
      simp only [decide_eq_false_iff_not, not_or, Bool.not_eq_true] at hb
      have hlen : t.length < s.length := by
        have hle := (List.dropWhile_suffix (fun b => b = 0 ∨ isBlank b) (l := s)).length_le
        rw [hseg, List.length_cons] at hle
        omega
      have hnul : ∀ x : UInt8, (¬ isNul x) = (x ≠ 0) := fun x => by simp [isNul]
      have hhead : ((b :: t).takeWhile (· ≠ 0)).dropWhile isBlank = (b :: t).takeWhile (· ≠ 0) := by
        rw [List.takeWhile_cons_of_pos (by simpa using hb.1), List.dropWhile_cons_of_neg (by simp [hb.2])]
      have hne : (b :: t).takeWhile (· ≠ 0) ≠ [] := by
        rw [List.takeWhile_cons_of_pos (by simpa using hb.1)]
        exact List.cons_ne_nil _ _
      rw [splitOnP_eq, nonblank_cons]
      simp only [hnul]
      rw [hhead, if_neg hne]
      simp only [List.cons_ne_nil, ite_false]
      congr 1
      cases hrest : (b :: t).dropWhile (· ≠ 0) with
      | nil => cases fuel <;> rfl
      | cons c u =>
        have hle := (List.dropWhile_suffix (· ≠ 0) (l := b :: t)).length_le
        rw [hrest, List.length_cons, List.length_cons] at hle
        exact ih (by rw [List.drop_one, List.tail_cons]; omega)

theorem segments_eq (norm : Bytes) : segments norm = nonblank (norm.splitOnP isNul) :=
  segmentLoop_eq (Nat.lt_succ_self _)

/-! ## Parts of the shell, segments of the policy -/

/-- What the second loop of `normalize_command` does to an octet. -/
def nullSeparator (b : UInt8) : UInt8 := if b = ch '\n' ∨ b = ch ';' ∨ b = ch '|' then 0 else b

/-- The parts of two lines agree: the first ones, and all later ones with a word in them. -/
def SameParts (ps qs : List Bytes) : Prop :=
  ∃ part ps' qs', ps = part :: ps' ∧ qs = part :: qs' ∧ nonblank ps' = nonblank qs'

theorem SameParts.nonblank {ps qs : List Bytes} (h : SameParts ps qs) :
    nonblank ps = nonblank qs := by
  obtain ⟨part, ps', qs', rfl, rfl, hparts⟩ := h
  rw [nonblank_cons, nonblank_cons, hparts]

theorem SameParts.nil_cons {ps qs : List Bytes} (h : Security.nonblank ps = Security.nonblank qs) :
    SameParts ([] :: ps) ([] :: qs) := ⟨[], ps, qs, rfl, rfl, h⟩

/-- An octet in front of a normalized line and of a line of the shell. -/
theorem SameParts.prepend {n : Bytes} {parts : List Bytes} (h : SameParts (n.splitOnP isNul) parts)
    {a : UInt8} (h0 : a ≠ 0) (hpipe : a ≠ ch '|') :
    SameParts ((nullSeparator a :: n).splitOnP isNul) (prepend a parts) := by
  rw [List.splitOnP_cons_eq_if_modifyHead, nullSeparator, Security.prepend]
  by_cases hsep : a = ch '\n' ∨ a = ch ';'
  · rw [if_pos hsep, if_pos (hsep.imp_right Or.inl), if_pos (by decide)]
    exact SameParts.nil_cons h.nonblank
  · have hno : ¬ (a = ch '\n' ∨ a = ch ';' ∨ a = ch '|') := by
      rintro (h | h | h)
      · exact hsep (Or.inl h)
      · exact hsep (Or.inr h)
      · exact hpipe h
    obtain ⟨part, ps', qs', hps, hqs, hparts⟩ := h
    rw [if_neg hsep, if_neg hno, if_neg (by simpa [isNul] using h0), hps, hqs]
    exact ⟨a :: part, ps', qs', rfl, rfl, hparts⟩

/-- Without pipes, normalizing a command cuts it where the shell does. -/
theorem sameParts_normalize {s : Bytes} (h0 : 0 ∉ s) (hpipe : ch '|' ∉ s) :
    SameParts (((nullOperators s).map nullSeparator).splitOnP isNul) (shellParts s) := by
  induction s using shellParts.induct with
  | case1 a b s h ih =>
    obtain ⟨rfl, rfl⟩ := h
    rw [nullOperators, if_pos (Or.inl ⟨rfl, rfl⟩), shellParts, if_pos ⟨rfl, rfl⟩]
    simp only [List.mem_cons, not_or] at h0 hpipe
    have hnul : nullSeparator 0 = 0 := by decide
    rw [List.map_cons, List.map_cons, hnul, List.splitOnP_cons_eq_if_modifyHead,
      if_pos (by decide), List.splitOnP_cons_eq_if_modifyHead, if_pos (by decide)]
    refine SameParts.nil_cons ?_
    rw [nonblank_nil_cons]
    exact (ih h0.2.2 hpipe.2.2).nonblank
  | case2 a b s h ih =>
    have ha : a ≠ 0 := fun he => h0 (he ▸ List.mem_cons_self)
    have hp : a ≠ ch '|' := fun he => hpipe (he ▸ List.mem_cons_self)
    have hop : ¬ (a = ch '&' ∧ b = ch '&' ∨ a = ch '|' ∧ b = ch '|') := by
      rintro (hamp | hbar)
      · exact h hamp
      · exact hp hbar.1
    rw [nullOperators, if_neg hop, shellParts, if_neg h, List.map_cons]
    exact (ih (fun hm => h0 (List.mem_cons_of_mem _ hm))
      fun hm => hpipe (List.mem_cons_of_mem _ hm)).prepend ha hp
  | case3 a =>
    have ha : a ≠ 0 := fun he => h0 (he ▸ List.mem_cons_self)
    have hp : a ≠ ch '|' := fun he => hpipe (he ▸ List.mem_cons_self)
    have hnil : SameParts (([] : Bytes).splitOnP isNul) [[]] := ⟨[], [], [], rfl, rfl, rfl⟩
    exact hnil.prepend ha hp
  | case4 => exact ⟨[], [], [], rfl, rfl, rfl⟩

/-- The shell runs one command for each segment of the policy. -/
theorem shellNames_segments {command : Bytes} (h0 : 0 ∉ command) (hpipe : ch '|' ∉ command)
    (hlen : command.length ≤ maxAnalysisLen) :
    shellNames command = (segments (normalizeCommand command)).map shellName := by
  rw [shellNames_eq, segments_eq, normalizeCommand, List.take_of_length_le hlen]
  exact congrArg _ (sameParts_normalize h0 hpipe).nonblank.symm

end SeaClaw.Security
