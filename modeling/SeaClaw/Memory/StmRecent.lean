import SeaClaw.Lib.Ring
import SeaClaw.Memory.Stm

/-!
# What short-term memory shows

The head follows the counter: the slot of the oldest turn is the number of turns that were
overwritten, around the ring. As long as no record fails on a full buffer, the buffer shows the
last turns of the history; a record that does leaves a hole where a turn should be.
-/

namespace SeaClaw.Memory

open SeaClaw.Lib SeaClaw.Lib.Ring

/-! ## The last turns -/

section History

variable (history : List Turn) (t : Turn)

theorem length_recent : (recent history).length = min history.length stmMaxTurns := by
  rw [recent, List.length_drop]
  omega

theorem getElem?_recent (i : ℕ) :
    (recent history)[i]? = history[history.length - stmMaxTurns + i]? := by
  rw [recent, List.getElem?_drop]

/-- A turn more is remembered, with the oldest one forgotten where there are too many. -/
theorem recent_concat : recent (history ++ [t]) =
    (if history.length < stmMaxTurns then recent history else (recent history).tail) ++ [t] := by
  have hpos : 0 < stmMaxTurns := by decide
  rw [recent, recent, List.length_append, List.length_singleton]
  split_ifs with h
  · rw [Nat.sub_eq_zero_of_le (by omega), Nat.sub_eq_zero_of_le (by omega)]
    rfl
  · rw [List.tail_drop, List.drop_append_of_le_length (by omega)]
    congr 2
    omega

variable {history t} {i : ℕ}

/-- A remembered turn changes among the remembered ones. -/
theorem recent_annotate (f : Turn → Turn) (h : (recent history)[i]? = some t) :
    recent (annotate history i f) = (recent history).set i (f t) := by
  rw [getElem?_recent] at h
  apply List.ext_getElem?
  intro j
  rw [getElem?_recent, annotate, List.length_modify, List.getElem?_modify, List.getElem?_set,
    getElem?_recent, length_recent]
  obtain ⟨hlt, -⟩ := List.getElem?_eq_some_iff.mp h
  by_cases hij : i = j
  · subst hij
    rw [h, if_pos rfl, if_pos (by omega), Option.map_eq_map, Option.map_some, if_pos rfl]
  · rw [if_neg hij]
    simp [hij]

theorem length_annotate (f : Turn → Turn) : (annotate history i f).length = history.length :=
  List.length_modify _ _ _

theorem annotate_id : annotate history i id = history := List.modify_id _ _

end History

/-! ## The invariant -/

/-- The counter counts the history, the head is at the oldest turn, and from there on the slots
hold the turns that are remembered. -/
structure StmRun.Remembers (s : StmRun) : Prop where
  count : s.buf.turnCount = s.history.length
  lt : s.history.length < 2 ^ 64
  head : s.buf.head = (s.history.length - stmMaxTurns) % stmMaxTurns
  shows : window s.buf.turns stmMaxTurns s.buf.head (min s.history.length stmMaxTurns) =
    (recent s.history).map Turn.stored

section Reads

variable {buf : StmBuffer} {n i : ℕ}

theorem scStmCount_eq (hcount : buf.turnCount = n) : scStmCount buf = min n stmMaxTurns := by
  rw [scStmCount, hcount]
  split <;> omega

/-- Before the first overwriting the head is at the first slot, so both ways to find a slot are
the same. -/
theorem physical_eq (hcount : buf.turnCount = n)
    (hhead : buf.head = (n - stmMaxTurns) % stmMaxTurns) (hi : i < stmMaxTurns) :
    physical buf i = (buf.head + i) % stmMaxTurns := by
  rw [physical]
  split_ifs with hle
  · have hzero : buf.head = 0 := by
      rw [hhead, Nat.sub_eq_zero_of_le (hcount ▸ hle), Nat.zero_mod]
    rw [hzero, Nat.zero_add, Nat.mod_eq_of_lt hi]
  · rfl

/-- What is read is what the slots hold from the head on, where it is occupied. -/
theorem scStmGet_eq (hcount : buf.turnCount = n)
    (hhead : buf.head = (n - stmMaxTurns) % stmMaxTurns) : scStmGet buf i =
      (window buf.turns stmMaxTurns buf.head (min n stmMaxTurns))[i]?.filter (·.occupied) := by
  rw [scStmGet, scStmCount_eq hcount, getElem?_window]
  split_ifs with hle hlt hlt
  · omega
  · rfl
  · rw [physical_eq hcount hhead (by omega), Option.filter_some]
  · omega

theorem filter_occupied (ts : List Turn) :
    (ts.map Turn.stored)[i]?.filter (·.occupied) = ts[i]?.map Turn.stored := by
  rw [List.getElem?_map]
  cases ts[i]? <;> rfl

end Reads

section Remembers

variable {s : StmRun} {t : Turn} {i : ℕ}

theorem StmRun.Remembers.isRecent (h : s.Remembers) : IsRecent s := by
  refine ⟨scStmCount_eq h.count, fun i => ?_⟩
  rw [scStmGet_eq h.count h.head, h.shows, filter_occupied]

theorem lt_of_recent (ht : (recent s.history)[i]? = some t) :
    i < min s.history.length stmMaxTurns := by
  rw [← length_recent]
  exact (List.getElem?_eq_some_iff.mp ht).1

theorem StmRun.Remembers.turn (h : s.Remembers) (ht : (recent s.history)[i]? = some t) :
    s.buf.turns ((s.buf.head + i) % stmMaxTurns) = t.stored := by
  have hslot := congrArg (·[i]?) h.shows
  rw [getElem?_window, if_pos (lt_of_recent ht), List.getElem?_map, ht] at hslot
  exact Option.some.inj hslot

theorem StmRun.Remembers.set_self (h : s.Remembers) (ht : (recent s.history)[i]? = some t) :
    s.buf.set ((s.buf.head + i) % stmMaxTurns) t.stored = s.buf := by
  rw [StmBuffer.set, ← h.turn ht, Function.update_eq_self]

/-- A turn that is remembered is found for a change. -/
theorem StmRun.Remembers.getTurnMutable (h : s.Remembers) (ht : (recent s.history)[i]? = some t) :
    getTurnMutable s.buf i = some ((s.buf.head + i) % stmMaxTurns) := by
  have hi := lt_of_recent ht
  rw [Memory.getTurnMutable, scStmCount_eq h.count, if_neg (not_le.mpr hi),
    physical_eq h.count h.head (by omega), h.turn ht]
  rfl

theorem StmRun.Remembers.getTurnMutable_eq_none (h : s.Remembers)
    (ht : (recent s.history)[i]? = none) : Memory.getTurnMutable s.buf i = none := by
  rw [Memory.getTurnMutable, scStmCount_eq h.count, if_pos]
  rw [← length_recent]
  exact List.getElem?_eq_none_iff.mp ht

end Remembers

/-! ## A change of a remembered turn -/

section Change

variable {s : StmRun} {t : Turn} {i : ℕ} {f : Turn → Turn} {x : StmTurn}

/-- A change in a slot that is the change of the turn keeps the turns remembered. -/
theorem StmRun.Remembers.change (h : s.Remembers) (ht : (recent s.history)[i]? = some t) :
    StmRun.Remembers ⟨s.buf.set ((s.buf.head + i) % stmMaxTurns) (f t).stored,
      annotate s.history i f⟩ := by
  refine ⟨h.count.trans (length_annotate f).symm, (length_annotate f).trans_lt h.lt, ?_, ?_⟩
  · rw [length_annotate]
    exact h.head
  · rw [length_annotate, recent_annotate f ht, List.map_set, ← h.shows]
    exact window_set _ (lt_of_recent ht) (min_le_right _ _)

/-- After a change in a slot the turns are shown exactly if it is the change of the turn. -/
theorem StmRun.Remembers.isRecent_change_iff (h : s.Remembers)
    (ht : (recent s.history)[i]? = some t) (hx : x.occupied = true) :
    IsRecent ⟨s.buf.set ((s.buf.head + i) % stmMaxTurns) x, annotate s.history i f⟩ ↔
      x = (f t).stored := by
  constructor
  · rintro ⟨-, hget⟩
    have hi := lt_of_recent ht
    have hset := @window_set _ s.buf.turns stmMaxTurns s.buf.head _ _ x hi (min_le_right _ _)
    have hread := @scStmGet_eq (s.buf.set ((s.buf.head + i) % stmMaxTurns) x) _ i h.count h.head
    rw [hget i, recent_annotate f ht, List.getElem?_set_self (by rwa [length_recent])] at hread
    rw [StmBuffer.set, hset, List.getElem?_set_self (by rwa [length_window]),
      Option.filter_some, if_pos hx] at hread
    exact (Option.some.inj hread).symm
  · rintro rfl
    exact (h.change ht).isRecent

end Change

/-! ## A record -/

section Record

variable {s : StmRun} {role content : Bytes} {timestampMs : ℕ}

/-- What a record puts into its slot. -/
def recordedSlot (role content : Bytes) (timestampMs : ℕ) : StmTurn :=
  ⟨some (scStrndup (.ofBytes role)).octets, some (scStrndup (.ofBytes content)).octets,
    content.length, [], [], none, timestampMs, true⟩

theorem octets_scStrndup_eq_iff (b : Bytes) : (scStrndup (.ofBytes b)).octets = b ↔ 0 ∉ b := by
  rw [scStrndup, Text.ofBytes, List.take_length]
  exact CString.octets_ofBytes

theorem recordedSlot_eq_iff : recordedSlot role content timestampMs =
    (Turn.recorded role content timestampMs).stored ↔ 0 ∉ role ∧ 0 ∉ content := by
  rw [← octets_scStrndup_eq_iff role, ← octets_scStrndup_eq_iff content]
  simp [recordedSlot, Turn.stored, Turn.recorded]

theorem StmRun.Remembers.head_lt (h : s.Remembers) : s.buf.head < stmMaxTurns := by
  rw [h.head]
  exact Nat.mod_lt _ (by decide)

/-- A buffer that is not full gives the slot behind its turns. -/
theorem StmRun.Remembers.nextSlot_of_lt (h : s.Remembers) (hlt : s.history.length < stmMaxTurns) :
    nextSlot s.buf = ((s.buf.head + s.history.length) % stmMaxTurns, s.buf) := by
  have hzero : s.buf.head = 0 := by
    rw [h.head, Nat.sub_eq_zero_of_le hlt.le, Nat.zero_mod]
  rw [nextSlot, h.count, if_neg (not_le.mpr hlt), hzero, Nat.zero_add, Nat.mod_eq_of_lt hlt]

/-- A full buffer gives the slot of its oldest turn, which it clears. -/
theorem StmRun.Remembers.nextSlot_of_le (h : s.Remembers) (hle : stmMaxTurns ≤ s.history.length) :
    nextSlot s.buf = ((s.buf.head + stmMaxTurns) % stmMaxTurns,
      { s.buf.set s.buf.head (freeTurn (s.buf.turns s.buf.head)) with
        head := (s.buf.head + 1) % stmMaxTurns }) := by
  rw [nextSlot, h.count, if_pos hle, Nat.add_mod_right, Nat.mod_eq_of_lt h.head_lt]

/-- The slots behind a record that succeeds: the turns as they are remembered then, with the
last one as it is in its slot. -/
theorem StmRun.Remembers.record (h : s.Remembers) :
    ∃ buf, scStmRecordTurn s.buf role content timestampMs true true = (.ok (), buf) ∧
      buf.turnCount = (s.history.length + 1) % 2 ^ 64 ∧
      buf.head = (s.history.length + 1 - stmMaxTurns) % stmMaxTurns ∧
      window buf.turns stmMaxTurns buf.head (min (s.history.length + 1) stmMaxTurns) =
        (if s.history.length < stmMaxTurns then recent s.history
          else (recent s.history).tail).map Turn.stored ++
        [recordedSlot role content timestampMs] := by
  refine ⟨_, rfl, ?_⟩
  dsimp only [strndup, if_true]
  by_cases hlt : s.history.length < stmMaxTurns
  · have hshows := h.shows
    rw [min_eq_left hlt.le] at hshows
    rw [h.nextSlot_of_lt hlt, if_pos hlt, min_eq_left (by omega), ← h.count]
    refine ⟨rfl, ?_, ?_⟩
    · rw [h.count, Nat.sub_eq_zero_of_le (by omega), ← Nat.sub_eq_zero_of_le hlt.le]
      exact h.head
    · exact (window_push _ (h.count ▸ hlt)).trans (by rw [h.count, hshows]; rfl)
  · have hle := not_lt.mp hlt
    have hshows := h.shows
    rw [min_eq_right hle] at hshows
    rw [h.nextSlot_of_le hle, if_neg hlt, min_eq_right (by omega), ← h.count]
    refine ⟨rfl, ?_, ?_⟩
    · have hnext : (s.buf.head + 1) % stmMaxTurns =
          (s.history.length + 1 - stmMaxTurns) % stmMaxTurns := by
        rw [Nat.sub_add_comm hle, h.head, Nat.mod_add_mod]
      rw [h.count]
      exact hnext
    · have hover := @window_overwrite _ s.buf.turns stmMaxTurns s.buf.head
        (recordedSlot role content timestampMs) (show 0 < stmMaxTurns by decide)
      rw [hshows] at hover
      rw [List.map_tail, ← hover]
      refine (window_mod _).trans (congrArg (window · _ _ _) ?_)
      dsimp only [StmBuffer.set]
      rw [Nat.add_mod_right, Nat.mod_eq_of_lt h.head_lt, Function.update_idem]
      rfl

theorem length_recent_kept (history : List Turn) :
    (if history.length < stmMaxTurns then recent history else (recent history).tail).length =
      min (history.length + 1) stmMaxTurns - 1 := by
  have hpos : 0 < stmMaxTurns := by decide
  split
  · rw [length_recent]
    omega
  · rw [List.length_tail, length_recent]
    omega

/-- A record that succeeds shows its turn exactly if its texts have no NUL and the counter does
not come to its end. -/
theorem StmRun.Remembers.record_iff (h : s.Remembers) {buf : StmBuffer}
    (hrecord : scStmRecordTurn s.buf role content timestampMs true true = (.ok (), buf)) :
    (0 ∉ role ∧ 0 ∉ content ∧ s.buf.turnCount + 1 < 2 ^ 64 →
      StmRun.Remembers ⟨buf, s.history ++ [.recorded role content timestampMs]⟩) ∧
    (IsRecent ⟨buf, s.history ++ [.recorded role content timestampMs]⟩ →
      0 ∉ role ∧ 0 ∉ content ∧ s.buf.turnCount + 1 < 2 ^ 64) := by
  obtain ⟨buf', hbuf, hcount, hhead, hwindow⟩ :=
    @StmRun.Remembers.record _ role content timestampMs h
  obtain rfl : buf' = buf := (Prod.mk.inj (hbuf.symm.trans hrecord)).2
  have hlt : ∀ hlast : s.history.length + 1 < 2 ^ 64, buf'.turnCount = s.history.length + 1 :=
    fun hlast => hcount.trans (Nat.mod_eq_of_lt hlast)
  constructor
  · rintro ⟨hrole, hcontent, hlast⟩
    rw [h.count] at hlast
    refine ⟨?_, ?_, ?_, ?_⟩
    · rw [List.length_append]
      exact hlt hlast
    · rw [List.length_append]
      exact hlast
    · rw [List.length_append]
      exact hhead
    · rw [List.length_append, List.length_singleton, hwindow, recent_concat, List.map_append,
        recordedSlot_eq_iff.mpr ⟨hrole, hcontent⟩]
      rfl
  · rintro ⟨hshown, hget⟩
    rw [List.length_append, List.length_singleton] at hshown
    have hlast : s.history.length + 1 < 2 ^ 64 := by
      by_contra hend
      have hend : s.history.length + 1 = 2 ^ 64 := by
        have := h.lt
        omega
      rw [scStmCount, hcount, hend, Nat.mod_self, if_neg (by decide)] at hshown
      have : 0 < stmMaxTurns := by decide
      omega
    have hread := scStmGet_eq (hlt hlast) hhead (i := min (s.history.length + 1) stmMaxTurns - 1)
    rw [hget, hwindow, recent_concat, ← length_recent_kept] at hread
    generalize (if s.history.length < stmMaxTurns then recent s.history
      else (recent s.history).tail) = kept at hread
    rw [List.getElem?_concat_length, ← show (kept.map Turn.stored).length = kept.length from
      List.length_map _, List.getElem?_concat_length] at hread
    have hslot := recordedSlot_eq_iff.mp (Option.some.inj hread).symm
    rw [h.count]
    exact ⟨hslot.1, hslot.2, hlast⟩

/-- A full buffer whose cleared slot is behind the head shows a hole: at the first index where
nothing was overwritten before, and else at the last one. -/
theorem exists_hole {buf : StmBuffer} {n : ℕ} (hcount : buf.turnCount = n)
    (hhead : buf.head = ((n - stmMaxTurns) % stmMaxTurns + 1) % stmMaxTurns)
    (hslot : (buf.turns ((n - stmMaxTurns) % stmMaxTurns)).occupied = false) :
    ∃ i < stmMaxTurns, scStmGet buf i = none := by
  have hnone : ∀ i, physical buf i = (n - stmMaxTurns) % stmMaxTurns → scStmGet buf i = none := by
    intro i hi
    rw [scStmGet, hi]
    dsimp only
    rw [hslot]
    split <;> rfl
  by_cases hle : n ≤ stmMaxTurns
  · refine ⟨0, by decide, hnone 0 ?_⟩
    rw [physical, hcount, if_pos hle, Nat.sub_eq_zero_of_le hle, Nat.zero_mod]
  · refine ⟨stmMaxTurns - 1, by decide, hnone _ ?_⟩
    have hpos : 1 ≤ stmMaxTurns := by decide
    rw [physical, hcount, if_neg hle, hhead, Nat.mod_add_mod, Nat.add_assoc,
      Nat.add_sub_cancel' hpos, Nat.add_mod_right, Nat.mod_mod]

/-- A record that fails on a buffer with a free slot changes nothing that is shown, and one that
fails on a full buffer leaves a hole. -/
theorem StmRun.Remembers.record_fails (h : s.Remembers) {roleFound contentFound : Bool}
    (hfound : (roleFound && contentFound) = false) :
    ∃ e buf, scStmRecordTurn s.buf role content timestampMs roleFound contentFound =
        (.error e, buf) ∧
      (s.buf.turnCount < stmMaxTurns → StmRun.Remembers ⟨buf, s.history⟩) ∧
      (IsRecent ⟨buf, s.history⟩ → s.buf.turnCount < stmMaxTurns) := by
  have hfails : ∃ x : StmTurn, x.occupied = ((nextSlot s.buf).2.turns (nextSlot s.buf).1).occupied ∧
      scStmRecordTurn s.buf role content timestampMs roleFound contentFound =
        (.error .outOfMemory, (nextSlot s.buf).2.set (nextSlot s.buf).1 x) := by
    set t := (nextSlot s.buf).2.turns (nextSlot s.buf).1 with ht
    cases roleFound with
    | false => exact ⟨{ t with role := none }, rfl, rfl⟩
    | true =>
      cases contentFound with
      | false => exact ⟨{ t with role := none, content := none }, rfl, rfl⟩
      | true => exact absurd hfound (by decide)
  obtain ⟨x, hx, heq⟩ := hfails
  refine ⟨_, _, heq, ?_, ?_⟩
  · intro hlt
    rw [h.count] at hlt
    have hshows := h.shows
    rw [min_eq_left hlt.le] at hshows
    rw [h.nextSlot_of_lt hlt]
    refine ⟨h.count, h.lt, h.head, ?_⟩
    rw [min_eq_left hlt.le]
    exact (window_update x hlt).trans hshows
  · intro hshown
    by_contra hfull
    rw [h.count, not_lt] at hfull
    rw [h.nextSlot_of_le hfull] at hx hshown
    have hslot : (s.buf.head + stmMaxTurns) % stmMaxTurns = (s.history.length - stmMaxTurns) %
        stmMaxTurns := by
      rw [Nat.add_mod_right, Nat.mod_eq_of_lt h.head_lt, h.head]
    have hempty : x.occupied = false := by
      rw [hx]
      dsimp only [StmBuffer.set]
      rw [hslot, h.head, Function.update_self]
      rfl
    obtain ⟨i, hi, hnone⟩ := @exists_hole (StmBuffer.set { s.buf.set s.buf.head
        (freeTurn (s.buf.turns s.buf.head)) with head := (s.buf.head + 1) % stmMaxTurns }
        ((s.buf.head + stmMaxTurns) % stmMaxTurns) x) _
      h.count (congrArg (fun a => (a + 1) % stmMaxTurns) h.head) (by
        dsimp only [StmBuffer.set]
        rw [hslot, Function.update_self, hempty])
    have hget := (hshown.2 i).symm.trans hnone
    rw [Option.map_eq_none_iff, List.getElem?_eq_none_iff, length_recent, min_eq_right hfull] at hget
    omega

end Record

/-! ## One call -/

section Step

variable {s : StmRun}

/-- What a call that meets the condition leaves is remembered, and what shows the turns came
from such a call. -/
def StmRun.Exact (s : StmRun) (op : StmOp) : Prop :=
  ∃ s', stmStep s op = some s' ∧ (s.Keeps op → s'.Remembers) ∧ (IsRecent s' → s.Keeps op)

theorem StmRun.Remembers.exact_recordTurn (h : s.Remembers) (role content : Bytes)
    (timestampMs : ℕ) (roleFound contentFound : Bool) :
    s.Exact (.recordTurn role content timestampMs roleFound contentFound) := by
  refine ⟨_, rfl, ?_⟩
  cases hfound : roleFound && contentFound with
  | true =>
    obtain ⟨rfl, rfl⟩ := (Bool.and_eq_true _ _).mp hfound
    obtain ⟨buf, hbuf, -⟩ := @StmRun.Remembers.record _ role content timestampMs h
    rw [hbuf]
    exact h.record_iff hbuf
  | false =>
    obtain ⟨e, buf, hbuf, hkeep⟩ :=
      @StmRun.Remembers.record_fails _ role content timestampMs h _ _ hfound
    simp only [StmRun.Keeps, hfound, hbuf, StmRun.after, Bool.false_eq_true, if_false]
    exact hkeep

/-- A call that leaves the buffer and the history as they are, and whose condition holds. -/
theorem StmRun.Remembers.exact_of_same (h : s.Remembers) {op : StmOp}
    (hstep : stmStep s op = some s) (hkeep : s.Keeps op) : s.Exact op :=
  ⟨s, hstep, fun _ => h, fun _ => hkeep⟩

/-- A call that changes one remembered turn. -/
theorem StmRun.Remembers.exact_of_change (h : s.Remembers) {op : StmOp} {t : Turn} {i : ℕ}
    {f : Turn → Turn} {x : StmTurn} (ht : (recent s.history)[i]? = some t) (hx : x.occupied = true)
    (hstep : stmStep s op = some ⟨s.buf.set ((s.buf.head + i) % stmMaxTurns) x,
      annotate s.history i f⟩) (hkeep : s.Keeps op ↔ x = (f t).stored) : s.Exact op := by
  refine ⟨_, hstep, fun hk => ?_, fun hshown => ?_⟩
  · rw [hkeep.mp hk]
    exact h.change ht
  · exact hkeep.mpr ((h.isRecent_change_iff ht hx).mp hshown)

theorem StmRun.Remembers.get (h : s.Remembers) (i : ℕ) :
    scStmGet s.buf i = (recent s.history)[i]?.map Turn.stored := h.isRecent.2 i

/-- A condition on the turn that is read is one on the turn that is remembered. -/
theorem StmRun.Remembers.forall_get_iff (h : s.Remembers) {t : Turn} {i : ℕ}
    (ht : (recent s.history)[i]? = some t) {P : StmTurn → Prop} :
    (∀ x, scStmGet s.buf i = some x → P x) ↔ P t.stored := by
  rw [h.get, ht, Option.map_some]
  simp only [Option.some.injEq, forall_eq']

/-- Where no turn is remembered there is nothing to annotate. -/
theorem StmRun.Remembers.not_get (h : s.Remembers) {i : ℕ} (ht : (recent s.history)[i]? = none)
    (x : StmTurn) : scStmGet s.buf i ≠ some x := by
  rw [h.get, ht]
  exact nofun

theorem octets_entityType_eq_iff (type : Bytes) :
    (scStrndup (.ofBytes (entityType type))).octets = entityType type ↔ 0 ∉ type := by
  rw [octets_scStrndup_eq_iff, entityType]
  split_ifs with h
  · rw [h]
    decide
  · rfl

theorem StmRun.Remembers.exact_addEntity (h : s.Remembers) (i : ℕ) (name type : Bytes)
    (mentionCount : ℕ) (nameFound typeFound : Bool) :
    s.Exact (.addEntity i name type mentionCount nameFound typeFound) := by
  cases ht : (recent s.history)[i]? with
  | none =>
    refine h.exact_of_same ?_ fun x hx => absurd hx (h.not_get ht x)
    rw [stmStep, scStmTurnAddEntity, h.getTurnMutable_eq_none ht]
    rfl
  | some t =>
    have hkeep := h.forall_get_iff ht (P := fun x => x.entities.length < stmMaxEntities →
      name ≠ [] → (nameFound && typeFound) = true → 0 ∉ name ∧ 0 ∉ type)
    by_cases hname : name = []
    · refine h.exact_of_same ?_ (hkeep.mpr fun _ hne => absurd hname hne)
      simp only [stmStep, scStmTurnAddEntity, h.getTurnMutable ht, hname, if_true]
      rfl
    by_cases hroom : stmMaxEntities ≤ t.entities.length
    · refine h.exact_of_same ?_ (hkeep.mpr fun hlt => absurd hroom (not_le.mpr hlt))
      simp only [stmStep, scStmTurnAddEntity, h.getTurnMutable ht, h.turn ht, hname, if_false,
        Turn.stored, hroom, if_true]
      rfl
    cases hfound : nameFound && typeFound with
    | false =>
      refine h.exact_of_same ?_ (hkeep.mpr fun _ _ hf => absurd (hfound.symm.trans hf) nofun)
      simp only [stmStep, scStmTurnAddEntity, h.getTurnMutable ht, h.turn ht, hname, if_false,
        Turn.stored, hroom]
      cases nameFound with
      | false => rfl
      | true =>
        cases typeFound with
        | false => rfl
        | true => exact absurd hfound nofun
    | true =>
      obtain ⟨rfl, rfl⟩ := (Bool.and_eq_true _ _).mp hfound
      refine h.exact_of_change ht (f := (·.addEntity name type mentionCount)) (x := { t.stored with
        entities := t.entities ++ [⟨scStrndup (.ofBytes name),
          scStrndup (.ofBytes (entityType type)), mentionCount⟩] }) rfl ?_ (hkeep.trans ?_)
      · simp only [stmStep, scStmTurnAddEntity, h.getTurnMutable ht, h.turn ht, hname, if_false,
          Turn.stored, hroom]
        rfl
      · rw [← octets_scStrndup_eq_iff name, ← octets_entityType_eq_iff]
        simp [Turn.stored, Turn.addEntity, hname, not_le.mp hroom, scStrndup, Text.ofBytes]

theorem StmRun.Remembers.exact_addEmotion (h : s.Remembers) (i : ℕ) (tag : EmotionTag)
    (intensity : Binary64) : s.Exact (.addEmotion i tag intensity) := by
  cases ht : (recent s.history)[i]? with
  | none =>
    refine h.exact_of_same ?_ trivial
    rw [stmStep, scStmTurnAddEmotion, h.getTurnMutable_eq_none ht]
    rfl
  | some t =>
    by_cases hroom : stmMaxEmotions ≤ t.emotions.length
    · refine h.exact_of_same ?_ trivial
      simp only [stmStep, scStmTurnAddEmotion, h.getTurnMutable ht, h.turn ht, Turn.stored, hroom,
        if_true]
      rfl
    · refine h.exact_of_change ht (f := (·.addEmotion tag intensity))
        (x := (t.addEmotion tag intensity).stored) rfl ?_ (iff_of_true trivial rfl)
      simp only [stmStep, scStmTurnAddEmotion, h.getTurnMutable ht, h.turn ht, Turn.stored, hroom,
        if_false, Turn.addEmotion]
      split
      · exact congrArg (fun buf => some (StmRun.mk buf _)) (h.set_self ht).symm
      · rfl

theorem StmRun.Remembers.exact_setPrimaryTopic (h : s.Remembers) (i : ℕ) (topic : Bytes)
    (found : Bool) : s.Exact (.setPrimaryTopic i topic found) := by
  cases ht : (recent s.history)[i]? with
  | none =>
    refine h.exact_of_same ?_ fun x hx => absurd hx (h.not_get ht x)
    rw [stmStep, scStmTurnSetPrimaryTopic, h.getTurnMutable_eq_none ht]
    rfl
  | some t =>
    have hkeep := h.forall_get_iff ht (P := fun x => topic ≠ [] →
      if found then 0 ∉ topic else x.primaryTopic = none)
    by_cases htopic : topic = []
    · refine h.exact_of_change ht (f := (·.setPrimaryTopic topic))
        (x := (t.setPrimaryTopic topic).stored) rfl ?_
        (hkeep.trans (iff_of_true (fun hne => absurd htopic hne) rfl))
      simp only [stmStep, scStmTurnSetPrimaryTopic, h.getTurnMutable ht, h.turn ht, htopic, if_true]
      rfl
    cases found with
    | false =>
      refine h.exact_of_change ht (f := id) (x := { t.stored with primaryTopic := none }) rfl ?_
        (hkeep.trans ?_)
      · simp only [stmStep, scStmTurnSetPrimaryTopic, h.getTurnMutable ht, h.turn ht, htopic,
          if_false, annotate_id]
        rfl
      · simp [Turn.stored, htopic, eq_comm]
    | true =>
      refine h.exact_of_change ht (f := (·.setPrimaryTopic topic))
        (x := { t.stored with primaryTopic := some (scStrndup (.ofBytes topic)).octets }) rfl ?_
        (hkeep.trans ?_)
      · simp only [stmStep, scStmTurnSetPrimaryTopic, h.getTurnMutable ht, h.turn ht, htopic,
          if_false]
        rfl
      · rw [← octets_scStrndup_eq_iff topic]
        simp [Turn.stored, Turn.setPrimaryTopic, htopic]

theorem StmRun.Remembers.exact (h : s.Remembers) (op : StmOp) : s.Exact op := by
  cases op with
  | recordTurn role content timestampMs roleFound contentFound =>
    exact h.exact_recordTurn role content timestampMs roleFound contentFound
  | addEntity i name type mentionCount nameFound typeFound =>
    exact h.exact_addEntity i name type mentionCount nameFound typeFound
  | addEmotion i tag intensity => exact h.exact_addEmotion i tag intensity
  | setPrimaryTopic i topic found => exact h.exact_setPrimaryTopic i topic found

end Step

/-! ## Runs -/

theorem remembers_init : StmRun.Remembers ⟨scStmInit, []⟩ :=
  ⟨rfl, Nat.two_pow_pos 64, rfl, rfl⟩

/-- From the start on, the buffer shows the last turns of the history in every state exactly
when no record fails on a full buffer, no topic is lost to a copy without memory, the texts have
no NUL and the counter does not come to its end. -/
theorem stm_recent_iff (ops : List StmOp) :
    Machine.Throughout stmStep IsRecent ⟨scStmInit, []⟩ ops ↔
      Machine.EveryStep stmStep StmRun.Keeps ⟨scStmInit, []⟩ ops := by
  refine Machine.throughout_iff_everyStep_of_keeps (I := StmRun.Remembers)
    (fun _ h => h.isRecent) ?_ ?_ remembers_init ops
  · intro s op h hop
    obtain ⟨s', hstep, hkeep, -⟩ := h.exact op
    exact ⟨s', hstep, hkeep hop⟩
  · intro s op s' h hstep hop hshown
    obtain ⟨s'', hstep', -, hback⟩ := h.exact op
    obtain rfl : s' = s'' := Option.some.inj (hstep.symm.trans hstep')
    exact hop (hback hshown)

/-- Twenty turns are recorded, and a record for which there is no memory takes the oldest of
them away. -/
theorem stm_loses_turn : ¬ Machine.Throughout stmStep IsRecent ⟨scStmInit, []⟩
    (List.replicate 20 (.recordTurn (ascii "user") (ascii "hi") 0 true true) ++
      [.recordTurn (ascii "user") (ascii "hi") 0 false false]) := by
  intro h
  obtain ⟨s, hrun, -, hget⟩ := h.run
  have hread : (Machine.run stmStep ⟨scStmInit, []⟩
      (List.replicate 20 (.recordTurn (ascii "user") (ascii "hi") 0 true true) ++
        [.recordTurn (ascii "user") (ascii "hi") 0 false false])).map
      (fun s => ((scStmGet s.buf 0).isSome, (recent s.history)[0]?.isSome)) =
        some (false, true) := by decide +kernel
  rw [hrun, Option.map_some, hget 0, Option.isSome_map] at hread
  obtain ⟨hnone, hsome⟩ := Prod.mk.inj (Option.some.inj hread)
  exact absurd (hnone.symm.trans hsome) nofun

end SeaClaw.Memory
