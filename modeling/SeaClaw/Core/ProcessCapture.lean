import SeaClaw.Core.ProcessUtil

/-!
# What a command run guarantees

What is captured is the front of what the child wrote, in every run. The result is that of the
child unless the child was waited for twice, and the child waits for nothing unless it writes more
than a pipe takes that the runner no longer watches.
-/

namespace SeaClaw

open Lib

/-! ## What should hold -/

/-- None of these pipes is ready. -/
def ProcessRun.Quiet (s : ProcessRun) (fds : StdStream → Bool) : Prop :=
  ∀ p, fds p = true → ¬ (s.pipes p).Readable

/-- The runner waits in `select` with nothing to read, and the child waits for a pipe that is not
watched any more: it is read from, but what the child has left to write does not fit. -/
structure StuckOn (capacity maxOutputBytes : ℕ) (s : ProcessRun) (fds : StdStream → Bool)
    (p : StdStream) (rest : Bytes) : Prop where
  place : s.place = .select fds
  quiet : s.Quiet fds
  child : s.child = .blocked p rest
  readOpen : (s.pipes p).readOpen = true
  full : capacity < (s.pipes p).contents.length + rest.length
  dropped : s.watched maxOutputBytes p = false

/-- What is captured is the front of what was written and shorter than its buffer, a result is that
of the child, and runner and child do not wait for each other. -/
structure ProcessGood (capacity maxOutputBytes : ℕ) (s : ProcessRun) : Prop where
  captured : ∀ p, (s.captures p).buf <+: (s.pipes p).put ∧
    (s.captures p).buf.length < captureCap maxOutputBytes
  result : ∀ r, s.place = .done r → ∃ status, s.child = .ended status ∧ r = some (runResult status)
  waits : ∀ fds p rest, ¬ StuckOn capacity maxOutputBytes s fds p rest

/-- The child does not write more than fits to a pipe that is not watched any more while the runner
waits, the runner does not begin to wait while it does so, and the last `waitpid` finds a child
that was not waited for, and is not interrupted before it ends. -/
def Unhindered (capacity maxOutputBytes : ℕ) (s : ProcessRun) : ProcessEvent → Prop
  | .write p bytes => ∀ fds, s.child = .running → (s.pipes p).writeOpen = true →
      (s.pipes p).readOpen = true → s.place = .select fds → s.Quiet fds →
        s.watched maxOutputBytes p = false →
          (s.pipes p).contents.length + bytes.length ≤ capacity
  | .enter => ∀ p rest, s.place = .loop → s.child = .blocked p rest →
      (s.pipes p).readOpen = true → s.watched maxOutputBytes p = false →
        s.Quiet (s.watched maxOutputBytes) →
          capacity < (s.pipes p).contents.length + rest.length →
            (s.captures .out).eof = true ∧ (s.captures .err).eof = true
  | .waitpid interrupted => s.place = .waiting → s.reaped = false ∧
      ((∃ status, s.child = .ended status) ∨ interrupted = false)
  | _ => True

/-! ## What is captured -/

/-- Captured octets and contents are what was put in, and there is room for a terminator. -/
structure Captured (maxOutputBytes : ℕ) (s : ProcessRun) : Prop where
  carried : ∀ p, (s.pipes p).Carried (s.captures p).buf
  room : ∀ p, (s.captures p).buf.length < captureCap maxOutputBytes

section Captured

variable {capacity maxOutputBytes : ℕ} {s : ProcessRun}

/-- Pipes and captures may change as long as they agree. -/
theorem Captured.of_update (h : Captured maxOutputBytes s) {s' : ProcessRun} {p : StdStream}
    {pipe : Pipe} {capture : Capture} (hpipes : s'.pipes = Function.update s.pipes p pipe)
    (hcaptures : s'.captures = Function.update s.captures p capture)
    (hcarried : pipe.Carried capture.buf)
    (hroom : capture.buf.length < captureCap maxOutputBytes) : Captured maxOutputBytes s' := by
  constructor
  · intro q
    rw [hpipes, hcaptures]
    by_cases hq : q = p
    · subst hq
      rw [Function.update_self, Function.update_self]
      exact hcarried
    · rw [Function.update_of_ne hq, Function.update_of_ne hq]
      exact h.carried q
  · intro q
    rw [hcaptures]
    by_cases hq : q = p
    · subst hq
      rw [Function.update_self]
      exact hroom
    · rw [Function.update_of_ne hq]
      exact h.room q

/-- A pipe is changed alone. -/
theorem Captured.setPipe (h : Captured maxOutputBytes s) {s' : ProcessRun} {p : StdStream}
    {pipe : Pipe} (hpipes : s'.pipes = Function.update s.pipes p pipe)
    (hcaptures : s'.captures = s.captures) (hcarried : pipe.Carried (s.captures p).buf) :
    Captured maxOutputBytes s' := by
  refine h.of_update hpipes ?_ hcarried (h.room p)
  rw [hcaptures, Function.update_eq_self]

/-- Only marks change. -/
theorem Captured.congr (h : Captured maxOutputBytes s) {s' : ProcessRun}
    (hpipes : ∀ p, (s'.pipes p).contents = (s.pipes p).contents ∧
      (s'.pipes p).put = (s.pipes p).put)
    (hcaptures : ∀ p, (s'.captures p).buf = (s.captures p).buf) :
    Captured maxOutputBytes s' := by
  constructor
  · intro p
    rw [Pipe.Carried, hcaptures, (hpipes p).1, (hpipes p).2]
    exact h.carried p
  · intro p
    rw [hcaptures]
    exact h.room p

theorem Captured.write (h : Captured maxOutputBytes s) (p : StdStream) (bytes : Bytes) :
    Captured maxOutputBytes (s.write capacity p bytes) := by
  rw [ProcessRun.write]
  split_ifs
  · exact h.setPipe rfl rfl ((h.carried p).fill bytes)
  · exact h.congr (fun _ => ⟨rfl, rfl⟩) fun _ => rfl
  · exact h

theorem Captured.resume (h : Captured maxOutputBytes s) (k : ℕ) :
    Captured maxOutputBytes (s.resume capacity k) := by
  rw [ProcessRun.resume]
  split
  next p rest _ =>
    split
    · exact h.congr (fun _ => ⟨rfl, rfl⟩) fun _ => rfl
    · split
      · exact h.setPipe rfl rfl ((h.carried p).fill (rest.take k))
      · exact h
  next => exact h

theorem Captured.close (h : Captured maxOutputBytes s) (p : StdStream) :
    Captured maxOutputBytes (s.close p) := by
  rw [ProcessRun.close]
  split_ifs
  · exact h.setPipe rfl rfl (h.carried p)
  · exact h

theorem Captured.finish (h : Captured maxOutputBytes s) (status : WaitStatus) :
    Captured maxOutputBytes (s.finish status) := by
  rw [ProcessRun.finish]
  split
  · exact h
  · exact h.congr (fun _ => ⟨rfl, rfl⟩) fun _ => rfl

/-- `read` takes no more than there is room for. -/
theorem Captured.read (h : Captured maxOutputBytes s) (answer : Option ℕ) :
    Captured maxOutputBytes (s.read maxOutputBytes answer) := by
  have hroom := h.room
  unfold ProcessRun.read
  split
  next ready p _ =>
    have hcap := hroom p
    have hsub : sizeSub (sizeSub (captureCap maxOutputBytes) (s.captures p).buf.length) 1 =
        captureCap maxOutputBytes - (s.captures p).buf.length - 1 := by
      rw [sizeSub_of_le (Nat.le_of_lt hcap), sizeSub_of_le (by omega)]
    have heof : ∀ place, Captured maxOutputBytes
        { s.setCapture p { s.captures p with eof := true } with place := place } :=
      fun place => h.of_update (Function.update_eq_self p s.pipes).symm rfl (h.carried p) hcap
    by_cases hready : ready p = false
    · simp only [if_pos hready]
      exact h.congr (fun _ => ⟨rfl, rfl⟩) fun _ => rfl
    · simp only [if_neg hready, hsub]
      rcases answer with _ | _ | k
      · exact heof _
      · simp only
        split
        · exact heof _
        · exact h
      · simp only
        split
        next hfits =>
          refine h.of_update rfl rfl ((h.carried p).drain (k + 1)) ?_
          simp only [List.length_append, List.length_take]
          omega
        next => exact h
  next => exact h

end Captured

/-! ## On the way -/

/-- The runner is neither in `select` nor done. -/
def Elsewhere (s : ProcessRun) : Prop :=
  (∀ fds, s.place ≠ .select fds) ∧ ∀ r, s.place ≠ .done r

section Elsewhere

variable {maxOutputBytes : ℕ} (s : ProcessRun)

theorem elsewhere_of_loop {s : ProcessRun} (h : s.place = .loop) : Elsewhere s :=
  ⟨by simp [h], by simp [h]⟩

theorem elsewhere_of_closing {s : ProcessRun} (h : s.place = .closing) : Elsewhere s :=
  ⟨by simp [h], by simp [h]⟩

theorem elsewhere_of_reading {s : ProcessRun} {ready : StdStream → Bool} {p : StdStream}
    (h : s.place = .reading ready p) : Elsewhere s :=
  ⟨by simp [h], by simp [h]⟩

theorem elsewhere_of_behind {s : ProcessRun} {ready : StdStream → Bool} {p : StdStream}
    (h : s.place = ProcessRun.behind ready p) : Elsewhere s := by
  cases p with
  | out => exact elsewhere_of_reading h
  | err => exact elsewhere_of_loop h

theorem ready_cases (fds : StdStream → Bool) : s.ready fds = s ∨ Elsewhere (s.ready fds) := by
  rw [ProcessRun.ready]
  split
  · split
    · exact Or.inr (elsewhere_of_reading rfl)
    · exact Or.inl rfl
  · exact Or.inl rfl

theorem timeout_cases : s.timeout = s ∨ Elsewhere s.timeout := by
  rw [ProcessRun.timeout]
  split
  · split
    · split
      · exact Or.inr (elsewhere_of_closing rfl)
      · exact Or.inr (elsewhere_of_loop rfl)
    · exact Or.inl rfl
  · exact Or.inl rfl

theorem interrupted_cases : s.interrupted = s ∨ Elsewhere s.interrupted := by
  rw [ProcessRun.interrupted]
  split
  · exact Or.inr (elsewhere_of_loop rfl)
  · exact Or.inl rfl

theorem failed_cases : s.failed = s ∨ Elsewhere s.failed := by
  rw [ProcessRun.failed]
  split
  · exact Or.inr (elsewhere_of_closing rfl)
  · exact Or.inl rfl

theorem read_cases (answer : Option ℕ) :
    s.read maxOutputBytes answer = s ∨ Elsewhere (s.read maxOutputBytes answer) := by
  unfold ProcessRun.read
  split
  next ready p _ =>
    by_cases hready : ready p = false
    · simp only [if_pos hready]
      exact Or.inr (elsewhere_of_behind rfl)
    · simp only [if_neg hready]
      rcases answer with _ | _ | k
      · exact Or.inr (elsewhere_of_behind rfl)
      · simp only
        split
        · exact Or.inr (elsewhere_of_behind rfl)
        · exact Or.inl rfl
      · simp only
        split
        · exact Or.inr (elsewhere_of_behind rfl)
        · exact Or.inl rfl
  next => exact Or.inl rfl

theorem closePipes_cases : s.closePipes = s ∨ Elsewhere s.closePipes := by
  rw [ProcessRun.closePipes]
  split
  · exact Or.inr ⟨by simp, by simp⟩
  · exact Or.inl rfl

end Elsewhere

/-! ## The result -/

/-- A result is that of the child. -/
def Reported (s : ProcessRun) : Prop :=
  ∀ r, s.place = .done r → ∃ status, s.child = .ended status ∧ r = some (runResult status)

section Reported

variable {capacity maxOutputBytes : ℕ} {s s' : ProcessRun}

/-- A step that does not end the run, nor revive the child, keeps the result. -/
theorem Reported.of_same (h : Reported s) (hplace : ∀ r, s'.place = .done r → s.place = .done r)
    (hchild : ∀ status, s.child = .ended status → s'.child = .ended status) : Reported s' := by
  intro r hr
  obtain ⟨status, hstatus, rfl⟩ := h r (hplace r hr)
  exact ⟨status, hchild status hstatus, rfl⟩

theorem Reported.of_place (hplace : ∀ r, s.place ≠ .done r) : Reported s :=
  fun r hr => absurd hr (hplace r)

/-- A run that stays or is on its way has no new result. -/
theorem Reported.on_way (h : Reported s) (hway : s' = s ∨ Elsewhere s') : Reported s' := by
  rcases hway with rfl | hway
  · exact h
  · exact .of_place hway.2

theorem Reported.write (h : Reported s) (p : StdStream) (bytes : Bytes) :
    Reported (s.write capacity p bytes) := by
  rw [ProcessRun.write]
  split
  next hrunning =>
    split
    · exact h.of_same (fun _ hr => hr) fun _ hstatus => hstatus
    · refine h.of_same (fun _ hr => hr) fun status hstatus => ?_
      rw [hrunning.1] at hstatus
      cases hstatus
  next => exact h

theorem Reported.resume (h : Reported s) (k : ℕ) : Reported (s.resume capacity k) := by
  rw [ProcessRun.resume]
  split
  next p rest hblocked =>
    have hnot : ∀ status, s.child ≠ .ended status := by
      intro status hstatus
      rw [hblocked] at hstatus
      cases hstatus
    split
    · exact h.of_same (fun _ hr => hr) fun status hstatus => absurd hstatus (hnot status)
    · split
      · exact h.of_same (fun _ hr => hr) fun status hstatus => absurd hstatus (hnot status)
      · exact h
  next => exact h

theorem Reported.close (h : Reported s) (p : StdStream) : Reported (s.close p) := by
  rw [ProcessRun.close]
  split
  · exact h.of_same (fun _ hr => hr) fun _ hstatus => hstatus
  · exact h

theorem Reported.finish (h : Reported s) (status : WaitStatus) : Reported (s.finish status) := by
  rw [ProcessRun.finish]
  split
  · exact h
  next hnot =>
    exact h.of_same (fun _ hr => hr) fun status hstatus => absurd hstatus (hnot status)

theorem Reported.enter (h : Reported s) : Reported (s.enter maxOutputBytes) := by
  rw [ProcessRun.enter]
  split
  · split
    · exact .of_place (by simp)
    · exact .of_place (by simp)
  · exact h

/-- The last `waitpid` tells the result of a child that it finds ended. -/
theorem Reported.waitpid (h : Reported s) {interrupted : Bool}
    (hfound : Unhindered capacity maxOutputBytes s (.waitpid interrupted)) :
    Reported (s.waitpid interrupted) := by
  rw [ProcessRun.waitpid]
  split
  next hplace =>
    obtain ⟨hreaped, hended⟩ := hfound hplace
    rw [if_neg (by simp [hreaped])]
    split
    next status hstatus =>
      intro r hr
      exact ⟨status, hstatus, (RunnerPlace.done.inj hr).symm⟩
    next hnot =>
      have hwaits : interrupted = false :=
        hended.resolve_left (by rintro ⟨status, hstatus⟩; exact hnot status hstatus)
      rw [hwaits]
      exact h
  next => exact h

end Reported

/-! ## Waiting -/

/-- Runner and child do not wait for each other. -/
def NeverStuck (capacity maxOutputBytes : ℕ) (s : ProcessRun) : Prop :=
  ∀ fds p rest, ¬ StuckOn capacity maxOutputBytes s fds p rest

section NeverStuck

variable {capacity maxOutputBytes : ℕ} {s s' : ProcessRun}

/-- Out of `select` the runner does not wait. -/
theorem NeverStuck.of_place (h : ∀ fds, s.place ≠ .select fds) :
    NeverStuck capacity maxOutputBytes s := fun fds _ _ hs => h fds hs.place

/-- So on its way it does not. -/
theorem NeverStuck.on_way (h : NeverStuck capacity maxOutputBytes s)
    (hway : s' = s ∨ Elsewhere s') : NeverStuck capacity maxOutputBytes s' := by
  rcases hway with rfl | hway
  · exact h
  · exact .of_place hway.1

/-- A child that is not blocked does not wait. -/
theorem NeverStuck.of_child (h : ∀ p rest, s.child ≠ .blocked p rest) :
    NeverStuck capacity maxOutputBytes s := fun _ p rest hs => h p rest hs.child

theorem NeverStuck.write (h : NeverStuck capacity maxOutputBytes s) {p : StdStream} {bytes : Bytes}
    (hfits : Unhindered capacity maxOutputBytes s (.write p bytes)) :
    NeverStuck capacity maxOutputBytes (s.write capacity p bytes) := by
  rw [ProcessRun.write]
  split
  next hopen =>
    split
    · refine .of_child fun q rest hq => ?_
      have hrunning : s.child = .blocked q rest := hq
      rw [hopen.1] at hrunning
      cases hrunning
    next hfull =>
      intro fds q rest hstuck
      obtain ⟨rfl, rfl⟩ := ChildState.blocked.inj hstuck.child
      exact hfull (hfits fds hopen.1 hopen.2.1 hopen.2.2 hstuck.place hstuck.quiet hstuck.dropped)
  next => exact h

/-- What is left to write and what is inside stay together as long. -/
theorem NeverStuck.resume (h : NeverStuck capacity maxOutputBytes s) (k : ℕ) :
    NeverStuck capacity maxOutputBytes (s.resume capacity k) := by
  rw [ProcessRun.resume]
  split
  next p rest hblocked =>
    split
    · exact .of_child (by simp)
    next hopen =>
      split
      next hroom =>
        by_cases hall : rest.length ≤ k
        · rw [if_pos hall]
          exact .of_child (by simp)
        · rw [if_neg hall]
          intro fds q rest' hstuck
          obtain ⟨rfl, rfl⟩ := ChildState.blocked.inj hstuck.child
          have hpipe : ((s.setPipe p ((s.pipes p).fill (rest.take k))).pipes p) =
              (s.pipes p).fill (rest.take k) := Function.update_self ..
          refine h fds p rest ⟨hstuck.place, fun q hq hready => ?_, hblocked, ?_, ?_,
            hstuck.dropped⟩
          · refine hstuck.quiet q hq ?_
            by_cases hqp : q = p
            · subst hqp
              have hq' : ({ s.setPipe q ((s.pipes q).fill (rest.take k)) with
                  child := .blocked q (rest.drop k) } : ProcessRun).pipes q =
                    (s.pipes q).fill (rest.take k) := hpipe
              rw [hq']
              refine hready.imp (fun hne hnil => hne ?_) id
              exact (List.append_eq_nil_iff.mp hnil).1
            · have hq' : ({ s.setPipe p ((s.pipes p).fill (rest.take k)) with
                  child := .blocked p (rest.drop k) } : ProcessRun).pipes q = s.pipes q :=
                Function.update_of_ne hqp ..
              rw [hq']
              exact hready
          · simpa using hopen
          · have hfull := hstuck.full
            rw [hpipe] at hfull
            simp only [Pipe.fill, List.length_append, List.length_take, List.length_drop] at hfull
            omega
      next => exact h
  next => exact h

theorem NeverStuck.close (h : NeverStuck capacity maxOutputBytes s) (p : StdStream) :
    NeverStuck capacity maxOutputBytes (s.close p) := by
  rw [ProcessRun.close]
  split
  next hrunning =>
    refine .of_child fun q rest hq => ?_
    have hblocked : s.child = .blocked q rest := hq
    rw [hrunning] at hblocked
    cases hblocked
  next => exact h

theorem NeverStuck.finish (h : NeverStuck capacity maxOutputBytes s) (status : WaitStatus) :
    NeverStuck capacity maxOutputBytes (s.finish status) := by
  rw [ProcessRun.finish]
  split
  · exact h
  · exact .of_child (by simp)

theorem NeverStuck.enter (h : NeverStuck capacity maxOutputBytes s)
    (hfits : Unhindered capacity maxOutputBytes s .enter) :
    NeverStuck capacity maxOutputBytes (s.enter maxOutputBytes) := by
  rw [ProcessRun.enter]
  split
  next hplace =>
    split
    · exact .of_place (by simp)
    next hopen =>
      intro fds p rest hstuck
      obtain rfl := RunnerPlace.select.inj hstuck.place
      exact hopen (hfits p rest hplace hstuck.child hstuck.readOpen hstuck.dropped hstuck.quiet
        hstuck.full)
  next => exact h

theorem NeverStuck.waitpid (h : NeverStuck capacity maxOutputBytes s) (interrupted : Bool) :
    NeverStuck capacity maxOutputBytes (s.waitpid interrupted) := by
  rw [ProcessRun.waitpid]
  split
  · split
    · exact .of_place (by simp)
    · split
      · exact .of_place (by simp)
      · split
        · exact .of_place (by simp)
        · exact h
  · exact h

end NeverStuck

/-! ## Runs -/

/-- What holds of every state of a run whose steps meet the condition. -/
structure ProcessInv (capacity maxOutputBytes : ℕ) (s : ProcessRun) : Prop where
  captured : Captured maxOutputBytes s
  reported : Reported s
  neverStuck : NeverStuck capacity maxOutputBytes s

section Runs

variable {capacity maxOutputBytes : ℕ} {s : ProcessRun}

theorem ProcessInv.good (h : ProcessInv capacity maxOutputBytes s) :
    ProcessGood capacity maxOutputBytes s where
  captured p := ⟨(h.captured.carried p).isPrefix, h.captured.room p⟩
  result := h.reported
  waits := h.neverStuck

theorem ProcessInv.start (hcap : 0 < captureCap maxOutputBytes) :
    ProcessInv capacity maxOutputBytes .start where
  captured := ⟨fun _ => rfl, fun _ => hcap⟩
  reported := .of_place (by simp [ProcessRun.start])
  neverStuck := .of_place (by simp [ProcessRun.start])

theorem ProcessInv.step (h : ProcessInv capacity maxOutputBytes s) {e : ProcessEvent}
    (he : Unhindered capacity maxOutputBytes s e) :
    ∃ s', processStep capacity maxOutputBytes s e = some s' ∧
      ProcessInv capacity maxOutputBytes s' := by
  obtain ⟨hcaptured, hreported, hstuck⟩ := h
  have hmarks : ∀ s' : ProcessRun, s'.captures = s.captures →
      (∀ p, (s'.pipes p).contents = (s.pipes p).contents ∧ (s'.pipes p).put = (s.pipes p).put) →
        Captured maxOutputBytes s' := by
    intro s' hcaptures hpipes
    exact hcaptured.congr hpipes fun p => by rw [hcaptures]
  cases e with
  | write p bytes => exact ⟨_, rfl, hcaptured.write p bytes, hreported.write p bytes, hstuck.write he⟩
  | resume k => exact ⟨_, rfl, hcaptured.resume k, hreported.resume k, hstuck.resume k⟩
  | close p => exact ⟨_, rfl, hcaptured.close p, hreported.close p, hstuck.close p⟩
  | exit status =>
    exact ⟨_, rfl, hcaptured.finish status, hreported.finish status, hstuck.finish status⟩
  | enter =>
    refine ⟨_, rfl, ?_, hreported.enter, hstuck.enter he⟩
    rw [ProcessRun.enter]
    split
    · split <;> exact hmarks _ rfl fun _ => ⟨rfl, rfl⟩
    · exact hcaptured
  | ready fds =>
    refine ⟨_, rfl, ?_, hreported.on_way (ready_cases s fds), hstuck.on_way (ready_cases s fds)⟩
    rw [ProcessRun.ready]
    split
    · split
      · exact hmarks _ rfl fun _ => ⟨rfl, rfl⟩
      · exact hcaptured
    · exact hcaptured
  | timeout =>
    refine ⟨_, rfl, ?_, hreported.on_way (timeout_cases s), hstuck.on_way (timeout_cases s)⟩
    rw [ProcessRun.timeout]
    split
    · split
      · split <;> exact hmarks _ rfl fun _ => ⟨rfl, rfl⟩
      · exact hcaptured
    · exact hcaptured
  | interrupted =>
    refine ⟨_, rfl, ?_, hreported.on_way (interrupted_cases s),
      hstuck.on_way (interrupted_cases s)⟩
    rw [ProcessRun.interrupted]
    split
    · exact hmarks _ rfl fun _ => ⟨rfl, rfl⟩
    · exact hcaptured
  | failed =>
    refine ⟨_, rfl, ?_, hreported.on_way (failed_cases s), hstuck.on_way (failed_cases s)⟩
    rw [ProcessRun.failed]
    split
    · exact hmarks _ rfl fun _ => ⟨rfl, rfl⟩
    · exact hcaptured
  | read answer =>
    exact ⟨_, rfl, hcaptured.read answer, hreported.on_way (read_cases s answer),
      hstuck.on_way (read_cases s answer)⟩
  | closePipes =>
    refine ⟨_, rfl, ?_, hreported.on_way (closePipes_cases s),
      hstuck.on_way (closePipes_cases s)⟩
    rw [ProcessRun.closePipes]
    split
    · exact hmarks _ rfl fun _ => ⟨rfl, rfl⟩
    · exact hcaptured
  | waitpid interrupted =>
    refine ⟨_, rfl, ?_, hreported.waitpid he, hstuck.waitpid interrupted⟩
    rw [ProcessRun.waitpid]
    split
    · split
      · exact hmarks _ rfl fun _ => ⟨rfl, rfl⟩
      · split
        · exact hmarks _ rfl fun _ => ⟨rfl, rfl⟩
        · split
          · exact hmarks _ rfl fun _ => ⟨rfl, rfl⟩
          · exact hcaptured
    · exact hcaptured

/-- A step that does not meet the condition leads to a state that is not good. -/
theorem not_good_of_hindered {s' : ProcessRun} {e : ProcessEvent}
    (hs' : processStep capacity maxOutputBytes s e = some s')
    (he : ¬ Unhindered capacity maxOutputBytes s e) : ¬ ProcessGood capacity maxOutputBytes s' := by
  intro hgood
  apply he
  cases e with
  | write p bytes =>
    intro fds hrunning hwrite hread hplace hquiet hdropped
    by_contra hfull
    obtain rfl := Option.some.inj hs'
    rw [ProcessRun.write, if_pos ⟨hrunning, hwrite, hread⟩, if_neg hfull] at hgood
    exact hgood.waits fds p bytes ⟨hplace, hquiet, rfl, hread, Nat.lt_of_not_le hfull, hdropped⟩
  | enter =>
    intro p rest hplace hblocked hread hdropped hquiet hfull
    by_contra hopen
    obtain rfl := Option.some.inj hs'
    rw [ProcessRun.enter, hplace] at hgood
    simp only [if_neg hopen] at hgood
    exact hgood.waits _ p rest ⟨rfl, hquiet, hblocked, hread, hfull, hdropped⟩
  | waitpid interrupted =>
    intro hplace
    obtain rfl := Option.some.inj hs'
    rw [ProcessRun.waitpid, hplace] at hgood
    cases hreaped : s.reaped with
    | true =>
      simp only [hreaped, if_true] at hgood
      obtain ⟨status, -, hnone⟩ := hgood.result _ rfl
      cases hnone
    | false =>
      refine ⟨rfl, ?_⟩
      cases interrupted with
      | false => exact Or.inr rfl
      | true =>
        simp only [hreaped, Bool.false_eq_true, if_false, if_true] at hgood
        cases hchild : s.child with
        | ended status => exact Or.inl ⟨status, rfl⟩
        | running =>
          rw [hchild] at hgood
          obtain ⟨status, -, hnone⟩ := hgood.result _ rfl
          cases hnone
        | blocked p rest =>
          rw [hchild] at hgood
          obtain ⟨status, -, hnone⟩ := hgood.result _ rfl
          cases hnone
  | resume k => exact trivial
  | close p => exact trivial
  | exit status => exact trivial
  | ready fds => exact trivial
  | timeout => exact trivial
  | interrupted => exact trivial
  | failed => exact trivial
  | read answer => exact trivial
  | closePipes => exact trivial

end Runs

/-- Whatever the child and the system do: a run is good throughout exactly if the size of the
buffers does not wrap around and every step is unhindered. -/
theorem process_run_good_iff (capacity maxOutputBytes : ℕ) (events : List ProcessEvent) :
    Machine.Throughout (processStep capacity maxOutputBytes) (ProcessGood capacity maxOutputBytes)
        .start events ↔
      (maxOutputBytes + 1) % 2 ^ 64 ≠ 0 ∧
        Machine.EveryStep (processStep capacity maxOutputBytes)
          (Unhindered capacity maxOutputBytes) .start events := by
  by_cases hcap : (maxOutputBytes + 1) % 2 ^ 64 = 0
  · refine iff_of_false (fun h => ?_) fun h => h.1 hcap
    have hgood : ProcessGood capacity maxOutputBytes .start := by
      cases events with
      | nil => exact h
      | cons e es => exact h.1
    have hroom := (hgood.captured .out).2
    simp only [captureCap, hcap] at hroom
    exact absurd hroom (Nat.not_lt_zero _)
  · have hpos : 0 < captureCap maxOutputBytes := by
      simp only [captureCap]
      split <;> omega
    rw [and_iff_right hcap]
    exact Machine.throughout_iff_everyStep_of_keeps (fun s h => h.good)
      (fun s e h he => h.step he) (fun s e s' _ hs' he => not_good_of_hindered hs' he)
      (ProcessInv.start hpos) events

/-- One octet is asked for, and the child writes two and exits with status three. -/
def oneOctetRun : List ProcessEvent :=
  [.write .out (ascii "ab"), .enter, .ready fun p => p = .out, .read (some 1), .read none, .enter,
    .exit (.exited 3), .ready fun p => p = .err, .read none, .read (some 0), .enter, .timeout,
    .closePipes, .waitpid false]

/-- The child is waited for in the loop, so its status is not known in the end. -/
theorem process_run_loses_status :
    ¬ Machine.Throughout (processStep 65536 1) (ProcessGood 65536 1) .start oneOctetRun := by
  intro h
  obtain ⟨s, hrun, hgood⟩ := h.run
  have hdone : (Machine.run (processStep 65536 1) .start oneOctetRun).map
      (fun s => match s.place with
        | .done r => some r
        | _ => none) = some (some none) := by decide
  rw [hrun, Option.map_some, Option.some.injEq] at hdone
  split at hdone
  next r hplace =>
    obtain ⟨status, -, hresult⟩ := hgood.result r hplace
    rw [Option.some.inj hdone] at hresult
    cases hresult
  next => cases hdone

end SeaClaw
