import SeaClaw.Gateway.RateLimit

/-!
# The window of the rate limiter

Every sequence of calls under a clock that does not go back. The times of an entry are those of
the calls of its client as far as they can matter to a later call, so the limiter is a sliding
window for each client that it has an entry for: the first ones, as many as the table holds.
-/

namespace SeaClaw.Gateway

open SeaClaw.Lib

/-! ## Runs -/

/-- The calls with their answers. -/
def answersFrom : RateLimiter → List RateCall → List (RateCall × Bool)
  | _, [] => []
  | lim, c :: cs =>
    (c, (scRateLimiterAllow lim c).2) :: answersFrom (scRateLimiterAllow lim c).1 cs

/-- The limiter after the calls. -/
def limiterAfter (lim : RateLimiter) (cs : List RateCall) : RateLimiter :=
  cs.foldl (fun lim c => (scRateLimiterAllow lim c).1) lim

/-- No reading of the clock is before an earlier one. -/
def Clock (cs : List RateCall) : Prop :=
  (cs.flatMap fun c => [c.start, c.finish]).Pairwise (· ≤ ·)

instance (cs : List RateCall) : Decidable (Clock cs) :=
  inferInstanceAs (Decidable (List.Pairwise _ _))

/-- The call needs memory for an entry or for more times that it does not get. -/
def ShortOfMemory (lim : RateLimiter) (c : RateCall) : Prop :=
  match findOrCreate lim c.ip c.entryMemory with
  | none => lim.entries.length < rateEntriesMax
  | some (lim, i) =>
    ∃ e, lim.entries[i]? = some e ∧ growEntry (pruneEntry e c.start) c.growMemory = none

/-- No call is short of memory. -/
inductive MemoryLasts : RateLimiter → List RateCall → Prop
  | nil (lim : RateLimiter) : MemoryLasts lim []
  | cons {lim : RateLimiter} {c : RateCall} {cs : List RateCall} (hc : ¬ ShortOfMemory lim c)
      (hcs : MemoryLasts (scRateLimiterAllow lim c).1 cs) : MemoryLasts lim (c :: cs)

/-- A call of the client that takes place, at least in part, after `lo` and not after `hi`. -/
def RateCall.inWindow (ip : CString) (lo hi : ℤ) (c : RateCall) : Bool :=
  c.ip = ip ∧ lo < c.finish ∧ c.start ≤ hi

/-- The first different clients, as many as the table holds. -/
def firstIps (ips : List CString) : List CString :=
  ips.foldl (fun first ip => if ip ∈ first ∨ rateEntriesMax ≤ first.length then first
    else first ++ [ip]) []

theorem answersFrom_append (lim : RateLimiter) (cs ds : List RateCall) :
    answersFrom lim (cs ++ ds) = answersFrom lim cs ++ answersFrom (limiterAfter lim cs) ds := by
  induction cs generalizing lim with
  | nil => rfl
  | cons c cs ih =>
    rw [List.cons_append, answersFrom, ih, answersFrom, List.cons_append]
    rfl

theorem limiterAfter_concat (lim : RateLimiter) (cs : List RateCall) (c : RateCall) :
    limiterAfter lim (cs ++ [c]) = (scRateLimiterAllow (limiterAfter lim cs) c).1 := by
  rw [limiterAfter, List.foldl_append]
  rfl

theorem map_fst_answersFrom (lim : RateLimiter) (cs : List RateCall) :
    (answersFrom lim cs).map Prod.fst = cs := by
  induction cs generalizing lim with
  | nil => rfl
  | cons c cs ih => rw [answersFrom, List.map_cons, ih]

theorem memoryLasts_cons {lim : RateLimiter} {c : RateCall} {cs : List RateCall} :
    MemoryLasts lim (c :: cs) ↔
      ¬ ShortOfMemory lim c ∧ MemoryLasts (scRateLimiterAllow lim c).1 cs := by
  constructor
  · rintro (_ | ⟨hc, hcs⟩)
    exact ⟨hc, hcs⟩
  · exact fun h => .cons h.1 h.2

theorem memoryLasts_concat (lim : RateLimiter) (cs : List RateCall) (c : RateCall) :
    MemoryLasts lim (cs ++ [c]) ↔
      MemoryLasts lim cs ∧ ¬ ShortOfMemory (limiterAfter lim cs) c := by
  induction cs generalizing lim with
  | nil =>
    rw [List.nil_append, memoryLasts_cons]
    exact ⟨fun h => ⟨.nil lim, h.1⟩, fun h => ⟨h.2, .nil _⟩⟩
  | cons d cs ih =>
    rw [List.cons_append, memoryLasts_cons, ih, memoryLasts_cons, and_assoc]
    rfl

/-- An answer is that of the limiter after the calls before it. -/
theorem answersFrom_split {lim : RateLimiter} {cs : List RateCall}
    {before after : List (RateCall × Bool)} {c : RateCall} {ok : Bool}
    (h : answersFrom lim cs = before ++ (c, ok) :: after) :
    ∃ cs₁ cs₂, cs = cs₁ ++ c :: cs₂ ∧ before = answersFrom lim cs₁ ∧
      ok = (scRateLimiterAllow (limiterAfter lim cs₁) c).2 := by
  induction before generalizing lim cs with
  | nil =>
    cases cs with
    | nil => exact absurd h nofun
    | cons d cs =>
      rw [answersFrom, List.nil_append, List.cons.injEq, Prod.mk.injEq] at h
      obtain ⟨⟨rfl, rfl⟩, -⟩ := h
      exact ⟨[], cs, rfl, rfl, rfl⟩
  | cons p before ih =>
    cases cs with
    | nil => exact absurd h nofun
    | cons d cs =>
      rw [answersFrom, List.cons_append, List.cons.injEq] at h
      obtain ⟨rfl, h⟩ := h
      obtain ⟨cs₁, cs₂, rfl, rfl, rfl⟩ := ih h
      exact ⟨d :: cs₁, cs₂, rfl, rfl, rfl⟩

theorem Clock.left {cs ds : List RateCall} (h : Clock (cs ++ ds)) : Clock cs := by
  rw [Clock, List.flatMap_append] at h
  exact (List.pairwise_append.mp h).1

/-- The clock of a call is not before that of an earlier one. -/
theorem Clock.last {cs : List RateCall} {c : RateCall} (h : Clock (cs ++ [c])) :
    c.start ≤ c.finish ∧ ∀ d ∈ cs, d.start ≤ c.start := by
  rw [Clock, List.flatMap_append] at h
  obtain ⟨-, hc, hcross⟩ := List.pairwise_append.mp h
  refine ⟨?_, fun d hd => ?_⟩
  · simpa using hc
  · exact hcross d.start (List.mem_flatMap.mpr ⟨d, hd, by simp⟩) c.start (by simp)

/-! ## The first clients -/

theorem firstIps_concat (ips : List CString) (ip : CString) :
    firstIps (ips ++ [ip]) =
      if ip ∈ firstIps ips ∨ rateEntriesMax ≤ (firstIps ips).length then firstIps ips
      else firstIps ips ++ [ip] := by
  rw [firstIps, List.foldl_append]
  rfl

/-- While there is room, every client is one of the first. -/
theorem mem_firstIps {ips : List CString} (hroom : (firstIps ips).length < rateEntriesMax)
    {ip : CString} (hip : ip ∈ ips) : ip ∈ firstIps ips := by
  induction ips using List.reverseRecOn with
  | nil => exact absurd hip List.not_mem_nil
  | append_singleton ips x ih =>
    rw [firstIps_concat] at hroom ⊢
    split_ifs at hroom ⊢ with hx
    · rcases List.mem_append.mp hip with hip | hip
      · exact ih hroom hip
      · rw [List.mem_singleton] at hip
        rw [hip]
        exact hx.resolve_right (by omega)
    · rw [List.length_append, List.length_singleton] at hroom
      rcases List.mem_append.mp hip with hip | hip
      · exact List.mem_append_left _ (ih (by omega) hip)
      · exact List.mem_append_right _ hip

/-! ## What the entries know -/

/-- The calls of a client after a time. -/
def callsAfter (cs : List RateCall) (ip : CString) (lo : ℤ) : ℕ :=
  cs.countP fun c => c.ip = ip ∧ lo < c.finish

/-- The calls of a client after a time that were allowed. -/
def allowedAfter (answers : List (RateCall × Bool)) (ip : CString) (lo : ℤ) : ℕ :=
  answers.countP fun p => p.2 = true ∧ p.1.ip = ip ∧ lo < p.1.finish

/-- Later calls look no further back than this. -/
def Past (cs : List RateCall) (w lo : ℤ) : Prop := ∀ c ∈ cs, c.start - w ≤ lo

/-- The times of an entry count the calls of its client: those that were allowed at least, and
all of them when memory never ran out. -/
structure Tracks (m : ℕ) (w : ℤ) (lasts : Prop) (cs : List RateCall) (answers : List (RateCall × Bool))
    (lim : RateLimiter) : Prop where
  room : lim.entries.length ≤ rateEntriesMax
  limits : lim.maxRequests = m ∧ lim.windowSecs = w
  entryLimits : ∀ e ∈ lim.entries, e.maxRequests = m ∧ e.windowSecs = w
  ips : (lim.entries.map (·.ip)).Nodup
  known : ∀ p ∈ answers, p.2 = true → p.1.ip ∈ lim.entries.map (·.ip)
  allowed : ∀ e ∈ lim.entries, ∀ lo, Past cs w lo →
    allowedAfter answers e.ip lo ≤ e.timestamps.countP (lo < ·)
  all : lasts → ∀ e ∈ lim.entries, ∀ lo, Past cs w lo →
    e.timestamps.countP (lo < ·) = callsAfter cs e.ip lo

/-- The table has entries for the first clients. -/
def HasFirst (lasts : Prop) (cs : List RateCall) (lim : RateLimiter) : Prop :=
  lasts → lim.entries.map (·.ip) = firstIps (cs.map (·.ip))

/-- Times that have left an earlier window are not in a later one. -/
theorem countP_filter_past (ts : List ℤ) {cut lo : ℤ} (h : cut ≤ lo) :
    (ts.filter (cut < ·)).countP (lo < ·) = ts.countP (lo < ·) := by
  rw [List.countP_filter]
  refine List.countP_congr fun t _ => ?_
  simp only [Bool.and_eq_true, decide_eq_true_eq]
  omega

section Step

variable {m : ℕ} {w : ℤ} {lasts : Prop} {cs : List RateCall} {answers : List (RateCall × Bool)}
  {lim : RateLimiter} {c : RateCall}

/-- A client without an entry has no allowed call. -/
theorem Tracks.allowedAfter_eq_zero (h : Tracks m w lasts cs answers lim) {ip : CString}
    (hip : ip ∉ lim.entries.map (·.ip)) (lo : ℤ) : allowedAfter answers ip lo = 0 := by
  rw [allowedAfter, List.countP_eq_zero]
  intro p hp
  simp only [decide_eq_true_eq]
  rintro ⟨hok, rfl, -⟩
  exact hip (h.known p hp hok)

/-- A client without an entry has not called, while there is room. -/
theorem HasFirst.callsAfter_eq_zero (h : HasFirst lasts cs lim) (hlasts : lasts)
    {ip : CString} (hip : ip ∉ lim.entries.map (·.ip))
    (hroom : lim.entries.length < rateEntriesMax) (lo : ℤ) : callsAfter cs ip lo = 0 := by
  have htable := h hlasts
  have hlen := congrArg List.length htable
  rw [List.length_map] at hlen
  rw [callsAfter, List.countP_eq_zero]
  intro d hd
  simp only [decide_eq_true_eq]
  rintro ⟨rfl, -⟩
  refine hip ?_
  rw [htable]
  exact mem_firstIps (by omega) (List.mem_map_of_mem hd)

/-- A new entry for a client without one. -/
theorem Tracks.create (h : Tracks m w lasts cs answers lim) (hfirst : HasFirst lasts cs lim) {ip : CString}
    (hshort : ip.octets.length < rateIpMax) (hip : ip ∉ lim.entries.map (·.ip))
    (hroom : lim.entries.length < rateEntriesMax) :
    (newEntry lim ip).ip = ip ∧
      Tracks m w lasts cs answers { lim with entries := lim.entries ++ [newEntry lim ip] } := by
  have hname : (newEntry lim ip).ip = ip := by
    rw [rateIpMax] at hshort
    refine CString.ext ?_
    rw [newEntry, List.take_of_length_le (by rw [rateIpMax]; omega), CString.octets_ofBytes]
    exact ip.noNul
  refine ⟨hname, ?_, h.limits, ?_, ?_, ?_, ?_, ?_⟩
  · rw [List.length_append, List.length_singleton]
    exact hroom
  · intro e he
    rcases List.mem_append.mp he with he | he
    · exact h.entryLimits e he
    · rw [List.mem_singleton.mp he]
      exact h.limits
  · rw [List.map_append, List.map_singleton, hname]
    exact List.nodup_append.mpr ⟨h.ips, List.nodup_singleton _,
      fun x hx y hy hxy => hip (by rwa [← List.mem_singleton.mp hy, ← hxy])⟩
  · intro p hp hok
    rw [List.map_append]
    exact List.mem_append_left _ (h.known p hp hok)
  · intro e he lo hlo
    rcases List.mem_append.mp he with he | he
    · exact h.allowed e he lo hlo
    · rw [List.mem_singleton.mp he, hname, h.allowedAfter_eq_zero hip]
      exact Nat.zero_le _
  · intro hlasts e he lo hlo
    rcases List.mem_append.mp he with he | he
    · exact h.all hlasts e he lo hlo
    · rw [List.mem_singleton.mp he, hname, hfirst.callsAfter_eq_zero hlasts hip hroom]
      rfl

/-- The entry of a client is found or made, unless the table is full or memory is short. -/
theorem Tracks.findOrCreate (h : Tracks m w lasts cs answers lim) (hfirst : HasFirst lasts cs lim)
    {ip : CString} (hshort : ip.octets.length < rateIpMax) (memory : Bool) :
    (Gateway.findOrCreate lim ip memory = none ∧ ip ∉ lim.entries.map (·.ip) ∧
      (memory = true → rateEntriesMax ≤ lim.entries.length)) ∨
    ∃ lim' l₁ e l₂, Gateway.findOrCreate lim ip memory = some (lim', l₁.length) ∧
      lim'.entries = l₁ ++ e :: l₂ ∧ e.ip = ip ∧ Tracks m w lasts cs answers lim' ∧
      lim'.entries.map (·.ip) = (if ip ∈ lim.entries.map (·.ip) then lim.entries.map (·.ip)
        else lim.entries.map (·.ip) ++ [ip]) ∧
      (ip ∉ lim.entries.map (·.ip) → lim.entries.length < rateEntriesMax) := by
  by_cases hip : ip ∈ lim.entries.map (·.ip)
  · right
    obtain ⟨e, he, rfl⟩ := List.mem_map.mp hip
    obtain ⟨l₁, l₂, hsplit⟩ := List.append_of_mem he
    have hnot : e.ip ∉ l₁.map (·.ip) := by
      have hnodup := h.ips
      rw [hsplit, List.map_append, List.map_cons, List.nodup_append] at hnodup
      exact fun hmem => hnodup.2.2 _ hmem _ List.mem_cons_self rfl
    have hfind : lim.entries.findIdx? (·.ip = e.ip) = some l₁.length := by
      have hnone : l₁.findIdx? (·.ip = e.ip) = none := by
        rw [List.findIdx?_eq_none_iff]
        intro x hx
        rw [decide_eq_false_iff_not]
        intro hxe
        exact hnot (hxe ▸ List.mem_map_of_mem hx)
      rw [hsplit, List.findIdx?_append, hnone, List.findIdx?_cons]
      simp
    refine ⟨lim, l₁, e, l₂, ?_, hsplit, rfl, h, ?_, fun hne => absurd hip hne⟩
    · rw [Gateway.findOrCreate, hfind]
    · rw [if_pos hip]
  · have hfind : lim.entries.findIdx? (·.ip = ip) = none := by
      rw [List.findIdx?_eq_none_iff]
      intro x hx
      rw [decide_eq_false_iff_not]
      rintro rfl
      exact hip (List.mem_map_of_mem hx)
    simp only [Gateway.findOrCreate, hfind]
    split_ifs with hfull hmem
    · exact Or.inl ⟨rfl, hip, fun _ => hfull⟩
    · exact Or.inl ⟨rfl, hip, fun hyes => absurd (hyes.symm.trans hmem) nofun⟩
    · right
      obtain ⟨hname, htracks⟩ := h.create hfirst hshort hip (by omega)
      refine ⟨_, lim.entries, newEntry lim ip, [], rfl, rfl, hname, htracks, ?_, fun _ => by omega⟩
      rw [List.map_append, List.map_singleton, hname]

/-- The times of the client's entry after its call at a later time. -/
theorem Tracks.record (h : Tracks m w lasts cs answers lim) {l₁ l₂ : List RateEntry} {e : RateEntry}
    (hentries : lim.entries = l₁ ++ e :: l₂) (hip : e.ip = c.ip)
    {ok : Bool} {lasts' : Prop} (hlasts : lasts' → lasts) {times : List ℤ} (cap : ℕ)
    (hallowed : ∀ lo, c.start - w ≤ lo → e.timestamps.countP (lo < ·) +
      (if ok = true ∧ lo < c.finish then 1 else 0) ≤ times.countP (lo < ·))
    (hall : lasts' → ∀ lo, c.start - w ≤ lo → times.countP (lo < ·) =
      e.timestamps.countP (lo < ·) + if lo < c.finish then 1 else 0) :
    Tracks m w lasts' (cs ++ [c]) (answers ++ [(c, ok)])
      { lim with entries := l₁ ++ { e with timestamps := times, cap := cap } :: l₂ } := by
  have hother : ∀ x, x ∈ l₁ ∨ x ∈ l₂ → x.ip ≠ c.ip := by
    have hnodup := h.ips
    rw [hentries, List.map_append, List.map_cons, List.nodup_middle, List.nodup_cons,
      ← List.map_append] at hnodup
    intro x hx hxc
    refine hnodup.1 ?_
    rw [hip, ← hxc]
    exact List.mem_map_of_mem (List.mem_append.mpr hx)
  have hmap : (l₁ ++ { e with timestamps := times, cap := cap } :: l₂).map (·.ip) =
      lim.entries.map (·.ip) := by
    rw [hentries, List.map_append, List.map_append, List.map_cons, List.map_cons]
  have hmem : ∀ x, x ∈ l₁ ∨ x ∈ l₂ → x ∈ lim.entries := by
    intro x hx
    rw [hentries, List.mem_append, List.mem_cons]
    exact hx.imp id Or.inr
  have he : e ∈ lim.entries := by
    rw [hentries]
    exact List.mem_append_right _ List.mem_cons_self
  -- an entry is the one of the client, or one that stays as it is
  have hcases : ∀ x ∈ l₁ ++ { e with timestamps := times, cap := cap } :: l₂,
      x = { e with timestamps := times, cap := cap } ∨ x ∈ l₁ ∨ x ∈ l₂ := by
    intro x hx
    rw [List.mem_append, List.mem_cons] at hx
    exact hx.elim (fun h₁ => Or.inr (Or.inl h₁)) (Or.imp id Or.inr)
  have hpast : ∀ lo, Past (cs ++ [c]) w lo → Past cs w lo ∧ c.start - w ≤ lo := by
    intro lo hlo
    exact ⟨fun d hd => hlo d (List.mem_append_left _ hd),
      hlo c (List.mem_append_right _ (List.mem_singleton_self c))⟩
  refine ⟨?_, h.limits, ?_, ?_, ?_, ?_, ?_⟩
  · have := h.room
    rw [hentries, List.length_append, List.length_cons] at this
    rwa [List.length_append, List.length_cons]
  · intro x hx
    rcases hcases x hx with rfl | hx
    · exact h.entryLimits e he
    · exact h.entryLimits x (hmem x hx)
  · rw [hmap]
    exact h.ips
  · intro p hp hok
    rw [hmap]
    rcases List.mem_append.mp hp with hp | hp
    · exact h.known p hp hok
    · rw [List.mem_singleton.mp hp]
      dsimp only
      rw [← hip]
      exact List.mem_map_of_mem he
  · intro x hx lo hlo
    obtain ⟨hlo, hcut⟩ := hpast lo hlo
    rw [allowedAfter, List.countP_append, List.countP_singleton]
    rcases hcases x hx with rfl | hx
    · have hbefore := h.allowed e he lo hlo
      have hnow := hallowed lo hcut
      rw [allowedAfter] at hbefore
      simp only [hip] at hbefore hnow ⊢
      simp only [true_and, decide_eq_true_eq] at hnow ⊢
      omega
    · have hne : ¬ c.ip = x.ip := fun hxc => hother x hx hxc.symm
      simp only [hne, false_and, and_false, decide_false, Bool.false_eq_true, if_false, add_zero]
      exact h.allowed x (hmem x hx) lo hlo
  · intro hl x hx lo hlo
    obtain ⟨hlo, hcut⟩ := hpast lo hlo
    rw [callsAfter, List.countP_append, List.countP_singleton]
    rcases hcases x hx with rfl | hx
    · have hbefore := h.all (hlasts hl) e he lo hlo
      have hnow := hall hl lo hcut
      rw [callsAfter] at hbefore
      simp only [hip] at hbefore hnow ⊢
      simp only [true_and, decide_eq_true_eq] at hnow ⊢
      omega
    · have hne : ¬ c.ip = x.ip := fun hxc => hother x hx hxc.symm
      simp only [hne, false_and, decide_false, Bool.false_eq_true, if_false, add_zero]
      exact h.all (hlasts hl) x (hmem x hx) lo hlo

/-- A call that gets no entry is denied and changes nothing. -/
theorem Tracks.deny (h : Tracks m w lasts cs answers lim) (hip : c.ip ∉ lim.entries.map (·.ip))
    {lasts' : Prop} (hlasts : lasts' → lasts) :
    Tracks m w lasts' (cs ++ [c]) (answers ++ [(c, false)]) lim := by
  have hne : ∀ e ∈ lim.entries, ¬ c.ip = e.ip :=
    fun e he hce => hip (hce ▸ List.mem_map_of_mem he)
  have hpast : ∀ lo, Past (cs ++ [c]) w lo → Past cs w lo :=
    fun lo hlo d hd => hlo d (List.mem_append_left _ hd)
  refine ⟨h.room, h.limits, h.entryLimits, h.ips, ?_, ?_, ?_⟩
  · intro p hp hok
    rcases List.mem_append.mp hp with hp | hp
    · exact h.known p hp hok
    · rw [List.mem_singleton.mp hp] at hok
      exact absurd hok nofun
  · intro e he lo hlo
    rw [allowedAfter, List.countP_append, List.countP_singleton]
    simp only [Bool.false_eq_true, false_and, decide_false, if_false, add_zero]
    exact h.allowed e he lo (hpast lo hlo)
  · intro hl e he lo hlo
    rw [callsAfter, List.countP_append, List.countP_singleton]
    simp only [hne e he, false_and, decide_false, Bool.false_eq_true, if_false, add_zero]
    exact h.all (hlasts hl) e he lo (hpast lo hlo)

theorem growEntry_eq_some {e e' : RateEntry} {memory : Bool} (h : growEntry e memory = some e') :
    ∃ cap, e' = { e with cap := cap } := by
  rw [growEntry] at h
  split_ifs at h
  · exact ⟨e.cap * 2, (Option.some.inj h).symm⟩
  · exact ⟨e.cap, (Option.some.inj h).symm⟩

/-- What the times of an entry are for at the time of a call. -/
theorem Tracks.length_prune (h : Tracks m w lasts cs answers lim) {e : RateEntry}
    (he : e ∈ lim.entries) (now : ℤ) :
    (pruneEntry e now).timestamps = e.timestamps.filter (now - w < ·) ∧
      (pruneEntry e now).timestamps.length = e.timestamps.countP (now - w < ·) := by
  rw [pruneEntry, (h.entryLimits e he).2, List.countP_eq_length_filter]
  exact ⟨rfl, rfl⟩

/-- The table after the entry of a client was found or made. -/
theorem HasFirst.concat (hfirst : HasFirst lasts cs lim) {lasts' : Prop} (hlasts : lasts' → lasts)
    {lim' : RateLimiter}
    (hips : lim'.entries.map (·.ip) = if c.ip ∈ lim.entries.map (·.ip)
      then lim.entries.map (·.ip) else lim.entries.map (·.ip) ++ [c.ip])
    (hroom : c.ip ∉ lim.entries.map (·.ip) → lim.entries.length < rateEntriesMax) :
    HasFirst lasts' (cs ++ [c]) lim' := by
  intro hl
  have htable := hfirst (hlasts hl)
  have hlen := congrArg List.length htable
  rw [List.length_map] at hlen
  rw [hips, List.map_append, List.map_singleton, firstIps_concat, ← htable]
  by_cases hc : c.ip ∈ lim.entries.map (·.ip)
  · rw [if_pos hc, if_pos (Or.inl hc)]
  · have := hroom hc
    rw [if_neg hc, if_neg]
    rintro (hmem | hfull)
    · exact hc hmem
    · rw [List.length_map] at hfull
      omega

/-- One call: what is tracked stays tracked, and the answer is that of the window. -/
theorem Tracks.step (h : Tracks m w lasts cs answers lim) (hfirst : HasFirst lasts cs lim)
    (hshort : c.ip.octets.length < rateIpMax) (hclock : ∀ d ∈ cs, d.start ≤ c.start) :
    Tracks m w (lasts ∧ ¬ ShortOfMemory lim c) (cs ++ [c])
        (answers ++ [(c, (scRateLimiterAllow lim c).2)]) (scRateLimiterAllow lim c).1 ∧
      HasFirst (lasts ∧ ¬ ShortOfMemory lim c) (cs ++ [c]) (scRateLimiterAllow lim c).1 ∧
      ((scRateLimiterAllow lim c).2 = true → allowedAfter answers c.ip (c.start - w) + 1 ≤ m) ∧
      (lasts ∧ ¬ ShortOfMemory lim c → ((scRateLimiterAllow lim c).2 = true ↔
        callsAfter cs c.ip (c.start - w) < m ∧ c.ip ∈ firstIps ((cs ++ [c]).map (·.ip)))) := by
  have hcut : Past cs w (c.start - w) := fun d hd => by
    have := hclock d hd
    omega
  rcases h.findOrCreate hfirst hshort c.entryMemory with
    ⟨hnone, hip, hfull⟩ | ⟨lim', l₁, e, l₂, hsome, hentries, hname, htracks, hips, hroom⟩
  · -- no entry: the table is full, or there is no memory
    have hallow : scRateLimiterAllow lim c = (lim, false) := by
      rw [scRateLimiterAllow, hnone]
    have hmax : ¬ ShortOfMemory lim c → rateEntriesMax ≤ lim.entries.length := by
      intro hm
      simp only [ShortOfMemory, hnone] at hm
      omega
    have hsame : lasts ∧ ¬ ShortOfMemory lim c →
        firstIps ((cs ++ [c]).map (·.ip)) = lim.entries.map (·.ip) := by
      rintro ⟨hl, hm⟩
      have htable := hfirst hl
      have hlen := congrArg List.length htable
      rw [List.length_map] at hlen
      have := hmax hm
      rw [List.map_append, List.map_singleton, firstIps_concat, if_pos (Or.inr (by omega)), htable]
    rw [hallow]
    refine ⟨h.deny hip And.left, fun hl => (hsame hl).symm, nofun, fun hl => ?_⟩
    rw [hsame hl]
    exact iff_of_false Bool.false_ne_true fun hc => hip hc.2
  · have he : e ∈ lim'.entries := by
      rw [hentries]
      exact List.mem_append_right _ List.mem_cons_self
    have hget : lim'.entries[l₁.length]? = some e := by
      rw [hentries]
      simp
    have hset (e' : RateEntry) : lim'.entries.set l₁.length e' = l₁ ++ e' :: l₂ := by
      rw [hentries]
      simp
    obtain ⟨hfilter, hlength⟩ := htracks.length_prune he c.start
    obtain ⟨hmax, hwindow⟩ := htracks.entryLimits e he
    have hmem : c.ip ∈ lim'.entries.map (·.ip) := by
      rw [← hname]
      exact List.mem_map_of_mem he
    cases hgrow : growEntry (pruneEntry e c.start) c.growMemory with
    | none =>
      have hallow : scRateLimiterAllow lim c =
          ({ lim' with entries := l₁ ++ pruneEntry e c.start :: l₂ }, false) := by
        simp only [scRateLimiterAllow, hsome, hget, hgrow, hset]
      have hno : ¬ (lasts ∧ ¬ ShortOfMemory lim c) := by
        rintro ⟨-, hm⟩
        refine hm ?_
        simp only [ShortOfMemory, hsome]
        exact ⟨e, hget, hgrow⟩
      rw [hallow]
      refine ⟨?_, fun hl => absurd hl hno, nofun, fun hl => absurd hl hno⟩
      refine htracks.record hentries hname And.left e.cap (fun lo hlo => ?_) fun hl => absurd hl hno
      rw [hwindow, countP_filter_past _ hlo]
      simp
    | some e' =>
      obtain ⟨cap, rfl⟩ := growEntry_eq_some hgrow
      have hallow : scRateLimiterAllow lim c =
          ({ lim' with entries := l₁ ++ { e with
              timestamps := (pruneEntry e c.start).timestamps ++ [c.finish], cap := cap } :: l₂ },
            decide (e.timestamps.countP (c.start - w < ·) + 1 ≤ e.maxRequests)) := by
        simp only [scRateLimiterAllow, hsome, hget, hgrow, hset, List.length_append,
          List.length_singleton, hlength]
        rfl
      have hcount (lo : ℤ) (hlo : c.start - w ≤ lo) :
          ((pruneEntry e c.start).timestamps ++ [c.finish]).countP (lo < ·) =
            e.timestamps.countP (lo < ·) + if lo < c.finish then 1 else 0 := by
        rw [List.countP_append, hfilter, countP_filter_past _ hlo, List.countP_singleton]
        simp only [decide_eq_true_eq]
      have hfirst' : HasFirst (lasts ∧ ¬ ShortOfMemory lim c) (cs ++ [c]) lim' :=
        hfirst.concat And.left hips hroom
      rw [hallow]
      refine ⟨?_, ?_, ?_, ?_⟩
      · refine htracks.record hentries hname And.left cap (fun lo hlo => ?_) fun _ => hcount
        rw [hcount lo hlo]
        split_ifs <;> omega
      · intro hl
        rw [← hfirst' hl, hentries, List.map_append, List.map_append, List.map_cons, List.map_cons]
      · intro hok
        have hbefore := htracks.allowed e he _ hcut
        rw [hname] at hbefore
        rw [decide_eq_true_eq, hmax] at hok
        omega
      · intro hl
        have hbefore := htracks.all hl.1 e he _ hcut
        rw [hname] at hbefore
        rw [decide_eq_true_eq, hmax, ← hfirst' hl, hbefore]
        exact ⟨fun hlt => ⟨hlt, hmem⟩, fun hlt => hlt.1⟩

end Step

/-! ## Every sequence of calls -/

section Runs

variable (lim : RateLimiter)

/-- What is tracked over a run from an empty table. -/
theorem tracks_run (hempty : lim.entries = []) {cs : List RateCall} (hclock : Clock cs)
    (hshort : ∀ c ∈ cs, c.ip.octets.length < rateIpMax) :
    Tracks lim.maxRequests lim.windowSecs (MemoryLasts lim cs) cs (answersFrom lim cs)
        (limiterAfter lim cs) ∧
      HasFirst (MemoryLasts lim cs) cs (limiterAfter lim cs) := by
  induction cs using List.reverseRecOn with
  | nil =>
    refine ⟨⟨?_, ⟨rfl, rfl⟩, ?_, ?_, nofun, ?_, ?_⟩, ?_⟩
    all_goals simp [limiterAfter, hempty, HasFirst, firstIps]
  | append_singleton cs c ih =>
    obtain ⟨h, hfirst⟩ := ih hclock.left fun d hd => hshort d (List.mem_append_left _ hd)
    have hc := hshort c (List.mem_append_right _ (List.mem_singleton_self c))
    obtain ⟨htracks, htable, -, -⟩ := h.step hfirst hc hclock.last.2
    rw [memoryLasts_concat, answersFrom_append, limiterAfter_concat]
    exact ⟨htracks, htable⟩

/-- No window has more allowed calls of a client than its limit. -/
theorem allowed_inWindow_le (hempty : lim.entries = []) {cs : List RateCall} (hclock : Clock cs)
    (hshort : ∀ c ∈ cs, c.ip.octets.length < rateIpMax) (ip : CString) (t : ℤ) :
    ((answersFrom lim cs).countP fun p => p.2 && p.1.inWindow ip (t - lim.windowSecs) t) ≤
      lim.maxRequests := by
  induction cs using List.reverseRecOn with
  | nil => exact Nat.zero_le _
  | append_singleton cs c ih =>
    have hshort' : ∀ d ∈ cs, d.ip.octets.length < rateIpMax :=
      fun d hd => hshort d (List.mem_append_left _ hd)
    have hc := hshort c (List.mem_append_right _ (List.mem_singleton_self c))
    obtain ⟨h, hfirst⟩ := tracks_run lim hempty hclock.left hshort'
    obtain ⟨-, -, hallowed, -⟩ := h.step hfirst hc hclock.last.2
    rw [answersFrom_append, answersFrom, answersFrom, List.countP_append, List.countP_singleton]
    dsimp only
    split_ifs with hin
    · simp only [RateCall.inWindow, Bool.and_eq_true, decide_eq_true_eq] at hin
      obtain ⟨hok, rfl, -, hstart⟩ := hin
      -- what the window holds was still counted when this call was made
      have hle : ((answersFrom lim cs).countP
          fun p => p.2 && p.1.inWindow c.ip (t - lim.windowSecs) t) ≤
          allowedAfter (answersFrom lim cs) c.ip (c.start - lim.windowSecs) := by
        refine List.countP_mono_left fun p _ hp => ?_
        simp only [RateCall.inWindow, Bool.and_eq_true, decide_eq_true_eq] at hp ⊢
        obtain ⟨hallowed, hip, hfinish, -⟩ := hp
        exact ⟨hallowed, hip, by omega⟩
      have := hallowed hok
      omega
    · exact ih hclock.left hshort'

end Runs

/-- The calls of a client in the window before a call are those that are still counted. -/
theorem countP_inWindow {lim : RateLimiter} {cs : List RateCall} {c : RateCall}
    (hclock : ∀ d ∈ cs, d.start ≤ c.start) (ip : CString) (lo : ℤ) :
    ((answersFrom lim cs).countP fun p => p.1.inWindow ip lo c.start) = callsAfter cs ip lo := by
  have hmap := map_fst_answersFrom lim cs
  rw [callsAfter, ← hmap, List.countP_map, hmap]
  refine List.countP_congr fun p hp => ?_
  have hstart : p.1.start ≤ c.start := by
    refine hclock p.1 ?_
    rw [← hmap]
    exact List.mem_map_of_mem hp
  simp only [RateCall.inWindow, Function.comp_apply, decide_eq_true_eq]
  exact ⟨fun hin => ⟨hin.1, hin.2.1⟩, fun hin => ⟨hin.1, hin.2, hstart⟩⟩

/-- The limiter is a sliding window for each client that its table has an entry for: no window
has more allowed calls of a client than the limit, and while memory lasts a call is allowed
exactly when the window before it has fewer calls of its client and the client is one of the
first. -/
theorem rate_limiter_window (requestsPerWindow windowSecs : Int32) (cs : List RateCall)
    (hclock : Clock cs) (hshort : ∀ c ∈ cs, c.ip.octets.length < rateIpMax) :
    let lim := scRateLimiterCreate requestsPerWindow windowSecs
    (∀ ip t, ((answersFrom lim cs).countP fun p =>
        p.2 && p.1.inWindow ip (t - lim.windowSecs) t) ≤ lim.maxRequests) ∧
      ∀ before c ok after, answersFrom lim cs = before ++ (c, ok) :: after →
        MemoryLasts lim (before.map Prod.fst ++ [c]) →
        (ok = true ↔
          (before.countP fun p => p.1.inWindow c.ip (c.start - lim.windowSecs) c.start) <
              lim.maxRequests ∧
            c.ip ∈ firstIps (before.map (·.1.ip) ++ [c.ip])) := by
  intro lim
  refine ⟨allowed_inWindow_le lim rfl hclock hshort, ?_⟩
  intro before c ok after hsplit hlasts
  obtain ⟨cs₁, cs₂, rfl, rfl, rfl⟩ := answersFrom_split hsplit
  have hclock' : Clock (cs₁ ++ [c]) := by
    rw [← List.singleton_append, ← List.append_assoc] at hclock
    exact hclock.left
  have hshort' : ∀ d ∈ cs₁, d.ip.octets.length < rateIpMax :=
    fun d hd => hshort d (List.mem_append_left _ hd)
  have hc := hshort c (List.mem_append_right _ List.mem_cons_self)
  obtain ⟨h, hfirst⟩ := tracks_run lim rfl hclock'.left hshort'
  obtain ⟨-, -, -, hexact⟩ := h.step hfirst hc hclock'.last.2
  rw [map_fst_answersFrom, memoryLasts_concat] at hlasts
  have hips : (answersFrom lim cs₁).map (·.1.ip) = cs₁.map (·.ip) := by
    have hmap := congrArg (List.map RateCall.ip) (map_fst_answersFrom lim cs₁)
    rwa [List.map_map] at hmap
  rw [hexact hlasts, countP_inWindow hclock'.last.2, hips, List.map_append, List.map_singleton]

/-! ## More clients than the table has room for -/

/-- The client with a number. -/
def client (n : ℕ) : CString := .ofBytes [(1 + n / 32).toUInt8, (1 + n % 32).toUInt8]

/-- The call of a client in the first second. -/
def callOf (n : ℕ) : RateCall := ⟨client n, 0, 0, true, true⟩

theorem octets_client {n : ℕ} (h : n < 1024) :
    (client n).octets = [(1 + n / 32).toUInt8, (1 + n % 32).toUInt8] := by
  rw [client, CString.octets_ofBytes]
  simp only [List.mem_cons, List.not_mem_nil, or_false, not_or, ← UInt8.toNat_inj,
    Nat.toUInt8_eq, UInt8.toNat_ofNat', UInt8.toNat_zero]
  omega

theorem client_inj {n k : ℕ} (hn : n < 1024) (hk : k < 1024) (h : client n = client k) : n = k := by
  have hoctets := congrArg CString.octets h
  rw [octets_client hn, octets_client hk] at hoctets
  simp only [List.cons.injEq, and_true, ← UInt8.toNat_inj, Nat.toUInt8_eq,
    UInt8.toNat_ofNat'] at hoctets
  omega

/-- The call of a new client while there is room. -/
theorem allow_new {lim : RateLimiter} {c : RateCall} (hip : c.ip ∉ lim.entries.map (·.ip))
    (hroom : lim.entries.length < rateEntriesMax) (hmem : c.entryMemory = true)
    (hshort : c.ip.octets.length < rateIpMax) :
    (scRateLimiterAllow lim c).1.entries.map (·.ip) = lim.entries.map (·.ip) ++ [c.ip] ∧
      ¬ ShortOfMemory lim c := by
  have hfind : lim.entries.findIdx? (·.ip = c.ip) = none := by
    rw [List.findIdx?_eq_none_iff]
    intro x hx
    rw [decide_eq_false_iff_not]
    intro hxc
    exact hip (hxc ▸ List.mem_map_of_mem hx)
  have hname : (newEntry lim c.ip).ip = c.ip := by
    rw [rateIpMax] at hshort
    refine CString.ext ?_
    rw [newEntry, List.take_of_length_le (by rw [rateIpMax]; omega), CString.octets_ofBytes]
    exact c.ip.noNul
  have hgrow : growEntry (pruneEntry (newEntry lim c.ip) c.start) c.growMemory =
      some (pruneEntry (newEntry lim c.ip) c.start) :=
    if_neg (Nat.not_le.mpr (Nat.zero_lt_succ 63))
  simp only [scRateLimiterAllow, ShortOfMemory, findOrCreate, hfind, if_neg (not_le.mpr hroom),
    hmem, Bool.true_eq_false, if_false, List.getElem?_concat_length, hgrow]
  refine ⟨?_, ?_⟩
  · rw [List.set_append_right _ _ le_rfl, Nat.sub_self, List.map_append]
    exact congrArg (fun x => _ ++ [x]) hname
  · rintro ⟨e, he, hnone⟩
    obtain rfl := Option.some.inj he
    rw [hgrow] at hnone
    exact absurd hnone nofun

/-- The call of a new client when the table is full. -/
theorem allow_full {lim : RateLimiter} {c : RateCall} (hip : c.ip ∉ lim.entries.map (·.ip))
    (hfull : rateEntriesMax ≤ lim.entries.length) :
    scRateLimiterAllow lim c = (lim, false) ∧ ¬ ShortOfMemory lim c := by
  have hfind : lim.entries.findIdx? (·.ip = c.ip) = none := by
    rw [List.findIdx?_eq_none_iff]
    intro x hx
    rw [decide_eq_false_iff_not]
    intro hxc
    exact hip (hxc ▸ List.mem_map_of_mem hx)
  simp only [scRateLimiterAllow, ShortOfMemory, findOrCreate, hfind, if_pos hfull]
  exact ⟨trivial, by omega⟩

/-- So many clients fill so much of the table. -/
theorem table_of_clients (lim : RateLimiter) (hempty : lim.entries = []) {n : ℕ}
    (hn : n ≤ rateEntriesMax) :
    (limiterAfter lim ((List.range n).map callOf)).entries.map (·.ip) =
        ((List.range n).map callOf).map (·.ip) ∧
      MemoryLasts lim ((List.range n).map callOf) := by
  induction n with
  | zero =>
    rw [List.range_zero, List.map_nil, List.map_nil, limiterAfter, List.foldl_nil, hempty]
    exact ⟨rfl, .nil lim⟩
  | succ n ih =>
    obtain ⟨htable, hlasts⟩ := ih (Nat.le_of_succ_le hn)
    have hlt : n < 1024 := lt_of_lt_of_le hn (by rw [rateEntriesMax]; omega)
    have hip : (callOf n).ip ∉
        (limiterAfter lim ((List.range n).map callOf)).entries.map (·.ip) := by
      rw [htable, List.map_map, List.mem_map]
      rintro ⟨k, hk, hkn⟩
      rw [List.mem_range] at hk
      have := client_inj (by omega) hlt hkn
      omega
    have hroom : (limiterAfter lim ((List.range n).map callOf)).entries.length <
        rateEntriesMax := by
      have := congrArg List.length htable
      rw [List.length_map, List.length_map, List.length_map, List.length_range] at this
      omega
    have hshort : (callOf n).ip.octets.length < rateIpMax := by
      change (client n).octets.length < rateIpMax
      rw [octets_client hlt, rateIpMax]
      exact Nat.lt_of_lt_of_le (Nat.lt_succ_self 2) (by omega)
    obtain ⟨hnext, hmem⟩ := allow_new hip hroom rfl hshort
    rw [List.range_succ, List.map_append, List.map_append, List.map_singleton, List.map_singleton,
      limiterAfter_concat, hnext, htable, memoryLasts_concat]
    exact ⟨rfl, hlasts, hmem⟩

/-- A client that has not called is turned away when the others have filled the table. -/
theorem turned_away {lim : RateLimiter} {cs : List RateCall} {c : RateCall}
    (htable : (limiterAfter lim cs).entries.map (·.ip) = cs.map (·.ip))
    (hfull : cs.length = rateEntriesMax) (hlasts : MemoryLasts lim cs)
    (hne : ∀ d ∈ cs, d.ip ≠ c.ip) :
    MemoryLasts lim (cs ++ [c]) ∧
      answersFrom lim (cs ++ [c]) = answersFrom lim cs ++ [(c, false)] := by
  have hip : c.ip ∉ (limiterAfter lim cs).entries.map (·.ip) := by
    rw [htable, List.mem_map]
    rintro ⟨d, hd, hdc⟩
    exact hne d hd hdc
  have hlen : rateEntriesMax ≤ (limiterAfter lim cs).entries.length := by
    have := congrArg List.length htable
    rw [List.length_map, List.length_map, hfull] at this
    exact this.ge
  obtain ⟨hallow, hmem⟩ := allow_full hip hlen
  rw [memoryLasts_concat, answersFrom_append, answersFrom, answersFrom, hallow]
  exact ⟨⟨hlasts, hmem⟩, rfl⟩

theorem clock_callOf (ns : List ℕ) : Clock (ns.map callOf) := by
  rw [Clock, List.flatMap_map, List.pairwise_iff_forall_sublist]
  intro a b hab
  have hzero : ∀ t ∈ ns.flatMap fun n => [(callOf n).start, (callOf n).finish], t = 0 := by
    intro t ht
    obtain ⟨n, -, htn⟩ := List.mem_flatMap.mp ht
    simpa [callOf] using htn
  rw [hzero a (hab.subset (by simp)), hzero b (hab.subset (by simp))]

/-- After as many clients as the table holds, another one is turned away at its first call. -/
theorem rate_limiter_turns_away :
    Clock ((List.range rateEntriesMax).map callOf ++ [callOf rateEntriesMax]) ∧
      MemoryLasts (scRateLimiterCreate 60 60)
        ((List.range rateEntriesMax).map callOf ++ [callOf rateEntriesMax]) ∧
      answersFrom (scRateLimiterCreate 60 60)
          ((List.range rateEntriesMax).map callOf ++ [callOf rateEntriesMax]) =
        answersFrom (scRateLimiterCreate 60 60) ((List.range rateEntriesMax).map callOf) ++
          [(callOf rateEntriesMax, false)] ∧
      ∀ c ∈ (List.range rateEntriesMax).map callOf, c.ip ≠ (callOf rateEntriesMax).ip := by
  have hmax : rateEntriesMax = 512 := rfl
  have hne : ∀ c ∈ (List.range rateEntriesMax).map callOf, c.ip ≠ (callOf rateEntriesMax).ip := by
    intro c hc heq
    obtain ⟨k, hk, rfl⟩ := List.mem_map.mp hc
    rw [List.mem_range] at hk
    have := client_inj (by omega) (by omega) heq
    omega
  obtain ⟨htable, hlasts⟩ :=
    table_of_clients (scRateLimiterCreate 60 60) rfl (Nat.le_refl rateEntriesMax)
  obtain ⟨hmem, hanswers⟩ := turned_away htable
    (by rw [List.length_map, List.length_range]) hlasts hne
  refine ⟨?_, hmem, hanswers, hne⟩
  rw [← List.map_singleton (f := callOf), ← List.map_append]
  exact clock_callOf _

/-- Three calls of a client that may make two a minute. -/
theorem rate_limiter_window_three :
    ((answersFrom (scRateLimiterCreate 2 60)
      [⟨client 1, 0, 0, true, true⟩, ⟨client 1, 3, 4, true, true⟩,
        ⟨client 1, 5, 5, true, true⟩]).countP
          fun p => p.2 && p.1.inWindow (client 1) (5 - 60) 5) ≤ 2 :=
  (rate_limiter_window 2 60
    [⟨client 1, 0, 0, true, true⟩, ⟨client 1, 3, 4, true, true⟩, ⟨client 1, 5, 5, true, true⟩]
    (by decide) (by decide)).1 (client 1) 5

end SeaClaw.Gateway
