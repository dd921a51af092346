import SeaClaw.Sessions.SessionFile

/-!
# Sessions that are saved and loaded

What the calls of the sessions build is written to the file and read into an empty manager. The
messages are appended after the turn count has been restored, so that each of them is counted
twice; and a session for the empty key is written, but not read.
-/

namespace SeaClaw.Sessions

open SeaClaw.Lib SeaClaw.Json

/-- What holds of every session that the table names. -/
def SessionManager.Every (mgr : SessionManager) (P : Session → Prop) : Prop :=
  ∀ i, ∀ e ∈ mgr.buckets i, P (mgr.sessions e.session)

/-- The entries stand in the chains of their keys, one for each key, and name sessions with
these keys, whose fields have room for what they hold. -/
structure WellFormed (mgr : SessionManager) : Prop where
  placed : ∀ i, ∀ e ∈ mgr.buckets i, findBucket e.key = i
  distinct : HashTable.Distinct SessionEntry.key mgr.buckets
  named : ∀ i, ∀ e ∈ mgr.buckets i, e.session < mgr.next
  key : ∀ i, ∀ e ∈ mgr.buckets i, (mgr.sessions e.session).sessionKey = e.key
  fits : mgr.Every Session.Fits

/-- What is saved is loaded into an empty manager, for every key. -/
def Restores (now : ℕ → ℕ → ℤ) (mgr : SessionManager) : Prop :=
  ∃ mgr', scSessionLoad now (scSessionSave mgr) scSessionManagerInit = some (.ok (), mgr') ∧
    ∀ key, mgr'.factsAt key = mgr.factsAt key

/-- The session is the same behind a file: it has a key, its times are read, the time of its
creation is a double, and its count loses as much as a double as it has messages. -/
structure Session.Survives (s : Session) : Prop where
  key : s.sessionKey.octets ≠ []
  createdAt : throughDouble (-2 ^ 63) (2 ^ 63 - 1) s.createdAt = some s.createdAt
  lastActive : throughDouble (-2 ^ 63) (2 ^ 63 - 1) s.lastActive ≠ none
  turnCount : ∃ n, throughDouble 0 (2 ^ 64 - 1) s.turnCount = some n ∧
    (n.toNat + s.messages.length) % 2 ^ 64 = s.turnCount

theorem findBucket_lt (key : CString) : findBucket key < sessionMapCap :=
  Nat.mod_lt _ (by decide)

section Listed

variable {mgr : SessionManager}

theorem WellFormed.mem_listed (h : WellFormed mgr) {s : Session} :
    s ∈ mgr.listed ↔ ∃ i, ∃ e ∈ mgr.buckets i, mgr.sessions e.session = s := by
  simp only [SessionManager.listed, SessionManager.entries, List.mem_map, List.mem_flatMap,
    List.mem_range]
  constructor
  · rintro ⟨e, ⟨i, -, he⟩, rfl⟩
    exact ⟨i, e, he, rfl⟩
  · rintro ⟨i, e, he, rfl⟩
    refine ⟨e, ⟨i, ?_, he⟩, rfl⟩
    rw [← h.placed i e he]
    exact findBucket_lt e.key

theorem WellFormed.fits_listed (h : WellFormed mgr) : ∀ s ∈ mgr.listed, s.Fits := by
  intro s hs
  obtain ⟨i, e, he, rfl⟩ := h.mem_listed.mp hs
  exact h.fits i e he

/-- No two sessions of the file have one key. -/
theorem WellFormed.nodup_listed (h : WellFormed mgr) :
    (mgr.listed.map (·.sessionKey)).Nodup := by
  have hkeys : mgr.listed.map (·.sessionKey) =
      (List.range sessionMapCap).flatMap fun i => (mgr.buckets i).map (·.key) := by
    rw [SessionManager.listed, SessionManager.entries, List.map_map, List.map_flatMap]
    refine List.flatMap_congr fun i _ => List.map_congr_left fun e he => ?_
    exact h.key i e he
  rw [hkeys, List.nodup_flatMap]
  refine ⟨fun i _ => h.distinct i, ?_⟩
  refine List.nodup_range.imp fun {i j} hij key hi hj => ?_
  obtain ⟨e, he, rfl⟩ := List.mem_map.mp hi
  obtain ⟨e', he', hkey⟩ := List.mem_map.mp hj
  rw [← h.placed i e he, ← h.placed j e' he', hkey] at hij
  exact hij rfl

/-- A session of the file is the one for its key. -/
theorem WellFormed.factsAt_of_mem (h : WellFormed mgr) {s : Session} (hs : s ∈ mgr.listed) :
    mgr.factsAt s.sessionKey = some s.facts := by
  obtain ⟨i, e, he, rfl⟩ := h.mem_listed.mp hs
  have hfind : HashTable.find findBucket SessionEntry.key mgr.buckets e.key = some e :=
    h.distinct.find_of_mem (by rwa [h.placed i e he])
  rw [SessionManager.factsAt, findSession, h.key i e he, hfind]
  rfl

/-- A key that is known is the key of a session of the file. -/
theorem WellFormed.mem_of_factsAt (h : WellFormed mgr) {key : CString}
    (hkey : mgr.factsAt key ≠ none) : ∃ s ∈ mgr.listed, s.sessionKey = key := by
  rw [ne_eq, factsAt_eq_none, findSession, Option.map_eq_none_iff] at hkey
  obtain ⟨e, he⟩ := Option.ne_none_iff_exists'.mp hkey
  have hmem : e ∈ mgr.buckets (findBucket key) := List.mem_of_find?_eq_some he
  refine ⟨_, h.mem_listed.mpr ⟨_, e, hmem, rfl⟩, ?_⟩
  rw [h.key _ e hmem]
  exact HashTable.find_key he

/-- A file that is not too long is read session by session. -/
theorem WellFormed.load (h : WellFormed mgr)
    (hlength : (scSessionSave mgr).length ≤ sessionFileMax) (now : ℕ → ℕ → ℤ) :
    ((∃ s ∈ mgr.listed, s.sessionKey.octets ≠ [] ∧ s.readBack = none) ∧
      scSessionLoad now (scSessionSave mgr) scSessionManagerInit = none) ∨
    ∃ mgr', scSessionLoad now (scSessionSave mgr) scSessionManagerInit = some (.ok (), mgr') ∧
      (∀ s ∈ mgr.listed, s.sessionKey.octets ≠ [] → s.readBack ≠ none ∧
        mgr'.factsAt s.sessionKey = s.readBack) ∧
      ∀ key, (∀ s ∈ mgr.listed, s.sessionKey.octets ≠ [] → key ≠ s.sessionKey) →
        mgr'.factsAt key = none := by
  have hshort : ¬ ((scSessionSave mgr).length ≤ 2 ∨
      (scSessionSave mgr).length > sessionFileMax) := by
    have : (scSessionSave mgr).length = 1 +
        (commaList (mgr.listed.map fun s => ascii "\n" ++ sessionText s)).length + 3 := by
      rw [scSessionSave, List.length_append, List.length_append]
      rfl
    omega
  obtain ⟨c, hparse⟩ := scJsonParse_scSessionSave h.fits_listed []
  have hload : scSessionLoad now (scSessionSave mgr) scSessionManagerInit =
      (loadSessions now 0 (mgr.listed.map sessionValue) scSessionManagerInit).map
        fun mgr => (.ok (), mgr) := by
    rw [scSessionLoad, if_neg hshort, hparse]
  rw [hload]
  rcases loadSessions_sessionValue now mgr.listed 0 scSessionManagerInit
    (fun key a ha => absurd ha (Option.some_ne_none a).symm) h.fits_listed h.nodup_listed
    (fun _ _ => rfl) with ⟨hbad, hnone⟩ | ⟨hgood, mgr', hsome, hread, hold⟩
  · exact Or.inl ⟨hbad, by rw [hnone]; rfl⟩
  · refine Or.inr ⟨mgr', by rw [hsome]; rfl, fun s hs hkey => ?_, hold⟩
    exact ⟨hgood s hs hkey, hread s hs hkey⟩

/-- A file that is too long is not read. -/
theorem load_long (hlength : ¬ (scSessionSave mgr).length ≤ sessionFileMax)
    (now : ℕ → ℕ → ℤ) : scSessionLoad now (scSessionSave mgr) scSessionManagerInit =
      some (.ok (), scSessionManagerInit) := by
  rw [scSessionLoad, if_pos (Or.inr (Nat.lt_of_not_le hlength))]

end Listed

/-- A session is read back as it was exactly if it survives, but for its key. -/
theorem readBack_eq_iff {s : Session} (hkey : s.sessionKey.octets ≠ []) :
    s.readBack = some s.facts ↔ s.Survives := by
  simp only [Session.readBack, Option.bind_eq_some_iff, Option.map_eq_some_iff, Session.facts,
    SessionFacts.mk.injEq, true_and, and_true]
  constructor
  · rintro ⟨createdAt, hcreated, lastActive, hactive, n, hturns, rfl, hcount⟩
    exact ⟨hkey, hcreated, by rw [hactive]; exact Option.some_ne_none _, n, hturns, hcount⟩
  · rintro ⟨-, hcreated, hactive, n, hturns, hcount⟩
    obtain ⟨lastActive, hactive⟩ := Option.ne_none_iff_exists'.mp hactive
    exact ⟨s.createdAt, hcreated, lastActive, hactive, n, hturns, rfl, hcount⟩

/-- A session that is restored survives. -/
theorem WellFormed.survives_of_restores {now : ℕ → ℕ → ℤ} {mgr : SessionManager}
    (h : WellFormed mgr) (hrestores : Restores now mgr) {s : Session} (hs : s ∈ mgr.listed) :
    s.Survives := by
  obtain ⟨mgr', hload, hsame⟩ := hrestores
  have hfacts := hsame s.sessionKey
  rw [h.factsAt_of_mem hs] at hfacts
  by_cases hlength : (scSessionSave mgr).length ≤ sessionFileMax
  · rcases h.load hlength now with ⟨-, hnone⟩ | ⟨mgr'', hload', hread, hold⟩
    · rw [hnone] at hload
      cases hload
    · rw [hload', Option.some.injEq, Prod.mk.injEq] at hload
      obtain ⟨-, rfl⟩ := hload
      by_cases hkey : s.sessionKey.octets = []
      · rw [hold s.sessionKey fun t _ ht heq => ht (heq ▸ hkey)] at hfacts
        cases hfacts
      · exact (readBack_eq_iff hkey).mp ((hread s hs hkey).2.symm.trans hfacts)
  · rw [load_long hlength, Option.some.injEq, Prod.mk.injEq] at hload
    obtain ⟨-, rfl⟩ := hload
    cases hfacts

/-- Sessions that survive are restored from a file that is not too long. -/
theorem WellFormed.restores {mgr : SessionManager} (h : WellFormed mgr)
    (hlength : (scSessionSave mgr).length ≤ sessionFileMax)
    (hall : ∀ s ∈ mgr.listed, s.Survives) (now : ℕ → ℕ → ℤ) : Restores now mgr := by
  rcases h.load hlength now with ⟨⟨s, hs, hkey, hnone⟩, -⟩ | ⟨mgr', hload, hread, hold⟩
  · have hback := (readBack_eq_iff hkey).mpr (hall s hs)
    rw [hnone] at hback
    cases hback
  · refine ⟨mgr', hload, fun key => ?_⟩
    by_cases hkey : mgr.factsAt key = none
    · rw [hkey]
      refine hold key fun s hs _ heq => ?_
      rw [heq, h.factsAt_of_mem hs] at hkey
      cases hkey
    · obtain ⟨s, hs, rfl⟩ := h.mem_of_factsAt hkey
      have hsurvives := hall s hs
      rw [(hread s hs hsurvives.key).2, h.factsAt_of_mem hs]
      exact (readBack_eq_iff hsurvives.key).mpr hsurvives

/-- Only the file of a manager with sessions is too long. -/
theorem exists_listed_of_long {mgr : SessionManager}
    (hlength : ¬ (scSessionSave mgr).length ≤ sessionFileMax) : ∃ s, s ∈ mgr.listed := by
  refine List.exists_mem_of_ne_nil _ fun hempty => ?_
  rw [scSessionSave, hempty] at hlength
  exact hlength (by decide)

/-- The file restores every session exactly if it is not too long and each session survives. -/
theorem sessionFile_restores_iff (now : ℕ → ℕ → ℤ) {mgr : SessionManager} (h : WellFormed mgr) :
    Restores now mgr ↔
      (scSessionSave mgr).length ≤ sessionFileMax ∧ ∀ s ∈ mgr.listed, s.Survives := by
  constructor
  · intro hrestores
    refine ⟨?_, fun s hs => h.survives_of_restores hrestores hs⟩
    by_contra hlength
    obtain ⟨s, hs⟩ := exists_listed_of_long hlength
    obtain ⟨mgr', hload, hsame⟩ := hrestores
    rw [load_long hlength, Option.some.injEq, Prod.mk.injEq] at hload
    obtain ⟨-, rfl⟩ := hload
    have hfacts := hsame s.sessionKey
    rw [h.factsAt_of_mem hs] at hfacts
    cases hfacts
  · rintro ⟨hlength, hall⟩
    exact h.restores hlength hall now

/-! ## Numbers that a double holds -/

theorem throughDouble_of_small {lo hi i : ℤ} (hsmall : i.natAbs < 2 ^ 53) (hlo : lo ≤ i)
    (hhi : i ≤ hi) : throughDouble lo hi i = some i := by
  have hfloor : (if decide (i < 0) = true then -⌊(i.natAbs : ℚ)⌋ else ⌊(i.natAbs : ℚ)⌋) = i := by
    rw [Int.floor_natCast]
    simp only [decide_eq_true_eq]
    split_ifs with hneg <;> omega
  rw [throughDouble, nearestDouble_of_small i hsmall, Binary64.ofInt, truncated]
  simp only [hfloor]
  exact if_pos ⟨hlo, hhi⟩

/-- The numbers of a session that has been in use for less than `2 ^ 53` seconds and turns. -/
structure Session.Small (s : Session) : Prop where
  createdAt : s.createdAt.natAbs < 2 ^ 53
  lastActive : s.lastActive.natAbs < 2 ^ 53
  turnCount : s.turnCount < 2 ^ 53

/-- What is read of such a session has every message counted once more. -/
theorem readBack_of_small {s : Session} (hs : s.Fits) (hsmall : s.Small) :
    s.readBack = some ⟨s.label, s.createdAt, s.turnCount + s.messages.length, s.messages⟩ := by
  have hcreated := hsmall.createdAt
  have hactive := hsmall.lastActive
  have hturns := hsmall.turnCount
  have hmessages := hs.messages
  rw [sessionMsgCap] at hmessages
  have hcount : throughDouble 0 (2 ^ 64 - 1) (s.turnCount : ℤ) = some (s.turnCount : ℤ) :=
    throughDouble_of_small (by omega) (by omega) (by omega)
  rw [Session.readBack, throughDouble_of_small hcreated (by omega) (by omega),
    throughDouble_of_small hactive (by omega) (by omega), hcount]
  simp only [Option.bind_some, Option.map_some, Int.toNat_natCast]
  rw [Nat.mod_eq_of_lt (by omega)]

/-- Such a session survives exactly if it has a key and no messages. -/
theorem survives_iff_of_small {s : Session} (hs : s.Fits) (hsmall : s.Small) :
    s.Survives ↔ s.sessionKey.octets ≠ [] ∧ s.messages = [] := by
  by_cases hkey : s.sessionKey.octets = []
  · exact iff_of_false (fun h => h.key hkey) fun h => h.1 hkey
  · rw [← readBack_eq_iff hkey, readBack_of_small hs hsmall]
    simp [Session.facts, hkey]

/-! ## What the calls keep -/

section Every

variable {mgr : SessionManager} {P : Session → Prop}

theorem SessionManager.Every.change (h : mgr.Every P) (a : ℕ) {f : Session → Session}
    (hf : P (mgr.sessions a) → P (f (mgr.sessions a))) : (mgr.change a f).Every P := by
  intro i e he
  rw [SessionManager.change]
  by_cases ha : e.session = a
  · subst ha
    simp only [Function.update_self]
    exact hf (h i e he)
  · simp only [Function.update_of_ne ha]
    exact h i e he

/-- A session of its own for a key. -/
def Session.new (key : CString) (now : ℤ) : Session :=
  { Session.zero with sessionKey := key, createdAt := now, lastActive := now }

/-- The entries of the table with a new session are the new one and the old ones. -/
theorem WellFormed.mem_create (h : WellFormed mgr) {key : CString}
    (hkey : key.octets.length < sessionKeyLen) {now : ℤ} {i : ℕ} {e : SessionEntry}
    (he : e ∈ (mgr.create key now).buckets i) :
    (i = findBucket key ∧ e = ⟨key, mgr.next⟩ ∧
      (mgr.create key now).sessions e.session = Session.new key now) ∨
    (e ∈ mgr.buckets i ∧ (mgr.create key now).sessions e.session = mgr.sessions e.session) := by
  have hcut : cut key (sessionKeyLen - 1) = key := cut_eq_self key (by omega)
  have hold : e ∈ mgr.buckets i →
      (mgr.create key now).sessions e.session = mgr.sessions e.session :=
    fun he => Function.update_of_ne (h.named i e he).ne _ _
  have hpush : e ∈ HashTable.push mgr.buckets (findBucket key) ⟨key, mgr.next⟩ i := by
    rwa [SessionManager.create, hcut] at he
  rw [HashTable.push] at hpush
  by_cases hi : i = findBucket key
  · rw [hi, Function.update_self] at hpush
    rcases List.mem_cons.mp hpush with rfl | hmem
    · refine Or.inl ⟨hi, rfl, (Function.update_self _ _ _).trans ?_⟩
      rw [Session.new, hcut]
    · rw [← hi] at hmem
      exact Or.inr ⟨hmem, hold hmem⟩
  · rw [Function.update_of_ne hi] at hpush
    exact Or.inr ⟨hpush, hold hpush⟩

theorem WellFormed.every_create (h : WellFormed mgr) (hP : mgr.Every P) {key : CString}
    (hkey : key.octets.length < sessionKeyLen) {now : ℤ} (hnew : P (Session.new key now)) :
    (mgr.create key now).Every P := by
  intro i e he
  rcases h.mem_create hkey he with ⟨-, -, hsession⟩ | ⟨hold, hsession⟩
  · rw [hsession]
    exact hnew
  · rw [hsession]
    exact hP i e hold

end Every

section WellFormed

variable {mgr : SessionManager}

theorem wellFormed_init : WellFormed scSessionManagerInit where
  placed := fun _ _ he => absurd he List.not_mem_nil
  distinct := fun _ => List.nodup_nil
  named := fun _ _ he => absurd he List.not_mem_nil
  key := fun _ _ he => absurd he List.not_mem_nil
  fits := fun _ _ he => absurd he List.not_mem_nil

theorem WellFormed.change (h : WellFormed mgr) (a : ℕ) {f : Session → Session}
    (hkey : (f (mgr.sessions a)).sessionKey = (mgr.sessions a).sessionKey)
    (hfits : (mgr.sessions a).Fits → (f (mgr.sessions a)).Fits) : WellFormed (mgr.change a f) where
  placed := h.placed
  distinct := h.distinct
  named := h.named
  key := by
    intro i e he
    rw [← h.key i e he, SessionManager.change]
    by_cases ha : e.session = a
    · subst ha
      simp only [Function.update_self, hkey]
    · simp only [Function.update_of_ne ha]
  fits := h.fits.change a hfits

theorem fits_new {key : CString} (hkey : key.octets.length < sessionKeyLen) {now : ℤ}
    (hnow : -2 ^ 63 ≤ now ∧ now < 2 ^ 63) : (Session.new key now).Fits where
  createdAt := hnow
  lastActive := hnow
  turnCount := Nat.two_pow_pos 64
  sessionKey := hkey
  label := show 0 < 128 by decide
  messages := Nat.zero_le _
  message := fun _ hm => absurd hm List.not_mem_nil

theorem WellFormed.create (h : WellFormed mgr) {key : CString} (hnew : findSession mgr key = none)
    (hkey : key.octets.length < sessionKeyLen) {now : ℤ} (hnow : -2 ^ 63 ≤ now ∧ now < 2 ^ 63) :
    WellFormed (mgr.create key now) where
  placed := by
    intro i e he
    rcases h.mem_create hkey he with ⟨rfl, rfl, -⟩ | ⟨hold, -⟩
    · rfl
    · exact h.placed i e hold
  distinct := by
    have hcut : cut key (sessionKeyLen - 1) = key := cut_eq_self key (by omega)
    rw [findSession, Option.map_eq_none_iff] at hnew
    rw [SessionManager.create, hcut]
    exact h.distinct.push rfl hnew
  named := by
    intro i e he
    rcases h.mem_create hkey he with ⟨-, rfl, -⟩ | ⟨hold, -⟩
    · exact Nat.lt_succ_self _
    · exact (h.named i e hold).trans (Nat.lt_succ_self _)
  key := by
    intro i e he
    rcases h.mem_create hkey he with ⟨-, rfl, hsession⟩ | ⟨hold, hsession⟩
    · rw [hsession]
      rfl
    · rw [hsession]
      exact h.key i e hold
  fits := h.every_create h.fits hkey (fits_new hkey hnow)

theorem mem_of_mem_erase {key : CString} {i : ℕ} {e : SessionEntry}
    (he : e ∈ HashTable.erase findBucket SessionEntry.key mgr.buckets key i) :
    e ∈ mgr.buckets i := by
  rw [HashTable.erase] at he
  by_cases hi : i = findBucket key
  · rw [hi, Function.update_self] at he
    rw [hi]
    exact List.mem_of_mem_eraseP he
  · rwa [Function.update_of_ne hi] at he

theorem WellFormed.erase (h : WellFormed mgr) (key : CString) (n : ℕ) :
    WellFormed { mgr with
      buckets := HashTable.erase findBucket SessionEntry.key mgr.buckets key
      count := n } where
  placed := fun i e he => h.placed i e (mem_of_mem_erase he)
  distinct := h.distinct.erase key
  named := fun i e he => h.named i e (mem_of_mem_erase he)
  key := fun i e he => h.key i e (mem_of_mem_erase he)
  fits := fun i e he => h.fits i e (mem_of_mem_erase he)

end WellFormed

/-! ## A session with a message -/

/-- A session in use: one message, which is counted once. -/
def oneMessage (s : Session) : Session :=
  { s with
    turnCount := 1
    messages := [⟨.ofBytes (ascii "user"), .ofBytes (ascii "hi")⟩]
    messageCap := 8 }

def shortKey : CString := .ofBytes (ascii "k")

/-- A manager with this session. -/
def chatted : SessionManager := (scSessionManagerInit.create shortKey 1).change 0 oneMessage

theorem fits_oneMessage {s : Session} (hs : s.Fits) : (oneMessage s).Fits where
  createdAt := hs.createdAt
  lastActive := hs.lastActive
  turnCount := show 1 < 2 ^ 64 by decide
  sessionKey := hs.sessionKey
  label := hs.label
  messages := show 1 ≤ 4096 by decide
  message := by
    intro m hm
    obtain rfl := List.mem_singleton.mp hm
    decide

theorem wellFormed_chatted : WellFormed chatted :=
  (wellFormed_init.create rfl (by decide) (by decide)).change 0 rfl fits_oneMessage

theorem listed_chatted : chatted.listed = [oneMessage (Session.new shortKey 1)] := by
  decide +kernel

theorem length_chatted : (scSessionSave chatted).length ≤ sessionFileMax := by
  decide +kernel

theorem small_oneMessage : (oneMessage (Session.new shortKey 1)).Small where
  createdAt := show 1 < 2 ^ 53 by decide
  lastActive := show 1 < 2 ^ 53 by decide
  turnCount := show 1 < 2 ^ 53 by decide

/-- The session is not restored: the one message is counted twice. -/
theorem session_load_counts_twice : WellFormed chatted ∧ ∀ now, ¬ Restores now chatted ∧
    ∃ mgr', scSessionLoad now (scSessionSave chatted) scSessionManagerInit = some (.ok (), mgr') ∧
      (chatted.factsAt shortKey).map (·.turnCount) = some 1 ∧
      (mgr'.factsAt shortKey).map (·.turnCount) = some 2 := by
  have hmem : oneMessage (Session.new shortKey 1) ∈ chatted.listed := by
    rw [listed_chatted]
    exact List.mem_singleton_self _
  have hfits := wellFormed_chatted.fits_listed _ hmem
  refine ⟨wellFormed_chatted, fun now => ⟨fun hrestores => ?_, ?_⟩⟩
  · have hsurvives := wellFormed_chatted.survives_of_restores hrestores hmem
    have hempty := ((survives_iff_of_small hfits small_oneMessage).mp hsurvives).2
    exact absurd hempty (List.cons_ne_nil _ _)
  · have hback := readBack_of_small hfits small_oneMessage
    rcases wellFormed_chatted.load length_chatted now with ⟨⟨s, hs, -, hnone⟩, -⟩ |
      ⟨mgr', hload, hread, -⟩
    · rw [listed_chatted, List.mem_singleton] at hs
      rw [hs, hback] at hnone
      cases hnone
    · refine ⟨mgr', hload, rfl, ?_⟩
      have hfacts := (hread _ hmem (by decide)).2
      rw [hback] at hfacts
      exact congrArg (Option.map (·.turnCount)) hfacts

theorem session_new_survives : (Session.new shortKey 1).Survives := by
  refine (survives_iff_of_small (fits_new (by decide) (by decide)) ⟨?_, ?_, ?_⟩).mpr ⟨?_, rfl⟩
  · show 1 < 2 ^ 53
    decide
  · show 1 < 2 ^ 53
    decide
  · exact Nat.two_pow_pos 53
  · decide

/-- A session without messages is restored. -/
theorem sessionFile_restores_new :
    WellFormed (scSessionManagerInit.create shortKey 1) ∧
      Restores (fun _ _ => 2) (scSessionManagerInit.create shortKey 1) := by
  have hformed : WellFormed (scSessionManagerInit.create shortKey 1) :=
    wellFormed_init.create rfl (by decide) (by decide)
  have hlisted : (scSessionManagerInit.create shortKey 1).listed = [Session.new shortKey 1] := by
    decide +kernel
  refine ⟨hformed, (sessionFile_restores_iff _ hformed).mpr ⟨by decide +kernel, fun s hs => ?_⟩⟩
  rw [hlisted, List.mem_singleton] at hs
  exact hs ▸ session_new_survives

end SeaClaw.Sessions
