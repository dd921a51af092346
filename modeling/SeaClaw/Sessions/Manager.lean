import SeaClaw.Core.Error
import SeaClaw.Lib.CString
import SeaClaw.Lib.HashTable
import SeaClaw.Lib.Machine

/-!
# The session manager

A table of sessions by key. The key that is stored is cut to the room it has; the place of an
entry, and the look-up, are those of the key that the caller passes. Sessions are named by
addresses, which are numbered in the order of their allocation; there is no memory for so many
that their count wraps.
-/

namespace SeaClaw.Sessions

open SeaClaw.Lib

/-- `SC_SESSION_MAP_CAP` -/
def sessionMapCap : ℕ := 256

/-- `SC_SESSION_KEY_LEN` -/
def sessionKeyLen : ℕ := 128

/-- `SC_SESSION_LABEL_LEN` -/
def sessionLabelLen : ℕ := 128

/-- `SC_SESSION_MSG_CAP` -/
def sessionMsgCap : ℕ := 4096

/-- `SC_SESSION_MSG_ROLE_LEN` -/
def sessionMsgRoleLen : ℕ := 32

/-- `SC_SESSION_MSG_CONTENT_CAP` -/
def sessionMsgContentCap : ℕ := 65536

theorem zero_notMem_take (s : CString) (n : ℕ) : 0 ∉ s.octets.take n :=
  fun h => s.noNul (List.mem_of_mem_take h)

/-- A string cut to a length. -/
def cut (s : CString) (n : ℕ) : CString := ⟨s.octets.take n, zero_notMem_take s n⟩

theorem cut_eq_self (s : CString) {n : ℕ} (h : s.octets.length ≤ n) : cut s n = s :=
  CString.ext (List.take_of_length_le h)

/-- `sc_session_message_t` -/
structure SessionMessage where
  role : CString
  content : CString
  deriving DecidableEq

/-- `sc_session_t` -/
structure Session where
  sessionKey : CString
  label : CString
  createdAt : ℤ
  lastActive : ℤ
  turnCount : ℕ
  messages : List SessionMessage
  messageCap : ℕ
  deriving DecidableEq

/-- `sc_session_entry_t`; the session is named by its address. -/
structure SessionEntry where
  key : CString
  session : ℕ
  deriving DecidableEq

/-- `sc_session_manager_t`, with the sessions in memory and the next address. -/
structure SessionManager where
  buckets : ℕ → List SessionEntry
  count : ℕ
  sessions : ℕ → Session
  next : ℕ

/-- `hash_key`, in 32 bits. -/
def hashKey (key : CString) : ℕ :=
  key.octets.foldl (fun h c => (h * 2 ^ 5 + h + c.toNat) % 2 ^ 32) 5381

/-- `find_bucket` -/
def findBucket (key : CString) : ℕ := hashKey key % sessionMapCap

/-- `find_session` -/
def findSession (mgr : SessionManager) (key : CString) : Option ℕ :=
  (HashTable.find findBucket SessionEntry.key mgr.buckets key).map (·.session)

/-- An empty string. -/
def noText : CString := .ofBytes []

/-- A session of zeros. -/
def Session.zero : Session := ⟨noText, noText, 0, 0, 0, [], 0⟩

/-- `sc_session_manager_init` -/
def scSessionManagerInit : SessionManager := ⟨fun _ => [], 0, fun _ => .zero, 0⟩

/-- A session that is changed in memory. -/
def SessionManager.change (mgr : SessionManager) (a : ℕ) (f : Session → Session) : SessionManager :=
  { mgr with sessions := Function.update mgr.sessions a (f (mgr.sessions a)) }

/-- Which of the allocations of a new session find memory. -/
structure SessionMemory where
  session : Bool
  entry : Bool

/-- The manager with a new session, whose entry stands in front of the chain of the key that
the caller passed. -/
def SessionManager.create (mgr : SessionManager) (sessionKey : CString) (now : ℤ) :
    SessionManager :=
  let key := cut sessionKey (sessionKeyLen - 1)
  { buckets := HashTable.push mgr.buckets (findBucket sessionKey) ⟨key, mgr.next⟩
    count := mgr.count + 1
    sessions := Function.update mgr.sessions mgr.next
      { Session.zero with sessionKey := key, createdAt := now, lastActive := now }
    next := mgr.next + 1 }

/-- `sc_session_get_or_create` -/
def scSessionGetOrCreate (mgr : SessionManager) (sessionKey : CString) (now : ℤ)
    (memory : SessionMemory) : Option ℕ × SessionManager :=
  match findSession mgr sessionKey with
  | some a => (some a, mgr.change a fun s => { s with lastActive := now })
  | none =>
    if memory.session = false then (none, mgr)
    else if memory.entry = false then (none, mgr)
    else (some mgr.next, mgr.create sessionKey now)

/-- `sc_session_delete` -/
def scSessionDelete (mgr : SessionManager) (sessionKey : CString) :
    Except ScError Unit × SessionManager :=
  match HashTable.find findBucket SessionEntry.key mgr.buckets sessionKey with
  | none => (.error .notFound, mgr)
  | some _ =>
    (.ok (), { mgr with
      buckets := HashTable.erase findBucket SessionEntry.key mgr.buckets sessionKey
      count := mgr.count - 1 })

/-- `sc_session_patch` -/
def scSessionPatch (mgr : SessionManager) (sessionKey : CString) (label : Option CString) :
    Except ScError Unit × SessionManager :=
  match label with
  | none => (.error .invalidArgument, mgr)
  | some label =>
    match findSession mgr sessionKey with
    | none => (.error .notFound, mgr)
    | some a =>
      (.ok (), mgr.change a fun s => { s with label := cut label (sessionLabelLen - 1) })

/-!
# The session manager as a map

What callers may expect of keys and sessions, over every sequence of calls. An entry whose key
was cut is never found again, so a session for a long key is lost as soon as it is created.
-/

/-! ## Calls with the live sessions -/

/-- A manager, and the keys with the sessions that were created for them and not deleted. -/
structure MapState where
  mgr : SessionManager
  live : List (CString × ℕ)

/-- A call. -/
inductive SessionOp where
  | getOrCreate (key : CString) (now : ℤ) (memory : SessionMemory)
  | delete (key : CString)
  | patch (key : CString) (label : Option CString)

/-- The keys that have a live session. -/
def MapState.keys (s : MapState) : List CString := s.live.map (·.1)

/-- The live sessions. -/
def MapState.addresses (s : MapState) : List ℕ := s.live.map (·.2)

/-- One call. A session that is returned for a key without one is live from then on, and a
deletion that succeeds ends it. -/
def sessionStep (s : MapState) : SessionOp → Option MapState
  | .getOrCreate key now memory =>
    match scSessionGetOrCreate s.mgr key now memory with
    | (some a, mgr) => some ⟨mgr, if key ∈ s.keys then s.live else (key, a) :: s.live⟩
    | (none, mgr) => some ⟨mgr, s.live⟩
  | .delete key =>
    match scSessionDelete s.mgr key with
    | (.ok (), mgr) => some ⟨mgr, s.live.filter (·.1 ≠ key)⟩
    | (.error _, mgr) => some ⟨mgr, s.live⟩
  | .patch key label => some ⟨(scSessionPatch s.mgr key label).2, s.live⟩

/-- The manager is a map: a key has the session that was created for it, a key without one gets
a new one, a deletion succeeds exactly for a live key, and the live sessions are counted. -/
structure IsMap (s : MapState) : Prop where
  same : ∀ key a, (key, a) ∈ s.live → ∀ now memory,
    (scSessionGetOrCreate s.mgr key now memory).1 = some a
  fresh : ∀ key, key ∉ s.keys → ∀ now, ∃ a,
    (scSessionGetOrCreate s.mgr key now ⟨true, true⟩).1 = some a ∧ a ∉ s.addresses
  keys : s.keys.Nodup
  addresses : s.addresses.Nodup
  delete : ∀ key, (scSessionDelete s.mgr key).1 = .ok () ↔ key ∈ s.keys
  count : s.mgr.count = s.live.length

/-- A call that creates a session is given a key that its entry has room for. -/
def ShortKey (s : MapState) : SessionOp → Prop
  | .getOrCreate key _ memory => key ∉ s.keys → memory.session = true → memory.entry = true →
    key.octets.length < sessionKeyLen
  | _ => True

/-! ## What the table holds -/

/-- The entries of the table are those of the live keys, and each is found by its key. -/
structure Represents (s : MapState) : Prop where
  found : ∀ key, findSession s.mgr key = (s.live.find? (·.1 = key)).map (·.2)
  keys : s.keys.Nodup
  addresses : s.addresses.Nodup
  lt_next : ∀ a ∈ s.addresses, a < s.mgr.next
  distinct : HashTable.Distinct SessionEntry.key s.mgr.buckets
  count : s.mgr.count = s.live.length

section Represents

variable {s : MapState}

theorem find?_live_of_mem (h : s.keys.Nodup) {key : CString} {a : ℕ} (ha : (key, a) ∈ s.live) :
    s.live.find? (·.1 = key) = some (key, a) := by
  cases hfind : s.live.find? (·.1 = key) with
  | none => exact absurd (List.find?_eq_none.mp hfind _ ha) (by simp)
  | some p =>
    have hkey : p.1 = key := by simpa using List.find?_some hfind
    rw [List.inj_on_of_nodup_map h (List.mem_of_find?_eq_some hfind) ha hkey]

theorem find?_live_eq_none_iff {key : CString} : s.live.find? (·.1 = key) = none ↔ key ∉ s.keys := by
  rw [List.find?_eq_none, MapState.keys]
  constructor
  · intro h hmem
    obtain ⟨p, hp, hkey⟩ := List.mem_map.mp hmem
    exact h p hp (by simpa using hkey)
  · intro h p hp hkey
    refine h ?_
    rw [← of_decide_eq_true hkey]
    exact List.mem_map_of_mem hp

theorem Represents.find_of_mem (h : Represents s) {key : CString} {a : ℕ}
    (ha : (key, a) ∈ s.live) : findSession s.mgr key = some a := by
  rw [h.found, find?_live_of_mem h.keys ha, Option.map_some]

theorem Represents.find_eq_none_iff (h : Represents s) (key : CString) :
    findSession s.mgr key = none ↔ key ∉ s.keys := by
  rw [h.found, Option.map_eq_none_iff, find?_live_eq_none_iff]

theorem find_isSome_iff (key : CString) : (scSessionDelete s.mgr key).1 = .ok () ↔
    findSession s.mgr key ≠ none := by
  rw [scSessionDelete, findSession]
  cases HashTable.find findBucket SessionEntry.key s.mgr.buckets key <;> simp

/-- A table that represents the live sessions is a map. -/
theorem Represents.isMap (h : Represents s) : IsMap s where
  same := by
    intro key a ha now memory
    rw [scSessionGetOrCreate, h.find_of_mem ha]
  fresh := by
    intro key hkey now
    refine ⟨s.mgr.next, ?_, fun hmem => ?_⟩
    · rw [scSessionGetOrCreate, (h.find_eq_none_iff key).mpr hkey]
      rfl
    · exact absurd (h.lt_next _ hmem) (lt_irrefl _)
  keys := h.keys
  addresses := h.addresses
  delete := by
    intro key
    rw [find_isSome_iff, ne_eq, h.find_eq_none_iff, not_not]
  count := h.count

/-- What changes a session in memory changes no entry. -/
theorem Represents.change (h : Represents s) (a : ℕ) (f : Session → Session) :
    Represents ⟨s.mgr.change a f, s.live⟩ :=
  ⟨h.found, h.keys, h.addresses, h.lt_next, h.distinct, h.count⟩

/-- A session for a short key is found by it, and changes nothing for the other keys. -/
theorem Represents.create (h : Represents s) {key : CString} (hkey : key ∉ s.keys)
    (hshort : key.octets.length < sessionKeyLen) (now : ℤ) :
    Represents ⟨s.mgr.create key now, (key, s.mgr.next) :: s.live⟩ := by
  have hcut : cut key (sessionKeyLen - 1) = key := cut_eq_self key (by omega)
  have hnone : HashTable.find findBucket SessionEntry.key s.mgr.buckets key = none := by
    have := (h.find_eq_none_iff key).mpr hkey
    rwa [findSession, Option.map_eq_none_iff] at this
  have hbuckets : (s.mgr.create key now).buckets =
      HashTable.push s.mgr.buckets (findBucket key) ⟨key, s.mgr.next⟩ := by
    rw [SessionManager.create, hcut]
  constructor
  · intro k
    rw [findSession, hbuckets]
    by_cases hk : key = k
    · subst hk
      rw [HashTable.find_push_self (by rfl), List.find?_cons_of_pos (by simp)]
      rfl
    · rw [HashTable.find_push_of_ne _ hk, List.find?_cons_of_neg (by simpa using hk), ← h.found]
      rfl
  · exact List.nodup_cons.mpr ⟨hkey, h.keys⟩
  · refine List.nodup_cons.mpr ⟨fun hmem => ?_, h.addresses⟩
    exact absurd (h.lt_next _ hmem) (lt_irrefl _)
  · intro a ha
    rcases List.mem_cons.mp ha with rfl | ha
    · exact Nat.lt_succ_self _
    · exact (h.lt_next a ha).trans (Nat.lt_succ_self _)
  · rw [hbuckets]
    exact h.distinct.push rfl hnone
  · rw [SessionManager.create, h.count, List.length_cons]

/-- A session for a long key is lost at once. -/
theorem not_isMap_create (h : Represents s) {key : CString} (hkey : key ∉ s.keys)
    (hlong : ¬ key.octets.length < sessionKeyLen) (now : ℤ) :
    ¬ IsMap ⟨s.mgr.create key now, (key, s.mgr.next) :: s.live⟩ := by
  intro hmap
  have hne : cut key (sessionKeyLen - 1) ≠ key := by
    intro heq
    have hlength := congrArg (fun k : CString => k.octets.length) heq
    simp only [cut, List.length_take, sessionKeyLen] at hlength hlong
    omega
  have hnone : findSession (s.mgr.create key now) key = none := by
    have hold := (h.find_eq_none_iff key).mpr hkey
    rw [findSession, Option.map_eq_none_iff] at hold ⊢
    rw [← hold]
    exact HashTable.find_push_of_ne (findBucket key) hne
  have hsame := hmap.same key s.mgr.next List.mem_cons_self now ⟨false, false⟩
  rw [scSessionGetOrCreate, hnone] at hsame
  cases hsame

theorem Represents.delete (h : Represents s) {key : CString} (hkey : key ∈ s.keys) :
    Represents ⟨{ s.mgr with
      buckets := HashTable.erase findBucket SessionEntry.key s.mgr.buckets key
      count := s.mgr.count - 1 }, s.live.filter (·.1 ≠ key)⟩ := by
  have hsub : (s.live.filter (·.1 ≠ key)).Sublist s.live := List.filter_sublist
  constructor
  · intro k
    rw [findSession]
    by_cases hk : key = k
    · subst hk
      rw [HashTable.find_erase_self h.distinct, Option.map_none, eq_comm, Option.map_eq_none_iff,
        List.find?_eq_none]
      intro p hp
      simpa using (List.mem_filter.mp hp).2
    · rw [HashTable.find_erase_of_ne hk, List.find?_filter]
      have hold := h.found k
      rw [findSession] at hold
      rw [hold]
      refine congrArg _ (congrFun (congrArg _ (funext fun p => ?_)) _)
      by_cases hp : p.1 = k
      · subst hp
        simp [Ne.symm hk]
      · simp [hp]
  · exact (hsub.map _).nodup h.keys
  · exact (hsub.map _).nodup h.addresses
  · intro a ha
    exact h.lt_next a ((hsub.map _).subset ha)
  · exact h.distinct.erase key
  · have hone : s.live.countP (·.1 = key) = 1 := by
      have hcount := List.count_eq_one_of_mem h.keys hkey
      rw [MapState.keys, List.count, List.countP_map] at hcount
      rw [← hcount]
      exact List.countP_congr fun p _ => by simp
    have hsplit := s.live.length_eq_countP_add_countP fun p => p.1 = key
    rw [hone] at hsplit
    show s.mgr.count - 1 = (s.live.filter (·.1 ≠ key)).length
    rw [h.count, ← List.countP_eq_length_filter, hsplit, Nat.add_sub_cancel_left]
    exact List.countP_congr fun p _ => by simp

end Represents

/-! ## Steps -/

section Steps

variable {s : MapState}

theorem sessionStep_getOrCreate (h : Represents s) (key : CString) (now : ℤ)
    (memory : SessionMemory) :
    (∃ s', sessionStep s (.getOrCreate key now memory) = some s' ∧ Represents s') ∨
      (key ∉ s.keys ∧ memory.session = true ∧ memory.entry = true) := by
  by_cases hkey : key ∈ s.keys
  · obtain ⟨⟨k, a⟩, ha, rfl⟩ := List.mem_map.mp hkey
    refine Or.inl ⟨_, ?_, h.change a fun s => { s with lastActive := now }⟩
    rw [sessionStep, scSessionGetOrCreate, h.find_of_mem ha]
    simp only [hkey, if_true]
  · cases hsession : memory.session with
    | false =>
      refine Or.inl ⟨s, ?_, h⟩
      simp only [sessionStep, scSessionGetOrCreate, (h.find_eq_none_iff key).mpr hkey, hsession, if_true]
    | true =>
      cases hentry : memory.entry with
      | false =>
        refine Or.inl ⟨s, ?_, h⟩
        simp only [sessionStep, scSessionGetOrCreate, (h.find_eq_none_iff key).mpr hkey, hsession,
          hentry, Bool.true_eq_false, if_true, if_false]
      | true => exact Or.inr ⟨hkey, rfl, rfl⟩

/-- A session for a key without one is created when memory is found. -/
theorem sessionStep_create (h : Represents s) {key : CString} (hkey : key ∉ s.keys) (now : ℤ)
    {memory : SessionMemory} (hsession : memory.session = true) (hentry : memory.entry = true) :
    sessionStep s (.getOrCreate key now memory) =
      some ⟨s.mgr.create key now, (key, s.mgr.next) :: s.live⟩ := by
  simp only [sessionStep, scSessionGetOrCreate, (h.find_eq_none_iff key).mpr hkey, hsession, hentry,
    Bool.true_eq_false, if_false, hkey]

theorem sessionStep_delete (h : Represents s) (key : CString) :
    ∃ s', sessionStep s (.delete key) = some s' ∧ Represents s' := by
  have hfind := h.find_eq_none_iff key
  rw [findSession, Option.map_eq_none_iff] at hfind
  rw [sessionStep, scSessionDelete]
  cases hentry : HashTable.find findBucket SessionEntry.key s.mgr.buckets key with
  | none => exact ⟨s, rfl, h⟩
  | some e =>
    have hkey : key ∈ s.keys := by
      by_contra hnot
      rw [hfind.mpr hnot] at hentry
      cases hentry
    exact ⟨_, rfl, h.delete hkey⟩

theorem sessionStep_patch (h : Represents s) (key : CString) (label : Option CString) :
    ∃ s', sessionStep s (.patch key label) = some s' ∧ Represents s' := by
  refine ⟨_, rfl, ?_⟩
  cases label with
  | none => exact h
  | some label =>
    simp only [scSessionPatch]
    cases findSession s.mgr key with
    | none => exact h
    | some a => exact h.change a fun s => { s with label := cut label (sessionLabelLen - 1) }

/-- A step that is given room for its key keeps what the table represents. -/
theorem Represents.step (h : Represents s) {op : SessionOp} (hop : ShortKey s op) :
    ∃ s', sessionStep s op = some s' ∧ Represents s' := by
  cases op with
  | getOrCreate key now memory =>
    rcases sessionStep_getOrCreate h key now memory with hstep | ⟨hkey, hsession, hentry⟩
    · exact hstep
    · exact ⟨_, sessionStep_create h hkey now hsession hentry,
        h.create hkey (hop hkey hsession hentry) now⟩
  | delete key => exact sessionStep_delete h key
  | patch key label => exact sessionStep_patch h key label

/-- Any other step creates a session that is lost at once. -/
theorem Represents.not_isMap (h : Represents s) {op : SessionOp} (hop : ¬ ShortKey s op)
    {s' : MapState} (hs' : sessionStep s op = some s') : ¬ IsMap s' := by
  cases op with
  | getOrCreate key now memory =>
    rw [ShortKey] at hop
    push Not at hop
    obtain ⟨hkey, hsession, hentry, hlong⟩ := hop
    rw [sessionStep_create h hkey now hsession hentry, Option.some.injEq] at hs'
    subst hs'
    exact not_isMap_create h hkey (Nat.not_lt.mpr hlong) now
  | delete key => exact absurd trivial hop
  | patch key label => exact absurd trivial hop

end Steps

/-- A manager after its initialisation, without sessions. -/
def freshSessions : MapState := ⟨scSessionManagerInit, []⟩

theorem represents_freshSessions : Represents freshSessions where
  found := fun _ => rfl
  keys := List.nodup_nil
  addresses := List.nodup_nil
  lt_next := fun _ h => absurd h List.not_mem_nil
  distinct := fun _ => List.nodup_nil
  count := rfl

/-- Whatever is called in whatever order, the manager is a map throughout exactly if each
session is created for a key that its entry has room for. -/
theorem session_map_iff (ops : List SessionOp) :
    Machine.Throughout sessionStep IsMap freshSessions ops ↔
      Machine.EveryStep sessionStep ShortKey freshSessions ops :=
  Machine.throughout_iff_everyStep_of_keeps (fun _ => Represents.isMap)
    (fun _ _ h hop => h.step hop) (fun _ _ _ h hs' hop => h.not_isMap hop hs')
    represents_freshSessions ops

/-- A key of 128 octets. -/
def longKey : CString := .ofBytes (List.replicate 128 (ch 'a'))

/-- The session for a key of 128 octets is not found by its key. -/
theorem session_longKey_lost : ¬ Machine.Throughout sessionStep IsMap freshSessions
    [.getOrCreate longKey 0 ⟨true, true⟩] := by
  rintro ⟨-, s, hs, hmap⟩
  refine represents_freshSessions.not_isMap (fun hop => ?_) hs hmap
  have hlt := hop List.not_mem_nil rfl rfl
  revert hlt
  decide +kernel

end SeaClaw.Sessions
