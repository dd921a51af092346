import SeaClaw.Lib.CString

/-!
# The rate limiter of the gateway

A table of clients with the times of their calls. A call reads the clock twice, once to drop the
times that have left the window and once for its own time. Times are in seconds; whether the
allocations of a call find memory comes with the call.
-/

namespace SeaClaw.Gateway

open SeaClaw.Lib

/-- `SC_RATE_IP_MAX` -/
def rateIpMax : ℕ := 64

/-- `SC_RATE_ENTRIES_MAX` -/
def rateEntriesMax : ℕ := 512

/-- `rate_entry_t` -/
structure RateEntry where
  ip : CString
  timestamps : List ℤ
  cap : ℕ
  maxRequests : ℕ
  windowSecs : ℤ
  deriving DecidableEq

/-- `struct sc_rate_limiter` -/
structure RateLimiter where
  entries : List RateEntry
  maxRequests : ℕ
  windowSecs : ℤ
  deriving DecidableEq

/-- A call of `sc_rate_limiter_allow`: the client, what `time` returns each time, and whether
there is memory for a new entry and for more times. -/
structure RateCall where
  ip : CString
  start : ℤ
  finish : ℤ
  entryMemory : Bool
  growMemory : Bool
  deriving DecidableEq

/-- `prune_entry` -/
def pruneEntry (e : RateEntry) (now : ℤ) : RateEntry :=
  { e with timestamps := e.timestamps.filter fun t => now - e.windowSecs < t }

/-- A new entry; the name of the client is cut to the room it has. -/
def newEntry (lim : RateLimiter) (ip : CString) : RateEntry where
  ip := .ofBytes (ip.octets.take (rateIpMax - 1))
  timestamps := []
  cap := 64
  maxRequests := lim.maxRequests
  windowSecs := lim.windowSecs

/-- `find_or_create`: the table and the place of the entry in it. -/
def findOrCreate (lim : RateLimiter) (ip : CString) (memory : Bool) : Option (RateLimiter × ℕ) :=
  match lim.entries.findIdx? (·.ip = ip) with
  | some i => some (lim, i)
  | none =>
    if rateEntriesMax ≤ lim.entries.length then none
    else if memory = false then none
    else some ({ lim with entries := lim.entries ++ [newEntry lim ip] }, lim.entries.length)

/-- `sc_rate_limiter_create` -/
def scRateLimiterCreate (requestsPerWindow windowSecs : Int32) : RateLimiter where
  entries := []
  maxRequests := if requestsPerWindow ≤ 0 then 60 else requestsPerWindow.toInt.toNat
  windowSecs := if windowSecs ≤ 0 then 60 else windowSecs.toInt

/-- The times of an entry have room for one more, perhaps after twice the room was found. -/
def growEntry (e : RateEntry) (memory : Bool) : Option RateEntry :=
  if e.cap ≤ e.timestamps.length then
    if (2 ^ 64 - 1) / 2 < e.cap then none
    else if memory = false then none
    else some { e with cap := e.cap * 2 }
  else some e

/-- `sc_rate_limiter_allow` -/
def scRateLimiterAllow (lim : RateLimiter) (c : RateCall) : RateLimiter × Bool :=
  match findOrCreate lim c.ip c.entryMemory with
  | none => (lim, false)
  | some (lim, i) =>
    match lim.entries[i]? with
    | none => (lim, false)
    | some e =>
      match growEntry (pruneEntry e c.start) c.growMemory with
      | none => ({ lim with entries := lim.entries.set i (pruneEntry e c.start) }, false)
      | some e =>
        let times := e.timestamps ++ [c.finish]
        ({ lim with entries := lim.entries.set i { e with timestamps := times } },
          times.length ≤ e.maxRequests)

end SeaClaw.Gateway
