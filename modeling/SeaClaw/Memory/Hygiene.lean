import SeaClaw.Lib.Timegm
import SeaClaw.Memory.Consolidation

/-!
# Hygiene

`sc_memory_hygiene_run` of `memory/lifecycle/hygiene.c`. One pass marks what is too large or too
old, one marks duplicates, one marks the oldest entries above the configured number, and the
last one forgets what is marked. The number of entries is the one before any was marked.
-/

namespace SeaClaw.Memory

open SeaClaw.Lib

/-- `sc_hygiene_config_t` -/
structure HygieneConfig where
  maxEntries : ℕ
  maxEntrySize : ℕ
  maxAgeSeconds : ℕ
  deduplicate : Bool
  deriving DecidableEq

/-- `parse_timestamp_epoch`: the seconds since the epoch, zero for what is no time. -/
def parseTimestampEpoch (ts : Option Bytes) : ℕ :=
  match ts with
  | none => 0
  | some s => if s.length < 19 then 0 else ((scanDateTime s).map fun t => (timegm t).toNat).getD 0

/-- The length of the content. -/
def contentLen (e : Entry) : ℕ := (e.content.getD []).length

/-- The size test of the first pass. -/
def oversized (config : HygieneConfig) (e : Entry) : Bool :=
  0 < config.maxEntrySize && config.maxEntrySize < contentLen e

/-- The age test of the first pass. The difference is one of 64-bit numbers without sign. -/
def expired (config : HygieneConfig) (now : ℕ) (e : Entry) : Bool :=
  0 < config.maxAgeSeconds && !noTimestamp e.timestamp &&
    0 < parseTimestampEpoch e.timestamp &&
    config.maxAgeSeconds < (now + 2 ^ 64 - parseTimestampEpoch e.timestamp) % 2 ^ 64

/-- `UINT64_MAX` -/
def uint64Max : ℕ := 2 ^ 64 - 1

/-- What the first pass marks. -/
def dropped (config : HygieneConfig) (now : ℕ) (e : Entry) : Bool :=
  oversized config e || expired config now e

variable {config : HygieneConfig} {now : ℕ} {entries : List Entry}

end SeaClaw.Memory
