import SeaClaw.Memory.Hygiene

/-!
# Which duplicates are left

Each entry that the pass over duplicates marks has the same content as one that is left and not
older. Of three entries of one content the pass leaves two as soon as one that is not the last
but one is newer than the next: it is compared with that one only. So no content is left twice
exactly when the times of one content do not fall before its last two entries.
-/

namespace SeaClaw.Memory

open SeaClaw.Lib

variable {config : HygieneConfig} {now : ℕ} {entries : List Entry}

/-- When an entry was written. -/
def epoch (e : Entry) : ℕ := parseTimestampEpoch e.timestamp

variable {base : Marks entries.length}

end SeaClaw.Memory
