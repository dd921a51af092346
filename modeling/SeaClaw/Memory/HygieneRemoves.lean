import Mathlib.Data.Fintype.Fin
import SeaClaw.Memory.HygieneDuplicates

/-!
# What hygiene removes

The pass over what is too many takes the oldest entries that are left, but as many as the whole
memory was too large, whatever the passes before have marked. The age of an entry from the
future is the difference of numbers without sign, so it is very old. With these and the order
of duplicates out of the way, exactly what should go is removed.
-/

namespace SeaClaw.Memory

open SeaClaw.Lib

variable {config : HygieneConfig} {now : ℕ} {entries : List Entry}

/-! ## The oldest entries -/

/-- The entries that are left. -/
def left (m : Marks entries.length) : Finset (Fin entries.length) := Finset.univ.filter (m · = false)

/-- What the search has found among the entries that it has seen. -/
def Found (m : Marks entries.length) (seen : List (Fin entries.length))
    (acc : Option (Fin entries.length) × ℕ) : Prop :=
  (acc = (none, uint64Max) ∧ ∀ j ∈ seen, m j = true) ∨
    ∃ i, acc = (some i, epoch (entries.get i)) ∧ m i = false ∧
      ∀ j ∈ seen, m j = false → epoch (entries.get i) ≤ epoch (entries.get j)

end SeaClaw.Memory
