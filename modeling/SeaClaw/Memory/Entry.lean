import SeaClaw.Lib.Binary64
import SeaClaw.Lib.CString

/-!
# Entries of the memory

An entry is a record of strings that may be missing. A string is a pointer with a length beside
it; a copy ends at the first NUL while its length stays what it was.
-/

namespace SeaClaw.Memory

open SeaClaw.Lib

/-- The octets behind a pointer, and the length that is kept beside it. -/
structure Text where
  octets : Bytes
  len : ℕ
  deriving DecidableEq

/-- Octets with their own length. -/
def Text.ofBytes (b : Bytes) : Text := ⟨b, b.length⟩

/-- `sc_strndup(alloc, s.octets, s.len)`, with the length of the original. -/
def scStrndup (s : Text) : Text := ⟨(s.octets.take s.len).takeWhile (· ≠ 0), s.len⟩

/-- A copy is copied whole. -/
@[simp] theorem scStrndup_scStrndup (s : Text) : scStrndup (scStrndup s) = scStrndup s := by
  have hlen : ((s.octets.take s.len).takeWhile (· ≠ 0)).length ≤ s.len :=
    (List.takeWhile_sublist _).length_le.trans (List.length_take_le _ _)
  simp only [scStrndup, Text.mk.injEq, and_true]
  rw [List.take_of_length_le hlen, List.takeWhile_idem]

/-- Octets are copied whole exactly when none of them is a NUL. -/
theorem scStrndup_ofBytes (b : Bytes) : scStrndup (Text.ofBytes b) = Text.ofBytes b ↔ 0 ∉ b := by
  simp only [scStrndup, Text.ofBytes, List.take_length, Text.mk.injEq, and_true]
  exact CString.octets_ofBytes

/-- `sc_memory_category_tag_t` -/
inductive CategoryTag where
  | core | daily | conversation | custom
  deriving DecidableEq

/-- `sc_memory_category_t` -/
@[ext] structure MemoryCategory (σ : Type) where
  tag : CategoryTag
  name : Option σ
  deriving DecidableEq

/-- `sc_memory_entry_t` over a kind of strings. -/
@[ext] structure MemoryEntry (σ : Type) where
  id : Option σ
  key : Option σ
  content : Option σ
  category : MemoryCategory σ
  timestamp : Option σ
  sessionId : Option σ
  score : Binary64
  deriving DecidableEq

variable {σ τ υ : Type}

/-- The entry with another string for each. -/
def MemoryEntry.map (f : σ → τ) (e : MemoryEntry σ) : MemoryEntry τ where
  id := e.id.map f
  key := e.key.map f
  content := e.content.map f
  category := ⟨e.category.tag, e.category.name.map f⟩
  timestamp := e.timestamp.map f
  sessionId := e.sessionId.map f
  score := e.score

/-- The strings of an entry. -/
def MemoryEntry.strings (e : MemoryEntry σ) : List σ :=
  e.id.toList ++ e.key.toList ++ e.content.toList ++ e.category.name.toList ++
    e.timestamp.toList ++ e.sessionId.toList

@[simp] theorem MemoryEntry.map_map (f : σ → τ) (g : τ → υ) (e : MemoryEntry σ) :
    (e.map f).map g = e.map (g ∘ f) := by
  simp [MemoryEntry.map, Function.comp_def]

theorem map_eq_self_iff (f : σ → σ) (o : Option σ) : o.map f = o ↔ ∀ s ∈ o.toList, f s = s := by
  cases o <;> simp

/-- An entry stays as it is exactly when each of its strings does. -/
theorem MemoryEntry.map_eq_self_iff (f : σ → σ) (e : MemoryEntry σ) :
    e.map f = e ↔ ∀ s ∈ e.strings, f s = s := by
  simp only [MemoryEntry.ext_iff, MemoryCategory.ext_iff, MemoryEntry.map,
    SeaClaw.Memory.map_eq_self_iff, MemoryEntry.strings, List.mem_append, or_imp, forall_and,
    true_and, and_true, and_assoc]

end SeaClaw.Memory
