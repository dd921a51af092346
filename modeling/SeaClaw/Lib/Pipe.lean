import SeaClaw.Lib.Bytes

/-!
# Pipes

A pipe holds some octets between the end that writes and the end that reads. What has been read
and what is still inside are together all that was put in.
-/

namespace SeaClaw.Lib

/-- A pipe, with all that was ever put into it. -/
structure Pipe where
  contents : Bytes
  put : Bytes
  writeOpen : Bool
  readOpen : Bool

namespace Pipe

/-- A pipe as it is created. -/
def fresh : Pipe := ⟨[], [], true, true⟩

/-- Octets put in at the one end. -/
def fill (p : Pipe) (bytes : Bytes) : Pipe :=
  { p with contents := p.contents ++ bytes, put := p.put ++ bytes }

/-- Octets taken out at the other end. -/
def drain (p : Pipe) (k : ℕ) : Pipe := { p with contents := p.contents.drop k }

/-- A read would not wait. -/
def Readable (p : Pipe) : Prop := p.contents ≠ [] ∨ p.writeOpen = false

instance (p : Pipe) : Decidable p.Readable := inferInstanceAs (Decidable (_ ∨ _))

/-- What has been read so far is what was put in, up to the contents. -/
def Carried (p : Pipe) (taken : Bytes) : Prop := taken ++ p.contents = p.put

section Carried

variable {p : Pipe} {taken : Bytes}

theorem Carried.isPrefix (h : p.Carried taken) : taken <+: p.put := ⟨p.contents, h⟩

theorem Carried.fill (h : p.Carried taken) (bytes : Bytes) : (p.fill bytes).Carried taken := by
  unfold Carried at h ⊢
  rw [Pipe.fill, ← List.append_assoc, h]

theorem Carried.drain (h : p.Carried taken) (k : ℕ) :
    (p.drain k).Carried (taken ++ p.contents.take k) := by
  unfold Carried at h ⊢
  rw [Pipe.drain, List.append_assoc, List.take_append_drop]
  exact h

end Carried

end Pipe

end SeaClaw.Lib
