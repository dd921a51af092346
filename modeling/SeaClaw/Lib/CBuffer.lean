import SeaClaw.Lib.Bytes

/-!
# Buffers of fixed size

An allocated buffer is the list of its octets, whatever they hold. A write past its
end has no result. A program that appends to a buffer keeps the text written so far as
a prefix of it.
-/

namespace SeaClaw.Lib

/-- Subtraction of `size_t` values, which wraps below zero. -/
def sizeSub (a b : ℕ) : ℕ := if b ≤ a then a - b else 2 ^ 64 - (b - a)

theorem sizeSub_of_le {a b : ℕ} (h : b ≤ a) : sizeSub a b = a - b := if_pos h

/-- `memcpy(buf + i, xs, n)`, and `buf[i] = b` for one octet. -/
def poke (buf : Bytes) (i : ℕ) (xs : Bytes) : Option Bytes :=
  if i + xs.length ≤ buf.length then some (buf.take i ++ xs ++ buf.drop (i + xs.length)) else none

/-- `snprintf(buf + i, size, ...)` of the text `xs`: the buffer and the length the whole
text would have taken. -/
def snprintf (buf : Bytes) (i size : ℕ) (xs : Bytes) : Option (Bytes × ℕ) :=
  if size = 0 then some (buf, xs.length)
  else (poke buf i (xs.take (size - 1) ++ [0])).map fun buf => (buf, xs.length)

theorem poke_length {buf buf' xs : Bytes} {i : ℕ} (h : poke buf i xs = some buf') :
    buf'.length = buf.length := by
  unfold poke at h
  split_ifs at h with hle
  cases h
  simp only [List.length_append, List.length_take, List.length_drop]
  omega

theorem poke_eq_none {buf xs : Bytes} {i : ℕ} (h : buf.length < i + xs.length) :
    poke buf i xs = none := if_neg (by omega)

theorem snprintf_length {buf buf' xs : Bytes} {i size n : ℕ}
    (h : snprintf buf i size xs = some (buf', n)) : buf'.length = buf.length ∧ n = xs.length := by
  unfold snprintf at h
  split_ifs at h with h0
  · cases h
    exact ⟨rfl, rfl⟩
  · obtain ⟨b, hb, he⟩ := Option.map_eq_some_iff.mp h
    cases he
    exact ⟨poke_length hb, rfl⟩

/-- Appending to the text at the front of a buffer. -/
theorem poke_prefix {b p x : Bytes} (hp : p <+: b) (hle : p.length + x.length ≤ b.length) :
    ∃ b', poke b p.length x = some b' ∧ p ++ x <+: b' ∧ b'.length = b.length := by
  have hpoke : poke b p.length x =
      some (b.take p.length ++ x ++ b.drop (p.length + x.length)) := if_pos hle
  refine ⟨_, hpoke, ?_, poke_length hpoke⟩
  rw [← List.prefix_iff_eq_take.mp hp]
  exact List.prefix_append _ _

/-- The same for formatted text that fits with its terminator. -/
theorem snprintf_prefix {b p x : Bytes} (hp : p <+: b)
    (hlt : p.length + x.length < b.length) :
    ∃ b', snprintf b p.length (sizeSub b.length p.length) x = some (b', x.length) ∧
      p ++ x <+: b' ∧ b'.length = b.length := by
  have hsize : sizeSub b.length p.length = b.length - p.length := sizeSub_of_le (by omega)
  have htake : x.take (b.length - p.length - 1) = x := List.take_of_length_le (by omega)
  obtain ⟨b', hpoke, hpre, hlen⟩ := poke_prefix (x := x ++ [0]) hp (by simp; omega)
  refine ⟨b', ?_, ?_, hlen⟩
  · rw [snprintf, hsize, if_neg (by omega), htake, hpoke, Option.map_some]
  · exact (by simp : p ++ x <+: p ++ (x ++ [0])).trans hpre

end SeaClaw.Lib
