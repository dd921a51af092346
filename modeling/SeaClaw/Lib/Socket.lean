import SeaClaw.Lib.Bytes

/-!
# Reading from a socket

A stream socket delivers its octets in pieces of its own choice. Reading until a given
number of octets are there sees the stream, not the pieces.
-/

namespace SeaClaw.Lib

/-- What arrives at a socket, piece by piece; an empty piece is a failed `recv`. -/
abbrev Socket := List Bytes

/-- `recv` of at most `n` octets, empty at the end of the stream. -/
def recv (n : ℕ) : Socket → Bytes × Socket
  | [] => ([], [])
  | c :: cs => if c.length ≤ n then (c, cs) else (c.take n, c.drop n :: cs)

/-- Reads until `need` octets are there, with the octets so far; none where `recv` fails. -/
def readLoop (need : ℕ) : ℕ → Bytes → Socket → Option Bytes × Socket
  | 0, got, s => (some got, s)
  | fuel + 1, got, s =>
    if got.length < need then
      match recv (need - got.length) s with
      | ([], s) => (none, s)
      | (x, s) => readLoop need fuel (got ++ x) s
    else (some got, s)

/-- Reads `need` octets in all, of which `got` are there. Each `recv` adds at least one. -/
def readTo (need : ℕ) (got : Bytes) (s : Socket) : Option Bytes × Socket :=
  readLoop need (need - got.length) got s

/-- The octets still to come, with no failure before their end. -/
structure Pending (s : Socket) (D : Bytes) : Prop where
  flatten : s.flatten = D
  steady : ∀ c ∈ s, c ≠ []

/-- A `recv` takes a part of the stream from its front. -/
theorem Pending.recv {s : Socket} {D : Bytes} (h : Pending s D) {n : ℕ} (hn : 0 < n)
    (hD : D ≠ []) : ∃ x t, recv n s = (x, t) ∧ x ≠ [] ∧ x.length ≤ n ∧ x <+: D ∧
      Pending t (D.drop x.length) := by
  obtain ⟨hflat, hsteady⟩ := h
  cases s with
  | nil => exact absurd hflat.symm hD
  | cons c cs =>
    rw [List.forall_mem_cons] at hsteady
    subst hflat
    rw [List.flatten_cons, Lib.recv]
    split_ifs with hle
    · exact ⟨c, cs, rfl, hsteady.1, hle, List.prefix_append _ _, by simp, hsteady.2⟩
    · have hlen : (c.take n).length = n := by
        rw [List.length_take]
        omega
      refine ⟨c.take n, _, rfl, ?_, hlen.le, ?_, ?_, ?_⟩
      · exact List.ne_nil_of_length_pos (by omega)
      · exact (List.take_prefix n c).trans (List.prefix_append _ _)
      · rw [hlen, List.flatten_cons, List.drop_append_of_le_length (by omega)]
      · rw [List.forall_mem_cons]
        exact ⟨List.ne_nil_of_length_pos (by rw [List.length_drop]; omega), hsteady.2⟩

theorem readLoop_spec {n k : ℕ} {g D : Bytes} {s : Socket} (h : Pending s D)
    (hfuel : n ≤ g.length + k) (hgot : g.length ≤ n)
    (hD : n ≤ g.length + D.length) :
    ∃ t, readLoop n k g s = (some (g ++ D.take (n - g.length)), t) ∧
      Pending t (D.drop (n - g.length)) := by
  induction k generalizing g D s with
  | zero =>
    rw [show n - g.length = 0 by omega, List.take_zero, List.drop_zero, List.append_nil]
    exact ⟨s, rfl, h⟩
  | succ k ih =>
    by_cases hlt : g.length < n
    · obtain ⟨x, t, hx, hne, hle, ⟨u, rfl⟩, ht⟩ := h.recv (n := n - g.length) (by omega)
        (List.ne_nil_of_length_pos (by omega))
      have hpos := List.length_pos_iff.mpr hne
      rw [List.drop_left] at ht
      rw [List.length_append] at hD
      have hlen : (g ++ x).length = g.length + x.length := List.length_append
      obtain ⟨v, hv, hpend⟩ := ih ht (g := g ++ x) (by omega) (by omega) (by omega)
      have hsplit : n - g.length = x.length + (n - (g ++ x).length) := by omega
      refine ⟨v, ?_, ?_⟩
      · rw [readLoop, if_pos hlt, hx]
        cases x with
        | nil => exact absurd rfl hne
        | cons a x =>
          simp only
          rw [hv, hsplit, List.take_length_add_append, List.append_assoc]
      · rw [hsplit, List.drop_length_add_append]
        exact hpend
    · rw [show n - g.length = 0 by omega, List.take_zero, List.drop_zero, List.append_nil,
        readLoop, if_neg hlt]
      exact ⟨s, rfl, h⟩

/-- Octets that are there are read, however they arrive. -/
theorem readTo_append {n : ℕ} {g x D : Bytes} {s : Socket} (h : Pending s (x ++ D))
    (hlen : g.length + x.length = n) :
    ∃ t, readTo n g s = (some (g ++ x), t) ∧ Pending t D := by
  obtain ⟨t, ht, hpend⟩ := readLoop_spec h (n := n) (k := n - g.length) (g := g)
    (by omega) (by omega) (by rw [List.length_append]; omega)
  have hx : n - g.length = x.length := by omega
  rw [hx, List.drop_left] at hpend
  refine ⟨t, ?_, hpend⟩
  rw [readTo, ht, hx, List.take_left]

/-- At the end of the stream nothing can be read. -/
theorem readTo_end {need : ℕ} (hneed : 0 < need) : readTo need [] [] = (none, []) := by
  obtain ⟨n, rfl⟩ : ∃ n, need = n + 1 := ⟨need - 1, by omega⟩
  rfl

end SeaClaw.Lib
