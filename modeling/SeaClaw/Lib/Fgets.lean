import SeaClaw.Lib.Bytes

/-!
# Reading by lines of bounded length

`fgets` takes octets up to a newline, or as many as the buffer holds. The chunks that a text is
read in are the only list of such pieces that makes it up, so a part of them is read in the same
pieces again. A buffer of bounded size takes each piece that still fits; repeating a list until
nothing fits any more is the one way to fill it with a list and then with what is in it.
-/

namespace SeaClaw.Lib

/-- The newline. -/
def newline : UInt8 := 10

/-- `fgets` with room for `n` octets before the terminator: what is read, and the rest. -/
def fgets : ℕ → Bytes → Bytes × Bytes
  | 0, s => ([], s)
  | _ + 1, [] => ([], [])
  | n + 1, b :: s => if b = newline then ([b], s) else (b :: (fgets n s).1, (fgets n s).2)

/-- What `fgets` can read: some octets, of which only the last may be a newline. -/
structure IsChunk (n : ℕ) (c : Bytes) : Prop where
  nonempty : c ≠ []
  length : c.length ≤ n
  inner : newline ∉ c.dropLast

/-- A chunk that more may follow. -/
def IsFull (n : ℕ) (c : Bytes) : Prop := IsChunk n c ∧ (c.getLast? = some newline ∨ c.length = n)

theorem isChunk_cons {n : ℕ} {b : UInt8} {c : Bytes} (hb : b ≠ newline) (hc : IsChunk n c) :
    IsChunk (n + 1) (b :: c) := by
  refine ⟨List.cons_ne_nil _ _, by simpa using hc.length, ?_⟩
  rw [List.dropLast_cons_of_ne_nil hc.nonempty, List.mem_cons, not_or]
  exact ⟨hb.symm, hc.inner⟩

theorem isFull_cons {n : ℕ} {b : UInt8} {c : Bytes} (hb : b ≠ newline) (hc : IsFull n c) :
    IsFull (n + 1) (b :: c) := by
  refine ⟨isChunk_cons hb hc.1, hc.2.imp (fun h => ?_) fun h => by simpa using h⟩
  obtain ⟨x, c, rfl⟩ := List.exists_cons_of_ne_nil hc.1.nonempty
  rwa [List.getLast?_cons_cons]

/-- A chunk of more than one octet starts with another one than a newline. -/
theorem IsChunk.tail {n : ℕ} {b x : UInt8} {c : Bytes} (h : IsChunk (n + 1) (b :: x :: c)) :
    b ≠ newline ∧ IsChunk n (x :: c) := by
  have hinner := h.inner
  rw [List.dropLast_cons_of_ne_nil (List.cons_ne_nil _ _), List.mem_cons, not_or] at hinner
  exact ⟨fun he => hinner.1 he.symm, List.cons_ne_nil _ _, by simpa using h.length, hinner.2⟩

theorem fgets_append (n : ℕ) (s : Bytes) : (fgets n s).1 ++ (fgets n s).2 = s := by
  induction n generalizing s with
  | zero => rfl
  | succ n ih =>
    cases s with
    | nil => rfl
    | cons b s =>
      rw [fgets]
      split
      · rfl
      · rw [List.cons_append, ih]

/-- What is read from a text is a chunk, and full if there is more. -/
theorem isChunk_fgets {n : ℕ} {s : Bytes} (hn : 0 < n) (hs : s ≠ []) :
    IsChunk n (fgets n s).1 ∧ ((fgets n s).2 ≠ [] → IsFull n (fgets n s).1) := by
  induction n generalizing s with
  | zero => omega
  | succ n ih =>
    obtain ⟨b, s, rfl⟩ := List.exists_cons_of_ne_nil hs
    rw [fgets]
    split
    · next hb =>
      have hchunk : IsChunk (n + 1) [b] := ⟨List.cons_ne_nil _ _, by simp, by simp⟩
      exact ⟨hchunk, fun _ => ⟨hchunk, Or.inl (by rw [hb]; rfl)⟩⟩
    · next hb =>
      rcases Nat.eq_zero_or_pos n with rfl | hpos
      · have hchunk : IsChunk 1 [b] := ⟨List.cons_ne_nil _ _, le_rfl, by simp⟩
        exact ⟨hchunk, fun _ => ⟨hchunk, Or.inr rfl⟩⟩
      · by_cases hs' : s = []
        · subst hs'
          obtain ⟨n, rfl⟩ := Nat.exists_eq_succ_of_ne_zero hpos.ne'
          have hchunk : IsChunk (n + 1 + 1) [b] := ⟨List.cons_ne_nil _ _, by simp, by simp⟩
          exact ⟨hchunk, fun h => absurd rfl h⟩
        · obtain ⟨hchunk, hfull⟩ := ih hpos hs'
          exact ⟨isChunk_cons hb hchunk, fun h => isFull_cons hb (hfull h)⟩

/-- A full chunk is read up to its end. -/
theorem IsFull.fgets {n : ℕ} {c : Bytes} (h : IsFull n c) (s : Bytes) : fgets n (c ++ s) = (c, s) := by
  induction n generalizing c with
  | zero =>
    have := h.1.length
    exact absurd (List.length_eq_zero_iff.mp (by omega)) h.1.nonempty
  | succ n ih =>
    obtain ⟨b, c, rfl⟩ := List.exists_cons_of_ne_nil h.1.nonempty
    rw [List.cons_append, Lib.fgets]
    cases c with
    | nil =>
      split
      · rfl
      · next hb =>
        have hn : n = 0 := by
          rcases h.2 with hlast | hlen
          · exact absurd (Option.some.inj hlast) hb
          · simpa using hlen.symm
        subst hn
        rfl
    | cons x c =>
      obtain ⟨hb, hchunk⟩ := h.1.tail
      have hfull : IsFull n (x :: c) := by
        refine ⟨hchunk, h.2.imp (fun hlast => ?_) fun hlen => by simpa using hlen⟩
        rwa [List.getLast?_cons_cons] at hlast
      rw [if_neg hb, ih hfull]

/-- The last chunk is read up to the end of the text. -/
theorem IsChunk.fgets {n : ℕ} {c : Bytes} (h : IsChunk n c) : fgets n c = (c, []) := by
  induction n generalizing c with
  | zero =>
    have := h.length
    exact absurd (List.length_eq_zero_iff.mp (by omega)) h.nonempty
  | succ n ih =>
    obtain ⟨b, c, rfl⟩ := List.exists_cons_of_ne_nil h.nonempty
    rw [Lib.fgets]
    cases c with
    | nil => cases n <;> simp [Lib.fgets]
    | cons x c =>
      obtain ⟨hb, hchunk⟩ := h.tail
      rw [if_neg hb, ih hchunk]

/-- The chunks that a text is read in. -/
def chunks (n : ℕ) (s : Bytes) : List Bytes :=
  if _h : 0 < n ∧ s ≠ [] then (fgets n s).1 :: chunks n (fgets n s).2 else []
termination_by s.length
decreasing_by
  have hlen := congrArg List.length (fgets_append n s)
  have hpos := List.length_pos_iff.mpr (isChunk_fgets _h.1 _h.2).1.nonempty
  rw [List.length_append] at hlen
  omega

/-- Chunks one after the other: each but the last is full. -/
inductive ChunkList (n : ℕ) : List Bytes → Prop
  | nil : ChunkList n []
  | last {c : Bytes} (hc : IsChunk n c) : ChunkList n [c]
  | cons {c : Bytes} {cs : List Bytes} (hc : IsFull n c) (hcs : ChunkList n cs) :
      ChunkList n (c :: cs)

section ChunkLists

variable {n : ℕ} {cs ds : List Bytes}

theorem ChunkList.isChunk (h : ChunkList n cs) : ∀ c ∈ cs, IsChunk n c := by
  induction h with
  | nil => simp
  | last hc => simpa using hc
  | cons hc _ ih => simpa using ⟨hc.1, ih⟩

/-- A part of the chunks. -/
theorem ChunkList.sublist (h : ChunkList n cs) (hs : ds.Sublist cs) : ChunkList n ds := by
  induction h generalizing ds with
  | nil =>
    rw [List.sublist_nil.mp hs]
    exact .nil
  | last hc =>
    rcases List.sublist_singleton.mp hs with rfl | rfl
    · exact .nil
    · exact .last hc
  | cons hc _ ih =>
    cases hs with
    | cons _ hs => exact ih hs
    | cons_cons _ hs => exact .cons hc (ih hs)

/-- Full chunks in front of others. -/
theorem ChunkList.append (hds : ∀ d ∈ ds, IsFull n d) (h : ChunkList n cs) :
    ChunkList n (ds ++ cs) := by
  induction ds with
  | nil => exact h
  | cons d ds ih =>
    exact .cons (hds d List.mem_cons_self) (ih fun x hx => hds x (List.mem_cons_of_mem _ hx))

theorem chunkList_of_full (hds : ∀ d ∈ ds, IsFull n d) : ChunkList n ds := by
  have := ChunkList.append hds .nil
  rwa [List.append_nil] at this

/-- The chunks of a text that is made up of chunks are these. -/
theorem ChunkList.chunks_flatten (hn : 0 < n) (h : ChunkList n cs) : chunks n cs.flatten = cs := by
  induction h with
  | nil => simp [chunks]
  | last hc =>
    rw [List.flatten_singleton, chunks, dif_pos ⟨hn, hc.nonempty⟩, hc.fgets]
    simp [chunks]
  | @cons c cs hc _ ih =>
    rw [List.flatten_cons, chunks, dif_pos ⟨hn, by simp [hc.1.nonempty]⟩, hc.fgets]
    dsimp only
    rw [ih]

/-- A text is read in chunks that make it up. -/
theorem chunkList_chunks (hn : 0 < n) (s : Bytes) :
    ChunkList n (chunks n s) ∧ (chunks n s).flatten = s := by
  fun_induction chunks n s with
  | case1 s h ih =>
    obtain ⟨hchunk, hfull⟩ := isChunk_fgets h.1 h.2
    refine ⟨?_, by rw [List.flatten_cons, ih.2, fgets_append]⟩
    by_cases hrest : (fgets n s).2 = []
    · have hnil : chunks n (fgets n s).2 = [] := by
        rw [hrest]
        simp [chunks]
      rw [hnil]
      exact .last hchunk
    · exact .cons (hfull hrest) ih.1
  | case2 s h =>
    refine ⟨.nil, ?_⟩
    rw [not_and_or, not_not] at h
    rcases h with h | rfl
    · exact absurd hn h
    · rfl

/-- A text that ends in a newline is read in full chunks. -/
theorem isFull_chunks (hn : 0 < n) {s : Bytes} (hs : s.getLast? = some newline) :
    ∀ c ∈ chunks n s, IsFull n c := by
  obtain ⟨hlist, hflat⟩ := chunkList_chunks hn s
  revert hlist hflat
  generalize chunks n s = cs
  intro hlist
  induction hlist generalizing s with
  | nil => simp
  | last hc =>
    intro hflat
    rw [List.flatten_singleton] at hflat
    subst hflat
    simpa using ⟨hc, Or.inl hs⟩
  | @cons c cs hc hcs ih =>
    intro hflat
    rw [List.forall_mem_cons]
    refine ⟨hc, ?_⟩
    rcases List.eq_nil_or_concat cs.flatten with hnil | ⟨u, x, hu⟩
    · intro d hd
      have hne := (hcs.isChunk d hd).nonempty
      exact absurd (List.flatten_eq_nil_iff.mp hnil d hd) hne
    · refine ih ?_ rfl
      rw [List.flatten_cons, hu, List.concat_eq_append] at hflat
      rw [← hflat, ← List.append_assoc, List.getLast?_concat] at hs
      rw [hu, List.concat_eq_append, List.getLast?_concat, hs]

end ChunkLists

/-! ## A buffer of bounded size -/

/-- Of the pieces one after the other those that still fit. -/
def fit : ℕ → List Bytes → List Bytes
  | _, [] => []
  | room, x :: xs => if x.length ≤ room then x :: fit (room - x.length) xs else fit room xs

section Fit

variable {room : ℕ} {xs ys : List Bytes}

theorem fit_sublist (room : ℕ) (xs : List Bytes) : (fit room xs).Sublist xs := by
  induction xs generalizing room with
  | nil => exact List.Sublist.refl _
  | cons x xs ih =>
    rw [fit]
    split
    · exact (ih _).cons_cons x
    · exact (ih _).cons x

theorem length_fit_le (room : ℕ) (xs : List Bytes) : (fit room xs).flatten.length ≤ room := by
  induction xs generalizing room with
  | nil => simp [fit]
  | cons x xs ih =>
    rw [fit]
    split
    · have := ih (room - x.length)
      rw [List.flatten_cons, List.length_append]
      omega
    · exact ih room

theorem fit_append (room : ℕ) (xs ys : List Bytes) :
    fit room (xs ++ ys) = fit room xs ++ fit (room - (fit room xs).flatten.length) ys := by
  induction xs generalizing room with
  | nil => simp [fit]
  | cons x xs ih =>
    rw [List.cons_append, fit, fit]
    split
    · rw [ih, List.cons_append, List.flatten_cons, List.length_append, Nat.sub_sub]
    · exact ih room

/-- With no room nothing fits. -/
theorem fit_zero (h : ∀ x ∈ xs, x ≠ []) : fit 0 xs = [] := by
  induction xs with
  | nil => rfl
  | cons x xs ih =>
    have hx := List.length_pos_iff.mpr (h x List.mem_cons_self)
    rw [fit, if_neg (by omega)]
    exact ih fun y hy => h y (List.mem_cons_of_mem _ hy)

/-- What did not fit does not fit in the room that was left. -/
theorem fit_fit {left : ℕ} (h : left ≤ room - (fit room xs).flatten.length) :
    fit left (fit room xs) = fit left xs := by
  induction xs generalizing room left with
  | nil => rfl
  | cons x xs ih =>
    rw [fit] at h
    split at h
    · next hx =>
      rw [fit, if_pos hx, fit]
      rw [List.flatten_cons, List.length_append] at h
      split
      · next hleft =>
        rw [ih (by omega)]
        simp only [fit, if_pos hleft]
      · next hleft =>
        rw [ih (by omega)]
        simp only [fit, if_neg hleft]
    · next hx =>
      have hleft : ¬ x.length ≤ left := by omega
      simp only [fit, if_neg hx, if_neg hleft]
      exact ih h

/-- Some piece of one octet leaves no room unused. -/
theorem fit_ne_nil (hpos : 0 < room) (h : ∃ x ∈ xs, x.length = 1) :
    0 < (fit room xs).flatten.length := by
  obtain ⟨x, hx, hlen⟩ := h
  induction xs generalizing room with
  | nil => exact absurd hx List.not_mem_nil
  | cons y ys ih =>
    rw [fit]
    split
    · next hy =>
      by_cases hempty : y.length = 0
      · have hne : x ≠ y := fun he => by
          rw [he] at hlen
          omega
        have := @ih (room - y.length) (by omega)
          ((List.mem_cons.mp hx).resolve_left hne)
        rw [List.flatten_cons, List.length_append]
        omega
      · rw [List.flatten_cons, List.length_append]
        omega
    · next hy =>
      have hne : x ≠ y := fun he => by
        rw [← he] at hy
        omega
      exact ih hpos ((List.mem_cons.mp hx).resolve_left hne)

/-- Pieces that were left out once change nothing the next time. -/
theorem fit_fit_append (room : ℕ) (xs ys : List Bytes) :
    fit (room - (fit room xs).flatten.length) (fit room xs ++ ys) =
      fit (room - (fit room xs).flatten.length) (xs ++ ys) := by
  rw [fit_append, fit_append, fit_fit le_rfl]

/-- A list of pieces and then the contents themselves fill the buffer with its contents exactly
when these are the list repeated until nothing fits. -/
theorem fit_append_self_iff (hne : ∀ x ∈ xs, x ≠ []) (hone : ∃ x ∈ xs, x.length = 1)
    (hys : ∀ y ∈ ys, y ≠ []) {n : ℕ} (hn : room ≤ n) :
    ys = fit room (xs ++ ys) ↔ ys = fit room (List.replicate n xs).flatten := by
  have hrep : ∀ n, ∀ x ∈ (List.replicate n xs).flatten, x ≠ [] := by
    intro n x hx
    obtain ⟨zs, hzs, hx⟩ := List.mem_flatten.mp hx
    rw [List.eq_of_mem_replicate hzs] at hx
    exact hne x hx
  induction n generalizing room ys with
  | zero =>
    obtain rfl : room = 0 := by omega
    have hall : ∀ x ∈ xs ++ ys, x ≠ [] := by
      intro x hx
      exact (List.mem_append.mp hx).elim (hne x) (hys x)
    rw [fit_zero hall, fit_zero (hrep 0)]
  | succ n ih =>
    rcases Nat.eq_zero_or_pos room with rfl | hpos
    · have hall : ∀ x ∈ xs ++ ys, x ≠ [] := by
        intro x hx
        exact (List.mem_append.mp hx).elim (hne x) (hys x)
      rw [fit_zero hall, fit_zero (hrep _)]
    · set left := room - (fit room xs).flatten.length with hleft
      have hlt : left ≤ n := by
        have := fit_ne_nil hpos hone
        omega
      rw [List.replicate_succ, List.flatten_cons, fit_append, fit_append, ← hleft]
      constructor
      · intro h
        set rest := fit left ys with hrest
        have hstep : rest = fit left (xs ++ rest) := by
          rw [hrest]
          conv_lhs => rw [h]
          rw [hleft, fit_fit_append, ← hleft, ← hrest]
        have hrest' : ∀ y ∈ rest, y ≠ [] := fun y hy => hys y ((fit_sublist _ _).subset hy)
        rw [h, ← (ih hrest' hlt).mp hstep]
      · intro h
        set rest := fit left (List.replicate n xs).flatten with hrest
        have hrest' : ∀ y ∈ rest, y ≠ [] := fun y hy => hrep n y ((fit_sublist _ _).subset hy)
        have hstep : rest = fit left (xs ++ rest) := (ih hrest' hlt).mpr hrest
        have hys' : fit left ys = rest := by
          rw [h, hleft, fit_fit_append, ← hleft, ← hstep]
        rw [hys']
        exact h

end Fit

end SeaClaw.Lib
