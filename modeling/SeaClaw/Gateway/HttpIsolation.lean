import SeaClaw.Gateway.HttpAccept
import SeaClaw.Lib.Substring

/-!
# One request a connection

What is read with the head of a request is compared with the parts of what the connection
delivers. Where the blank line is found that the head ends with, the body is taken from behind it,
and the lines that are read as header fields are those of the head.
-/

namespace SeaClaw.Gateway

open SeaClaw.Lib

/-! ## Reading -/

theorem recvBodyLoop_of_readLoop {need k : ℕ} {got x : Bytes} {s t : Socket}
    (h : readLoop need k got s = (some x, t)) : recvBodyLoop need k got s = x := by
  induction k generalizing got s with
  | zero =>
    simp only [readLoop, Prod.mk.injEq, Option.some.injEq] at h
    exact h.1
  | succ k ih =>
    rw [readLoop] at h
    rw [recvBodyLoop]
    split at h
    next hlt =>
      rw [if_pos hlt]
      cases hrecv : recv (need - got.length) s with
      | mk y u =>
        rw [hrecv] at h
        cases y with
        | nil => simp at h
        | cons b y => exact ih h
    next hge =>
      rw [if_neg hge]
      simp only [Prod.mk.injEq, Option.some.injEq] at h
      exact h.1

/-- A body that arrives is received. -/
theorem recvBody_eq_take {need : ℕ} {s : Socket} {D : Bytes} (h : Pending s D)
    (hD : need ≤ D.length) : recvBody need s = D.take need := by
  obtain ⟨t, ht, -⟩ := readLoop_spec (n := need) (k := need) (g := []) h (by simp) (by simp)
    (by simpa using hD)
  rw [recvBody, recvBodyLoop_of_readLoop ht, List.length_nil, Nat.sub_zero, List.nil_append]

/-- The head is read up to where the body starts, to the end of the buffer, or to the end of what
arrives. -/
theorem readHeadLoop_spec {k : ℕ} {req D : Bytes} {s : Socket} (h : Pending s D)
    (hreq : req.length ≤ reqMax) (hfuel : reqMax ≤ req.length + k) :
    ∃ x t D', readHeadLoop k req s = (req ++ x, t) ∧ D = x ++ D' ∧ Pending t D' ∧
      ((bodyStart (req ++ x)).isSome ∨ (req ++ x).length = reqMax ∨ D' = []) := by
  induction k generalizing req D s with
  | zero =>
    refine ⟨[], s, D, ?_, rfl, h, Or.inr (Or.inl ?_)⟩
    · rw [readHeadLoop, List.append_nil]
    · rw [List.append_nil]
      omega
  | succ k ih =>
    rw [readHeadLoop]
    by_cases hlt : req.length < reqMax
    · rw [if_pos hlt]
      by_cases hD : D = []
      · subst hD
        have hs : s = [] := by
          cases s with
          | nil => rfl
          | cons p s => exact absurd (List.append_eq_nil_iff.mp h.flatten).1 (h.steady p (by simp))
        subst hs
        exact ⟨[], [], [], by rw [List.append_nil]; rfl, rfl, h, Or.inr (Or.inr rfl)⟩
      · obtain ⟨x, t, hx, hne, hle, ⟨u, rfl⟩, ht⟩ := h.recv (n := reqMax - req.length) (by omega) hD
        rw [List.drop_left] at ht
        have hpos := List.length_pos_iff.mpr hne
        have hlength : (req ++ x).length = req.length + x.length := List.length_append
        rw [hx]
        cases x with
        | nil => exact absurd rfl hne
        | cons b x =>
          simp only
          by_cases hstart : (bodyStart (req ++ b :: x)).isSome
          · rw [if_pos hstart]
            exact ⟨b :: x, t, u, rfl, rfl, ht, Or.inl hstart⟩
          · rw [if_neg hstart]
            obtain ⟨y, v, D', hloop, rfl, hpend, hend⟩ :=
              @ih (req ++ b :: x) _ _ ht (by omega) (by omega)
            refine ⟨b :: x ++ y, v, D', ?_, by rw [List.append_assoc], hpend, ?_⟩
            · rw [hloop, List.append_assoc]
            · rwa [← List.append_assoc]
    · rw [if_neg hlt]
      refine ⟨[], s, D, by rw [List.append_nil], rfl, h, Or.inr (Or.inl ?_)⟩
      rw [List.append_nil]
      omega

/-! ## The first blank line -/

/-- The parts of a text that has a blank line. -/
theorem splitHead_eq_some {s head blank tail : Bytes} (h : splitHead s = some (head, blank, tail)) :
    s = head ++ blank ++ tail ∧ [lf] <:+ head ∧ (blank = [lf] ∨ blank = [cr, lf]) := by
  induction s generalizing head with
  | nil => exact absurd h (by simp [splitHead])
  | cons b s ih =>
    rw [splitHead] at h
    split at h
    next hfirst =>
      obtain ⟨rfl, hs⟩ := hfirst
      cases s with
      | nil => exact absurd hs (by simp)
      | cons x s =>
        simp only [List.head?_cons, Option.some.injEq] at hs
        subst hs
        simp only [Option.some.injEq, Prod.mk.injEq] at h
        obtain ⟨rfl, rfl, rfl⟩ := h
        exact ⟨rfl, List.suffix_rfl, Or.inl rfl⟩
    next =>
      split at h
      next hsecond =>
        obtain ⟨rfl, t, rfl⟩ := hsecond
        simp only [Option.some.injEq, Prod.mk.injEq] at h
        obtain ⟨rfl, rfl, rfl⟩ := h
        exact ⟨rfl, List.suffix_rfl, Or.inr rfl⟩
      next =>
        rw [Option.map_eq_some_iff] at h
        obtain ⟨⟨head', blank', tail'⟩, hrest, heq⟩ := h
        simp only [Prod.mk.injEq] at heq
        obtain ⟨rfl, rfl, rfl⟩ := heq
        obtain ⟨rfl, hsuffix, hblank⟩ := ih hrest
        exact ⟨rfl, hsuffix.trans (List.suffix_cons b head'), hblank⟩

/-- A text with a blank line in it has a first one. -/
theorem isSome_splitHead {u v : Bytes} (h : [lf, lf] <+: v ∨ [lf, cr, lf] <+: v) :
    (splitHead (u ++ v)).isSome := by
  induction u with
  | nil =>
    rcases h with ⟨t, rfl⟩ | ⟨t, rfl⟩
    · simp [splitHead]
    · simp [splitHead, lf, cr]
  | cons b u ih =>
    rw [List.cons_append, splitHead]
    split
    · rfl
    · split
      · rfl
      · rwa [Option.isSome_map]

/-- The parts stay where something else follows. -/
theorem splitHead_append {head blank tail : Bytes} {s : Bytes}
    (h : splitHead s = some (head, blank, tail)) (w : Bytes) :
    splitHead (head ++ blank ++ w) = some (head, blank, w) := by
  induction s generalizing head with
  | nil => exact absurd h (by simp [splitHead])
  | cons b s ih =>
    rw [splitHead] at h
    split at h
    next hfirst =>
      obtain ⟨rfl, -⟩ := hfirst
      simp only [Option.some.injEq, Prod.mk.injEq] at h
      obtain ⟨rfl, rfl, -⟩ := h
      simp [splitHead]
    next hfirst =>
      split at h
      next hsecond =>
        obtain ⟨rfl, -⟩ := hsecond
        simp only [Option.some.injEq, Prod.mk.injEq] at h
        obtain ⟨rfl, rfl, -⟩ := h
        simp [splitHead, lf, cr]
      next hsecond =>
        rw [Option.map_eq_some_iff] at h
        obtain ⟨⟨head', blank', tail'⟩, hrest, heq⟩ := h
        simp only [Prod.mk.injEq] at heq
        obtain ⟨rfl, rfl, rfl⟩ := heq
        obtain ⟨rfl, hsuffix, hblank⟩ := splitHead_eq_some hrest
        have hlength : 2 ≤ (head' ++ blank').length := by
          have hhead := hsuffix.length_le
          rw [List.length_append]
          rcases hblank with rfl | rfl
          · simpa using hhead
          · simp only [List.length_cons, List.length_nil] at hhead ⊢
            omega
        have hfirst' (t : Bytes) : (head' ++ blank' ++ t).head? = (head' ++ blank').head? :=
          List.head?_append_of_ne_nil _ (List.ne_nil_of_length_pos (by omega))
        have hsecond' (t : Bytes) : [cr, lf] <+: head' ++ blank' ++ t ↔ [cr, lf] <+: head' ++ blank' :=
          List.isPrefix_append_of_length hlength
        rw [hfirst', ← hfirst' w] at hfirst
        rw [hsecond', ← hsecond' w] at hsecond
        rw [List.cons_append, List.cons_append, splitHead, if_neg hfirst, if_neg hsecond, ih hrest,
          Option.map_some]

/-- Before the first blank line there is no other. -/
theorem splitHead_first {s head blank tail : Bytes} (h : splitHead s = some (head, blank, tail))
    {u v : Bytes} (hs : s = u ++ v) (hu : u.length + 1 < head.length) :
    ¬ [lf, lf] <+: v ∧ ¬ [lf, cr, lf] <+: v := by
  induction s generalizing head u with
  | nil => exact absurd h (by simp [splitHead])
  | cons b s ih =>
    rw [splitHead] at h
    split at h
    next =>
      simp only [Option.some.injEq, Prod.mk.injEq] at h
      rw [← h.1, List.length_singleton] at hu
      omega
    next hfirst =>
      split at h
      next =>
        simp only [Option.some.injEq, Prod.mk.injEq] at h
        rw [← h.1, List.length_singleton] at hu
        omega
      next hsecond =>
        rw [Option.map_eq_some_iff] at h
        obtain ⟨⟨head', blank', tail'⟩, hrest, heq⟩ := h
        simp only [Prod.mk.injEq] at heq
        obtain ⟨rfl, rfl, rfl⟩ := heq
        cases u with
        | nil =>
          rw [List.nil_append] at hs
          subst hs
          constructor
          · rw [List.cons_prefix_cons]
            rintro ⟨hb, t, rfl⟩
            exact hfirst ⟨hb.symm, rfl⟩
          · rw [List.cons_prefix_cons]
            rintro ⟨hb, ht⟩
            exact hsecond ⟨hb.symm, ht⟩
        | cons x u =>
          rw [List.cons_append, List.cons.injEq] at hs
          rw [List.length_cons, List.length_cons] at hu
          exact ih hrest hs.2 (by omega)

/-! ## Where the body starts -/

/-- What a C function sees of octets that begin without a NUL. -/
theorem octets_ofBytes_append {a : Bytes} (h : 0 ∉ a) (b : Bytes) :
    (CString.ofBytes (a ++ b)).octets = a ++ (CString.ofBytes b).octets := by
  apply List.takeWhile_append_of_pos
  intro x hx
  rw [decide_eq_true_eq]
  rintro rfl
  exact h hx

section BodyStart

variable {s head tail : Bytes} (w : Bytes)

/-- A blank line behind a line that ends in CR LF is found. -/
theorem bodyStart_crlf (h : splitHead s = some (head, [cr, lf], tail)) (hcr : [cr, lf] <:+ head)
    (hnul : 0 ∉ head) :
    bodyStart (head ++ [cr, lf] ++ w) = some (head ++ [cr, lf]).length := by
  obtain ⟨front, rfl⟩ := hcr
  have htext : (CString.ofBytes (front ++ [cr, lf] ++ [cr, lf] ++ w)).octets =
      front ++ ([cr, lf, cr, lf] ++ (CString.ofBytes w).octets) := by
    rw [octets_ofBytes_append, List.append_assoc, List.append_assoc]
    · rfl
    · simpa [cr, lf] using hnul
  have hfirst : strstr [cr, lf, cr, lf] (front ++ ([cr, lf, cr, lf] ++ (CString.ofBytes w).octets)) =
      some ([cr, lf, cr, lf] ++ (CString.ofBytes w).octets) := by
    apply strstr_append (List.prefix_append _ _) (List.cons_ne_nil _ _)
    rintro x y rfl hy hocc
    cases y with
    | nil => exact hy rfl
    | cons b y =>
      rw [List.cons_append, List.cons_prefix_cons] at hocc
      have hsplit := splitHead_append h (CString.ofBytes w).octets
      refine (splitHead_first hsplit (u := x ++ [b]) ?_ ?_).2 hocc.2
      · simp
      · simp only [List.length_append, List.length_cons, List.length_nil]
        omega
  rw [bodyStart, htext, hfirst]
  simp only [List.length_append, List.length_cons, List.length_nil, Option.some.injEq]
  omega

/-- An empty line behind a line that ends in LF is found, if no CR LF CR LF follows it. -/
theorem bodyStart_lf (h : splitHead s = some (head, [lf], tail)) (hnul : 0 ∉ head)
    (hnone : ¬ [cr, lf, cr, lf] <:+: (CString.ofBytes w).octets) :
    bodyStart (head ++ [lf] ++ w) = some (head ++ [lf]).length := by
  obtain ⟨-, ⟨front, rfl⟩, -⟩ := splitHead_eq_some h
  have hsplit := splitHead_append h (CString.ofBytes w).octets
  have htext : (CString.ofBytes (front ++ [lf] ++ [lf] ++ w)).octets =
      front ++ [lf] ++ [lf] ++ (CString.ofBytes w).octets := by
    apply octets_ofBytes_append
    simpa [lf] using hnul
  have hcrlf : strstr [cr, lf, cr, lf] (front ++ [lf] ++ [lf] ++ (CString.ofBytes w).octets) =
      none := by
    apply strstr_eq_none
    rintro ⟨u, v, huv⟩
    simp only [List.append_assoc, List.cons_append, List.nil_append] at huv
    rcases List.append_eq_append_iff.mp huv with ⟨a, rfl, ha⟩ | ⟨c, rfl, hc⟩
    · -- it starts before the two line ends
      match a, ha with
      | [], ha => exact absurd (List.cons.inj ha).1 (by decide)
      | [_], ha => exact absurd (List.cons.inj (List.cons.inj (List.cons.inj ha).2).2).1 (by decide)
      | x :: y :: a, ha =>
        refine (splitHead_first hsplit (u := u ++ [cr]) (v := lf :: cr :: lf :: v) ?_ ?_).2
          (List.prefix_append [lf, cr, lf] v)
        · simp [ha]
        · simp only [List.length_append, List.length_cons, List.length_nil]
          omega
    · match c, hc with
      | [], hc => exact absurd (List.cons.inj hc).1 (by decide)
      | [_], hc => exact absurd (List.cons.inj (List.cons.inj hc).2).1 (by decide)
      | _ :: _ :: c, hc => exact hnone ⟨c, v, by simpa using (List.cons.inj (List.cons.inj hc).2).2.symm⟩
  have hlf : strstr [lf, lf] (front ++ [lf] ++ [lf] ++ (CString.ofBytes w).octets) =
      some ([lf, lf] ++ (CString.ofBytes w).octets) := by
    have heq : front ++ [lf] ++ [lf] ++ (CString.ofBytes w).octets =
        front ++ ([lf, lf] ++ (CString.ofBytes w).octets) := by simp
    rw [heq]
    apply strstr_append (List.prefix_append _ _) (List.cons_ne_nil _ _)
    rintro x y rfl hy
    refine (splitHead_first hsplit (u := x) ?_ ?_).1
    · simp
    · have hpos := List.length_pos_iff.mpr hy
      simp only [List.length_append, List.length_singleton]
      omega
  rw [bodyStart, htext, hcrlf]
  simp only [hlf, Option.map_some, List.length_append, List.length_cons, List.length_nil,
    Option.some.injEq]
  omega

end BodyStart

/-- A body starts only where the text has a blank line. -/
theorem isSome_splitHead_of_bodyStart {req : Bytes} (h : (bodyStart req).isSome) :
    (splitHead req).isSome := by
  obtain ⟨z, hz⟩ : (CString.ofBytes req).octets <+: req := List.takeWhile_prefix _
  have hocc (needle : Bytes) (sep : Bytes) (hsep : strstr needle (CString.ofBytes req).octets = some sep) :
      ∃ u v, req = u ++ (needle ++ v) := by
    obtain ⟨⟨v, rfl⟩, u, hu⟩ := strstr_eq_some hsep
    exact ⟨u, v ++ z, by rw [← hz, ← hu]; simp⟩
  unfold bodyStart at h
  cases hcrlf : strstr [cr, lf, cr, lf] (CString.ofBytes req).octets with
  | some sep =>
    obtain ⟨u, v, rfl⟩ := hocc _ _ hcrlf
    have hsome := @isSome_splitHead (u ++ [cr]) ([lf, cr, lf] ++ v) (Or.inr (List.prefix_append _ _))
    simpa using hsome
  | none =>
    simp only [hcrlf, Option.isSome_map, Option.isSome_iff_exists] at h
    obtain ⟨sep, hlf⟩ := h
    obtain ⟨u, v, rfl⟩ := hocc _ _ hlf
    exact isSome_splitHead (Or.inl (List.prefix_append _ _))

/-! ## Lines -/

/-- The lines of a text that goes on behind a line end. -/
theorem strtokLines_append {a : Bytes} (h : [lf] <:+ a) (b : Bytes) :
    strtokLines (a ++ b) = strtokLines a ++ strtokLines b := by
  obtain ⟨front, rfl⟩ := h
  have hsplit (t : Bytes) : (front ++ lf :: t).splitOnP (· = lf) =
      front.splitOnP (· = lf) ++ t.splitOnP (· = lf) :=
    List.splitOnP_append_cons _ _ (by simp)
  have hend := hsplit []
  rw [strtokLines, List.append_assoc, List.singleton_append, hsplit, strtokLines, hend]
  simp [strtokLines]

section Header

variable {maxBody : ℕ}

/-- A line with none of the names changes no field. -/
theorem HttpFields.line_of_plain (f : HttpFields) {l : Bytes}
    (h : ∀ name ∈ fieldNames, startsFold name l = false) : f.line maxBody l = .ok f := by
  simp only [fieldNames, List.forall_mem_cons] at h
  obtain ⟨hlength, hsig, horigin, hcookie, hauth, -⟩ := h
  simp only [HttpFields.line, contentLength, fieldOf, hlength, hsig, horigin, hcookie, hauth,
    Bool.false_eq_true, if_false, Option.getD_none]

/-- Lines up to a blank one that change no field. -/
def PlainLines (ls : List Bytes) : Prop :=
  ∀ l ∈ (ls.map trimCrlf).takeWhile (· ≠ []), ∀ name ∈ fieldNames, startsFold name l = false

theorem headerLines_of_plain (f : HttpFields) {ls : List Bytes} (h : PlainLines ls) :
    headerLines maxBody f ls = .ok f := by
  induction ls with
  | nil => rfl
  | cons l ls ih =>
    rw [headerLines]
    by_cases hblank : trimCrlf l = []
    · simp only [hblank, if_true]
    · rw [PlainLines, List.map_cons, List.takeWhile_cons_of_pos (by simpa using hblank),
        List.forall_mem_cons] at h
      simp only [hblank, if_false, f.line_of_plain h.1]
      exact ih h.2

theorem headerLines_append (f : HttpFields) (ls : List Bytes) {rest : List Bytes}
    (h : PlainLines rest) :
    headerLines maxBody f (ls ++ rest) = headerLines maxBody f ls := by
  induction ls generalizing f with
  | nil => exact headerLines_of_plain f h
  | cons l ls ih =>
    rw [List.cons_append, headerLines, headerLines]
    split
    · rfl
    · cases f.line maxBody (trimCrlf l) with
      | ok f => exact ih f
      | error e => rfl

/-- Lines behind those of a head change no field, if the head has a line. -/
theorem fieldsOfLines_append {ls rest : List Bytes} (hls : ls = [] → rest = [])
    (h : PlainLines rest) : fieldsOfLines maxBody (ls ++ rest) = fieldsOfLines maxBody ls := by
  cases ls with
  | nil => rw [hls rfl, List.append_nil]
  | cons l ls => exact headerLines_append _ ls h

end Header

/-! ## The body buffer -/

theorem overwrite_append (a b x : Bytes) :
    overwrite (a ++ b) a.length x = a ++ x ++ b.drop x.length := by
  rw [overwrite, List.take_left, List.drop_length_add_append]

/-- The buffer holds the body if its prefix is copied and the rest arrives. -/
theorem take_fillBody {maxBody bodyLen : ℕ} {buf pre D : Bytes} {s : Socket} (hs : Pending s D)
    (hpos : 0 < bodyLen) (hpre : pre.length ≤ maxBody) (hD : bodyLen ≤ (pre ++ D).length) :
    (fillBody maxBody buf pre bodyLen s).take bodyLen = (pre ++ D).take bodyLen := by
  rw [List.length_append] at hD
  have hreceived : recvBody (bodyLen - min pre.length bodyLen) s =
      D.take (bodyLen - min pre.length bodyLen) := recvBody_eq_take hs (by omega)
  have hcopied : overwrite buf 0 pre =
      pre.take (min pre.length bodyLen) ++ (pre.drop (min pre.length bodyLen) ++
        buf.drop pre.length) := by
    rw [← List.append_assoc, List.take_append_drop]
    simp [overwrite]
  have hgot : (pre.take (min pre.length bodyLen)).length = min pre.length bodyLen := by
    rw [List.length_take]
    omega
  have hall : (pre.take (min pre.length bodyLen) ++
      D.take (bodyLen - min pre.length bodyLen)).length = bodyLen := by
    rw [List.length_append, hgot, List.length_take]
    omega
  have hbody : (pre ++ D).take bodyLen = pre.take (min pre.length bodyLen) ++
      D.take (bodyLen - min pre.length bodyLen) := by
    rw [List.take_append]
    congr 1
    · rw [List.take_eq_take_iff]
      omega
    · congr 1
      omega
  simp only [fillBody, if_pos hpre, if_pos hpos, hreceived, hcopied, hbody]
  generalize pre.take (min pre.length bodyLen) = a at hgot hall ⊢
  generalize D.take (bodyLen - min pre.length bodyLen) = x at hall ⊢
  rw [← hgot, overwrite_append, ← List.length_append, overwrite_append, List.append_assoc]
  exact List.take_left' hall

/-! ## Connections -/

namespace Connection

variable (c : Connection)

/-- What is read of the connection with its head. -/
def req : Bytes := (readHead c.pieces).1

/-- The head of its octets. -/
def head : Bytes := (headParts c.octets).1

/-- The blank line behind the head. -/
def blank : Bytes := (headParts c.octets).2.1

/-- What follows the blank line. -/
def tail : Bytes := (headParts c.octets).2.2

theorem readHead_pieces : ∃ rest D, readHead c.pieces = (c.req, rest) ∧ c.octets = c.req ++ D ∧
    Pending rest D ∧ ((bodyStart c.req).isSome ∨ c.req.length = reqMax ∨ D = []) := by
  obtain ⟨x, t, D, hread, hD, hpend, hend⟩ := @readHeadLoop_spec reqMax [] _ _
    (Pending.mk rfl c.steady) (Nat.zero_le _) (Nat.le_add_left _ _)
  have hreq : c.req = x := by rw [req, readHead, hread, List.nil_append]
  rw [List.nil_append, ← hreq] at hread hend
  exact ⟨t, D, hread, by rw [octets, hD, hreq], hpend, hend⟩

theorem parts : c.octets = c.head ++ c.blank ++ c.tail ∧
    ([lf] <:+ c.head ∨ c.blank = [] ∧ c.tail = []) := by
  unfold head blank tail headParts
  cases hsplit : splitHead c.octets with
  | none => exact ⟨by simp, Or.inr ⟨rfl, rfl⟩⟩
  | some p =>
    obtain ⟨heq, hsuffix, -⟩ := splitHead_eq_some hsplit
    exact ⟨heq, Or.inl hsuffix⟩

/-- What of the head and its blank line fits into the buffer is read. -/
theorem prefix_req {p : Bytes} (hp : p <+: c.head ++ c.blank) (hlength : p.length ≤ reqMax) :
    p <+: c.req := by
  obtain ⟨rest, D, -, hD, -, hend⟩ := c.readHead_pieces
  have hoctets : p <+: c.req ++ D := by
    rw [← hD, c.parts.1]
    exact hp.trans (List.prefix_append _ _)
  rcases hend with hstart | hfull | rfl
  · obtain ⟨⟨head, blank, tail⟩, hsplit⟩ :=
      Option.isSome_iff_exists.mp (isSome_splitHead_of_bodyStart hstart)
    obtain ⟨hreq, -, -⟩ := splitHead_eq_some hsplit
    have hparts : splitHead c.octets = some (head, blank, tail ++ D) := by
      rw [hD, hreq, List.append_assoc]
      exact splitHead_append hsplit _
    have hhead : c.head = head := by rw [Connection.head, headParts, hparts]; rfl
    have hblank : c.blank = blank := by rw [Connection.blank, headParts, hparts]; rfl
    rw [hhead, hblank] at hp
    rw [hreq]
    exact hp.trans (List.prefix_append _ _)
  · exact List.prefix_of_prefix_length_le hoctets (List.prefix_append _ _) (by omega)
  · rwa [List.append_nil] at hoctets

/-- The lines that are read behind those of the head. -/
def linesBehind : List Bytes :=
  (strtokLines (CString.ofBytes c.req).octets).drop
    (strtokLines (CString.ofBytes c.head).octets).length

/-- The octets behind the blank line that are read with the head. -/
def together : Bytes := c.req.drop (c.head ++ c.blank).length

/-- The lines of a head that is read begin those of what is read. -/
theorem strtokLines_req (h : c.head.length ≤ reqMax) :
    strtokLines (CString.ofBytes c.req).octets =
      strtokLines (CString.ofBytes c.head).octets ++ c.linesBehind := by
  obtain ⟨z, hz⟩ := c.prefix_req (List.prefix_append c.head c.blank) h
  have hprefix : strtokLines (CString.ofBytes c.head).octets <+:
      strtokLines (CString.ofBytes c.req).octets := by
    by_cases hnul : 0 ∈ c.head
    · have hcut : (CString.ofBytes c.req).octets = (CString.ofBytes c.head).octets := by
        simp only [CString.ofBytes, ← hz]
        rw [List.takeWhile_append, if_neg]
        intro hlength
        have hself := (List.takeWhile_prefix _).eq_of_length hlength
        exact (CString.octets_ofBytes.mp hself) hnul
      rw [hcut]
    · rw [← hz, octets_ofBytes_append hnul, CString.octets_ofBytes.mpr hnul]
      rcases c.parts.2 with hlf | ⟨hblank, htail⟩
      · rw [strtokLines_append hlf]
        exact List.prefix_append _ _
      · obtain ⟨rest, D, -, hD, -, -⟩ := c.readHead_pieces
        have hnil : z = [] := by
          have heq := c.parts.1
          rw [hblank, htail, List.append_nil, List.append_nil, hD, ← hz] at heq
          have hlength := congrArg List.length heq
          rw [List.length_append, List.length_append] at hlength
          exact List.eq_nil_of_length_eq_zero (by omega)
        rw [hnil]
        simp [CString.ofBytes]
  obtain ⟨ls, hls⟩ := hprefix
  rw [linesBehind, ← hls, List.drop_left]

/-- The body of a request is found: the head has no NUL and ends with its blank line in reach, in
CR LF twice or, with no such pair read behind it, in LF twice; what is read with the head fits
into the buffer, and the body arrives. -/
structure BodyFound (maxBody bodyLen : ℕ) : Prop where
  noNul : 0 ∉ c.head
  blank : c.blank = [cr, lf] ∧ [cr, lf] <:+ c.head ∨
    c.blank = [lf] ∧ ¬ [cr, lf, cr, lf] <:+: (CString.ofBytes c.together).octets
  reach : (c.head ++ c.blank).length ≤ reqMax
  fits : c.together.length ≤ maxBody
  arrives : bodyLen ≤ c.tail.length

/-- A request is taken as it is delivered: its head fits into the buffer, no field is read from the
lines behind it, and its body, if there is one, is found. -/
structure Whole (maxBody : ℕ) : Prop where
  reach : c.head.length ≤ reqMax
  line : strtokLines (CString.ofBytes c.head).octets = [] → c.linesBehind = []
  plain : PlainLines c.linesBehind
  body : ∀ f, httpFields maxBody c.head = .ok f → 0 < f.bodyLen → c.BodyFound maxBody f.bodyLen

variable {c} {maxBody : ℕ}

/-- The fields are those of the head. -/
theorem Whole.httpFields_req (h : c.Whole maxBody) :
    httpFields maxBody c.req = httpFields maxBody c.head := by
  rw [httpFields, httpFields, c.strtokLines_req h.reach]
  exact fieldsOfLines_append h.line h.plain

/-- What is taken for the beginning of the body is what is read behind the blank line. -/
theorem BodyFound.bodyPrefix_req {bodyLen : ℕ} (h : c.BodyFound maxBody bodyLen) :
    bodyPrefix c.req = c.together := by
  obtain ⟨z, hz⟩ := c.prefix_req (List.prefix_refl (c.head ++ c.blank)) h.reach
  have htogether : c.together = z := by rw [together, ← hz, List.drop_left]
  have hsplit : splitHead c.octets = some (c.head, c.blank, c.tail) := by
    have hne : c.blank ≠ [] := by
      rcases h.blank with ⟨hblank, -⟩ | ⟨hblank, -⟩ <;> simp [hblank]
    unfold Connection.head Connection.blank Connection.tail headParts at *
    cases hs : splitHead c.octets with
    | none => simp [hs] at hne
    | some p => rfl
  have hstart : bodyStart c.req = some (c.head ++ c.blank).length := by
    rcases h.blank with ⟨hblank, hcr⟩ | ⟨hblank, hnone⟩
    · rw [← hz, hblank]
      rw [hblank] at hsplit
      exact bodyStart_crlf z hsplit hcr h.noNul
    · rw [htogether] at hnone
      rw [← hz, hblank]
      rw [hblank] at hsplit
      exact bodyStart_lf z hsplit h.noNul hnone
  rw [bodyPrefix, hstart, together]

theorem BodyFound.tail_eq {bodyLen : ℕ} (h : c.BodyFound maxBody bodyLen) {D : Bytes}
    (hD : c.octets = c.req ++ D) : c.tail = c.together ++ D := by
  obtain ⟨z, hz⟩ := c.prefix_req (List.prefix_refl (c.head ++ c.blank)) h.reach
  have heq := c.parts.1
  rw [hD, ← hz, List.append_assoc] at heq
  rw [Connection.together, ← hz, List.drop_left]
  exact (List.append_cancel_left heq).symm

end Connection

theorem Connection.work_of_fields {c : Connection} {maxBody : ℕ} {f : HttpFields}
    (h : httpFields maxBody c.head = .ok f) :
    c.work maxBody =
      if f.bodyLen ≤ c.tail.length then some ⟨c.ip, f, c.tail.take f.bodyLen⟩ else none := by
  have hhead : httpFields maxBody (headParts c.octets).1 = .ok f := h
  simp only [Connection.work, hhead]
  rfl

/-- Where the request is taken as it is delivered, the work item is that of the connection. -/
theorem Connection.Whole.ownWork {c : Connection} {maxBody : ℕ} (h : c.Whole maxBody)
    (buf : Bytes) : OwnWork maxBody buf c := by
  obtain ⟨rest, D, hread, hD, hpend, -⟩ := c.readHead_pieces
  intro w hw
  simp only [acceptOne, hread, h.httpFields_req] at hw
  split at hw
  next => exact absurd hw (by simp)
  split at hw
  next => exact absurd hw (by simp)
  cases hfields : httpFields maxBody c.head with
  | error e =>
    simp only [hfields] at hw
    exact absurd hw (by simp)
  | ok f =>
    simp only [hfields] at hw
    split at hw
    next =>
      simp only [HttpOutcome.submitted.injEq] at hw
      subst hw
      rw [Connection.work_of_fields hfields]
      by_cases hpos : 0 < f.bodyLen
      · have hbody := h.body f hfields hpos
        have htail := hbody.tail_eq hD
        have harrives := hbody.arrives
        simp only [if_pos harrives]
        rw [htail] at harrives ⊢
        rw [hbody.bodyPrefix_req, take_fillBody hpend hpos hbody.fits harrives]
      · have hzero : f.bodyLen = 0 := by omega
        simp only [hzero, Nat.zero_le, if_true, List.take_zero]
    next => exact absurd hw (by simp)

/-- Every connection that is handed over has its request taken as it is delivered. -/
def Connection.Sound (maxBody : ℕ) (c : Connection) : Prop :=
  c.taken = true → scWsServerIsUpgrade c.req = false → c.Whole maxBody

theorem Connection.Sound.ownWork {c : Connection} {maxBody : ℕ} (h : c.Sound maxBody)
    (buf : Bytes) : OwnWork maxBody buf c := by
  by_cases htaken : c.taken = true
  · by_cases hupgrade : scWsServerIsUpgrade c.req = true
    · intro w hw
      rw [Connection.req] at hupgrade
      simp only [acceptOne, hupgrade, if_true] at hw
      split at hw <;> exact absurd hw (by simp)
    · exact (h htaken (by simpa using hupgrade)).ownWork buf
  · intro w hw
    simp only [acceptOne, htaken, Bool.false_eq_true, if_false] at hw
    split at hw
    next => exact absurd hw (by simp)
    split at hw
    next => exact absurd hw (by simp)
    split at hw <;> exact absurd hw (by simp)

/-- In the accept loop, every connection whose request is taken as it is delivered has only its own
work item submitted, whatever came before. -/
theorem gateway_requests_isolated (maxBody : ℕ) (buf : Bytes) (connections : List Connection) :
    Machine.EveryStep (acceptStep maxBody) (fun buf c => c.Sound maxBody → OwnWork maxBody buf c)
      buf connections := by
  induction connections generalizing buf with
  | nil => trivial
  | cons c connections ih => exact ⟨fun h => h.ownWork buf, fun buf' _ => ih buf'⟩

/-- A request with a body of six octets. -/
def postSecret : Connection where
  ip := ascii "10.0.0.1"
  pieces := [ascii "POST /a HTTP/1.1\r\nContent-Length: 6\r\n\r\n", ascii "secret"]
  steady := by decide
  taken := true

/-- A request that ends before its body. -/
def postCut : Connection where
  ip := ascii "10.0.0.2"
  pieces := [ascii "POST /b HTTP/1.1\r\nContent-Length: 6\r\n\r\n"]
  steady := by decide
  taken := true

/-- The second request is handed over with the body of the first, less one octet. -/
theorem gateway_leaks_body : ¬ Machine.EveryStep (acceptStep 16) (OwnWork 16)
    (List.replicate 17 0) [postSecret, postCut] := by
  intro h
  have hcut := (h.2 _ rfl).1
  have hsubmitted : (acceptOne 16 (acceptOne 16 (List.replicate 17 0) postSecret).2 postCut).1 =
      .submitted ⟨ascii "10.0.0.2", ⟨ascii "POST", ascii "/b", 6, [], [], [], []⟩,
        0 :: ascii "ecret"⟩ := by decide
  have hnone : postCut.work 16 = none := by decide
  have hsome := hcut _ hsubmitted
  rw [hnone] at hsome
  exact absurd hsome (by simp)

end SeaClaw.Gateway
