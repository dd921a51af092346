import SeaClaw.Net.IpText

/-!
# Which private addresses are recognised

Every standard text of an address whose range is not global is recognised, except those that
write an IPv6 address with a dotted quad and either leave nothing out or embed an IPv4
address: the reader of groups stops at the first dot of the quad.
-/

namespace SeaClaw.Net

open SeaClaw.Lib

/-! ## The octets of an address -/

/-- The octets that an IPv6 text consists of. -/
def InAddress (b : UInt8) : Prop := isHexDigit b = true ∨ b = ch ':' ∨ b = ch '.'

theorem InAddress.plain {b : UInt8} (h : InAddress b) : b ≠ ch '%' ∧ b ≠ ch '[' := by
  rcases h with h | rfl | rfl
  · exact ⟨(hexDigit_ne_colon b h).2.1, (hexDigit_ne_colon b h).2.2.1⟩
  · decide
  · decide

theorem inAddress_of_mem_joinColon {ps : List Bytes} (hps : ∀ p ∈ ps, ∀ b ∈ p, InAddress b) :
    ∀ b ∈ joinColon ps, InAddress b := by
  induction ps with
  | nil => simp [joinColon]
  | cons p ps ih =>
    rw [List.forall_mem_cons] at hps
    cases ps with
    | nil => exact hps.1
    | cons q ps =>
      intro b hb
      rw [joinColon, List.mem_append, List.mem_cons] at hb
      rcases hb with hb | rfl | hb
      · exact hps.1 b hb
      · exact Or.inr (Or.inl rfl)
      · exact ih hps.2 b hb

theorem inAddress_of_mem_parts {groups : List Hextet} {quad : Option DottedQuad} :
    ∀ p ∈ parts groups quad, ∀ b ∈ p, InAddress b := by
  intro p hp b hb
  rw [parts, List.mem_append, List.mem_map, List.mem_map] at hp
  rcases hp with ⟨g, -, rfl⟩ | ⟨q, -, rfl⟩
  · exact Or.inl (g.hex b hb)
  · rcases DottedQuad.mem_text hb with h | h
    · exact Or.inl (isHexDigit_of_isDigit b h)
    · exact Or.inr (Or.inr h)

theorem Ipv6Text.inAddress (t : Ipv6Text) : ∀ b ∈ t.text, InAddress b := by
  cases t with
  | full groups quad h => exact inAddress_of_mem_joinColon inAddress_of_mem_parts
  | compressed front back quad h =>
    intro b hb
    rw [Ipv6Text.text, List.mem_append, List.mem_append] at hb
    rcases hb with (hb | hb) | hb
    · exact inAddress_of_mem_joinColon inAddress_of_mem_parts b hb
    · have hc : ascii "::" = [ch ':', ch ':'] := rfl
      rw [hc] at hb
      exact Or.inr (Or.inl (by simpa using hb))
    · exact inAddress_of_mem_joinColon inAddress_of_mem_parts b hb

/-! ## Lengths -/

theorem length_joinColon (ps : List Bytes) :
    (joinColon ps).length ≤ (ps.map fun p => p.length + 1).sum := by
  induction ps with
  | nil => simp [joinColon]
  | cons p ps ih =>
    cases ps with
    | nil => simp [joinColon]
    | cons q ps =>
      rw [joinColon, List.length_append, List.length_cons, List.map_cons, List.sum_cons]
      omega

theorem DottedQuad.length_text (q : DottedQuad) : q.text.length ≤ 15 := by
  have ha := (fmtNat_octet q.a).1
  have hb := (fmtNat_octet q.b).1
  have hc := (fmtNat_octet q.c).1
  have hd := (fmtNat_octet q.d).1
  simp only [DottedQuad.text, List.length_append, List.length_cons]
  omega

theorem length_joinColon_parts (groups : List Hextet) (quad : Option DottedQuad) :
    (joinColon (parts groups quad)).length ≤ 5 * groups.length + 8 * quadWidth quad := by
  refine (length_joinColon _).trans ?_
  rw [parts, List.map_append, List.sum_append]
  have hg : ((groups.map Hextet.digits).map fun p => p.length + 1).sum ≤ 5 * groups.length := by
    induction groups with
    | nil => simp
    | cons g groups ih =>
      have := g.short
      simp only [List.map_cons, List.sum_cons, List.length_cons]
      omega
  have hq : ((quad.toList.map DottedQuad.text).map fun p => p.length + 1).sum ≤
      8 * quadWidth quad := by
    cases quad with
    | none => simp [quadWidth]
    | some q =>
      have := q.length_text
      simp [quadWidth]
      omega
  omega

theorem quadWidth_le (quad : Option DottedQuad) : quadWidth quad ≤ 2 := by
  cases quad <;> simp [quadWidth]

theorem Ipv6Text.length_text (t : Ipv6Text) : t.text.length < 64 := by
  cases t with
  | full groups quad h =>
    have hlen := length_joinColon_parts groups quad
    have hw := quadWidth_le quad
    rw [Ipv6Text.text]
    omega
  | compressed front back quad h =>
    have hf := length_joinColon_parts front none
    have hb := length_joinColon_parts back quad
    have hw := quadWidth_le quad
    rw [Ipv6Text.text, List.length_append, List.length_append]
    simp only [show (ascii "::").length = 2 from rfl]
    have hzero : quadWidth none = 0 := rfl
    omega

/-! ## Not an IPv4 address -/

/-- There is a colon before any dot. -/
theorem Ipv6Text.colon_first (t : Ipv6Text) :
    ∃ u v, t.text = u ++ ch ':' :: v ∧ ch '.' ∉ u := by
  have hdot : ∀ g : Hextet, ch '.' ∉ g.digits := fun g h =>
    (hexDigit_ne_colon _ (g.hex _ h)).2.2.2 rfl
  cases t with
  | full groups quad h =>
    rcases groups with _ | ⟨g, _ | ⟨g', groups⟩⟩
    · cases quad <;> simp [quadWidth] at h
    · cases quad <;> simp [quadWidth] at h
    · exact ⟨g.digits, _, rfl, hdot g⟩
  | compressed front back quad h =>
    rcases front with _ | ⟨g, _ | ⟨g', front⟩⟩
    · exact ⟨[], _, rfl, List.not_mem_nil⟩
    · exact ⟨g.digits, ch ':' :: joinColon (parts back quad), by
        simp [Ipv6Text.text, parts, joinColon, ascii], hdot g⟩
    · exact ⟨g.digits, joinColon (parts (g' :: front) none) ++ ascii "::" ++
        joinColon (parts back quad), by simp [Ipv6Text.text, parts, joinColon], hdot g⟩

theorem decLoop_colon (v : ℕ) (u w : Bytes) : decLoop v (u ++ ch ':' :: w) = none := by
  induction u generalizing v with
  | nil => rfl
  | cons b u ih =>
    rw [List.cons_append, decLoop]
    split_ifs
    · exact ih _
    · rfl

theorem Ipv6Text.parseIpv4 (t : Ipv6Text) : parseIpv4 t.text = none := by
  obtain ⟨u, v, htext, hu⟩ := t.colon_first
  have htake : t.text.takeWhile (· ≠ ch '.') =
      u ++ ch ':' :: v.takeWhile (· ≠ ch '.') := by
    rw [htext, List.takeWhile_append_of_pos, List.takeWhile_cons_of_pos (by decide)]
    intro b hb
    rw [decide_eq_true_eq]
    rintro rfl
    exact hu hb
  rw [Net.parseIpv4, parseIpv4Loop]
  simp only [htake, decLoop_colon, Option.bind_none, ite_self]

/-! ## What is read -/

theorem length_readValues (groups : List Hextet) (quad : Option DottedQuad) :
    (readValues groups quad).length = groups.length + if quad.isSome then 1 else 0 := by
  cases quad <;> simp [readValues]

theorem length_parts (groups : List Hextet) (quad : Option DottedQuad) :
    (parts groups quad).length = groups.length + if quad.isSome then 1 else 0 := by
  cases quad <;> simp [parts]

theorem quadsLoop_parts {groups : List Hextet} {quad : Option DottedQuad}
    (h : groups.length + quadWidth quad ≤ 8) :
    quadsLoop 8 (joinColon (parts groups quad)) = some (readValues groups quad) := by
  rw [quadsLoop_joinColon fun p hp => part_of_mem_parts hp, mapM_parts]
  rw [length_parts]
  cases quad <;> simp [quadWidth] at h ⊢ <;> omega

/-- What the reader makes of a text: all its groups must be there, and a quad counts as one
group. -/
def Ipv6Text.read : Ipv6Text → Option Segs
  | .full groups none _ => some (place (readValues groups none) [])
  | .full _ (some _) _ => none
  | .compressed front back quad _ => some (place (readValues front none) (readValues back quad))

theorem Ipv6Text.parseGroups (t : Ipv6Text) : parseGroups t.text = t.read := by
  cases t with
  | full groups quad h =>
    have hparts : ∀ p ∈ parts groups quad, Part p := fun p hp => part_of_mem_parts hp
    have hnone := strstr_joinColon hparts []
    rw [List.append_nil] at hnone
    rw [Net.parseGroups, Ipv6Text.text, hnone]
    simp only [show strstr (ascii "::") [] = none from rfl, quadsLoop_parts h.le,
      Option.bind_some, length_readValues]
    cases quad with
    | none =>
      have h8 : groups.length = 8 := by simpa [quadWidth] using h
      simp [h8, Ipv6Text.read]
    | some q =>
      have h6 : groups.length = 6 := by
        simp [quadWidth] at h
        omega
      simp [h6, Ipv6Text.read]
  | compressed front back quad h =>
    have hfront : ∀ p ∈ parts front none, Part p := fun p hp => part_of_mem_parts hp
    have htext : Ipv6Text.text (.compressed front back quad h) =
        joinColon (parts front none) ++ (ascii "::" ++ joinColon (parts back quad)) := by
      rw [Ipv6Text.text, List.append_assoc]
    have hfind : strstr (ascii "::") (ascii "::" ++ joinColon (parts back quad)) =
        some (ascii "::" ++ joinColon (parts back quad)) := by
      rw [show ascii "::" ++ joinColon (parts back quad) =
        ch ':' :: (ch ':' :: joinColon (parts back quad)) from rfl, strstr, if_pos]
      rw [List.isPrefixOf_iff_prefix]
      exact ⟨joinColon (parts back quad), rfl⟩
    have hdrop : (joinColon (parts back quad)).dropWhile (· = ch ':') =
        joinColon (parts back quad) := by
      cases hp : parts back quad with
      | nil => rfl
      | cons p ps =>
        have hpart : Part p := part_of_mem_parts (by rw [hp]; exact List.mem_cons_self)
        cases ps with
        | nil =>
          have := hpart.dropWhile_colon []
          rwa [List.append_nil] at this
        | cons q ps => exact hpart.dropWhile_colon _
    rw [Net.parseGroups, htext, strstr_joinColon hfront, hfind]
    simp only [List.length_append, Nat.add_sub_cancel, List.take_left]
    rw [show (ascii "::" ++ joinColon (parts back quad)).drop 2 = joinColon (parts back quad)
      from rfl, hdrop, quadsLoop_parts (by simp [quadWidth]; omega), quadsLoop_parts (by omega)]
    rfl

/-- Brackets and zone are gone when the groups are read. -/
theorem parseIpv6_eq {s : Bytes} (hne : s ≠ []) (hs : ∀ b ∈ s, InAddress b) :
    parseIpv6 s = Net.parseGroups s := by
  have hbracket : s.head? ≠ some (ch '[') := by
    intro hh
    exact (hs _ (List.mem_of_head? hh)).plain.2 rfl
  have hzone : s.takeWhile (· ≠ ch '%') = s := by
    rw [List.takeWhile_eq_self_iff]
    intro b hb
    simpa using (hs b hb).plain.1
  have hlen : s.length ≠ 0 := fun h => hne (List.length_eq_zero_iff.mp h)
  rw [parseIpv6, if_neg hne]
  simp only [hbracket, false_and, if_false, List.take_length, hzone, hlen]
  split_ifs with h1 h2
  · rw [h1]
    rfl
  · rw [h2]
    rfl
  · rfl

/-! ## What a misread quad changes -/

/-- With one group in the place of two, the groups behind the gap stand one place later. -/
theorem place_quad {F B : List ℕ} (x y m : ℕ) (h : F.length + B.length ≤ 5) :
    place F (B ++ [m]) 0 = place F (B ++ [x, y]) 0 ∧
    (place F (B ++ [x, y]) 0 ≠ 0 → place F (B ++ [m]) 1 = place F (B ++ [x, y]) 1) ∧
    place F (B ++ [m]) 6 = place F (B ++ [x, y]) 5 ∧ place F (B ++ [m]) 7 = m ∧
    place F (B ++ [x, y]) 6 = x ∧ place F (B ++ [x, y]) 7 = y ∧
    ((∀ i : Fin 8, i.val ≤ 4 → place F (B ++ [x, y]) i = 0) →
      ∀ i : Fin 8, i.val ≤ 5 → place F (B ++ [m]) i = 0) := by
  have hF : ∀ i, 5 ≤ i + B.length → F[i]?.getD 0 = 0 := by
    intro i hi
    rw [List.getElem?_eq_none (by omega), Option.getD_none]
  have h0 := hF 0
  have h1 := hF 1
  have h2 := hF 2
  have h3 := hF 3
  have h4 := hF 4
  have h5 := hF 5
  have h6 := hF 6
  rcases B with _ | ⟨b1, _ | ⟨b2, _ | ⟨b3, _ | ⟨b4, _ | ⟨b5, _ | ⟨b6, B⟩⟩⟩⟩⟩⟩
  any_goals simp only [List.length_cons, List.length_nil] at h h0 h1 h2 h3 h4 h5 h6
  case cons.cons.cons.cons.cons.cons => omega
  all_goals
    simp [place, Fin.forall_fin_succ]
    omega

/-- The address embeds an IPv4 address. -/
def Mapped (segs : Segs) : Prop :=
  (∀ i : Fin 8, i.val ≤ 4 → segs i = 0) ∧ ∀ i : Fin 8, i.val = 5 → segs i = 0xFFFF

theorem ite_true_left_iff {p : Prop} [Decidable p] {b : Bool} :
    (if p then true else b) = true ↔ p ∨ b = true := by
  by_cases h : p <;> simp [h]

theorem ite_false_right_iff {p : Prop} [Decidable p] {b : Bool} :
    (if p then b else false) = true ↔ p ∧ b = true := by
  by_cases h : p <;> simp [h]

/-- The ranges that are not global. -/
theorem isNonGlobalV6_iff (segs : Segs) : isNonGlobalV6 segs = true ↔
    ((∀ i : Fin 8, i.val ≤ 6 → segs i = 0) ∧ (segs 7 = 0 ∨ segs 7 = 1)) ∨
    (segs 0 &&& 0xFF00 = 0xFF00 ∨ segs 0 &&& 0xFE00 = 0xFC00 ∨ segs 0 &&& 0xFFC0 = 0xFE80) ∨
    (segs 0 = 0x2001 ∧ segs 1 = 0x0DB8) ∨
    (Mapped segs ∧ isNonGlobalV4
      [segs 6 >>> 8 % 256, segs 6 &&& 0xFF, segs 7 >>> 8 % 256, segs 7 &&& 0xFF] = true) := by
  have h4 : (∀ i : Fin 8, i.val ≤ 4 → segs i = 0) ↔
      segs 0 = 0 ∧ segs 1 = 0 ∧ segs 2 = 0 ∧ segs 3 = 0 ∧ segs 4 = 0 := by
    simp [Fin.forall_fin_succ]
  have h6 : (∀ i : Fin 8, i.val ≤ 6 → segs i = 0) ↔
      segs 0 = 0 ∧ segs 1 = 0 ∧ segs 2 = 0 ∧ segs 3 = 0 ∧ segs 4 = 0 ∧ segs 5 = 0 ∧
        segs 6 = 0 := by
    simp [Fin.forall_fin_succ]
  have h5 : (∀ i : Fin 8, i.val = 5 → segs i = 0xFFFF) ↔ segs 5 = 0xFFFF := by
    simp [Fin.forall_fin_succ]
  rw [Mapped, h4, h5, h6, isNonGlobalV6]
  simp only [ite_true_left_iff, ite_false_right_iff]
  constructor
  · rintro (⟨a, b, c, d, e, f, g, h⟩ | ⟨a, b, c, d, e, f, g, h⟩ | hm | hm | hm | hdoc |
      ⟨⟨a, b, c, d, e, f⟩, hv⟩)
    · exact Or.inl ⟨⟨a, b, c, d, e, f, g⟩, Or.inr h⟩
    · exact Or.inl ⟨⟨a, b, c, d, e, f, g⟩, Or.inl h⟩
    · exact Or.inr (Or.inl (Or.inl hm))
    · exact Or.inr (Or.inl (Or.inr (Or.inl hm)))
    · exact Or.inr (Or.inl (Or.inr (Or.inr hm)))
    · exact Or.inr (Or.inr (Or.inl hdoc))
    · exact Or.inr (Or.inr (Or.inr ⟨⟨⟨a, b, c, d, e⟩, f⟩, hv⟩))
  · rintro (⟨⟨a, b, c, d, e, f, g⟩, h | h⟩ | (hm | hm | hm) | hdoc | ⟨⟨⟨a, b, c, d, e⟩, f⟩, hv⟩)
    · exact Or.inr (Or.inl ⟨a, b, c, d, e, f, g, h⟩)
    · exact Or.inl ⟨a, b, c, d, e, f, g, h⟩
    · exact Or.inr (Or.inr (Or.inl hm))
    · exact Or.inr (Or.inr (Or.inr (Or.inl hm)))
    · exact Or.inr (Or.inr (Or.inr (Or.inr (Or.inl hm))))
    · exact Or.inr (Or.inr (Or.inr (Or.inr (Or.inr (Or.inl hdoc)))))
    · exact Or.inr (Or.inr (Or.inr (Or.inr (Or.inr (Or.inr ⟨⟨a, b, c, d, e, f⟩, hv⟩)))))

/-- Writing a private address with a dotted quad and `::` hides it exactly when it is the
embedded IPv4 address that makes it private. -/
theorem isNonGlobalV6_misread {F B : List ℕ} {q : DottedQuad} (h : F.length + B.length ≤ 5)
    (hn : isNonGlobalV6 (place F (B ++ q.groups)) = true) :
    isNonGlobalV6 (place F (B ++ [q.misread])) = true ↔ ¬ Mapped (place F (B ++ q.groups)) := by
  obtain ⟨h0, h1, h6, h7, hx, hy, hz⟩ := place_quad (q.a.toNat * 256 + q.b.toNat)
    (q.c.toNat * 256 + q.d.toNat) q.misread h
  rw [← DottedQuad.groups] at h0 h1 h6 hx hy hz
  generalize place F (B ++ q.groups) = V at *
  generalize place F (B ++ [q.misread]) = M at *
  have h255 : ∀ x, 0 &&& x = 0 := Nat.zero_and
  constructor
  · intro hm hmap
    have hM := hz hmap.1
    rw [isNonGlobalV6_iff] at hm
    rcases hm with ⟨hall, -⟩ | hm | hm | ⟨⟨-, h5⟩, -⟩
    · have := hall 6 (by decide)
      rw [h6, hmap.2 5 rfl] at this
      exact absurd this (by decide)
    · rw [hM 0 (by decide), h255, h255, h255] at hm
      exact absurd hm (by decide)
    · rw [hM 0 (by decide)] at hm
      exact absurd hm.1 (by decide)
    · have hfive := h5 5 rfl
      rw [hM 5 (by decide)] at hfive
      exact absurd hfive (by decide)
  · intro hmap
    rw [isNonGlobalV6_iff] at hn ⊢
    rcases hn with ⟨hall, hlast⟩ | hn | hn | ⟨hyes, -⟩
    · -- the address is `::` or `::1`, so that the first octet of the quad is zero
      have hM := hz fun i hi => hall i (by omega)
      have ha : q.a = 0 := by
        have hzero := hall 6 (by decide)
        rw [hx] at hzero
        rw [← UInt8.toNat_inj]
        simp
        omega
      have hmis : q.misread = 0 := by
        rw [DottedQuad.misread, ha]
        decide
      refine Or.inl ⟨?_, Or.inl (h7.trans hmis)⟩
      intro i hi
      by_cases hi6 : i.val ≤ 5
      · exact hM i hi6
      · have : i = 6 := by
          apply Fin.ext
          simp
          omega
        rw [this, h6]
        exact hall 5 (by decide)
    · rw [← h0] at hn
      exact Or.inr (Or.inl hn)
    · have hne : V 0 ≠ 0 := by
        rw [hn.1]
        decide
      exact Or.inr (Or.inr (Or.inl ⟨h0.trans hn.1, (h1 hne).trans hn.2⟩))
    · exact absurd hyes hmap

/-! ## What is made of an IPv6 text -/

/-- The text is written in a way that the reader of groups does not follow. -/
def IpText.Misread : IpText → Prop
  | .v6 (.full _ (some _) _) _ _ => True
  | .v6 (.compressed front back (some q) h) _ _ =>
    Mapped (Ipv6Text.value (.compressed front back (some q) h))
  | _ => False

theorem Ipv6Text.text_ne_nil (t : Ipv6Text) : t.text ≠ [] := by
  obtain ⟨u, v, htext, -⟩ := t.colon_first
  simp [htext]

/-- Brackets and zone are stripped. -/
theorem bare_v6 (address : Ipv6Text) (brackets : Bool) (zone : Option CString) :
    (stripBrackets (IpText.text (.v6 address brackets zone))).takeWhile (· ≠ ch '%') =
      address.text := by
  have hbare : stripBrackets (IpText.text (.v6 address brackets zone)) =
      address.text ++ zoneText zone := by
    cases brackets with
    | false =>
      rw [IpText.text, if_neg (by simp), stripBrackets, if_neg]
      rintro ⟨-, hhead, -⟩
      obtain ⟨b, s, hs⟩ := List.exists_cons_of_ne_nil address.text_ne_nil
      have hb := (address.inAddress b (by simp [hs])).plain.2
      rw [hs, List.cons_append, List.head?_cons, Option.some.injEq] at hhead
      exact hb hhead
    | true =>
      rw [IpText.text, if_pos rfl, stripBrackets, if_pos]
      · have hlen : (ch '[' :: (address.text ++ zoneText zone ++ [ch ']'])).length - 2 =
            (address.text ++ zoneText zone).length := by
          simp
        rw [hlen, List.drop_succ_cons, List.drop_zero, List.take_left]
      · refine ⟨?_, rfl, ?_⟩
        · simp
          omega
        rw [← List.cons_append, List.getLast?_concat]
  have hall : ∀ b ∈ address.text, decide (b ≠ ch '%') = true := fun b hb =>
    decide_eq_true (address.inAddress b hb).plain.1
  rw [hbare, List.takeWhile_append_of_pos hall]
  cases zone with
  | none => simp [zoneText]
  | some z => rw [zoneText, List.takeWhile_cons_of_neg (by simp), List.append_nil]

/-- What is made of an IPv6 address. -/
theorem scIsPrivateIp_v6 (address : Ipv6Text) (brackets : Bool) (zone : Option CString) :
    scIsPrivateIp (some (IpText.text (.v6 address brackets zone))) =
      (isLocalhostName address.text || (address.read.map isNonGlobalV6).getD false) := by
  have hne : IpText.text (.v6 address brackets zone) ≠ [] := by
    cases brackets <;> simp [IpText.text, address.text_ne_nil]
  have hlen : address.text.length ≠ 0 := fun h =>
    address.text_ne_nil (List.length_eq_zero_iff.mp h)
  simp only [scIsPrivateIp, if_neg hne, bare_v6, if_neg hlen, if_pos address.length_text,
    address.parseIpv4, parseIpv6_eq address.text_ne_nil address.inAddress, address.parseGroups]
  cases isLocalhostName address.text <;> cases address.read <;> rfl

/-- The values of the groups as they are placed. -/
theorem place_eq {F B : List ℕ} (h : F.length + B.length ≤ 8) : place F B =
    fun i => (F ++ List.replicate (8 - F.length - B.length) 0 ++ B).getD i 0 := by
  funext i
  have hi := i.isLt
  rw [place]
  split_ifs with hb
  · have hlen : (F ++ List.replicate (8 - F.length - B.length) 0).length = 8 - B.length := by
      simp
      omega
    rw [List.getD_eq_getElem?_getD, List.getD_eq_getElem?_getD,
      List.getElem?_append_right (by omega), hlen]
  · rw [List.getD_eq_getElem?_getD, List.getD_eq_getElem?_getD,
      List.getElem?_append_left (by simp; omega)]
    by_cases hF : i.val < F.length
    · rw [List.getElem?_append_left hF]
    · rw [List.getElem?_append_right (by omega), List.getElem?_eq_none (Nat.le_of_not_lt hF),
        List.getElem?_replicate]
      split_ifs <;> rfl

theorem readValues_none (groups : List Hextet) : readValues groups none = values groups none := rfl

/-- Without a quad, or with one that is not misread, the groups are those of the address. -/
theorem isNonGlobalV6_read {t : Ipv6Text} (hn : isNonGlobalV6 t.value = true)
    (brackets : Bool) (zone : Option CString) :
    (t.read.map isNonGlobalV6).getD false = true ↔ ¬ IpText.Misread (.v6 t brackets zone) := by
  cases t with
  | full groups quad h =>
    cases quad with
    | none =>
      have hvalue : place (readValues groups none) [] = Ipv6Text.value (.full groups none h) := by
        funext i
        have hi := i.isLt
        rw [place, if_neg (by simp), Ipv6Text.value, readValues_none]
      simp only [Ipv6Text.read, hvalue, Option.map_some, Option.getD_some, hn, IpText.Misread,
        not_false_eq_true]
    | some q => simp [Ipv6Text.read, IpText.Misread]
  | compressed front back quad h =>
    have hlen : ∀ groups : List Hextet, (values groups none).length = groups.length := by
      intro groups
      simp [values]
    have hvalue : Ipv6Text.value (.compressed front back quad h) =
        place (values front none) (values back quad) := by
      rw [place_eq, Ipv6Text.value]
      cases quad with
      | none =>
        rw [hlen, hlen]
        omega
      | some q =>
        have hq : (values back (some q)).length = back.length + 2 := by
          simp [values, DottedQuad.groups]
        simp only [quadWidth, Option.isSome_some, if_true] at h
        rw [hlen, hq]
        omega
    cases quad with
    | none =>
      simp only [Ipv6Text.read, readValues_none, ← hvalue, Option.map_some, Option.getD_some, hn,
        IpText.Misread, not_false_eq_true]
    | some q =>
      have hback : values back (some q) = back.map Hextet.value ++ q.groups := rfl
      have hread : readValues back (some q) = back.map Hextet.value ++ [q.misread] := rfl
      rw [hvalue, hback] at hn
      simp only [Ipv6Text.read, readValues_none, hread, Option.map_some, Option.getD_some,
        IpText.Misread, hvalue, hback]
      refine isNonGlobalV6_misread ?_ hn
      simp only [quadWidth, Option.isSome_some, if_true] at h
      rw [hlen, List.length_map]
      omega

/-! ## Dotted quads -/

/-- The octets of a decimal number, none of them a dot. -/
theorem DottedQuad.digits (b : UInt8) :
    (∀ x ∈ fmtNat b.toNat, decide (x ≠ ch '.') = true) ∧ fmtNat b.toNat ≠ [] ∧
      decLoop 0 (fmtNat b.toNat) = some b.toNat := by
  obtain ⟨-, hne, hall, hval⟩ := fmtNat_octet b
  refine ⟨fun x hx => decide_eq_true ?_, hne, hval⟩
  exact (hexDigit_ne_colon x (isHexDigit_of_isDigit x (List.all_eq_true.mp hall x hx))).2.2.2

/-- One octet is read, and then what stands behind the dot. -/
theorem parseIpv4Loop_octet (n : ℕ) (b : UInt8) (r : Bytes) :
    parseIpv4Loop (n + 2) (fmtNat b.toNat ++ ch '.' :: r) =
      (parseIpv4Loop (n + 1) r).map (b.toNat :: ·) := by
  obtain ⟨hdot, hne, hval⟩ := DottedQuad.digits b
  have hb : ¬ b.toNat > 255 := by
    have := b.toNat_lt
    omega
  rw [parseIpv4Loop, List.takeWhile_append_of_pos hdot, List.dropWhile_append_of_pos hdot,
    List.takeWhile_cons_of_neg (by simp), List.dropWhile_cons_of_neg (by simp), List.append_nil]
  simp only [hne, hval, Option.bind_some, if_false, if_neg hb, Nat.succ_ne_zero]

theorem parseIpv4Loop_last (b : UInt8) : parseIpv4Loop 1 (fmtNat b.toNat) = some [b.toNat] := by
  obtain ⟨hdot, hne, hval⟩ := DottedQuad.digits b
  have hb : ¬ b.toNat > 255 := by
    have := b.toNat_lt
    omega
  rw [parseIpv4Loop, List.takeWhile_eq_self_iff.mpr hdot]
  simp only [hne, hval, Option.bind_some, if_false, if_neg hb, if_true]

theorem DottedQuad.parseIpv4 (q : DottedQuad) : parseIpv4 q.text = some q.octets := by
  rw [Net.parseIpv4, DottedQuad.text, parseIpv4Loop_octet, parseIpv4Loop_octet,
    parseIpv4Loop_octet, parseIpv4Loop_last]
  rfl

/-- A text that ends in a quad is no name of this host. -/
theorem DottedQuad.isLocalhostName (q : DottedQuad) (u : Bytes) :
    isLocalhostName (u ++ q.text) = false := by
  obtain ⟨-, hne, hall, -⟩ := fmtNat_octet q.d
  have hlast : (u ++ q.text).getLast? = some ((fmtNat q.d.toNat).getLast hne) := by
    rw [DottedQuad.text]
    simp only [List.getLast?_append, List.getLast?_cons, List.getLast?_eq_some_getLast hne,
      Option.getD_some, Option.some_or]
  have hdigit := List.all_eq_true.mp hall _ (List.getLast_mem hne)
  have hletter : ∀ x, isDigit x = true → toLower x ≠ ch 't' ∧ toLower x ≠ ch 'l' := by
    intro x hx
    have hhigh : x.toNat ≤ 0x39 := UInt8.le_iff_toNat_le.mp ((isDigit_iff x).mp hx).2
    have hlower : toLower x = x := by
      rw [toLower, if_neg]
      rintro ⟨hlow, -⟩
      have hupper : 0x41 ≤ x.toNat := UInt8.le_iff_toNat_le.mp hlow
      omega
    rw [hlower]
    constructor
    · rintro rfl
      exact absurd hhigh (by decide)
    · rintro rfl
      exact absurd hhigh (by decide)
  cases hlocal : Net.isLocalhostName (u ++ q.text) with
  | false => rfl
  | true =>
    obtain ⟨b, hb, hl⟩ := isLocalhostName_last hlocal
    rw [hlast, Option.some.injEq] at hb
    rw [← hb] at hl
    rcases hl with hl | hl
    · exact absurd hl (hletter _ hdigit).1
    · exact absurd hl (hletter _ hdigit).2

/-- What is made of a quad. -/
theorem scIsPrivateIp_v4 (q : DottedQuad) :
    scIsPrivateIp (some q.text) = isNonGlobalV4 q.octets := by
  have hchar : ∀ b ∈ q.text, b ≠ ch '%' ∧ b ≠ ch '[' := by
    intro b hb
    rcases DottedQuad.mem_text hb with h | rfl
    · exact ⟨(hexDigit_ne_colon b (isHexDigit_of_isDigit b h)).2.1,
        (hexDigit_ne_colon b (isHexDigit_of_isDigit b h)).2.2.1⟩
    · decide
  have hstrip : stripBrackets q.text = q.text := by
    rw [stripBrackets, if_neg]
    rintro ⟨-, hhead, -⟩
    exact (hchar _ (List.mem_of_head? hhead)).2 rfl
  have hbare : q.text.takeWhile (· ≠ ch '%') = q.text := by
    rw [List.takeWhile_eq_self_iff]
    intro b hb
    exact decide_eq_true (hchar b hb).1
  have hlen : q.text.length ≠ 0 := fun h => q.part.1 (List.length_eq_zero_iff.mp h)
  have hshort : q.text.length < 64 := by
    have := q.length_text
    omega
  have hname := q.isLocalhostName []
  rw [List.nil_append] at hname
  simp only [scIsPrivateIp, hstrip, hbare, if_neg q.part.1, if_neg hlen, hname, if_pos hshort,
    q.parseIpv4]
  rfl

/-! ## Every standard text -/

/-- Joined parts end as the last of them does. -/
theorem joinColon_concat (ps : List Bytes) (p : Bytes) :
    ∃ u, joinColon (ps ++ [p]) = u ++ p := by
  induction ps with
  | nil => exact ⟨[], rfl⟩
  | cons q ps ih =>
    obtain ⟨u, hu⟩ := ih
    obtain ⟨r, rs, hrs⟩ := List.exists_cons_of_ne_nil (List.append_ne_nil_of_right_ne_nil ps
      (List.cons_ne_nil p []))
    refine ⟨q ++ ch ':' :: u, ?_⟩
    rw [List.cons_append, hrs, joinColon, ← hrs, hu, List.append_assoc, List.cons_append]

/-- A misread text is no name of this host either. -/
theorem IpText.Misread.isLocalhostName {address : Ipv6Text} {brackets : Bool}
    {zone : Option CString} (h : IpText.Misread (.v6 address brackets zone)) :
    isLocalhostName address.text = false := by
  cases address with
  | full groups quad hw =>
    cases quad with
    | none => exact absurd h id
    | some q =>
      obtain ⟨u, hu⟩ := joinColon_concat (groups.map Hextet.digits) q.text
      have htext : Ipv6Text.text (.full groups (some q) hw) = u ++ q.text := hu
      rw [htext, q.isLocalhostName]
  | compressed front back quad hw =>
    cases quad with
    | none => exact absurd h id
    | some q =>
      obtain ⟨u, hu⟩ := joinColon_concat (back.map Hextet.digits) q.text
      have htext : Ipv6Text.text (.compressed front back (some q) hw) =
          joinColon (parts front none) ++ ascii "::" ++ (u ++ q.text) := by
        rw [← hu]
        rfl
      rw [htext, ← List.append_assoc, q.isLocalhostName]

/-- An address that is not global is recognised exactly when it is not misread: not when it
ends in a dotted quad and has no `::`, and not when it ends in one and embeds an IPv4
address. -/
theorem scIsPrivateIp_iff (t : IpText) (h : t.nonGlobal = true) :
    scIsPrivateIp (some t.text) = true ↔ ¬ t.Misread := by
  cases t with
  | v4 quad =>
    have hv4 : scIsPrivateIp (some (IpText.text (.v4 quad))) = true :=
      (scIsPrivateIp_v4 quad).trans h
    exact iff_of_true hv4 id
  | v6 address brackets zone =>
    rw [scIsPrivateIp_v6, Bool.or_eq_true, isNonGlobalV6_read h brackets zone]
    constructor
    · rintro (hname | hread) hmis
      · rw [hmis.isLocalhostName] at hname
        exact Bool.false_ne_true hname
      · exact hread hmis
    · exact Or.inr

/-- A link-local address in brackets, with a zone. -/
theorem scIsPrivateIp_linkLocal : ∃ t : IpText, t.text = ascii "[fe80::1%eth0]" ∧
    (scIsPrivateIp (some t.text) = true ↔ ¬ t.Misread) := by
  let front : Hextet := ⟨ascii "fe80", by decide +kernel, by decide, by decide⟩
  let back : Hextet := ⟨ascii "1", by decide +kernel, by decide, by decide⟩
  let zone : CString := ⟨ascii "eth0", by decide⟩
  let t : IpText := .v6 (.compressed [front] [back] none (by simp [quadWidth])) true (some zone)
  have hglobal : t.nonGlobal = true := by decide
  exact ⟨t, by decide, scIsPrivateIp_iff t hglobal⟩

/-- The loopback address as an IPv4-mapped address, in the form that RFC 4291 gives for
these, is taken for public. -/
theorem scIsPrivateIp_mappedLoopback : ∃ t : IpText, t.text = ascii "::ffff:127.0.0.1" ∧
    t.nonGlobal = true ∧ scIsPrivateIp (some t.text) = false := by
  let group : Hextet := ⟨ascii "ffff", by decide +kernel, by decide, by decide⟩
  let t : IpText := .v6 (.compressed [] [group] (some ⟨127, 0, 0, 1⟩) (by simp [quadWidth])) false none
  exact ⟨t, by decide, by decide, by decide⟩

end SeaClaw.Net
