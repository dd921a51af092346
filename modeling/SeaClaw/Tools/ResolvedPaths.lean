import SeaClaw.Tools.ValidatePath

/-!
# The check of resolved paths

`sc_path_resolved_allowed` of `tools/path_security.c`. A resolved path is a place in the directory
tree, and an allowed path is a text that may have blanks around it and slashes at its end. The
code measures the text without its blanks and then compares the text with them.
-/

namespace SeaClaw.Tools

open SeaClaw.Lib

/-! ## The code -/

/-- `path_starts_with`, where both separators are the slash. -/
def pathStartsWith (path pre : Bytes) : Bool :=
  pre.isPrefixOf path && (path.drop pre.length).head?.all (· == slash)

/-- `SYSTEM_BLOCKED` -/
def systemBlocked : List Bytes :=
  [ascii "/System", ascii "/Library", ascii "/bin", ascii "/sbin", ascii "/usr/bin",
    ascii "/usr/sbin", ascii "/usr/lib", ascii "/usr/libexec", ascii "/etc",
    ascii "/private/etc", ascii "/private/var", ascii "/dev", ascii "/boot", ascii "/proc",
    ascii "/sys"]

/-- The blanks that are skipped. -/
def isBlank (b : UInt8) : Bool := b = ch ' ' || b = ch '\t'

/-- One round of the loop over the allowed paths. -/
def allowedPathGrants (resolved : Bytes) : Option Bytes → Bool
  | none => false
  | some path =>
    let ap := path.dropWhile isBlank
    let aplen := (ap.rdropWhile isBlank).length
    if aplen = 0 then false
    else if aplen = 1 ∧ ap.head? = some (ch '*') then true
    else pathStartsWith resolved ap

/-- `sc_path_resolved_allowed` -/
def scPathResolvedAllowed (resolved wsResolved : Option Bytes)
    (allowedPaths : List (Option Bytes)) : Bool :=
  match resolved with
  | none => false
  | some r =>
    if systemBlocked.any (pathStartsWith r) then false
    else if wsResolved.any fun ws => ws ≠ [] && pathStartsWith r ws then true
    else allowedPaths.any (allowedPathGrants r)

/-! ## Texts of places -/

/-- The normalised absolute path of a place. -/
def locationText (d : Location) : Bytes :=
  if d.names = [] then [slash] else d.names.flatMap (slash :: ·)

/-- The place is the one that the text names or lies below it. -/
def Covers (s : Bytes) (r : Location) : Prop := ∃ d : Location, s = locationText d ∧ d.Contains r

/-- The same, but the root covers only itself. -/
def ReadsAs (s : Bytes) (r : Location) : Prop :=
  ∃ d : Location, s = locationText d ∧ d.Contains r ∧ (d = Location.root → r = Location.root)

theorem locationText_root : locationText Location.root = [slash] := rfl

theorem location_eq_root_iff (d : Location) : d = Location.root ↔ d.names = [] := by
  rw [Location.ext_iff]
  rfl

theorem locationText_of_ne {d : Location} (h : d.names ≠ []) :
    locationText d = d.names.flatMap (slash :: ·) := if_neg h

/-- Every path of a place starts with a slash. -/
theorem head?_locationText (d : Location) : (locationText d).head? = some slash := by
  unfold locationText
  split_ifs with h
  · rfl
  · obtain ⟨c, cs, hcs⟩ := List.exists_cons_of_ne_nil h
    rw [hcs]
    rfl

theorem locationText_ne_nil (d : Location) : locationText d ≠ [] := by
  intro h
  have hhead := head?_locationText d
  rw [h] at hhead
  exact absurd hhead (by simp)

/-- A part of a path that ends before a slash or at the end is the path of the first names. -/
theorem exists_take_of_append {names : List Bytes} (hnames : ∀ c ∈ names, IsName c) :
    ∀ {s t : Bytes}, s ++ t = names.flatMap (slash :: ·) → t.head?.all (· == slash) = true →
      ∃ k, s = (names.take k).flatMap (slash :: ·) := by
  induction names with
  | nil =>
    intro s t h _
    rw [List.flatMap_nil, List.append_eq_nil_iff] at h
    exact ⟨0, h.1⟩
  | cons c names ih =>
    obtain ⟨hc, hrest⟩ := List.forall_mem_cons.mp hnames
    intro s t h ht
    rw [List.flatMap_cons, List.cons_append] at h
    cases s with
    | nil => exact ⟨0, rfl⟩
    | cons b s =>
      rw [List.cons_append, List.cons.injEq] at h
      obtain ⟨rfl, h⟩ := h
      rcases List.append_eq_append_iff.mp h with ⟨u, rfl, hu⟩ | ⟨u, rfl, hu⟩
      · -- the part ends within the first name, so it ends with it
        obtain rfl : u = [] := by
          cases u with
          | nil => rfl
          | cons b' u =>
            rw [hu, List.cons_append] at ht
            have hb : b' = slash := by simpa using ht
            exact absurd (by simp [hb]) hc.2.2.2
        exact ⟨1, by simp⟩
      · obtain ⟨k, rfl⟩ := ih hrest hu.symm ht
        exact ⟨k + 1, by simp⟩

/-- The code compares texts of places as it should, but for the root. -/
theorem pathStartsWith_iff {s : Bytes} (hs : s ≠ []) (r : Location) :
    pathStartsWith (locationText r) s = true ↔ ReadsAs s r := by
  rw [pathStartsWith, Bool.and_eq_true, List.isPrefixOf_iff_prefix]
  constructor
  · rintro ⟨⟨t, ht⟩, hend⟩
    rw [← ht, List.drop_left] at hend
    by_cases hr : r.names = []
    · rw [(location_eq_root_iff r).mpr hr, locationText_root] at ht
      obtain ⟨b, s, rfl⟩ := List.exists_cons_of_ne_nil hs
      rw [List.cons_append, List.cons.injEq, List.append_eq_nil_iff] at ht
      obtain ⟨rfl, rfl, -⟩ := ht
      refine ⟨Location.root, rfl, List.nil_prefix, fun _ => (location_eq_root_iff r).mpr hr⟩
    · rw [locationText_of_ne hr] at ht
      obtain ⟨k, hk⟩ := exists_take_of_append r.isName ht hend
      have hne : r.names.take k ≠ [] := by
        intro h
        rw [h] at hk
        exact hs hk
      refine ⟨⟨r.names.take k, fun c hc => r.isName c (List.mem_of_mem_take hc)⟩, ?_,
        List.take_prefix _ _, ?_⟩
      · rw [locationText_of_ne hne, hk]
      · intro h
        exact absurd ((location_eq_root_iff _).mp h) hne
  · rintro ⟨d, rfl, ⟨names, hnames⟩, hroot⟩
    by_cases hd : d.names = []
    · have hd := (location_eq_root_iff d).mpr hd
      rw [hroot hd, hd]
      exact ⟨List.prefix_rfl, rfl⟩
    · have hr : r.names ≠ [] := by
        rw [← hnames]
        exact List.append_ne_nil_of_left_ne_nil hd _
      rw [locationText_of_ne hd, locationText_of_ne hr, ← hnames, List.flatMap_append]
      refine ⟨List.prefix_append _ _, ?_⟩
      rw [List.drop_left]
      cases names <;> simp

/-- Below another place than the root, both notions agree. -/
theorem readsAs_iff_covers {s : Bytes} (hs : s ≠ [slash]) (r : Location) :
    ReadsAs s r ↔ Covers s r := by
  constructor
  · rintro ⟨d, hd, hcontains, -⟩
    exact ⟨d, hd, hcontains⟩
  · rintro ⟨d, rfl, hcontains⟩
    refine ⟨d, rfl, hcontains, ?_⟩
    rintro rfl
    exact absurd locationText_root hs

/-! ## Texts in the configuration -/

/-- The text behind its leading blanks, which is what the code compares. -/
def asWritten (s : Bytes) : Bytes := s.dropWhile isBlank

/-- The text without the blanks around it. -/
def trimBlanks (s : Bytes) : Bytes := (asWritten s).rdropWhile isBlank

/-- The text without the blanks around it and the slashes at its end; the root keeps its own. -/
def trimmed (s : Bytes) : Bytes :=
  if trimSlashes (trimBlanks s) = [] ∧ trimBlanks s ≠ [] then [slash] else trimSlashes (trimBlanks s)

/-- The text has nothing to trim behind it and is not the root. -/
def Plain (s : Bytes) : Prop := trimmed s = asWritten s ∧ trimmed s ≠ [slash]

/-- The text for everything. -/
def star : Bytes := [ch '*']

theorem rdropWhile_star : star.rdropWhile isBlank = star := by decide

theorem trimmed_of_star {s : Bytes} (h : trimBlanks s = star) : trimmed s = star := by
  rw [trimmed, h]
  decide

theorem trimBlanks_of_plain {s : Bytes} (hplain : Plain s) (h : trimmed s = star) :
    trimBlanks s = star := by
  rw [trimBlanks, ← hplain.1, h, rdropWhile_star]

/-- What names a place is not blank. -/
theorem trimBlanks_ne_nil {s : Bytes} {r : Location} (h : ReadsAs (asWritten s) r) :
    trimBlanks s ≠ [] := by
  obtain ⟨d, hd, -, -⟩ := h
  rw [trimBlanks, hd]
  intro hnil
  have hhead := head?_locationText d
  obtain ⟨b, t, hbt⟩ := List.exists_cons_of_ne_nil (locationText_ne_nil d)
  rw [hbt, List.head?_cons, Option.some.injEq] at hhead
  rw [List.rdropWhile_eq_nil_iff] at hnil
  have hblank := hnil b (by rw [hbt]; exact List.mem_cons_self)
  rw [hhead] at hblank
  exact absurd hblank (by decide)

/-- An allowed path grants access if it is a star, or as it is written. -/
theorem allowedPathGrants_iff (r : Location) (s : Bytes) :
    allowedPathGrants (locationText r) (some s) = true ↔
      trimBlanks s = star ∨ ReadsAs (asWritten s) r := by
  have hstar : ((trimBlanks s).length = 1 ∧ (asWritten s).head? = some (ch '*')) ↔
      trimBlanks s = star := by
    have hsplit : trimBlanks s <+: asWritten s := List.rdropWhile_prefix _ _
    constructor
    · rintro ⟨hlen, hhead⟩
      obtain ⟨b, hb⟩ := List.length_eq_one_iff.mp hlen
      obtain ⟨t, ht⟩ := hsplit
      rw [hb] at ht
      rw [← ht, List.singleton_append, List.head?_cons, Option.some.injEq] at hhead
      rw [hb, hhead]
      rfl
    · intro h
      obtain ⟨t, ht⟩ := hsplit
      rw [h] at ht
      rw [h, ← ht]
      exact ⟨rfl, rfl⟩
  simp only [allowedPathGrants]
  rw [← asWritten, ← trimBlanks]
  split_ifs with hempty hone
  · rw [List.length_eq_zero_iff] at hempty
    constructor
    · intro h
      exact absurd h (by simp)
    · rintro (h | h)
      · rw [hempty] at h
        exact absurd h (by decide)
      · exact absurd hempty (trimBlanks_ne_nil h)
  · exact ⟨fun _ => Or.inl (hstar.mp hone), fun _ => rfl⟩
  · have hne : asWritten s ≠ [] := by
      intro h
      rw [trimBlanks, h] at hempty
      exact hempty rfl
    rw [pathStartsWith_iff hne]
    constructor
    · exact Or.inr
    · rintro (h | h)
      · exact absurd (hstar.mpr h) hone
      · exact h

/-! ## The decision -/

/-- The place is a system directory or lies below one. -/
def Blocked (r : Location) : Prop := ∃ s ∈ systemBlocked, Covers s r

/-- The place may be used: it is not blocked, and it is the workspace, an allowed path or below
one of them, or everything is allowed. -/
def MayUse (r : Location) (ws : Option Location) (allowed : List (Option Bytes)) : Prop :=
  ¬ Blocked r ∧ ((∃ d ∈ ws, d.Contains r) ∨
    ∃ s, some s ∈ allowed ∧ (Covers (trimmed s) r ∨ trimmed s = star))

/-- The workspace as it is passed; without one it is empty. -/
def workspaceText (ws : Option Location) : Bytes := (ws.map locationText).getD []

/-- Access that is granted as it is meant: by another workspace than the root, by a plain allowed
path, or by a star. -/
def GrantsClearly (r : Location) (ws : Option Location) (allowed : List (Option Bytes)) : Prop :=
  (∃ d ∈ ws, d.Contains r ∧ (d = Location.root → r = Location.root)) ∨
    ∃ s, some s ∈ allowed ∧ (Plain s ∧ Covers (trimmed s) r ∨ trimBlanks s = star)

/-- An allowed path that is not plain covers the place with all that is written. -/
def GrantsAsWritten (r : Location) (allowed : List (Option Bytes)) : Prop :=
  ∃ s, some s ∈ allowed ∧ ¬ Plain s ∧ ReadsAs (asWritten s) r

/-- The workspace is the root, or an allowed path that is not plain covers the place when it is
trimmed. -/
def GrantsAsMeant (r : Location) (ws : Option Location) (allowed : List (Option Bytes)) : Prop :=
  (ws = some Location.root ∧ r ≠ Location.root) ∨
    ∃ s, some s ∈ allowed ∧ ¬ Plain s ∧ (Covers (trimmed s) r ∨ trimmed s = star)

theorem systemBlocked_ne : ∀ s ∈ systemBlocked, s ≠ [] ∧ s ≠ [slash] := by decide

theorem any_systemBlocked_iff (r : Location) :
    systemBlocked.any (pathStartsWith (locationText r)) = true ↔ Blocked r := by
  rw [List.any_eq_true]
  constructor
  · rintro ⟨s, hs, h⟩
    obtain ⟨hne, hroot⟩ := systemBlocked_ne s hs
    exact ⟨s, hs, (readsAs_iff_covers hroot r).mp ((pathStartsWith_iff hne r).mp h)⟩
  · rintro ⟨s, hs, h⟩
    obtain ⟨hne, hroot⟩ := systemBlocked_ne s hs
    exact ⟨s, hs, (pathStartsWith_iff hne r).mpr ((readsAs_iff_covers hroot r).mpr h)⟩

/-- The components of a path are the names of the place, behind what is before the root. -/
theorem components_flatMap {names : List Bytes} (hnames : ∀ c ∈ names, IsName c)
    (hne : names ≠ []) : components (names.flatMap (slash :: ·)) = [] :: names := by
  induction names with
  | nil => exact absurd rfl hne
  | cons c names ih =>
    obtain ⟨hc, hrest⟩ := List.forall_mem_cons.mp hnames
    rw [List.flatMap_cons, List.cons_append, components_cons_slash]
    cases names with
    | nil => rw [List.flatMap_nil, List.append_nil, components_of_notMem hc.2.2.2]
    | cons c' names =>
      have htail := ih hrest (List.cons_ne_nil _ _)
      rw [List.flatMap_cons, List.cons_append, components_cons_slash, List.cons.injEq] at htail
      rw [List.flatMap_cons, List.cons_append, components_append_slash,
        components_of_notMem hc.2.2.2, htail.2]
      rfl

/-- Different places have different paths. -/
theorem locationText_injective {d e : Location} (h : locationText d = locationText e) : d = e := by
  have hroot : ∀ {f : Location}, f.names ≠ [] → locationText f ≠ [slash] := by
    intro f hf htext
    have hparts := components_flatMap f.isName hf
    rw [← locationText_of_ne hf, htext, components_cons_slash, List.cons.injEq] at hparts
    exact absurd (f.isName [] (by rw [← hparts.2]; decide)).1 (by simp)
  by_cases hd : d.names = []
  · by_cases he : e.names = []
    · rw [Location.ext_iff, hd, he]
    · rw [(location_eq_root_iff d).mpr hd, locationText_root] at h
      exact absurd h.symm (hroot he)
  · by_cases he : e.names = []
    · rw [(location_eq_root_iff e).mpr he, locationText_root] at h
      exact absurd h (hroot hd)
    · have hparts := components_flatMap d.isName hd
      rw [← locationText_of_ne hd, h, locationText_of_ne he, components_flatMap e.isName he,
        List.cons.injEq] at hparts
      exact Location.ext hparts.2.symm

/-- What the code takes for a place below the workspace. -/
theorem any_workspaceText_iff (r : Location) (ws : Option Location) :
    ((some (workspaceText ws)).any fun w => w ≠ [] && pathStartsWith (locationText r) w) = true ↔
      ∃ d ∈ ws, d.Contains r ∧ (d = Location.root → r = Location.root) := by
  cases ws with
  | none => simp [workspaceText]
  | some d =>
    have hne := locationText_ne_nil d
    simp only [workspaceText, Option.map_some, Option.getD_some, Option.any_some, ne_eq, hne,
      not_false_eq_true, decide_true, Bool.true_and, pathStartsWith_iff hne, Option.mem_def,
      Option.some.injEq, exists_eq_left']
    constructor
    · rintro ⟨e, htext, hcontains, hroot⟩
      rw [locationText_injective htext]
      exact ⟨hcontains, hroot⟩
    · rintro ⟨hcontains, hroot⟩
      exact ⟨d, rfl, hcontains, hroot⟩

/-- What the code decides. -/
theorem scPathResolvedAllowed_iff (r : Location) (ws : Option Location)
    (allowed : List (Option Bytes)) :
    scPathResolvedAllowed (some (locationText r)) (some (workspaceText ws)) allowed = true ↔
      ¬ Blocked r ∧ (GrantsClearly r ws allowed ∨ GrantsAsWritten r allowed) := by
  have hallowed : allowed.any (allowedPathGrants (locationText r)) = true ↔
      ∃ s, some s ∈ allowed ∧ (trimBlanks s = star ∨ ReadsAs (asWritten s) r) := by
    rw [List.any_eq_true]
    constructor
    · rintro ⟨o, ho, h⟩
      cases o with
      | none => exact absurd h (by simp [allowedPathGrants])
      | some s => exact ⟨s, ho, (allowedPathGrants_iff r s).mp h⟩
    · rintro ⟨s, hs, h⟩
      exact ⟨some s, hs, (allowedPathGrants_iff r s).mpr h⟩
  have hplain : ∀ {s}, Plain s → (ReadsAs (asWritten s) r ↔ Covers (trimmed s) r) := by
    rintro s ⟨heq, hroot⟩
    rw [← heq, readsAs_iff_covers hroot]
  have hsplit : (∃ s, some s ∈ allowed ∧ (trimBlanks s = star ∨ ReadsAs (asWritten s) r)) ↔
      (∃ s, some s ∈ allowed ∧ (Plain s ∧ Covers (trimmed s) r ∨ trimBlanks s = star)) ∨
        GrantsAsWritten r allowed := by
    constructor
    · rintro ⟨s, hs, hstar | hreads⟩
      · exact Or.inl ⟨s, hs, Or.inr hstar⟩
      · by_cases hp : Plain s
        · exact Or.inl ⟨s, hs, Or.inl ⟨hp, (hplain hp).mp hreads⟩⟩
        · exact Or.inr ⟨s, hs, hp, hreads⟩
    · rintro (⟨s, hs, ⟨hp, hcovers⟩ | hstar⟩ | ⟨s, hs, -, hreads⟩)
      · exact ⟨s, hs, Or.inr ((hplain hp).mpr hcovers)⟩
      · exact ⟨s, hs, Or.inl hstar⟩
      · exact ⟨s, hs, Or.inr hreads⟩
  simp only [scPathResolvedAllowed]
  rw [← any_systemBlocked_iff, GrantsClearly, or_assoc, ← hsplit, ← hallowed,
    ← any_workspaceText_iff]
  split_ifs with hblocked hws
  · simp [hblocked]
  · exact ⟨fun _ => ⟨hblocked, Or.inl hws⟩, fun _ => rfl⟩
  · constructor
    · intro h
      exact ⟨hblocked, Or.inr h⟩
    · rintro ⟨-, h | h⟩
      · exact absurd h hws
      · exact h

/-- What the decision is meant to be. -/
theorem mayUse_iff (r : Location) (ws : Option Location) (allowed : List (Option Bytes)) :
    MayUse r ws allowed ↔
      ¬ Blocked r ∧ (GrantsClearly r ws allowed ∨ GrantsAsMeant r ws allowed) := by
  apply and_congr_right
  intro _
  constructor
  · rintro (⟨d, hd, hcontains⟩ | ⟨s, hs, hcovers | hstar⟩)
    · by_cases hroot : d = Location.root → r = Location.root
      · exact Or.inl (Or.inl ⟨d, hd, hcontains, hroot⟩)
      · obtain ⟨rfl, hr⟩ := Classical.not_imp.mp hroot
        exact Or.inr (Or.inl ⟨hd, hr⟩)
    · by_cases hp : Plain s
      · exact Or.inl (Or.inr ⟨s, hs, Or.inl ⟨hp, hcovers⟩⟩)
      · exact Or.inr (Or.inr ⟨s, hs, hp, Or.inl hcovers⟩)
    · by_cases hp : Plain s
      · exact Or.inl (Or.inr ⟨s, hs, Or.inr (trimBlanks_of_plain hp hstar)⟩)
      · exact Or.inr (Or.inr ⟨s, hs, hp, Or.inr hstar⟩)
  · rintro ((⟨d, hd, hcontains, -⟩ | ⟨s, hs, ⟨-, hcovers⟩ | hstar⟩) | (⟨hws, -⟩ | ⟨s, hs, -, h⟩))
    · exact Or.inl ⟨d, hd, hcontains⟩
    · exact Or.inr ⟨s, hs, Or.inl hcovers⟩
    · exact Or.inr ⟨s, hs, Or.inr (trimmed_of_star hstar)⟩
    · exact Or.inl ⟨Location.root, hws, List.nil_prefix⟩
    · exact Or.inr ⟨s, hs, h⟩

/-- The decision is the one that is meant if and only if the place is blocked, access is granted
clearly, or the paths that are not plain grant access as they are written exactly if they grant it
as they are meant. -/
theorem scPathResolvedAllowed_mayUse_iff (r : Location) (ws : Option Location)
    (allowed : List (Option Bytes)) :
    (scPathResolvedAllowed (some (locationText r)) (some (workspaceText ws)) allowed = true ↔
        MayUse r ws allowed) ↔
      Blocked r ∨ GrantsClearly r ws allowed ∨
        (GrantsAsWritten r allowed ↔ GrantsAsMeant r ws allowed) := by
  rw [scPathResolvedAllowed_iff, mayUse_iff]
  by_cases hblocked : Blocked r
  · simp [hblocked]
  · by_cases hclear : GrantsClearly r ws allowed <;> simp [hblocked, hclear]

/-- A directory that is allowed with a slash at its end. -/
def srvData : Location := ⟨[ascii "srv", ascii "data"], by decide⟩

/-- A file in it. -/
def srvDataFile : Location := ⟨[ascii "srv", ascii "data", ascii "x"], by decide⟩

/-- A slash at the end of an allowed path keeps what is below it out. -/
theorem scPathResolvedAllowed_trailing_slash :
    ¬ (scPathResolvedAllowed (some (locationText srvDataFile)) (some (workspaceText none))
        [some (ascii "/srv/data/")] = true ↔
      MayUse srvDataFile none [some (ascii "/srv/data/")]) := by
  intro h
  have hdenied : scPathResolvedAllowed (some (locationText srvDataFile)) (some (workspaceText none))
      [some (ascii "/srv/data/")] = false := by decide
  rw [hdenied] at h
  have hmay : MayUse srvDataFile none [some (ascii "/srv/data/")] := by
    refine ⟨?_, Or.inr ⟨_, List.mem_singleton_self _, Or.inl ⟨srvData, by decide, by decide⟩⟩⟩
    rw [← any_systemBlocked_iff]
    decide
  exact absurd (h.mpr hmay) (by simp)

end SeaClaw.Tools
