import SeaClaw.Json.ClosedTexts
import SeaClaw.Core.Error

/-!
# Loading the configuration

`sc_config_load` takes the defaults, reads the file of the user and then the file of the working
directory into them, and validates what has come of it. Each file has to be opened, measured and
read, and its text to be an object; where a step fails the loader may go on without the file.
-/

namespace SeaClaw.Config

open SeaClaw.Lib SeaClaw.Json

/-- `SC_MAX_PATH` -/
def scMaxPath : ℕ := 1024

/-! ## The text of a configuration -/

/-- The code of the single settings. What it does to them may depend on the memory that is
left. -/
structure Settings (Heap Config : Type) where
  /-- Whether the tree of the parsed text finds its blocks. -/
  treeFits : Heap → Bool
  /-- `sc_config_migrate` -/
  migrate : Heap → Value → Except ScError Value
  /-- What `sc_config_parse_json` takes from the members of the document. -/
  readFields : Heap → Config → Value → Config
  /-- `sc_config_apply_env_overrides` -/
  applyEnvOverrides : Config → Config
  /-- `sync_autonomy_level_from_string` -/
  syncAutonomyLevel : Config → Config
  /-- `sync_flat_fields` -/
  syncFlatFields : Config → Config
  /-- `sc_config_validate_strict` -/
  validateStrict : Config → Option Value → Bool → Option ScError
  /-- `sc_config_validate` -/
  validate : Config → Option ScError

variable {Heap Config : Type} (s : Settings Heap Config)

/-- The document in a terminated text, once it is migrated. -/
def configRoot (heap : Heap) (content beyond : Bytes) : Except ScError Value :=
  if s.treeFits heap then
    match scJsonParse content (0 :: beyond) with
    | .ok (.object pairs) _ => s.migrate heap (.object pairs)
    | .err e _ => .error e
    | _ => .error .jsonParse
  else .error .outOfMemory

/-- `sc_config_parse_json` -/
def scConfigParseJson (heap : Heap) (cfg : Config) (content beyond : Bytes) :
    Except ScError Config :=
  (configRoot s heap content beyond).map (s.readFields heap cfg)

/-! ## One file -/

/-- A file that exists, and how the steps of reading it end. -/
structure FileRead (Heap : Type) where
  content : Bytes
  /-- Whether `fopen` opens it. -/
  opens : Bool
  /-- What `ftell` says at its end. -/
  told : ℤ
  /-- Whether there is a buffer for it. -/
  buffer : Bool
  /-- How many octets `fread` delivers at most. -/
  delivered : ℕ
  /-- What lies behind the terminator of the buffer. -/
  junk : Bytes
  heap : Heap

/-- What `fread` leaves in the buffer. -/
def FileRead.bytesRead (f : FileRead Heap) : Bytes := (f.content.take f.told.toNat).take f.delivered

/-- The two files. -/
inductive Source where
  | global | workspace
  deriving DecidableEq

/-- The settings while the files are read, and the files that have been parsed into them. -/
structure Loading (Config : Type) where
  config : Config
  parsed : List Source
  deriving DecidableEq

/-- `load_json_file` for a file that may exist. -/
def loadJsonFile (src : Source) (l : Loading Config) :
    Option (FileRead Heap) → Except ScError (Loading Config)
  | none => .ok l
  | some f =>
    if f.opens then
      if 0 < f.told ∧ f.told < 65536 then
        if f.buffer then
          (scConfigParseJson s f.heap l.config f.bytesRead f.junk).map fun config =>
            ⟨config, l.parsed ++ [src]⟩
        else .ok l
      else .ok l
    else .ok l

/-! ## Both files -/

/-- What a call of `sc_config_load` meets. -/
structure Launch (Heap Config : Type) where
  /-- Whether `sc_arena_create` succeeds. -/
  arena : Bool
  /-- The settings before any file is read. -/
  defaults : Config
  /-- `getenv("HOME")` -/
  home : Option Bytes
  global : Option (FileRead Heap)
  /-- What `getcwd` returns. -/
  cwd : Option Bytes
  workspace : Option (FileRead Heap)
  strict : Bool
  /-- The file of the user, when it is read again for the validation. -/
  again : Option (FileRead Heap)

/-- `%s/%s/%s` with `SC_CONFIG_DIR` and `SC_CONFIG_FILE` -/
def configPath (dir : Bytes) : Bytes := dir ++ ascii "/.seaclaw/config.json"

/-- The path fits into its buffer. -/
def Fits (dir : Bytes) : Prop := (configPath dir).length < scMaxPath

instance (dir : Bytes) : Decidable (Fits dir) := inferInstanceAs (Decidable (_ < _))

/-- The directory of the user. -/
def Launch.homeDir (i : Launch Heap Config) : Bytes := i.home.getD (ascii ".")

/-- What stands in the settings when the environment is asked for overrides. -/
def readFiles (i : Launch Heap Config) : Except ScError (Loading Config) :=
  if Fits i.homeDir then
    match loadJsonFile s .global ⟨i.defaults, []⟩ i.global with
    | .error e => .error e
    | .ok l =>
      match i.cwd with
      | none => .ok l
      | some cwd =>
        if Fits cwd then
          match loadJsonFile s .workspace l i.workspace with
          | .error _ => .ok l
          | .ok l => .ok l
        else .ok l
  else .ok ⟨i.defaults, []⟩

/-- `validation_root` -/
def validationRoot : Option (FileRead Heap) → Option Value
  | none => none
  | some f =>
    if f.opens ∧ 0 < f.told ∧ f.told < 65536 ∧ f.buffer ∧ s.treeFits f.heap then
      match scJsonParse f.bytesRead (0 :: f.junk) with
      | .ok root _ => some root
      | _ => none
    else none

/-- What `sc_config_load` does with the settings that were read. -/
def closing (i : Launch Heap Config) (cfg : Config) : Except ScError Config :=
  if Fits i.homeDir then
    let out := s.syncFlatFields (s.syncAutonomyLevel (s.applyEnvOverrides cfg))
    match s.validateStrict out (validationRoot s i.again) i.strict with
    | some e => .error e
    | none =>
      match s.validate out with
      | some e => .error e
      | none => .ok out
  else
    let out := s.syncFlatFields cfg
    match s.validate out with
    | some e => .error e
    | none => .ok out

/-- `sc_config_load` -/
def scConfigLoad (i : Launch Heap Config) : Except ScError Config :=
  if i.arena then (readFiles s i).bind fun l => closing s i l.config
  else .error .outOfMemory

/-! ## What the loader is for -/

/-- `sc_config_parse_json` of all that a file holds. -/
def parseWhole (cfg : Config) : Option (FileRead Heap) → Except ScError Config
  | none => .ok cfg
  | some f => scConfigParseJson s f.heap cfg f.content []

/-- The whole of the one file and then the whole of the other, on top of the defaults. -/
def parseBoth (i : Launch Heap Config) : Except ScError Config :=
  (parseWhole s i.defaults i.global).bind fun cfg => parseWhole s cfg i.workspace

/-- A call that succeeds has gone on, before the overrides, with both files read whole, and has
parsed each of them that exists. -/
def DropsNothing (i : Launch Heap Config) : Prop :=
  ∀ out, scConfigLoad s i = .ok out → ∃ l, readFiles s i = .ok l ∧
    parseBoth s i = .ok l.config ∧ (i.global.isSome → .global ∈ l.parsed) ∧
    (i.workspace.isSome → .workspace ∈ l.parsed)

/-! ## When nothing is dropped -/

/-- The loader hands the file to the parser. -/
structure FileRead.Taken (f : FileRead Heap) : Prop where
  opens : f.opens
  size : 0 < f.told ∧ f.told < 65536
  buffer : f.buffer

/-- What was read of the file is a configuration. -/
def FileRead.Accepted (f : FileRead Heap) : Prop :=
  ∃ root, configRoot s f.heap f.bytesRead f.junk = .ok root

/-- The call ends with an error in any case. -/
def Refuses (i : Launch Heap Config) : Prop :=
  ¬ i.arena ∨ (Fits i.homeDir ∧ ∃ f ∈ i.global, f.Taken ∧ ¬ f.Accepted s) ∨
    ∀ l, readFiles s i = .ok l → ∃ e, closing s i l.config = .error e

/-- Each file that exists is taken, the second one only if it is a configuration. -/
structure TakesBoth (i : Launch Heap Config) : Prop where
  global : ∀ f ∈ i.global, Fits i.homeDir ∧ f.Taken
  workspace : ∀ f ∈ i.workspace,
    Fits i.homeDir ∧ (∃ cwd ∈ i.cwd, Fits cwd) ∧ f.Taken ∧ f.Accepted s

section Texts

variable {s} {heap : Heap}

/-- What is a configuration at the front of a text is the configuration of the whole text. -/
theorem configRoot_longer {content beyond beyond' : Bytes} {root : Value} (u : Bytes)
    (h : configRoot s heap content beyond = .ok root) :
    configRoot s heap (content ++ u) beyond' = .ok root := by
  by_cases hfits : s.treeFits heap
  · rw [configRoot, if_pos hfits] at h ⊢
    split at h
    · rename_i pairs c hparse
      obtain ⟨c', hlonger⟩ := scJsonParse_longer (0 :: beyond') hparse u
      rw [hlonger]
      exact h
    · cases h
    · cases h
  · rw [configRoot, if_neg hfits] at h
    cases h

theorem FileRead.content_eq (f : FileRead Heap) : ∃ u, f.content = f.bytesRead ++ u := by
  have hstarts : f.bytesRead <+: f.content := (List.take_prefix _ _).trans (List.take_prefix _ _)
  obtain ⟨u, hu⟩ := hstarts
  exact ⟨u, hu.symm⟩

/-- An accepted file gives the settings that the whole of it gives. -/
theorem parseWhole_of_accepted {f : FileRead Heap} {root : Value} (cfg : Config)
    (h : configRoot s f.heap f.bytesRead f.junk = .ok root) :
    parseWhole s cfg (some f) = .ok (s.readFields f.heap cfg root) := by
  obtain ⟨u, hu⟩ := f.content_eq
  rw [parseWhole, scConfigParseJson, hu, configRoot_longer u h]
  rfl

end Texts

section OneFile

variable {s} {src : Source} {l l' : Loading Config}

theorem loadJsonFile_taken {f : FileRead Heap} (hf : f.Taken) :
    loadJsonFile s src l (some f) = (configRoot s f.heap f.bytesRead f.junk).map fun root =>
      ⟨s.readFields f.heap l.config root, l.parsed ++ [src]⟩ := by
  rw [loadJsonFile, if_pos hf.opens, if_pos hf.size, if_pos hf.buffer, scConfigParseJson]
  cases configRoot s f.heap f.bytesRead f.junk <;> rfl

theorem loadJsonFile_skipped {f : FileRead Heap} (hf : ¬ f.Taken) :
    loadJsonFile s src l (some f) = .ok l := by
  rw [loadJsonFile]
  split_ifs with hopens hsize hbuffer
  · exact absurd ⟨hopens, hsize, hbuffer⟩ hf
  · rfl
  · rfl
  · rfl

/-- After a file was taken and accepted, the settings are those of the whole file. -/
theorem loadJsonFile_whole {file : Option (FileRead Heap)} (htaken : ∀ f ∈ file, f.Taken)
    (h : loadJsonFile s src l file = .ok l') :
    parseWhole s l.config file = .ok l'.config ∧ (file.isSome → src ∈ l'.parsed) ∧
      ∀ x ∈ l.parsed, x ∈ l'.parsed := by
  cases file with
  | none =>
    cases h
    exact ⟨rfl, fun hsome => absurd hsome Bool.false_ne_true, fun x hx => hx⟩
  | some f =>
    rw [loadJsonFile_taken (htaken f rfl)] at h
    cases hroot : configRoot s f.heap f.bytesRead f.junk with
    | error e =>
      rw [hroot] at h
      cases h
    | ok root =>
      rw [hroot] at h
      cases h
      refine ⟨parseWhole_of_accepted l.config hroot, fun _ => ?_, fun x hx => ?_⟩
      · exact List.mem_append_right _ List.mem_cons_self
      · exact List.mem_append_left _ hx

/-- A file is on record only if it was taken and accepted. -/
theorem taken_of_parsed {file : Option (FileRead Heap)} {x : Source}
    (h : loadJsonFile s src l file = .ok l') (hx : x ∈ l'.parsed) :
    x ∈ l.parsed ∨ x = src ∧ ∀ f ∈ file, f.Taken ∧ f.Accepted s := by
  cases file with
  | none =>
    cases h
    exact Or.inl hx
  | some f =>
    by_cases hf : f.Taken
    · rw [loadJsonFile_taken hf] at h
      cases hroot : configRoot s f.heap f.bytesRead f.junk with
      | error e =>
        rw [hroot] at h
        cases h
      | ok root =>
        rw [hroot] at h
        cases h
        rcases List.mem_append.mp hx with hold | hnew
        · exact Or.inl hold
        · refine Or.inr ⟨List.mem_singleton.mp hnew, fun g hg => ?_⟩
          cases hg
          exact ⟨hf, root, hroot⟩
    · rw [loadJsonFile_skipped hf] at h
      cases h
      exact Or.inl hx

end OneFile

section Both

variable {s} {i : Launch Heap Config} {l : Loading Config}

/-- The file of the user is loaded, and then perhaps that of the working directory. -/
theorem readFiles_cases (hhome : Fits i.homeDir) (h : readFiles s i = .ok l) :
    ∃ m, loadJsonFile s .global ⟨i.defaults, []⟩ i.global = .ok m ∧
      (l = m ∨ ∃ cwd ∈ i.cwd, Fits cwd ∧ loadJsonFile s .workspace m i.workspace = .ok l) := by
  rw [readFiles, if_pos hhome] at h
  split at h
  · cases h
  · rename_i m hglobal
    refine ⟨m, hglobal, ?_⟩
    split at h
    · cases h
      exact Or.inl rfl
    · rename_i cwd hcwd
      split at h
      · rename_i hfits
        split at h
        · cases h
          exact Or.inl rfl
        · rename_i hworkspace
          cases h
          exact Or.inr ⟨cwd, hcwd, hfits, hworkspace⟩
      · cases h
        exact Or.inl rfl

/-- A file of the working directory that is taken and accepted is loaded. -/
theorem readFiles_workspace {m : Loading Config} {f : FileRead Heap} {cwd : Bytes}
    (hhome : Fits i.homeDir) (hglobal : loadJsonFile s .global ⟨i.defaults, []⟩ i.global = .ok m)
    (hcwd : cwd ∈ i.cwd) (hfits : Fits cwd) (hf : i.workspace = some f) (htaken : f.Taken)
    (haccepted : f.Accepted s) (h : readFiles s i = .ok l) :
    loadJsonFile s .workspace m (some f) = .ok l := by
  obtain ⟨root, hroot⟩ := haccepted
  rw [readFiles, if_pos hhome, hglobal] at h
  simp only [Option.mem_def.mp hcwd, if_pos hfits, hf, loadJsonFile_taken htaken, hroot,
    Except.map] at h
  rw [loadJsonFile_taken htaken, hroot]
  exact h

/-- Where both files are taken, the settings are those of both whole files. -/
theorem readFiles_whole (hhome : Fits i.homeDir) (htakes : TakesBoth s i)
    (h : readFiles s i = .ok l) :
    parseBoth s i = .ok l.config ∧ (i.global.isSome → .global ∈ l.parsed) ∧
      (i.workspace.isSome → .workspace ∈ l.parsed) := by
  obtain ⟨m, hglobal, hlast⟩ := readFiles_cases hhome h
  obtain ⟨hfirst, hon, -⟩ := loadJsonFile_whole (fun f hf => (htakes.global f hf).2) hglobal
  rw [parseBoth, hfirst, Except.bind]
  cases hf : i.workspace with
  | none =>
    have hlm : l = m := by
      rcases hlast with hlm | ⟨cwd, -, -, hworkspace⟩
      · exact hlm
      · rw [hf] at hworkspace
        cases hworkspace
        rfl
    rw [hlm]
    exact ⟨rfl, hon, fun hsome => absurd hsome Bool.false_ne_true⟩
  | some f =>
    obtain ⟨-, ⟨cwd, hcwd, hfits⟩, htaken, haccepted⟩ := htakes.workspace f hf
    have hload := readFiles_workspace hhome hglobal hcwd hfits hf htaken haccepted h
    have hall : ∀ g ∈ some f, g.Taken := by
      intro g hg
      cases hg
      exact htaken
    obtain ⟨hsecond, hrecord, hkeep⟩ := loadJsonFile_whole hall hload
    exact ⟨hsecond, fun hsome => hkeep _ (hon hsome), hrecord⟩

/-- Without the directory of the user, only a run without files takes all of them. -/
theorem readFiles_homeless (hhome : ¬ Fits i.homeDir) (h : readFiles s i = .ok l) :
    l = ⟨i.defaults, []⟩ := by
  rw [readFiles, if_neg hhome] at h
  cases h
  rfl

/-- Where both files are on record, both were taken. -/
theorem takesBoth_of_parsed (hhome : Fits i.homeDir) (h : readFiles s i = .ok l)
    (hglobal : i.global.isSome → .global ∈ l.parsed)
    (hworkspace : i.workspace.isSome → .workspace ∈ l.parsed) : TakesBoth s i := by
  obtain ⟨m, hload, hlast⟩ := readFiles_cases hhome h
  have hfirst : ∀ x ∈ m.parsed, x = .global ∧ ∀ f ∈ i.global, f.Taken ∧ f.Accepted s := by
    intro x hx
    rcases taken_of_parsed hload hx with hnil | htaken
    · exact absurd hnil List.not_mem_nil
    · exact htaken
  refine ⟨fun f hf => ⟨hhome, ?_⟩, fun f hf => ⟨hhome, ?_⟩⟩
  · have hmem := hglobal (Option.isSome_of_mem hf)
    have hold : .global ∈ m.parsed := by
      rcases hlast with rfl | ⟨cwd, -, -, hsecond⟩
      · exact hmem
      · rcases taken_of_parsed hsecond hmem with hold | ⟨hsrc, -⟩
        · exact hold
        · cases hsrc
    exact ((hfirst _ hold).2 f hf).1
  · have hmem := hworkspace (Option.isSome_of_mem hf)
    rcases hlast with rfl | ⟨cwd, hcwd, hfits, hsecond⟩
    · exact absurd (hfirst _ hmem).1 (by decide)
    · rcases taken_of_parsed hsecond hmem with hold | ⟨-, htaken⟩
      · exact absurd (hfirst _ hold).1 (by decide)
      · exact ⟨⟨cwd, hcwd, hfits⟩, htaken f hf⟩

end Both

/-- A call that succeeds has read the files, and its settings pass the validation. -/
theorem scConfigLoad_ok {i : Launch Heap Config} {out : Config}
    (h : scConfigLoad s i = .ok out) :
    ∃ l, readFiles s i = .ok l ∧ i.arena ∧ closing s i l.config = .ok out := by
  rw [scConfigLoad] at h
  split_ifs at h with harena
  cases hread : readFiles s i with
  | error e =>
    rw [hread] at h
    cases h
  | ok l =>
    rw [hread] at h
    exact ⟨l, rfl, harena, h⟩

theorem Refuses.not_ok {i : Launch Heap Config} (h : Refuses s i) (out : Config) :
    scConfigLoad s i ≠ .ok out := by
  intro hload
  obtain ⟨l, hread, harena, hclose⟩ := scConfigLoad_ok s hload
  rcases h with hnone | ⟨hhome, f, hf, htaken, hbad⟩ | hvalidation
  · exact hnone harena
  · obtain ⟨m, hglobal, -⟩ := readFiles_cases hhome hread
    rw [Option.mem_def.mp hf, loadJsonFile_taken htaken] at hglobal
    cases hroot : configRoot s f.heap f.bytesRead f.junk with
    | error e =>
      rw [hroot] at hglobal
      cases hglobal
    | ok root => exact hbad ⟨root, hroot⟩
  · obtain ⟨e, he⟩ := hvalidation l hread
    rw [hclose] at he
    cases he

/-- The loader drops nothing exactly if it refuses the call in any case, or takes each file
that exists and finds the second one to be a configuration. -/
theorem config_load_dropsNothing_iff (i : Launch Heap Config) :
    DropsNothing s i ↔ Refuses s i ∨ TakesBoth s i := by
  constructor
  · intro hdrops
    by_cases hrefuses : Refuses s i
    · exact Or.inl hrefuses
    · right
      simp only [Refuses, not_or, not_not, not_forall, not_exists] at hrefuses
      obtain ⟨harena, -, l, hread, hclose⟩ := hrefuses
      obtain ⟨out, hout⟩ : ∃ out, closing s i l.config = .ok out := by
        cases hc : closing s i l.config with
        | error e => exact absurd hc (hclose e)
        | ok out => exact ⟨out, rfl⟩
      have hload : scConfigLoad s i = .ok out := by
        rw [scConfigLoad, if_pos harena, hread]
        exact hout
      obtain ⟨l', hread', -, hglobal, hworkspace⟩ := hdrops out hload
      by_cases hhome : Fits i.homeDir
      · exact takesBoth_of_parsed hhome hread' hglobal hworkspace
      · have hl := readFiles_homeless hhome hread'
        subst hl
        refine ⟨fun f hf => ?_, fun f hf => ?_⟩
        · exact absurd (hglobal (Option.isSome_of_mem hf)) List.not_mem_nil
        · exact absurd (hworkspace (Option.isSome_of_mem hf)) List.not_mem_nil
  · rintro (hrefuses | htakes) out hload
    · exact absurd hload (hrefuses.not_ok s out)
    · obtain ⟨l, hread, -⟩ := scConfigLoad_ok s hload
      refine ⟨l, hread, ?_⟩
      by_cases hhome : Fits i.homeDir
      · exact readFiles_whole hhome htakes hread
      · have hl := readFiles_homeless hhome hread
        have hglobal : i.global = none := Option.eq_none_iff_forall_not_mem.mpr fun f hf =>
          hhome (htakes.global f hf).1
        have hworkspace : i.workspace = none := Option.eq_none_iff_forall_not_mem.mpr fun f hf =>
          hhome (htakes.workspace f hf).1
        rw [parseBoth, hglobal, hworkspace, hl]
        exact ⟨rfl, fun hsome => absurd hsome Bool.false_ne_true,
          fun hsome => absurd hsome Bool.false_ne_true⟩

/-! ## A file that is dropped -/

/-- Settings of which only the provider is looked at. -/
def providerSettings : Settings Unit (Option Bytes) where
  treeFits := fun _ => true
  migrate := fun _ root => .ok root
  readFields := fun _ cfg root => (scJsonGetString root (ascii "default_provider")).or cfg
  applyEnvOverrides := id
  syncAutonomyLevel := id
  syncFlatFields := id
  validateStrict := fun _ _ _ => none
  validate := fun _ => none

/-- A file in the working directory that ends too early, read without any failure. -/
def brokenWorkspace : Launch Unit (Option Bytes) where
  arena := true
  defaults := some (ascii "gemini")
  home := some (ascii "/root")
  global := none
  cwd := some (ascii "/w")
  workspace := some ⟨[ch '\x7b'], true, 1, true, 1, [], ()⟩
  strict := false
  again := none

/-- The call succeeds with the defaults, although the file is no configuration. -/
theorem config_load_drops_workspace :
    scConfigLoad providerSettings brokenWorkspace = .ok (some (ascii "gemini")) ∧
      ¬ DropsNothing providerSettings brokenWorkspace := by
  have hread : readFiles providerSettings brokenWorkspace =
      .ok ⟨some (ascii "gemini"), []⟩ := by decide
  have hload : scConfigLoad providerSettings brokenWorkspace =
      .ok (some (ascii "gemini")) := by decide
  refine ⟨hload, fun hdrops => ?_⟩
  obtain ⟨l, hl, -, -, hworkspace⟩ := hdrops _ hload
  rw [hread] at hl
  cases hl
  exact absurd (hworkspace rfl) List.not_mem_nil

end SeaClaw.Config
