import SeaClaw.Security.Vault
import SeaClaw.Json.RoundTrip
import SeaClaw.Lib.Machine
import Mathlib.Algebra.BigOperators.Group.List.Basic

/-!
# What the vault remembers

The file is the text of entries with distinct keys, and loading gives the entries back as
long as the text is at most a mebibyte long; beyond it everything is forgotten. So the vault
is the map of the latest values throughout a run exactly when no call writes a longer text.
-/

namespace SeaClaw.Security

open SeaClaw.Lib SeaClaw.Json

/-! ## Entries -/

/-- The text of a value as it is kept. -/
def Vault.stored (v : Vault) (value : CString) : Value :=
  .string (b64Encode (v.crypt value.octets))

/-- The pairs of some entries. -/
def Vault.pairs (v : Vault) (entries : List (CString × CString)) : List (Bytes × Value) :=
  entries.map (Prod.map CString.octets v.stored)

/-- The texts that fit into the buffer of `sc_vault_set`. -/
def Storable (value : CString) : Prop := value.octets ≠ [] ∧ value.octets.length ≤ 3069

theorem octets_injective : Function.Injective CString.octets := fun _ _ => CString.ext

@[simp] theorem Vault.crypt_crypt (v : Vault) (s : Bytes) : v.crypt (v.crypt s) = s := by
  rw [Vault.crypt, Vault.crypt]
  split_ifs
  · exact xorStream_involutive _ s
  · rfl

@[simp] theorem Vault.length_crypt (v : Vault) (s : Bytes) : (v.crypt s).length = s.length := by
  rw [Vault.crypt]
  split_ifs
  · exact length_xorStream _ s
  · rfl

/-- A text is kept when it is storable. -/
theorem Vault.base64Encode_crypt (v : Vault) (value : CString) :
    (Storable value ∧ base64Encode (v.crypt value.octets) b64Cap =
        b64Encode (v.crypt value.octets) ∧ (b64Encode (v.crypt value.octets)).length ≠ 0) ∨
      (¬ Storable value ∧ base64Encode (v.crypt value.octets) b64Cap = []) := by
  have hlen := length_b64Encode (v.crypt value.octets)
  rw [v.length_crypt] at hlen
  rw [base64Encode, v.length_crypt, b64Cap]
  by_cases hnil : value.octets = []
  · refine Or.inr ⟨fun h => h.1 hnil, ?_⟩
    have hzero : (v.crypt value.octets).length = 0 := by rw [v.length_crypt, hnil]; rfl
    rw [List.length_eq_zero_iff.mp hzero]
    simp [b64Encode]
  · have hpos : 0 < value.octets.length := List.length_pos_iff.mpr hnil
    by_cases hlong : value.octets.length ≤ 3069
    · rw [if_neg (by omega)]
      exact Or.inl ⟨⟨hnil, hlong⟩, rfl, by omega⟩
    · rw [if_pos (by omega)]
      exact Or.inr ⟨fun h => hlong h.2, rfl⟩

/-- What is kept for a storable text is decoded to it. -/
theorem Vault.base64Decode_stored (v : Vault) {value : CString} (h : Storable value) :
    base64Decode (b64Encode (v.crypt value.octets)) b64Cap = .ok (v.crypt value.octets) := by
  have hlen := length_b64Encode (v.crypt value.octets)
  rw [v.length_crypt] at hlen
  have hstrip : ((b64Encode (v.crypt value.octets)).rdropWhile (· = ch '=')).length ≤
      (b64Encode (v.crypt value.octets)).length :=
    (List.rdropWhile_prefix _ _).length_le
  have hshort := h.2
  rw [base64Decode, if_neg, b64Decode_encode]
  rw [b64Cap]
  omega

/-! ## The file -/

/-- The entries that the pairs of an object make, and their text. -/
structure Holds (v : Vault) (file : Option Bytes) (entries : List (CString × CString)) : Prop where
  load : vaultLoad file = some (v.pairs entries)
  distinct : AssocList.Distinct entries
  storable : ∀ e ∈ entries, Storable e.2

theorem plain_pairs (v : Vault) (entries : List (CString × CString)) :
    PlainPairs (v.pairs entries) := by
  induction entries with
  | nil => exact trivial
  | cons e entries ih => exact ⟨trivial, ih⟩

theorem depth_pairs (v : Vault) (entries : List (CString × CString)) :
    pairsDepth (v.pairs entries) = 0 := by
  induction entries with
  | nil => rfl
  | cons e entries ih =>
    rw [Vault.pairs, List.map_cons, ← Vault.pairs, Prod.map, pairsDepth, ih]
    rfl

/-- The length of the text of an object. -/
def textLength (pairs : List (Bytes × Value)) : ℕ := (scJsonStringify (.object pairs)).length

theorem textLength_pos (pairs : List (Bytes × Value)) : 0 < textLength pairs := by
  simp [textLength, scJsonStringify, stringifyValue]

/-- A text that was saved is loaded if it is not too long, and forgotten otherwise. -/
theorem vaultLoad_vaultSave (v : Vault) {entries : List (CString × CString)}
    (h : AssocList.Distinct entries) : vaultLoad (vaultSave (v.pairs entries)) =
      some (if textLength (v.pairs entries) ≤ vaultFileMax then v.pairs entries else []) := by
  have hpos := textLength_pos (v.pairs entries)
  rw [vaultSave, vaultLoad]
  by_cases hlong : textLength (v.pairs entries) ≤ vaultFileMax
  · have hplain : Value.Plain (.object (v.pairs entries)) :=
      ⟨h.map octets_injective v.stored, plain_pairs v entries⟩
    have hdepth : Value.depth (.object (v.pairs entries)) ≤ jsonMaxDepth := by
      rw [Value.depth, depth_pairs]
      decide
    rw [if_pos hlong, if_neg (by rw [← textLength]; omega),
      scJsonParse_of_follows hplain hdepth (follows_cons (by decide) _)]
  · rw [if_neg hlong, if_pos (Or.inr (by rw [← textLength]; omega))]

/-! ## Lengths -/

/-- What one pair takes up, with the comma before it. -/
def pairLength (p : Bytes × Value) : ℕ :=
  (stringifyString p.1).length + (stringifyValue p.2).length + 2

theorem length_stringifyPairs_succ (i : ℕ) (ps : List (Bytes × Value)) :
    (stringifyPairs (i + 1) ps).length = (ps.map pairLength).sum := by
  induction ps generalizing i with
  | nil => rfl
  | cons p ps ih =>
    rw [stringifyPairs, if_pos (by omega), List.map_cons, List.sum_cons, ← ih (i + 1)]
    simp only [List.length_append, List.length_singleton, pairLength]
    omega

theorem textLength_eq (ps : List (Bytes × Value)) :
    textLength ps = (ps.map pairLength).sum - 1 + 2 := by
  rw [textLength, scJsonStringify, stringifyValue]
  cases ps with
  | nil => rfl
  | cons p ps =>
    rw [stringifyPairs, if_neg (by omega)]
    simp only [List.length_cons, List.length_append, List.length_nil, List.map_cons,
      List.sum_cons, pairLength, length_stringifyPairs_succ]
    omega

/-- Removing a pair makes the text no longer. -/
theorem textLength_swapRemove {k : Bytes} {ps qs : List (Bytes × Value)}
    (h : AssocList.swapRemove k ps = some qs) : textLength qs ≤ textLength ps := by
  obtain ⟨v, hperm⟩ := AssocList.swapRemove_perm h
  have hsum := (hperm.map pairLength).sum_eq
  rw [List.map_cons, List.sum_cons] at hsum
  rw [textLength_eq, textLength_eq]
  omega

/-! ## Runs -/

/-- The file, and for each key the value of the latest successful set that no successful
delete has followed. -/
structure VaultState where
  file : Option Bytes
  latest : CString → Option CString

/-- There is no file, and nothing was set. -/
def VaultState.new : VaultState := ⟨none, fun _ => none⟩

inductive VaultCall where
  | set (key value : CString)
  | get (key : CString) (outSize : ℕ)
  | delete (key : CString)

/-- The latest values after a call that set the key to `value?` if it succeeded. -/
def record (latest : CString → Option CString) (key : CString) (value? : Option CString) :
    Except ScError Unit → CString → Option CString
  | .ok () => Function.update latest key value?
  | .error _ => latest

/-- One call. -/
def vaultStep (v : Vault) (s : VaultState) : VaultCall → Option VaultState
  | .set key value =>
    (scVaultSet v s.file key value).map fun r => ⟨r.2, record s.latest key (some value) r.1⟩
  | .get key outSize => (scVaultGet v s.file key outSize).map fun _ => s
  | .delete key =>
    (scVaultDelete v s.file key).map fun r => ⟨r.2, record s.latest key none r.1⟩

/-- Every key gets its latest value, and `SC_ERR_NOT_FOUND` if there is none, with room for
it in the buffer. -/
def Faithful (v : Vault) (s : VaultState) : Prop :=
  ∀ key, match s.latest key with
    | some value => ∀ outSize, value.octets.length < outSize →
      scVaultGet v s.file key outSize = some (.ok value.octets)
    | none => ∀ outSize, 0 < outSize →
      scVaultGet v s.file key outSize = some (.error .notFound)

/-- If the call sets a key, the text it writes is not too long to be loaded. -/
def Fits (v : Vault) (s : VaultState) : VaultCall → Prop
  | .set key value =>
    Storable value → ∀ pairs, vaultLoad s.file = some pairs →
      textLength (scJsonObjectSet key (v.stored value) pairs) ≤ vaultFileMax
  | _ => True

/-! ## What one call does -/

variable {v : Vault}

theorem Holds.get {file : Option Bytes} {entries : List (CString × CString)}
    (h : Holds v file entries) (key : CString) {outSize : ℕ} (hout : 0 < outSize) :
    scVaultGet v file key outSize = some (match AssocList.find entries key with
      | none => .error .notFound
      | some value =>
        if value.octets.length ≥ outSize then .error .invalidArgument else .ok value.octets) := by
  have hfind : scJsonObjectGet (.object (v.pairs entries)) key.octets =
      (AssocList.find entries key).map v.stored :=
    AssocList.find_map octets_injective v.stored entries key
  rw [scVaultGet, if_neg (by omega), h.load, Option.map_some, hfind]
  cases hvalue : AssocList.find entries key with
  | none => rfl
  | some value =>
    have hmem := (AssocList.find_eq_some_iff h.distinct).mp hvalue
    simp only [Option.map_some, Vault.stored, v.base64Decode_stored (h.storable _ hmem),
      v.length_crypt, v.crypt_crypt]

/-- The vault is faithful when the entries it holds are the latest values. -/
theorem Holds.faithful_iff {s : VaultState} {entries : List (CString × CString)}
    (h : Holds v s.file entries) :
    Faithful v s ↔ ∀ key, s.latest key = AssocList.find entries key := by
  refine forall_congr' fun key => ?_
  cases hlatest : s.latest key with
  | none =>
    simp only
    constructor
    · intro hget
      have hone := hget
      cases hfind : AssocList.find entries key with
      | none => rfl
      | some value =>
        have hbig := hone (value.octets.length + 1) (by omega)
        rw [h.get key (by omega), hfind] at hbig
        simp at hbig
    · intro hfind outSize hout
      rw [h.get key hout, ← hfind]
  | some value =>
    simp only
    constructor
    · intro hget
      cases hfind : AssocList.find entries key with
      | none =>
        have hbig := hget (value.octets.length + 1) (by omega)
        rw [h.get key (by omega), hfind] at hbig
        simp at hbig
      | some value' =>
        have hbig := hget (value.octets.length + value'.octets.length + 1) (by omega)
        rw [h.get key (by omega), hfind] at hbig
        simp only [Option.some.injEq] at hbig
        rw [if_neg (by omega), Except.ok.injEq] at hbig
        rw [CString.ext hbig]
    · intro hfind outSize hout
      rw [h.get key (by omega), ← hfind]
      simp only
      rw [if_neg (by omega)]

/-- The files that calls leave behind. -/
def Written (v : Vault) (s : VaultState) : Prop :=
  s.file = none ∨ ∃ entries, AssocList.Distinct entries ∧ (∀ e ∈ entries, Storable e.2) ∧
    s.file = vaultSave (v.pairs entries)

/-- Every such file holds some entries, all or none of those that were written. -/
theorem Written.holds {s : VaultState} (h : Written v s) : ∃ entries, Holds v s.file entries ∧
    (entries = [] ∨ textLength (v.pairs entries) ≤ vaultFileMax) := by
  rcases h with hnone | ⟨entries, hdistinct, hstorable, hfile⟩
  · refine ⟨[], ⟨?_, List.nodup_nil, by simp⟩, Or.inl rfl⟩
    rw [hnone]
    rfl
  · have hload := vaultLoad_vaultSave v hdistinct
    rw [← hfile] at hload
    by_cases hlong : textLength (v.pairs entries) ≤ vaultFileMax
    · rw [if_pos hlong] at hload
      exact ⟨entries, ⟨hload, hdistinct, hstorable⟩, Or.inr hlong⟩
    · rw [if_neg hlong] at hload
      exact ⟨[], ⟨hload, List.nodup_nil, by simp⟩, Or.inl rfl⟩

theorem storable_of_mem_put {entries : List (CString × CString)} {key value : CString}
    (h : ∀ e ∈ entries, Storable e.2) (hv : Storable value) :
    ∀ e ∈ AssocList.put key value entries, Storable e.2 := by
  induction entries with
  | nil => simpa [AssocList.put] using hv
  | cons p entries ih =>
    rw [List.forall_mem_cons] at h
    rw [AssocList.put]
    split_ifs
    · exact List.forall_mem_cons.mpr ⟨hv, h.2⟩
    · exact List.forall_mem_cons.mpr ⟨h.1, ih h.2⟩

/-- Setting a key puts the entry, or fails and changes nothing. -/
theorem Holds.set {file : Option Bytes} {entries : List (CString × CString)}
    (h : Holds v file entries) (key value : CString) :
    (Storable value ∧ scVaultSet v file key value =
      some (.ok (), vaultSave (v.pairs (AssocList.put key value entries)))) ∨
    (¬ Storable value ∧ scVaultSet v file key value = some (.error .invalidArgument, file)) := by
  rw [scVaultSet]
  rcases v.base64Encode_crypt value with ⟨hstorable, hb64, hne⟩ | ⟨hnot, hb64⟩
  · refine Or.inl ⟨hstorable, ?_⟩
    simp only [hb64, if_neg hne, h.load, Option.map_some, scJsonObjectSet]
    rw [← Vault.stored, Vault.pairs, AssocList.put_map octets_injective, ← Vault.pairs]
  · refine Or.inr ⟨hnot, ?_⟩
    simp only [hb64, List.length_nil, if_true]

/-- Deleting a key removes its entry, or fails and changes nothing. -/
theorem Holds.delete {file : Option Bytes} {entries : List (CString × CString)}
    (h : Holds v file entries) (key : CString) :
    (AssocList.swapRemove key entries = none ∧
      scVaultDelete v file key = some (.error .notFound, file)) ∨
    ∃ rest, AssocList.swapRemove key entries = some rest ∧
      scVaultDelete v file key = some (.ok (), vaultSave (v.pairs rest)) := by
  have hmap := AssocList.swapRemove_map octets_injective v.stored entries key
  rw [← Vault.pairs] at hmap
  rw [scVaultDelete, h.load, Option.map_some, scJsonObjectRemove, hmap]
  cases hrest : AssocList.swapRemove key entries with
  | none => exact Or.inl ⟨rfl, rfl⟩
  | some rest => exact Or.inr ⟨rest, rfl, rfl⟩

theorem storable_of_swapRemove {entries rest : List (CString × CString)} {key : CString}
    (h : ∀ e ∈ entries, Storable e.2) (hrest : AssocList.swapRemove key entries = some rest) :
    ∀ e ∈ rest, Storable e.2 := by
  obtain ⟨value, hperm⟩ := AssocList.swapRemove_perm hrest
  intro e he
  exact h e (hperm.mem_iff.mpr (List.mem_cons_of_mem _ he))

/-- Every call is defined and leaves such a file again. -/
theorem Written.step {s : VaultState} (h : Written v s) (call : VaultCall) :
    ∃ s', vaultStep v s call = some s' ∧ Written v s' := by
  obtain ⟨entries, hholds, -⟩ := h.holds
  cases call with
  | set key value =>
    rcases hholds.set key value with ⟨hstorable, hset⟩ | ⟨-, hset⟩
    · refine ⟨⟨vaultSave (v.pairs (AssocList.put key value entries)),
        Function.update s.latest key (some value)⟩, by rw [vaultStep, hset]; rfl, Or.inr ?_⟩
      exact ⟨_, hholds.distinct.put key value, storable_of_mem_put hholds.storable hstorable, rfl⟩
    · exact ⟨s, by rw [vaultStep, hset]; rfl, h⟩
  | get key outSize =>
    refine ⟨s, ?_, h⟩
    by_cases hout : outSize = 0
    · rw [vaultStep, scVaultGet, if_pos hout]
      rfl
    · rw [vaultStep, hholds.get key (by omega)]
      rfl
  | delete key =>
    rcases hholds.delete key with ⟨-, hdelete⟩ | ⟨rest, hrest, hdelete⟩
    · exact ⟨s, by rw [vaultStep, hdelete]; rfl, h⟩
    · refine ⟨⟨vaultSave (v.pairs rest), Function.update s.latest key none⟩,
        by rw [vaultStep, hdelete]; rfl, Or.inr ?_⟩
      exact ⟨rest, hholds.distinct.swapRemove hrest, storable_of_swapRemove hholds.storable hrest,
        rfl⟩

/-- A faithful vault stays faithful exactly when the text that a call writes is not too
long. -/
theorem Faithful.step_iff {s s' : VaultState} {call : VaultCall} (h : Written v s)
    (hs : Faithful v s) (hstep : vaultStep v s call = some s') :
    Faithful v s' ↔ Fits v s call := by
  obtain ⟨entries, hholds, hshort⟩ := h.holds
  have hlatest := hholds.faithful_iff.mp hs
  cases call with
  | set key value =>
    have hpairs : scJsonObjectSet key (v.stored value) (v.pairs entries) =
        v.pairs (AssocList.put key value entries) :=
      AssocList.put_map octets_injective v.stored entries key value
    simp only [Fits, hholds.load, Option.some.injEq, forall_eq', hpairs]
    rcases hholds.set key value with ⟨hstorable, hset⟩ | ⟨hnot, hset⟩
    · rw [vaultStep, hset, Option.map_some, Option.some.injEq] at hstep
      subst hstep
      have hdistinct := hholds.distinct.put key value
      have hload := vaultLoad_vaultSave v hdistinct
      simp only [hstorable, true_implies]
      by_cases hlong : textLength (v.pairs (AssocList.put key value entries)) ≤ vaultFileMax
      · rw [if_pos hlong] at hload
        refine iff_of_true ?_ hlong
        rw [Holds.faithful_iff
          ⟨hload, hdistinct, storable_of_mem_put hholds.storable hstorable⟩]
        intro k
        simp only [AssocList.find_put, record, Function.update_apply, hlatest]
      · rw [if_neg hlong] at hload
        refine iff_of_false ?_ hlong
        have hholds' : Holds v _ [] := ⟨hload, List.nodup_nil, by simp⟩
        rw [hholds'.faithful_iff]
        intro hnone
        have hkey := hnone key
        simp only [record, Function.update_self, AssocList.find_nil] at hkey
        exact absurd hkey (by simp)
    · rw [vaultStep, hset, Option.map_some, Option.some.injEq] at hstep
      subst hstep
      exact iff_of_true hs fun hstorable => absurd hstorable hnot
  | get key outSize =>
    rw [vaultStep, Option.map_eq_some_iff] at hstep
    obtain ⟨r, -, rfl⟩ := hstep
    exact iff_of_true hs trivial
  | delete key =>
    rcases hholds.delete key with ⟨-, hdelete⟩ | ⟨rest, hrest, hdelete⟩
    · rw [vaultStep, hdelete, Option.map_some, Option.some.injEq] at hstep
      subst hstep
      exact iff_of_true hs trivial
    · rw [vaultStep, hdelete, Option.map_some, Option.some.injEq] at hstep
      subst hstep
      refine iff_of_true ?_ trivial
      have hfits : textLength (v.pairs rest) ≤ vaultFileMax := by
        rcases hshort with rfl | hshort
        · simp [AssocList.swapRemove] at hrest
        · have hmap := AssocList.swapRemove_map octets_injective v.stored entries key
          rw [hrest, Option.map_some] at hmap
          exact (textLength_swapRemove hmap).trans hshort
      have hdistinct := hholds.distinct.swapRemove hrest
      have hload := vaultLoad_vaultSave v hdistinct
      rw [if_pos hfits] at hload
      rw [Holds.faithful_iff
        ⟨hload, hdistinct, storable_of_swapRemove hholds.storable hrest⟩]
      intro k
      simp only [AssocList.find_swapRemove hholds.distinct hrest, record, Function.update_apply,
        hlatest]

/-! ## Whole runs -/

/-- From a vault without a file, every get returns the latest value throughout a run exactly
when no set makes the text of the file longer than a mebibyte. -/
theorem vault_faithful_iff (v : Vault) (calls : List VaultCall) :
    Machine.Throughout (vaultStep v) (Faithful v) VaultState.new calls ↔
      Machine.EveryStep (vaultStep v) (Fits v) VaultState.new calls := by
  have hnew : Holds v VaultState.new.file [] := ⟨rfl, List.nodup_nil, by simp⟩
  refine Machine.throughout_iff_everyStep (I := Written v) (fun s call h => h.step call)
    (fun s call s' h hs hstep => hs.step_iff h hstep) (Or.inl rfl) ?_ calls
  rw [hnew.faithful_iff]
  exact fun key => rfl

/-! ## A key that is too long -/

theorem length_escapeOctet : ∀ b, 1 ≤ (Json.escapeOctet b).length := by decide +kernel

theorem length_stringifyString (s : Bytes) : s.length + 2 ≤ (stringifyString s).length := by
  rw [stringifyString, List.length_cons, List.length_append, List.length_singleton]
  have hflat : s.length ≤ (s.flatMap Json.escapeOctet).length := by
    induction s with
    | nil => simp
    | cons b s ih =>
      have hb := length_escapeOctet b
      rw [List.flatMap_cons, List.length_append, List.length_cons]
      omega
  omega

/-- A key as long as the longest file is set and then not found. -/
theorem vault_forgets (v : Vault) {key value : CString} (hkey : vaultFileMax ≤ key.octets.length)
    (hvalue : Storable value) : ∃ file, scVaultSet v none key value = some (.ok (), file) ∧
      ∀ outSize, 0 < outSize → scVaultGet v file key outSize = some (.error .notFound) := by
  have hnew : Holds v none [] := ⟨rfl, List.nodup_nil, by simp⟩
  have hdistinct := hnew.distinct.put key value
  rcases hnew.set key value with ⟨-, hset⟩ | ⟨hnot, -⟩
  · refine ⟨_, hset, ?_⟩
    have hload := vaultLoad_vaultSave v hdistinct
    have hlong : ¬ textLength (v.pairs (AssocList.put key value [])) ≤ vaultFileMax := by
      have hlen := length_stringifyString key.octets
      rw [textLength_eq]
      simp only [AssocList.put, Vault.pairs, List.map_cons, List.map_nil, List.sum_cons,
        List.sum_nil, pairLength, Prod.map]
      omega
    rw [if_neg hlong] at hload
    intro outSize hout
    have hholds : Holds v _ [] := ⟨hload, List.nodup_nil, by simp⟩
    rw [hholds.get key hout]
    rfl
  · exact absurd hvalue hnot

theorem bigKey_noNul : 0 ∉ List.replicate vaultFileMax (ch 'a') := by
  rw [List.mem_replicate]
  rintro ⟨-, h⟩
  exact absurd h (by decide)

theorem smallValue_noNul : 0 ∉ ascii "x" := by decide

/-- So with a mebibyte of the letter `a`, and a value of one letter. -/
theorem vault_forgets_bigKey : ∃ file,
    scVaultSet (scVaultCreate none) none ⟨List.replicate vaultFileMax (ch 'a'), bigKey_noNul⟩
      ⟨ascii "x", smallValue_noNul⟩ = some (.ok (), file) ∧
    ∀ outSize, 0 < outSize → scVaultGet (scVaultCreate none) file
      ⟨List.replicate vaultFileMax (ch 'a'), bigKey_noNul⟩ outSize = some (.error .notFound) :=
  vault_forgets _ List.length_replicate.ge ⟨by decide, by decide⟩

end SeaClaw.Security
