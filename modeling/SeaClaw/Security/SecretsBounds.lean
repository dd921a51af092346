import SeaClaw.Lib.CBuffer
import SeaClaw.Security.SecretsAuthenticity

/-!
# The lengths of a secret that is decrypted

The length of the ciphertext is what nonce and tag leave of the blob, in arithmetic that wraps. It
is checked that there is more than a nonce, not that there is a tag.
-/

namespace SeaClaw.Security

open SeaClaw.Lib

/-- `ct_len` of `sc_secret_store_decrypt`. -/
def ctLen (blobLen : ℕ) : ℕ := sizeSub (sizeSub blobLen nonceLen) hmacLen

/-- The length of the ciphertext does not wrap around, and the tag is read inside the blob. -/
structure InBounds (blobLen : ℕ) : Prop where
  exact : (ctLen blobLen : ℤ) = (blobLen : ℤ) - nonceLen - hmacLen
  tag : ∀ i < hmacLen, (nonceLen + ctLen blobLen + i) % 2 ^ 64 < blobLen

/-- The bounds hold exactly if there is room for nonce and tag. -/
theorem inBounds_iff {blobLen : ℕ} (h : blobLen ≤ blobCap) :
    InBounds blobLen ↔ nonceLen + hmacLen ≤ blobLen := by
  constructor
  · rintro ⟨hexact, -⟩
    have hnonneg : (0 : ℤ) ≤ ctLen blobLen := Int.natCast_nonneg _
    omega
  · intro hroom
    have hlen : ctLen blobLen = blobLen - nonceLen - hmacLen := by
      rw [ctLen, sizeSub_of_le (b := nonceLen) (by omega), sizeSub_of_le (by omega)]
    refine ⟨by rw [hlen]; omega, fun i hi => ?_⟩
    rw [hlen, Nat.mod_eq_of_lt]
    · omega
    · simp only [blobCap] at h
      omega

/-- The call decodes its value, finds the key, and takes this blob apart. -/
def Opens (file : Option Bytes) (a : DecryptAnswers) (value : Option Bytes) (blob : Bytes) : Prop :=
  ∃ v key, value = some v ∧ Spells v blob ∧ nonceLen < blob.length ∧ blob.length ≤ blobCap ∧
    (loadOrCreateKey file a.key).1 = .ok key

/-- A marked value with too few digits for a nonce and a tag. -/
def TooShort (value : Bytes) : Prop :=
  scSecretStoreIsEncrypted (some value) = true ∧
    (value.drop enc2Prefix.length).length < 2 * (nonceLen + hmacLen)

/-- A call stays inside the blob that it takes apart, and refuses values that are too short. -/
structure DecryptsSafely (c : Crypto) (store : SecretStore) (file : Option Bytes)
    (a : DecryptAnswers) (value : Option Bytes) : Prop where
  inBounds : ∀ blob, Opens file a value blob → InBounds blob.length
  refused : ∀ v, value = some v → TooShort v →
    ∃ file', scSecretStoreDecrypt c store file a value = some (.error .cryptoDecrypt, file')

section Decrypt

variable {c : Crypto} {store : SecretStore} {file : Option Bytes} {a : DecryptAnswers}

theorem Spells.length {v blob : Bytes} (h : Spells v blob) :
    (v.drop enc2Prefix.length).length = 2 * blob.length := by
  rw [← length_hexEncode, ← hexDecode_eq_some_iff.mp h.2, List.length_map]

/-- A blob that is taken apart without room for a tag leads out of what is defined. -/
theorem scSecretStoreDecrypt_of_opens {v blob : Bytes} (h : Opens file a (some v) blob) :
    scSecretStoreDecrypt c store file a (some v) = none ↔ ¬ InBounds blob.length := by
  obtain ⟨w, key, hw, hspells, hnonce, hcap, hkey⟩ := h
  obtain rfl := Option.some.inj hw
  rw [inBounds_iff hcap, scSecretStoreDecrypt_spells hspells, if_neg (by omega)]
  rcases hload : loadOrCreateKey file a.key with ⟨r, file'⟩
  rw [hload] at hkey
  simp only at hkey
  subst hkey
  simp only [Option.map_eq_none_iff]
  rw [openBlob]
  by_cases hroom : blob.length < nonceLen + hmacLen
  · rw [dif_pos hroom]
    exact iff_of_true rfl (by omega)
  · rw [dif_neg hroom]
    refine iff_of_false ?_ (by omega)
    simp only
    split_ifs <;> simp

/-- What is no text of digits is refused. -/
theorem scSecretStoreDecrypt_undecoded {v : Bytes}
    (henc : scSecretStoreIsEncrypted (some v) = true)
    (hdecode : hexDecode (v.drop enc2Prefix.length) = none) :
    scSecretStoreDecrypt c store file a (some v) = some (.error .cryptoDecrypt, file) := by
  have hfail : ∃ e, scHexDecode (v.drop enc2Prefix.length) blobCap = .error e := by
    rw [scHexDecode, hdecode]
    split_ifs
    · exact ⟨_, rfl⟩
    · exact ⟨_, rfl⟩
    · exact ⟨_, rfl⟩
  obtain ⟨e, he⟩ := hfail
  simp only [scSecretStoreDecrypt, henc, not_true_eq_false, if_false, he]
  split_ifs <;> rfl

/-- Decryption is safe exactly if no value that spells more than a nonce, but not a nonce and a
tag, gets past the key file. -/
theorem secret_decrypt_safe_iff (c : Crypto) (store : SecretStore) (file : Option Bytes)
    (a : DecryptAnswers) (value : Option Bytes) : DecryptsSafely c store file a value ↔
      ∀ v blob, value = some v → Spells v blob → nonceLen < blob.length →
        blob.length < nonceLen + hmacLen →
          (loadOrCreateKey file a.key).1 = .error .cryptoDecrypt := by
  constructor
  · rintro ⟨-, hrefused⟩ v blob rfl hspells hnonce hshort
    have hlength := hspells.length
    have hcap : blobCap = 8192 := rfl
    have hn : nonceLen = 12 := rfl
    have ht : hmacLen = 32 := rfl
    obtain ⟨file', hdecrypt⟩ := hrefused v rfl ⟨hspells.1, by omega⟩
    rw [scSecretStoreDecrypt_spells hspells, if_neg (by omega)] at hdecrypt
    rcases hload : loadOrCreateKey file a.key with ⟨e | key, f⟩
    · simp only [hload, Option.some.injEq, Prod.mk.injEq, Except.error.injEq] at hdecrypt
      simp only [hdecrypt.1]
    · simp only [hload] at hdecrypt
      rw [openBlob, dif_pos hshort] at hdecrypt
      exact absurd hdecrypt (by simp)
  · intro h
    refine ⟨?_, ?_⟩
    · rintro blob ⟨v, key, hv, hspells, hnonce, hcap, hkey⟩
      rw [inBounds_iff hcap]
      by_contra hshort
      rw [h v blob hv hspells hnonce (by omega)] at hkey
      exact absurd hkey (by simp)
    · rintro v rfl ⟨henc, hdigits⟩
      cases hdecode : hexDecode (v.drop enc2Prefix.length) with
      | none => exact ⟨file, scSecretStoreDecrypt_undecoded henc hdecode⟩
      | some blob =>
        have hspells : Spells v blob := ⟨henc, hdecode⟩
        have hlength := hspells.length
        rw [scSecretStoreDecrypt_spells hspells]
        by_cases hnonce : blob.length ≤ nonceLen
        · exact ⟨file, by rw [if_pos (Or.inl hnonce)]⟩
        · have hcap : blobCap = 8192 := rfl
          have hn : nonceLen = 12 := rfl
          have ht : hmacLen = 32 := rfl
          have hkey := h v blob rfl hspells (by omega) (by omega)
          rw [if_neg (by omega)]
          rcases hload : loadOrCreateKey file a.key with ⟨r, f⟩
          rw [hload] at hkey
          simp only at hkey
          subst hkey
          exact ⟨f, rfl⟩

end Decrypt

/-- Thirteen octets are decrypted: a nonce, and one octet in the place of a tag. -/
theorem secret_decrypt_wraps :
    ¬ DecryptsSafely plainCrypto ⟨true⟩ plainFile plainAnswers
      (some (ascii "enc2:00000000000000000000000000")) := by
  intro h
  obtain ⟨file', hrefused⟩ := h.refused _ rfl ⟨by decide, by decide⟩
  have hnone : scSecretStoreDecrypt plainCrypto ⟨true⟩ plainFile plainAnswers
      (some (ascii "enc2:00000000000000000000000000")) = none := by decide
  rw [hnone] at hrefused
  cases hrefused

end SeaClaw.Security
