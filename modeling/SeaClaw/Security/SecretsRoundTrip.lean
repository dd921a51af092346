import SeaClaw.Security.SecretsAuthenticity

/-!
# Secrets that come back

What an enabled store encrypts is decrypted again as long as the blob fits into the buffer
of decryption and the key file still gives the key. A disabled store hands out its texts as
they are, and takes one that starts with `enc2:` for encrypted.
-/

namespace SeaClaw.Security

open SeaClaw.Lib

variable (c : Crypto)

/-- The two keys do the same with the text under the nonce. -/
def KeysAgree (key key' : Octets keyLen) (nonce : Octets nonceLen) (text : Bytes) : Prop :=
  c.hmacSha256 key'.val (c.chacha20 key nonce 1 text) =
      c.hmacSha256 key.val (c.chacha20 key nonce 1 text) ∧
    c.chacha20 key' nonce 1 (c.chacha20 key nonce 1 text) = text

/-- The key that decryption takes from the file does with the text what the key does that
encryption took from it or put there. -/
def KeyKept (file file' : Option Bytes) (e : EncryptAnswers) (a : DecryptAnswers)
    (text : Bytes) : Prop :=
  ∃ key key' nonce, (loadOrCreateKey file e.key).1 = .ok key ∧ e.nonce = some nonce ∧
    (loadOrCreateKey file' a.key).1 = .ok key' ∧ KeysAgree c key key' nonce text

variable {c}

/-! ## The key file -/

theorem keysAgree_self (key : Octets keyLen) (nonce : Octets nonceLen) (text : Bytes) :
    KeysAgree c key key nonce text := ⟨rfl, chacha20_involutive key nonce 1 text⟩

theorem isTrimmed_hexDigit : ∀ n < 16, isTrimmed (hexDigit n) = false := by decide

theorem hexEncode_not_trimmed (data : Bytes) : ∀ b ∈ hexEncode data, isTrimmed b = false := by
  induction data with
  | nil => simp [hexEncode]
  | cons b data ih =>
    have hb := b.toNat_lt
    simp only [hexEncode, List.forall_mem_cons]
    exact ⟨isTrimmed_hexDigit _ (by omega), isTrimmed_hexDigit _ (by omega), ih⟩

/-- A key that was written whole is read back. -/
theorem parseKey_hexEncode (key : Octets keyLen) : parseKey (hexEncode key.val) = .ok key := by
  have htrim : (hexEncode key.val).rdropWhile isTrimmed = hexEncode key.val := by
    rw [List.rdropWhile_eq_self_iff]
    intro hne
    rw [hexEncode_not_trimmed key.val _ (List.getLast_mem hne)]
    simp
  have hnul : (hexEncode key.val).takeWhile (· ≠ 0) = hexEncode key.val := by
    rw [List.takeWhile_eq_self_iff]
    intro b hb
    rw [decide_eq_true_eq]
    rintro rfl
    exact hexEncode_noNul _ hb
  rw [parseKey, htrim, hnul, scHexDecode_hexEncode key.2.le]
  simp only [dif_pos key.2]

/-- A file that both calls can read whole, or that the first one has written whole and the
second one can read, keeps the key. -/
theorem loadOrCreateKey_kept {file file' : Option Bytes} {a a' : KeyAnswers}
    {key : Octets keyLen} (h : loadOrCreateKey file a = (.ok key, file'))
    (hread : 79 ≤ a.read) (hwritten : 64 ≤ a.written) (hreadable : a'.readable = true)
    (hread' : 79 ≤ a'.read) : loadOrCreateKey file' a' = (.ok key, file') := by
  have hmin : min 79 a.read = 79 := min_eq_left hread
  have hmin' : min 79 a'.read = 79 := min_eq_left hread'
  rw [loadOrCreateKey] at h ⊢
  rw [hmin] at h
  rw [hreadable, hmin', if_pos rfl]
  cases hfile : (if a.readable = true then file else none) with
  | some text =>
    rw [hfile, Prod.mk.injEq] at h
    obtain ⟨hkey, rfl⟩ := h
    have hf : file = some text := by
      split_ifs at hfile
      exact hfile
    rw [hf]
    simp only [hkey]
  | none =>
    simp only [hfile] at h
    cases hrandom : a.random with
    | none => simp [hrandom] at h
    | some k =>
      simp only [hrandom] at h
      split_ifs at h
      · rw [Prod.mk.injEq, Except.ok.injEq] at h
        obtain ⟨rfl, rfl⟩ := h
        have hlen : (hexEncode k.val).length = 64 := by
          rw [length_hexEncode, k.2]
          rfl
        rw [List.take_of_length_le (l := hexEncode k.val) (by omega)]
        simp only
        rw [List.take_of_length_le (by omega), parseKey_hexEncode]
      · simp at h
      · simp at h

/-! ## Round trips -/

/-- A box comes back exactly when it fits and the keys agree. -/
theorem scSecretStoreDecrypt_sealBox {store : SecretStore} {file : Option Bytes}
    {a : DecryptAnswers} {key : Octets keyLen} {nonce : Octets nonceLen} {text : Bytes} :
    (∃ file', scSecretStoreDecrypt c store file a
        (some (enc2Prefix ++ hexEncode (sealBox c key nonce text).blob)) =
          some (.ok text, file')) ↔
      a.alloc = true ∧ text.length + (nonceLen + hmacLen) ≤ blobCap ∧
        ∃ key', (loadOrCreateKey file a.key).1 = .ok key' ∧ KeysAgree c key key' nonce text := by
  have hbody : (sealBox c key nonce text).body = c.chacha20 key nonce 1 text := rfl
  have hlen := (sealBox c key nonce text).length_blob
  rw [hbody, length_chacha20] at hlen
  have hpos : nonceLen < nonceLen + hmacLen := by decide
  rw [scSecretStoreDecrypt_spells (spells_hexEncode _)]
  by_cases hfits : text.length + (nonceLen + hmacLen) ≤ blobCap
  · rw [if_neg (by omega)]
    rcases hload : loadOrCreateKey file a.key with ⟨_ | key', file'⟩
    · simp
    · have hagree : openBox c key' (sealBox c key nonce text) = some text ↔
          KeysAgree c key key' nonce text := SealedBox.open?_put
      simp only [openBlob_blob, Option.map_some, hbody, length_chacha20, Option.some.injEq,
        Prod.mk.injEq, exists_and_left, exists_eq', and_true, hfits, true_and, Except.ok.injEq,
        exists_eq_left', ← hagree]
      cases hopen : openBox c key' (sealBox c key nonce text) with
      | none => simp
      | some t =>
        simp only [if_neg (show ¬ text.length > blobCap by omega), Option.some.injEq]
        cases a.alloc <;> simp
  · rw [if_pos (Or.inr (by omega))]
    simp [hfits]

/-- A text that looks encrypted does not come back as it is. -/
theorem scSecretStoreDecrypt_ne_self {store : SecretStore} {file file' : Option Bytes}
    {a : DecryptAnswers} {text : Bytes}
    (henc : scSecretStoreIsEncrypted (some text) = true) :
    scSecretStoreDecrypt c store file a (some text) ≠ some (.ok text, file') := by
  intro h
  obtain ⟨key, box, -, ⟨-, hdecode⟩, hopen⟩ := scSecretStoreDecrypt_ok henc h
  have hbody : text.length = box.body.length := by
    rw [openBox, SealedBox.open?, Option.ite_none_right_eq_some, Option.some.injEq] at hopen
    rw [← hopen.2, length_chacha20]
  have hlen : (text.drop enc2Prefix.length).length = 2 * box.blob.length := by
    rw [← length_hexEncode, ← hexDecode_eq_some_iff.mp hdecode, List.length_map]
  have hblob := box.length_blob
  rw [List.length_drop] at hlen
  have hpos : 0 < nonceLen + hmacLen := by decide
  omega

/-- What is encrypted comes back exactly when, in an enabled store, the blob fits into the
buffer of decryption and the key is kept; in a disabled one, when the text does not look
encrypted; and in both when there is memory for the result. -/
theorem scSecretStoreEncrypt_roundTrip_iff {store : SecretStore} {file file' : Option Bytes}
    {e : EncryptAnswers} {a : DecryptAnswers} {p : CString} {value : Bytes}
    (h : scSecretStoreEncrypt c store file e (some p.octets) = (.ok value, file')) :
    (∃ file'', scSecretStoreDecrypt c store file' a (some value) = some (.ok p.octets, file'')) ↔
      a.alloc = true ∧
        if store.enabled = true ∧ p.octets ≠ [] then
          p.octets.length + (nonceLen + hmacLen) ≤ blobCap ∧ KeyKept c file file' e a p.octets
        else scSecretStoreIsEncrypted (some p.octets) = false := by
  rcases scSecretStoreEncrypt_cases h with ⟨hplain, hvalue, -⟩ |
    ⟨hsealed, key, nonce, hload, hnonce, hvalue⟩
  · have hneg : ¬ (store.enabled = true ∧ p.octets ≠ []) := by
      rintro ⟨henabled, hne⟩
      rcases hplain with hplain | hplain
      · rw [henabled] at hplain
        exact absurd hplain (by simp)
      · exact hne hplain
    rw [if_neg hneg, hvalue]
    cases henc : scSecretStoreIsEncrypted (some p.octets) with
    | true =>
      refine iff_of_false ?_ (by simp)
      rintro ⟨file'', hdecrypt⟩
      exact scSecretStoreDecrypt_ne_self henc hdecrypt
    | false =>
      simp only [scSecretStoreDecrypt, henc, Bool.false_eq_true, not_false_eq_true, if_true]
      cases a.alloc <;> simp
  · rw [if_pos hsealed, hvalue, scSecretStoreDecrypt_sealBox, KeyKept]
    simp only [hload, Except.ok.injEq, hnonce, Option.some.injEq]
    constructor
    · rintro ⟨halloc, hfits, key', hkey', hagree⟩
      exact ⟨halloc, hfits, key, key', nonce, rfl, rfl, hkey', hagree⟩
    · rintro ⟨halloc, hfits, _, key', _, rfl, rfl, hkey', hagree⟩
      exact ⟨halloc, hfits, key', hkey', hagree⟩

/-- The text `key` comes back from an enabled store. -/
theorem scSecretStoreEncrypt_roundTrip_plain :
    (∃ file'', scSecretStoreDecrypt plainCrypto ⟨true⟩ plainFile plainAnswers
      (some (plainValue 1).octets) = some (.ok (ascii "key"), file'')) ↔
      plainAnswers.alloc = true ∧
        if (⟨true⟩ : SecretStore).enabled = true ∧ ascii "key" ≠ [] then
          (ascii "key").length + (nonceLen + hmacLen) ≤ blobCap ∧
            KeyKept plainCrypto none plainFile plainCall.answers plainAnswers (ascii "key")
        else scSecretStoreIsEncrypted (some (ascii "key")) = false :=
  @scSecretStoreEncrypt_roundTrip_iff _ ⟨true⟩ _ _ _ _ plainCall.plaintext _ rfl

/-- A disabled store hands out the text `enc2:` and refuses to take it back. -/
theorem scSecretStoreEncrypt_disabled_enc2 :
    scSecretStoreEncrypt plainCrypto ⟨false⟩ none plainCall.answers (some (ascii "enc2:")) =
      (.ok (ascii "enc2:"), none) ∧
    scSecretStoreDecrypt plainCrypto ⟨false⟩ none plainAnswers (some (ascii "enc2:")) =
      some (.error .cryptoDecrypt, none) := by
  decide

end SeaClaw.Security
