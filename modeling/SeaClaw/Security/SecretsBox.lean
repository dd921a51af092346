import SeaClaw.Security.Secrets
import SeaClaw.Lib.SealedBox

/-!
# Stored secrets as sealed boxes

A blob with room for its parts is a box of nonce, ciphertext and tag, whose tag covers the
ciphertext alone. Encryption seals such a box and decryption opens it.
-/

namespace SeaClaw.Security

open SeaClaw.Lib

/-- Nonce, ciphertext and tag. -/
abbrev SecretBox := SealedBox (Octets nonceLen) Bytes (Octets hmacLen)

/-- The blob of a box. -/
def SecretBox.blob (box : SecretBox) : Bytes := box.nonce.val ++ box.body ++ box.tag.val

variable (c : Crypto)

/-- The tag is made of the ciphertext, not of the nonce. -/
def covered (_ : Octets nonceLen) (ciphertext : Bytes) : Bytes := ciphertext

/-- The box that opens under the key, and its text. -/
def openBox (key : Octets keyLen) (box : SecretBox) : Option Bytes :=
  SealedBox.open? (fun nonce => c.chacha20 key nonce 1) covered (c.hmacSha256 key.val) box

/-- The box for a text. -/
def sealBox (key : Octets keyLen) (nonce : Octets nonceLen) (text : Bytes) : SecretBox :=
  SealedBox.put (fun nonce => c.chacha20 key nonce 1) covered (c.hmacSha256 key.val) nonce text

variable {c}

/-! ## The cipher -/

@[simp] theorem length_chacha20 (key : Octets keyLen) (nonce : Octets nonceLen) (n : UInt32)
    (s : Bytes) : (c.chacha20 key nonce n s).length = s.length :=
  length_xorStream _ s

/-- A key stream that is added twice cancels. -/
theorem chacha20_involutive (key : Octets keyLen) (nonce : Octets nonceLen) (n : UInt32) :
    Function.Involutive (c.chacha20 key nonce n) := xorStream_involutive _

/-! ## Blobs -/

theorem SecretBox.length_blob (box : SecretBox) :
    box.blob.length = box.body.length + (nonceLen + hmacLen) := by
  have hn := box.nonce.2
  have ht := box.tag.2
  simp only [SecretBox.blob, List.length_append, hn, ht]
  omega

/-- A blob with room for its parts is that of a box. -/
theorem SecretBox.exists_blob_eq {blob : Bytes} (h : ¬ blob.length < nonceLen + hmacLen) :
    ∃ box : SecretBox, box.blob = blob := by
  have htag : (blob.drop (blob.length - hmacLen)).length = hmacLen := by
    rw [List.length_drop]
    omega
  refine ⟨⟨⟨blob.take nonceLen, length_take_nonceLen h⟩,
    (blob.drop nonceLen).take (blob.length - nonceLen - hmacLen), ⟨_, htag⟩⟩, ?_⟩
  have hdrop : blob.drop (blob.length - hmacLen) =
      (blob.drop nonceLen).drop (blob.length - nonceLen - hmacLen) := by
    rw [List.drop_drop]
    congr 1
    omega
  rw [SecretBox.blob]
  simp only
  rw [List.append_assoc, hdrop, List.take_append_drop, List.take_append_drop]

theorem SecretBox.blob_injective {box box' : SecretBox} (h : box.blob = box'.blob) :
    box = box' := by
  have hbody : box.body.length = box'.body.length := by
    have hlen := congrArg List.length h
    rw [SecretBox.length_blob, SecretBox.length_blob] at hlen
    omega
  have hfront : (box.nonce.val ++ box.body).length = (box'.nonce.val ++ box'.body).length := by
    rw [List.length_append, List.length_append, box.nonce.2, box'.nonce.2, hbody]
  obtain ⟨hleft, htag⟩ := List.append_inj h hfront
  obtain ⟨hnonce, hbody⟩ := List.append_inj hleft (box.nonce.2.trans box'.nonce.2.symm)
  ext1
  · exact Subtype.ext hnonce
  · exact hbody
  · exact Subtype.ext htag

theorem sealBlob_eq (key : Octets keyLen) (nonce : Octets nonceLen) (text : Bytes) :
    sealBlob c key nonce text = (sealBox c key nonce text).blob := rfl

/-- What decryption makes of the blob of a box. -/
theorem openBlob_blob (key : Octets keyLen) (alloc : Bool) (box : SecretBox) :
    openBlob c key alloc box.blob = some (match openBox c key box with
      | none => .error .cryptoDecrypt
      | some text => if box.body.length > blobCap then .error .cryptoDecrypt
        else if ¬ alloc then .error .outOfMemory else .ok text) := by
  have hlen := box.length_blob
  have hn := box.nonce.2
  have hct : box.blob.length - nonceLen - hmacLen = box.body.length := by omega
  have htake : box.blob.take nonceLen = box.nonce.val := by
    rw [SecretBox.blob, List.append_assoc, List.take_left' hn]
  have hbody : (box.blob.drop nonceLen).take box.body.length = box.body := by
    rw [SecretBox.blob, List.append_assoc, List.drop_left' hn, List.take_left]
  have htag : box.blob.drop (nonceLen + box.body.length) = box.tag.val := by
    rw [SecretBox.blob, List.drop_left' (by rw [List.length_append, hn])]
  have htags : (c.hmacSha256 key.val box.body).val.length = box.tag.val.length :=
    (c.hmacSha256 key.val box.body).2.trans box.tag.2.symm
  rw [openBlob, dif_neg (by omega)]
  simp only [hct, htake, hbody, htag, ne_eq, foldl_xor_eq_zero_iff htags, ← Subtype.ext_iff]
  rw [openBox, SealedBox.open?, covered]
  by_cases heq : c.hmacSha256 key.val box.body = box.tag
  · simp only [heq, not_true_eq_false, if_false, if_true]
    split_ifs <;> rfl
  · simp only [heq, not_false_eq_true, if_true, if_false]

/-! ## Values -/

theorem scHexDecode_hexEncode {data : Bytes} {outCap : ℕ} (h : data.length ≤ outCap) :
    scHexDecode (hexEncode data) outCap = .ok data := by
  have hlen := length_hexEncode data
  rw [scHexDecode, if_neg (by omega), if_neg (by omega), hexDecode_hexEncode]

theorem scHexDecode_eq_ok_iff {hex data : Bytes} {outCap : ℕ} :
    scHexDecode hex outCap = .ok data ↔ hexDecode hex = some data ∧ hex.length / 2 ≤ outCap := by
  have hlen : ∀ d, hexDecode hex = some d → hex.length = 2 * d.length := by
    intro d hd
    rw [← length_hexEncode, ← hexDecode_eq_some_iff.mp hd, List.length_map]
  rw [scHexDecode]
  split_ifs with hodd hcap
  · refine iff_of_false (by simp) ?_
    rintro ⟨hd, -⟩
    have := hlen _ hd
    omega
  · exact iff_of_false (by simp) fun h => by omega
  · cases hd : hexDecode hex with
    | none => simp
    | some d => simp [Nat.le_of_not_lt hcap]

/-- A value that `enc2:` marks, and the blob that it spells. -/
def Spells (value blob : Bytes) : Prop :=
  scSecretStoreIsEncrypted (some value) = true ∧
    hexDecode (value.drop enc2Prefix.length) = some blob

theorem isEncrypted_append (s : Bytes) :
    scSecretStoreIsEncrypted (some (enc2Prefix ++ s)) = true := by
  simp [scSecretStoreIsEncrypted]

theorem spells_hexEncode (blob : Bytes) : Spells (enc2Prefix ++ hexEncode blob) blob :=
  ⟨isEncrypted_append _, by rw [List.drop_left, hexDecode_hexEncode]⟩

/-- What a call that succeeds returns: the text itself, or what seals it. -/
theorem scSecretStoreEncrypt_cases {store : SecretStore} {file file' : Option Bytes}
    {a : EncryptAnswers} {text value : Bytes}
    (h : scSecretStoreEncrypt c store file a (some text) = (.ok value, file')) :
    ((store.enabled = false ∨ text = []) ∧ value = text ∧ file' = file) ∨
    ((store.enabled = true ∧ text ≠ []) ∧ ∃ key nonce,
      loadOrCreateKey file a.key = (.ok key, file') ∧ a.nonce = some nonce ∧
        value = enc2Prefix ++ hexEncode (sealBox c key nonce text).blob) := by
  rw [scSecretStoreEncrypt] at h
  simp only [Option.getD_some, Bool.not_eq_true] at h
  by_cases hplain : store.enabled = false ∨ text = []
  · rw [if_pos hplain, Prod.mk.injEq] at h
    obtain ⟨hvalue, hfile⟩ := h
    split_ifs at hvalue
    exact Or.inl ⟨hplain, (Except.ok.inj hvalue).symm, hfile.symm⟩
  · rw [if_neg hplain] at h
    rw [not_or, Bool.not_eq_false] at hplain
    refine Or.inr ⟨hplain, ?_⟩
    rcases hload : loadOrCreateKey file a.key with ⟨_ | key, f⟩
    · simp [hload] at h
    · rw [hload] at h
      cases hnonce : a.nonce with
      | none => simp [hnonce] at h
      | some nonce =>
        simp only [hnonce] at h
        split_ifs at h with halloc
        · rw [Prod.mk.injEq, Except.ok.injEq] at h
          exact ⟨key, nonce, by rw [h.2], rfl, h.1.symm⟩
        · simp at h

/-- What decryption makes of a value that spells the blob of a box. -/
theorem scSecretStoreDecrypt_spells {store : SecretStore} {file : Option Bytes}
    {a : DecryptAnswers} {value blob : Bytes} (h : Spells value blob) :
    scSecretStoreDecrypt c store file a (some value) =
      if blob.length ≤ nonceLen ∨ blobCap < blob.length then some (.error .cryptoDecrypt, file)
      else
        match loadOrCreateKey file a.key with
        | (.error e, file) => some (.error e, file)
        | (.ok key, file) => (openBlob c key a.alloc blob).map fun r => (r, file) := by
  obtain ⟨henc, hdecode⟩ := h
  have hlen : (value.drop enc2Prefix.length).length = 2 * blob.length := by
    rw [← length_hexEncode, ← hexDecode_eq_some_iff.mp hdecode, List.length_map]
  have hhalf : (value.drop enc2Prefix.length).length / 2 = blob.length := by omega
  simp only [scSecretStoreDecrypt, henc, not_true_eq_false, if_false, hhalf]
  rw [if_neg (by omega)]
  by_cases hnonce : blob.length ≤ nonceLen
  · rw [if_pos hnonce, if_pos (Or.inl hnonce)]
  rw [if_neg hnonce]
  by_cases hcap : blob.length > blobCap
  · rw [if_pos hcap, if_pos (Or.inr hcap)]
  rw [if_neg hcap, if_neg (by omega), scHexDecode_eq_ok_iff.mpr ⟨hdecode, by omega⟩]
  all_goals rfl

/-- A marked value that is decrypted spells a box, which opens under the key. -/
theorem scSecretStoreDecrypt_ok {store : SecretStore} {file file' : Option Bytes}
    {a : DecryptAnswers} {value text : Bytes}
    (henc : scSecretStoreIsEncrypted (some value) = true)
    (h : scSecretStoreDecrypt c store file a (some value) = some (.ok text, file')) :
    ∃ key, ∃ box : SecretBox, (loadOrCreateKey file a.key).1 = .ok key ∧ Spells value box.blob ∧
      openBox c key box = some text := by
  cases hdecode : hexDecode (value.drop enc2Prefix.length) with
  | none =>
    simp only [scSecretStoreDecrypt, henc, not_true_eq_false, if_false] at h
    have hcode : ∀ data, scHexDecode (value.drop enc2Prefix.length) blobCap ≠ .ok data := by
      intro data hdata
      rw [scHexDecode_eq_ok_iff, hdecode] at hdata
      exact absurd hdata.1 (by simp)
    cases hd : scHexDecode (value.drop enc2Prefix.length) blobCap with
    | error e =>
      rw [hd] at h
      split_ifs at h <;> simp at h
    | ok data => exact absurd hd (hcode data)
  | some blob =>
    rw [scSecretStoreDecrypt_spells ⟨henc, hdecode⟩] at h
    split_ifs at h
    · simp at h
    · rcases hload : loadOrCreateKey file a.key with ⟨_ | key, file'⟩
      · simp [hload] at h
      · rw [hload] at h
        simp only [Option.map_eq_some_iff, Prod.mk.injEq] at h
        obtain ⟨r, hopen, rfl, -⟩ := h
        by_cases hshort : blob.length < nonceLen + hmacLen
        · rw [openBlob, dif_pos hshort] at hopen
          simp at hopen
        · obtain ⟨box, rfl⟩ := SecretBox.exists_blob_eq hshort
          refine ⟨key, box, rfl, ⟨henc, hdecode⟩, ?_⟩
          rw [openBlob_blob, Option.some.injEq] at hopen
          cases hbox : openBox c key box with
          | none => simp [hbox] at hopen
          | some t =>
            simp only [hbox] at hopen
            split_ifs at hopen
            rw [Option.some.injEq]
            simpa using hopen

end SeaClaw.Security
