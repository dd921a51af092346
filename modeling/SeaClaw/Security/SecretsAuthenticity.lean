import SeaClaw.Security.SecretsBox

/-!
# Who made a secret that decrypts

Tags cannot be made up, so a value that decrypts holds a ciphertext that encryption made
under the key. Its nonce is not covered by the tag: the value is the one that encryption
made exactly when the nonce has not been exchanged.
-/

namespace SeaClaw.Security

open SeaClaw.Lib

/-- The arguments of one call of `sc_secret_store_encrypt`, and what it gets from outside. -/
structure EncryptCall where
  store : SecretStore
  file : Option Bytes
  answers : EncryptAnswers
  plaintext : CString

variable (c : Crypto)

/-- The call encrypts under the key, and the value it returns spells the box. -/
def EncryptCall.Seals (call : EncryptCall) (key : Octets keyLen) (box : SecretBox) : Prop :=
  call.store.enabled = true ∧ (loadOrCreateKey call.file call.answers.key).1 = .ok key ∧
    ∃ value, (scSecretStoreEncrypt c call.store call.file call.answers
      (some call.plaintext.octets)).1 = .ok value ∧ Spells value box.blob

/-- Who cannot evaluate the hash has only tags that some call made: where the tag of a box is
that of its ciphertext, a call has made this ciphertext. -/
def Unforgeable (key : Octets keyLen) (calls : List EncryptCall) (box : SecretBox) : Prop :=
  c.hmacSha256 key.val box.body = box.tag →
    ∃ call ∈ calls, ∃ made : SecretBox, call.Seals c key made ∧ made.body = box.body

/-- Ciphertext and tag were made by a call, but no call made the ciphertext with the nonce. -/
def NonceExchanged (key : Octets keyLen) (calls : List EncryptCall) (box : SecretBox) : Prop :=
  (∃ call ∈ calls, ∃ made : SecretBox,
    call.Seals c key made ∧ made.body = box.body ∧ made.tag = box.tag) ∧
  ∀ call ∈ calls, ∀ made : SecretBox,
    call.Seals c key made → made.body = box.body → made.nonce ≠ box.nonce

variable {c}

/-- What a call seals is its plaintext, under the nonce that it drew. -/
theorem EncryptCall.Seals.eq {call : EncryptCall} {key : Octets keyLen} {box : SecretBox}
    (h : call.Seals c key box) : box = sealBox c key box.nonce call.plaintext.octets := by
  obtain ⟨henabled, hkey, value, hvalue, henc, hdecode⟩ := h
  rcases scSecretStoreEncrypt_cases (Prod.ext hvalue rfl) with
    ⟨hplain, hvalue, -⟩ | ⟨-, key', nonce, hload, -, hvalue⟩
  · -- the text is empty, and so is its value
    rcases hplain with hplain | hplain
    · rw [henabled] at hplain
      exact absurd hplain (by simp)
    · rw [hvalue, hplain] at henc
      exact absurd henc (by decide)
  · obtain rfl : key' = key := by simpa [hload] using hkey
    rw [hvalue, List.drop_left, hexDecode_hexEncode, Option.some.injEq] at hdecode
    rw [← SecretBox.blob_injective hdecode]
    rfl

/-- A value that decrypts is one that a call made for the text it decrypts to, exactly when
its nonce has not been exchanged. -/
theorem scSecretStoreDecrypt_authentic_iff {store : SecretStore} {file file' : Option Bytes}
    {a : DecryptAnswers} {value : CString} {key : Octets keyLen} {box : SecretBox}
    {text : Bytes} {calls : List EncryptCall} (hvalue : Spells value.octets box.blob)
    (hkey : (loadOrCreateKey file a.key).1 = .ok key)
    (hforge : Unforgeable c key calls box)
    (h : scSecretStoreDecrypt c store file a (some value.octets) = some (.ok text, file')) :
    (∃ call ∈ calls, call.Seals c key box ∧ call.plaintext.octets = text) ↔
      ¬ NonceExchanged c key calls box := by
  obtain ⟨key', box', hkey', hspells, hopen⟩ := scSecretStoreDecrypt_ok hvalue.1 h
  obtain rfl : key' = key := by simpa using hkey'.symm.trans hkey
  obtain rfl : box' = box :=
    SecretBox.blob_injective (Option.some.inj (hspells.2.symm.trans hvalue.2))
  have htag : c.hmacSha256 key'.val box'.body = box'.tag := by
    rw [openBox, SealedBox.open?] at hopen
    by_contra hne
    rw [covered, if_neg hne] at hopen
    exact absurd hopen (by simp)
  obtain ⟨call, hmem, made, hmade, hbody⟩ := hforge htag
  have hmadeTag : made.tag = box'.tag := by
    rw [hmade.eq, sealBox, SealedBox.put, covered, ← htag, ← hbody, hmade.eq]
    rfl
  let sealedTexts : Octets nonceLen → Bytes → Prop := fun nonce t =>
    ∃ call ∈ calls, call.Seals c key' (sealBox c key' nonce t) ∧ call.plaintext.octets = t
  have hsealed : sealedTexts box'.nonce text ∧ box' = sealBox c key' box'.nonce text ↔
      ∃ t, sealedTexts box'.nonce t ∧ box'.body = c.chacha20 key' box'.nonce 1 t :=
    SealedBox.sealed_iff (fun nonce => chacha20_involutive key' nonce 1) hopen
  constructor
  · rintro ⟨call', hmem', hseals, -⟩ ⟨-, hnone⟩
    exact hnone call' hmem' box' hseals rfl rfl
  · intro hkept
    simp only [NonceExchanged, not_and, not_forall] at hkept
    obtain ⟨call', hmem', made', hmade', hbody', hnonce⟩ :=
      hkept ⟨call, hmem, made, hmade, hbody, hmadeTag⟩
    rw [not_not] at hnonce
    have hput := hmade'.eq
    rw [hnonce] at hput
    rw [hput] at hmade'
    obtain ⟨⟨call'', hmem'', hseals, htext⟩, hbox⟩ := hsealed.mpr
      ⟨call'.plaintext.octets, ⟨call', hmem', hmade', rfl⟩, by rw [← hbody', hput]; rfl⟩
    refine ⟨call'', hmem'', ?_, htext⟩
    rwa [hbox]

/-- The box with another nonce. -/
def SecretBox.exchange (box : SecretBox) (nonce : Octets nonceLen) : SecretBox :=
  ⟨nonce, box.body, box.tag⟩

/-- An exchanged nonce is not noticed: the text comes out enciphered twice. -/
theorem scSecretStoreDecrypt_of_exchange {store : SecretStore} {file : Option Bytes}
    {a : DecryptAnswers} {value text : Bytes} {key : Octets keyLen}
    {nonce nonce' : Octets nonceLen}
    (hvalue : Spells value ((sealBox c key nonce text).exchange nonce').blob)
    (hkey : (loadOrCreateKey file a.key).1 = .ok key) (halloc : a.alloc = true)
    (hfits : text.length + (nonceLen + hmacLen) ≤ blobCap) :
    ∃ file', scSecretStoreDecrypt c store file a (some value) =
      some (.ok (c.chacha20 key nonce' 1 (c.chacha20 key nonce 1 text)), file') := by
  have hbody : ((sealBox c key nonce text).exchange nonce').body =
      c.chacha20 key nonce 1 text := rfl
  have hlen := ((sealBox c key nonce text).exchange nonce').length_blob
  rw [hbody, length_chacha20] at hlen
  have hopen : openBox c key ((sealBox c key nonce text).exchange nonce') =
      some (c.chacha20 key nonce' 1 (c.chacha20 key nonce 1 text)) := if_pos rfl
  have hpos : nonceLen < nonceLen + hmacLen := by decide
  obtain ⟨file', hload⟩ : ∃ file', loadOrCreateKey file a.key = (.ok key, file') :=
    ⟨_, Prod.ext hkey rfl⟩
  refine ⟨file', ?_⟩
  rw [scSecretStoreDecrypt_spells hvalue, if_neg (by omega), hload]
  simp only [openBlob_blob, hopen, hbody, length_chacha20, halloc, not_true_eq_false, if_false]
  rw [if_neg (by omega)]
  rfl

/-! ## A value with its nonce exchanged -/

theorem length_take_replicate (s : Bytes) : ((s ++ List.replicate 32 0).take 32).length = 32 := by
  simp

/-- A cipher and a hash that are plain to evaluate. -/
def plainCrypto : Crypto where
  keystream key nonce _ i := key.val.getD i 0 + nonce.val.getD i 0
  hmacSha256 key text := ⟨_, length_take_replicate (List.zipWith (· + ·) key text)⟩

def plainKey : Octets keyLen := ⟨List.replicate keyLen 7, List.length_replicate⟩

def plainNonce (b : UInt8) : Octets nonceLen := ⟨List.replicate nonceLen b, List.length_replicate⟩

theorem plainText_noNul : 0 ∉ ascii "key" := by decide

/-- The text `key` is encrypted in a store that is new. -/
def plainCall : EncryptCall where
  store := ⟨true⟩
  file := none
  answers := ⟨⟨true, 79, some plainKey, true, true, 64⟩, some (plainNonce 1), fun _ => true⟩
  plaintext := ⟨ascii "key", plainText_noNul⟩

/-- The box of this call, with the nonce given. -/
def plainBox (b : UInt8) : SecretBox :=
  (sealBox plainCrypto plainKey (plainNonce 1) (ascii "key")).exchange (plainNonce b)

theorem plainValue_noNul (b : UInt8) : 0 ∉ enc2Prefix ++ hexEncode (plainBox b).blob := by
  rw [List.mem_append, not_or]
  exact ⟨by decide, hexEncode_noNul _⟩

def plainValue (b : UInt8) : CString := ⟨_, plainValue_noNul b⟩

/-- The key file as the call leaves it, and what is needed to read it. -/
def plainFile : Option Bytes := some (hexEncode plainKey.val)

def plainAnswers : DecryptAnswers := ⟨⟨true, 79, none, false, false, 0⟩, true⟩

theorem plainCall_seals : plainCall.Seals plainCrypto plainKey (plainBox 1) :=
  ⟨rfl, rfl, _, rfl, spells_hexEncode _⟩

theorem unforgeable_plainBox (b : UInt8) :
    Unforgeable plainCrypto plainKey [plainCall] (plainBox b) :=
  fun _ => ⟨plainCall, List.mem_singleton_self _, plainBox 1, plainCall_seals, rfl⟩

/-- The value of the call is authentic. -/
theorem scSecretStoreDecrypt_authentic_plain :
    (∃ call ∈ [plainCall], call.Seals plainCrypto plainKey (plainBox 1) ∧
      call.plaintext.octets = ascii "key") ↔
      ¬ NonceExchanged plainCrypto plainKey [plainCall] (plainBox 1) := by
  have h : scSecretStoreDecrypt plainCrypto ⟨true⟩ plainFile plainAnswers
      (some (plainValue 1).octets) = some (.ok (ascii "key"), plainFile) := by decide
  exact scSecretStoreDecrypt_authentic_iff (spells_hexEncode _) (by decide)
    (unforgeable_plainBox 1) h

/-- With its nonce exchanged the value still decrypts, to a text that was never encrypted. -/
theorem scSecretStoreDecrypt_exchanged_nonce :
    Unforgeable plainCrypto plainKey [plainCall] (plainBox 2) ∧
    scSecretStoreDecrypt plainCrypto ⟨true⟩ plainFile plainAnswers (some (plainValue 2).octets) =
      some (.ok (ascii "jdx"), plainFile) ∧
    ¬ ∃ call ∈ [plainCall], call.Seals plainCrypto plainKey (plainBox 2) ∧
      call.plaintext.octets = ascii "jdx" := by
  refine ⟨unforgeable_plainBox 2, by decide, ?_⟩
  rintro ⟨call, hmem, -, htext⟩
  rw [List.mem_singleton.mp hmem] at htext
  exact absurd htext (by decide)

end SeaClaw.Security
