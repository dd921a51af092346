import SeaClaw.Core.Error
import SeaClaw.Lib.Hex
import SeaClaw.Lib.KeyStream

/-!
# The secret store

A secret is enciphered with ChaCha20 under a key that is kept as hexadecimal text in a file,
and written out as hexadecimal text behind `enc2:`. The file system, the random source and
the allocator answer from outside: each call takes their answers with its arguments.
-/

namespace SeaClaw.Security

open SeaClaw.Lib

/-- `SC_KEY_LEN` -/
def keyLen : ℕ := 32

/-- `SC_NONCE_LEN` -/
def nonceLen : ℕ := 12

/-- `SC_HMAC_LEN` -/
def hmacLen : ℕ := 32

/-- `SC_ENC2_PREFIX` -/
def enc2Prefix : Bytes := ascii "enc2:"

/-- The size of the buffers on the stack of `sc_secret_store_decrypt`. -/
def blobCap : ℕ := 8192

/-- `struct sc_secret_store`; its path names the key file. -/
structure SecretStore where
  enabled : Bool

/-- The cipher as octets of its key stream, and the keyed hash. -/
structure Crypto where
  keystream : Octets keyLen → Octets nonceLen → UInt32 → ℕ → UInt8
  hmacSha256 : Bytes → Bytes → Octets hmacLen

/-- `sc_chacha20_encrypt`, which is `sc_chacha20_decrypt` too. -/
def Crypto.chacha20 (c : Crypto) (key : Octets keyLen) (nonce : Octets nonceLen) (counter : UInt32)
    (s : Bytes) : Bytes :=
  xorStream (c.keystream key nonce counter) s

/-! ## Hexadecimal text -/

/-- `sc_hex_decode` -/
def scHexDecode (hex : Bytes) (outCap : ℕ) : Except ScError Bytes :=
  if hex.length % 2 = 1 then .error .parse
  else if outCap < hex.length / 2 then .error .invalidArgument
  else
    match hexDecode hex with
    | none => .error .parse
    | some data => .ok data

/-- `sc_secret_store_is_encrypted` -/
def scSecretStoreIsEncrypted (value : Option Bytes) : Bool :=
  match value with
  | none => false
  | some value => value.length ≥ enc2Prefix.length && value.take enc2Prefix.length = enc2Prefix

/-! ## The key -/

/-- What `load_or_create_key` gets from outside: whether a file that is there can be opened
for reading and how much can be read, random octets, whether a file can be created, and how
much of the new key reaches it. -/
structure KeyAnswers where
  readable : Bool
  read : ℕ
  random : Option (Octets keyLen)
  created : Bool
  stream : Bool
  written : ℕ

/-- A blank that is trimmed from the end of the key file. -/
def isTrimmed (b : UInt8) : Bool := b = ch ' ' || b = ch '\t' || b = ch '\n' || b = ch '\r'

/-- The key that the text of a file spells. -/
def parseKey (text : Bytes) : Except ScError (Octets keyLen) :=
  match scHexDecode ((text.rdropWhile isTrimmed).takeWhile (· ≠ 0)) keyLen with
  | .error _ => .error .cryptoDecrypt
  | .ok key => if h : key.length = keyLen then .ok ⟨key, h⟩ else .error .cryptoDecrypt

/-- `load_or_create_key`: the key, and the file as it is left. -/
def loadOrCreateKey (file : Option Bytes) (a : KeyAnswers) :
    Except ScError (Octets keyLen) × Option Bytes :=
  match (if a.readable then file else none) with
  | some text => (parseKey (text.take (min 79 a.read)), file)
  | none =>
    match a.random with
    | none => (.error .cryptoEncrypt, file)
    | some key =>
      if ¬ a.created then (.error .io, file)
      else if ¬ a.stream then (.error .io, some [])
      else (.ok key, some ((hexEncode key.val).take a.written))

/-! ## Encryption -/

/-- What a call of `sc_secret_store_encrypt` gets from outside; the allocations are numbered
in their order. -/
structure EncryptAnswers where
  key : KeyAnswers
  nonce : Option (Octets nonceLen)
  alloc : ℕ → Bool

/-- Nonce, ciphertext and tag. -/
def sealBlob (c : Crypto) (key : Octets keyLen) (nonce : Octets nonceLen) (plaintext : Bytes) : Bytes :=
  let ciphertext := c.chacha20 key nonce 1 plaintext
  nonce.val ++ ciphertext ++ (c.hmacSha256 key.val ciphertext).val

/-- `sc_secret_store_encrypt`: its value, and the key file as it is left. -/
def scSecretStoreEncrypt (c : Crypto) (store : SecretStore) (file : Option Bytes)
    (a : EncryptAnswers) (plaintext : Option Bytes) : Except ScError Bytes × Option Bytes :=
  let text := plaintext.getD []
  if ¬ store.enabled ∨ text = [] then
    (if a.alloc 0 then .ok text else .error .outOfMemory, file)
  else
    match loadOrCreateKey file a.key with
    | (.error e, file) => (.error e, file)
    | (.ok key, file) =>
      match a.nonce with
      | none => (.error .cryptoEncrypt, file)
      | some nonce =>
        if a.alloc 0 ∧ a.alloc 1 ∧ a.alloc 2 then
          (.ok (enc2Prefix ++ hexEncode (sealBlob c key nonce text)), file)
        else (.error .outOfMemory, file)

/-! ## Decryption -/

/-- What a call of `sc_secret_store_decrypt` gets from outside. -/
structure DecryptAnswers where
  key : KeyAnswers
  alloc : Bool

theorem length_take_nonceLen {blob : Bytes} (h : ¬ blob.length < nonceLen + hmacLen) :
    (blob.take nonceLen).length = nonceLen := by
  rw [List.length_take]
  omega

/-- What is made of a decoded value under the key. A blob with no room for a tag makes the
length of the ciphertext wrap around, and the reads behind it are undefined. -/
def openBlob (c : Crypto) (key : Octets keyLen) (alloc : Bool) (blob : Bytes) :
    Option (Except ScError Bytes) :=
  if h : blob.length < nonceLen + hmacLen then none
  else
    let nonce : Octets nonceLen := ⟨blob.take nonceLen, length_take_nonceLen h⟩
    let ctLen := blob.length - nonceLen - hmacLen
    let ciphertext := (blob.drop nonceLen).take ctLen
    let computedHmac := c.hmacSha256 key.val ciphertext
    let diff := (List.zipWith (· ^^^ ·) computedHmac.val
      (blob.drop (nonceLen + ctLen))).foldl (· ||| ·) 0
    if diff ≠ 0 then some (.error .cryptoDecrypt)
    else if ctLen > blobCap then some (.error .cryptoDecrypt)
    else if ¬ alloc then some (.error .outOfMemory)
    else some (.ok (c.chacha20 key nonce 1 ciphertext))

/-- `sc_secret_store_decrypt`: the octets it returns, and the key file as it is left; `none`
where the behaviour is undefined. -/
def scSecretStoreDecrypt (c : Crypto) (_store : SecretStore) (file : Option Bytes)
    (a : DecryptAnswers) (value : Option Bytes) : Option (Except ScError Bytes × Option Bytes) :=
  match value with
  | none => some (.error .invalidArgument, file)
  | some value =>
    if ¬ scSecretStoreIsEncrypted (some value) then
      some (if a.alloc then .ok value else .error .outOfMemory, file)
    else
      let hexStr := value.drop enc2Prefix.length
      let blobLen := hexStr.length / 2
      if hexStr.length % 2 = 1 then some (.error .cryptoDecrypt, file)
      else if blobLen ≤ nonceLen then some (.error .cryptoDecrypt, file)
      else if blobLen > blobCap then some (.error .cryptoDecrypt, file)
      else
        match scHexDecode hexStr blobCap with
        | .error _ => some (.error .cryptoDecrypt, file)
        | .ok blob =>
          match loadOrCreateKey file a.key with
          | (.error e, file) => some (.error e, file)
          | (.ok key, file) => (openBlob c key a.alloc blob).map fun r => (r, file)

end SeaClaw.Security
