import SeaClaw.Json.Parse
import SeaClaw.Json.Value
import SeaClaw.Lib.AssocList
import SeaClaw.Lib.Base64
import SeaClaw.Lib.CString
import SeaClaw.Lib.KeyStream

/-!
# The vault

Secrets are kept in one JSON object in a file, their texts under a repeated key and in base64.
Every call reads the whole file and, if it changes something, writes it anew. Memory is
there, and what is asked of the file system succeeds.
-/

namespace SeaClaw.Security

open SeaClaw.Lib SeaClaw.Json

/-- `VAULT_KEY_MAX` -/
def vaultKeyMax : ℕ := 64

/-- The size of the buffers for base64 texts and for what they decode to. -/
def b64Cap : ℕ := 4096

/-- What `vault_load` reads at most. -/
def vaultFileMax : ℕ := 1024 * 1024

/-- `struct sc_vault`; its path names the file. -/
structure Vault where
  key : Bytes
  hasKey : Bool

/-- `derive_key` -/
def deriveKey (envVal : Option CString) : Bytes :=
  match envVal with
  | none => []
  | some s => s.octets.take vaultKeyMax

/-- `sc_vault_create`, by the value of `SEACLAW_VAULT_KEY`. -/
def scVaultCreate (keyEnv : Option CString) : Vault :=
  match keyEnv with
  | some s =>
    if s.octets ≠ [] then ⟨deriveKey (some s), (deriveKey (some s)).length > 0⟩ else ⟨[], false⟩
  | none => ⟨[], false⟩

/-! ## Texts -/

/-- `base64_encode`; nothing is written where the text does not fit. -/
def base64Encode (s : Bytes) (outCap : ℕ) : Bytes :=
  if outCap < (s.length + 2) / 3 * 4 + 1 then [] else b64Encode s

/-- `base64_decode` -/
def base64Decode (s : Bytes) (outCap : ℕ) : Except ScError Bytes :=
  if outCap < (s.rdropWhile (· = ch '=')).length * 3 / 4 then .error .invalidArgument
  else
    match b64Decode s with
    | none => .error .parse
    | some t => .ok t

/-- `xor_crypt` -/
def xorCrypt (key s : Bytes) : Bytes := xorStream (fun i => key.getD (i % key.length) 0) s

/-- The text as the key hides it, or as it is without a key. -/
def Vault.crypt (v : Vault) (s : Bytes) : Bytes :=
  if v.hasKey ∧ v.key.length > 0 then xorCrypt v.key s else s

/-! ## The file -/

/-- `sc_json_object_set` on the pairs of an object. -/
def scJsonObjectSet (key : CString) (val : Value) (pairs : List (Bytes × Value)) :
    List (Bytes × Value) :=
  AssocList.put key.octets val pairs

/-- `sc_json_object_remove` on the pairs of an object. -/
def scJsonObjectRemove (key : CString) (pairs : List (Bytes × Value)) :
    Option (List (Bytes × Value)) :=
  AssocList.swapRemove key.octets pairs

/-- `vault_load`: the pairs of the object; `none` where reading the text is undefined. -/
def vaultLoad (file : Option Bytes) : Option (List (Bytes × Value)) :=
  match file with
  | none => some []
  | some text =>
    if text.length ≤ 0 ∨ text.length > vaultFileMax then some []
    else
      match scJsonParse text [0] with
      | .ok (.object pairs) _ => some pairs
      | .ok _ _ => some []
      | .err _ _ => some []
      | .overread _ => none
      | .outOfFuel => none

/-- `vault_save` -/
def vaultSave (pairs : List (Bytes × Value)) : Option Bytes :=
  some (scJsonStringify (.object pairs))

/-! ## Calls -/

/-- `sc_vault_set`: what it returns, and the file as it is left. -/
def scVaultSet (v : Vault) (file : Option Bytes) (key value : CString) :
    Option (Except ScError Unit × Option Bytes) :=
  let b64 := base64Encode (v.crypt value.octets) b64Cap
  if b64.length = 0 then some (.error .invalidArgument, file)
  else
    (vaultLoad file).map fun pairs =>
      (.ok (), vaultSave (scJsonObjectSet key (.string b64) pairs))

/-- `sc_vault_get`: the octets that are copied, or an error. -/
def scVaultGet (v : Vault) (file : Option Bytes) (key : CString) (outSize : ℕ) :
    Option (Except ScError Bytes) :=
  if outSize = 0 then some (.error .invalidArgument)
  else
    (vaultLoad file).map fun pairs =>
      match scJsonObjectGet (.object pairs) key.octets with
      | some (.string stored) =>
        match base64Decode stored b64Cap with
        | .error e => .error e
        | .ok decoded =>
          if decoded.length ≥ outSize then .error .invalidArgument else .ok (v.crypt decoded)
      | _ => .error .notFound

/-- `sc_vault_delete`: what it returns, and the file as it is left. -/
def scVaultDelete (_v : Vault) (file : Option Bytes) (key : CString) :
    Option (Except ScError Unit × Option Bytes) :=
  (vaultLoad file).map fun pairs =>
    match scJsonObjectRemove key pairs with
    | none => (.error .notFound, file)
    | some pairs => (.ok (), vaultSave pairs)

end SeaClaw.Security
