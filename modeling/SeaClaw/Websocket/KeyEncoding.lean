import SeaClaw.Lib.Sextets

/-!
# The key of a handshake

The client writes its nonce of 16 octets with a base64 encoder of its own. The table of that
encoder has no `N`, so that every letter behind `M` is the next one, and the last place holds
the terminator of the string.
-/

namespace SeaClaw.Websocket

open Lib

/-! ## The encoder of the client -/

/-- The table of `ws_b64_encode_16`. -/
def clientTbl : Bytes := ascii "ABCDEFGHIJKLMOPQRSTUVWXYZabcdefghijklmnopqrstuvwxyz0123456789+/"

/-- The loop of `ws_b64_encode_16` over groups of three, and the octet behind them. -/
def clientGroups : Bytes → Bytes
  | a :: b :: c :: s =>
    let v := groupBits a b c
    tblAt clientTbl v 18 :: tblAt clientTbl v 12 :: tblAt clientTbl v 6 :: tblAt clientTbl v 0 ::
      clientGroups s
  | [a] =>
    let v := a.toNat <<< 16
    [tblAt clientTbl v 18, tblAt clientTbl v 12, ch '=', ch '=']
  | _ => []

/-- `ws_b64_encode_16` -/
def wsB64Encode16 (nonce : Fin 16 → UInt8) : Bytes := clientGroups (List.ofFn nonce)

/-! ## The encoder of the server -/

/-- The table of `b64_encode`. -/
def serverTbl : Bytes := ascii "ABCDEFGHIJKLMNOPQRSTUVWXYZabcdefghijklmnopqrstuvwxyz0123456789+/"

/-- The loop of `b64_encode`. -/
def serverGroups : Bytes → Bytes
  | [] => []
  | [a] =>
    let v := a.toNat <<< 16
    [tblAt serverTbl v 18, tblAt serverTbl v 12, ch '=', ch '=']
  | [a, b] =>
    let v := a.toNat <<< 16 ||| b.toNat <<< 8
    [tblAt serverTbl v 18, tblAt serverTbl v 12, tblAt serverTbl v 6, ch '=']
  | a :: b :: c :: s =>
    let v := groupBits a b c
    tblAt serverTbl v 18 :: tblAt serverTbl v 12 :: tblAt serverTbl v 6 :: tblAt serverTbl v 0 ::
      serverGroups s

/-- `b64_encode`; none where it returns 0 for want of space. -/
def b64EncodeServer (input : Bytes) (outSize : ℕ) : Option Bytes :=
  if 4 * ((input.length + 2) / 3) + 1 > outSize then none else some (serverGroups input)

/-! ## The keys -/

theorem serverTbl_getD (n : ℕ) : serverTbl.getD n 0 = b64Letter n := rfl

/-- The server writes the encoding. -/
theorem serverGroups_eq (s : Bytes) : serverGroups s = b64Encode s := by
  induction s using serverGroups.induct with
  | case1 => rfl
  | case2 a => simp only [serverGroups, b64Encode, tblAt_eq, serverTbl_getD, shift_or, b64At]
  | case3 a b =>
    simp only [serverGroups, b64Encode, tblAt_eq, serverTbl_getD, groupBits_two, b64At]
  | case4 a b c s ih =>
    simp only [serverGroups, b64Encode, tblAt_eq, serverTbl_getD, groupBits_eq, b64At, ih, pow_zero]

/-- Both encoders pad one octet behind the groups alike, and take each letter from a group. -/
theorem clientGroups_eq {s : Bytes} (h : s.length % 3 = 1) :
    clientGroups s = (sextets s).map (clientTbl.getD · 0) ++ [ch '=', ch '='] := by
  induction s using sextets.induct with
  | case1 => exact absurd h (by decide)
  | case2 a =>
    simp only [clientGroups, sextets, tblAt_eq, shift_or, List.map_cons, List.map_nil,
      List.cons_append, List.nil_append]
  | case3 a b => exact absurd h (by simp)
  | case4 a b c s ih =>
    have hs : s.length % 3 = 1 := by
      rw [← h]
      simp only [List.length_cons]
      omega
    simp only [clientGroups, sextets, tblAt_eq, groupBits_eq, ih hs, List.map_cons,
      List.cons_append, pow_zero]

/-- The two tables agree up to `M`. -/
theorem clientTbl_getD : ∀ n < 64, (clientTbl.getD n 0 = b64Letter n ↔ n < 13) := by
  decide +kernel

/-- The key of the client is the encoding of the nonce, and what the server writes, exactly for
the nonces in which every group of six bits stands for a letter up to `M`. -/
theorem ws_key_encoding_iff (nonce : Fin 16 → UInt8) :
    (wsB64Encode16 nonce = b64Encode (List.ofFn nonce) ∧
      ∀ outSize, 25 ≤ outSize →
        b64EncodeServer (List.ofFn nonce) outSize = some (wsB64Encode16 nonce)) ↔
      ∀ n ∈ sextets (List.ofFn nonce), n < 13 := by
  obtain ⟨s, hs⟩ : ∃ s, List.ofFn nonce = s := ⟨_, rfl⟩
  have hlen : s.length = 16 := by rw [← hs, List.length_ofFn]
  have hmod : s.length % 3 = 1 := by rw [hlen]
  have hserver : ∀ outSize, 25 ≤ outSize → b64EncodeServer s outSize = some (b64Encode s) := by
    intro outSize hout
    rw [b64EncodeServer, hlen, if_neg (by omega), serverGroups_eq]
  have hletters : clientGroups s = b64Encode s ↔
      ∀ n ∈ sextets s, clientTbl.getD n 0 = b64Letter n := by
    rw [clientGroups_eq hmod, b64Encode_eq hmod, List.append_left_inj, List.map_inj_left]
  have hsmall : (∀ n ∈ sextets s, clientTbl.getD n 0 = b64Letter n) ↔
      ∀ n ∈ sextets s, n < 13 :=
    forall₂_congr fun n hn => clientTbl_getD n (sextets_lt s n hn)
  rw [wsB64Encode16, hs, ← hsmall, ← hletters]
  constructor
  · exact fun h => h.1
  · intro h
    refine ⟨h, fun outSize hout => ?_⟩
    rw [hserver outSize hout, h]

/-- The key for a nonce of sixteen `4`s, whose first group is that of the missing letter. -/
theorem ws_key_encoding_missing_letter :
    wsB64Encode16 (fun _ => ch '4') ≠ b64Encode (List.ofFn fun _ : Fin 16 => ch '4') ∧
      b64EncodeServer (List.ofFn fun _ : Fin 16 => ch '4') 25 =
        some (ascii "NDQ0NDQ0NDQ0NDQ0NDQ0NA==") := by
  decide +kernel

end SeaClaw.Websocket
