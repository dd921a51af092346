import SeaClaw.Routing.NormalForm

/-!
# Keys of sessions

The key of a session names the agent, the channel and the peer with colons between them. The name
of the agent in its normal form has no colon, so that a key can be read back when the channel has
none either. What a direct chat is named by is not the counted octets of its peer.
-/

namespace SeaClaw.Routing

open Lib
open Providers (isAlnum)

/-- The octets of the peer's name that are counted. -/
def PeerRef.counted (p : PeerRef) : Option Bytes := p.id.map fun id => id.take (p.len id)

/-- Both chats are without a peer, or the peers are of one kind and one name. -/
def PeersAgree : Option PeerRef → Option PeerRef → Prop
  | none, none => True
  | some p, some q => p.kind = q.kind ∧ p.counted = q.counted
  | _, _ => False

/-- The name of an agent fits into the buffer for its normal form together with a terminator. -/
def NameFits (agent : Option CString) : Prop :=
  ∀ s ∈ agent, ∀ c, s.octets[normBuf - 1]? = some c → ¬ isAlnum c

section NormalForm

theorem normOctet_ne_colon (c : UInt8) : normOctet c ≠ ch ':' := by
  intro h
  have hcolon := lowerOctet_normOctet c
  rw [h] at hcolon
  exact absurd hcolon (by decide)

/-- The normal form of a name has no colon. -/
theorem colon_notMem_normal {size : ℕ} {agent : Option CString} {text : Bytes}
    (h : scAgentRoutingNormalizeId size agent = some text) : ch ':' ∉ text := by
  unfold scAgentRoutingNormalizeId at h
  cases agent with
  | none =>
    rw [Option.some.injEq] at h
    rw [← h]
    decide
  | some s =>
    simp only at h
    split_ifs at h
    · rw [Option.some.injEq] at h
      rw [← h]
      decide
    · rw [Option.some.injEq] at h
      rw [← h]
      intro hmem
      have hdrop := (List.rdropWhile_prefix _ _).subset hmem
      have hmap := (List.dropWhile_suffix _).subset hdrop
      obtain ⟨c, -, hc⟩ := List.mem_map.mp hmap
      exact normOctet_ne_colon c hc

/-- The terminator goes past the end of the buffer exactly if the buffer is full and its last octet
is kept. -/
theorem normal_isSome_iff (agent : Option CString) :
    (scAgentRoutingNormalizeId normBuf agent).isSome ↔ NameFits agent := by
  cases agent with
  | none => exact iff_of_true rfl fun s hs => by cases hs
  | some s =>
    have hmodel : scAgentRoutingNormalizeId normBuf (some s) =
        if normalText normBuf s.octets = [] then some defaultId
        else if (keptOctets normBuf s.octets).length < normBuf then
          some (normalText normBuf s.octets)
        else none := rfl
    have hfits : NameFits (some s) ↔ (keptOctets normBuf s.octets).length < normBuf := by
      rw [length_keptOctets_lt_iff (by decide)]
      exact ⟨fun h => h s rfl, fun h t ht => Option.some.inj ht ▸ h⟩
    rw [hmodel, hfits]
    by_cases hroom : (keptOctets normBuf s.octets).length < normBuf
    · rw [if_pos hroom]
      refine iff_of_true ?_ hroom
      split_ifs <;> rfl
    · have hsome : normalText normBuf s.octets ≠ [] := by
        intro hnil
        rw [normalText_eq_nil_iff] at hnil
        apply hroom
        rw [length_keptOctets_lt_iff (by decide)]
        intro c hc
        apply hnil c
        rw [List.mem_take_iff_getElem]
        obtain ⟨hlt, heq⟩ := List.getElem?_eq_some_iff.mp hc
        exact ⟨normBuf - 1, lt_min (by decide) hlt, heq⟩
      rw [if_neg hsome, if_neg hroom]
      exact iff_of_false (by simp) hroom

end NormalForm

/-! ## Reading a key back -/

section Keys

variable {p q : PeerRef} {x y : Bytes}

/-- A colon ends what has none. -/
theorem colon_split {a b s t : Bytes} (ha : ch ':' ∉ a) (hb : ch ':' ∉ b) :
    a ++ ascii ":" ++ s = b ++ ascii ":" ++ t ↔ a = b ∧ s = t := by
  constructor
  · intro h
    induction a generalizing b with
    | nil =>
      cases b with
      | nil => exact ⟨rfl, List.tail_eq_of_cons_eq h⟩
      | cons c b =>
        have hc : ch ':' = c := List.head_eq_of_cons_eq h
        exact absurd (hc ▸ List.mem_cons_self) hb
    | cons c a ih =>
      cases b with
      | nil =>
        have hc : c = ch ':' := List.head_eq_of_cons_eq h
        exact absurd (hc ▸ List.mem_cons_self) ha
      | cons c' b =>
        obtain ⟨hab, hst⟩ := ih (List.not_mem_of_not_mem_cons ha)
          (List.not_mem_of_not_mem_cons hb) (List.tail_eq_of_cons_eq h)
        exact ⟨by rw [List.head_eq_of_cons_eq h, hab], hst⟩
  · rintro ⟨rfl, rfl⟩
    rfl

/-- Both are direct chats, and exactly one of the whole strings and the counted octets of their
peers agree. -/
def Confusing (p q : PeerRef) : Prop :=
  p.kind = .direct ∧ q.kind = .direct ∧ ¬ (p.id = q.id ↔ p.counted = q.counted)

/-- What a key says of a peer with a name that has no NUL. -/
theorem chatText_some (hid : p.id = some x) (hzero : 0 ∉ x) : chatText (some p) =
    if p.kind ≠ .direct then p.kind.text ++ ascii ":" ++ x.take (p.len x)
    else ascii "direct" ++ ascii ":" ++ x := by
  have htake : 0 ∉ x.take (p.len x) := fun h => hzero (List.mem_of_mem_take h)
  simp only [chatText, hid, CString.octets_ofBytes.mpr hzero, CString.octets_ofBytes.mpr htake]
  rfl

theorem colon_notMem_text (kind : PeerKind) : ch ':' ∉ kind.text := by
  cases kind <;> decide

theorem text_injective {k l : PeerKind} (h : k.text = l.text) : k = l := by
  cases k <;> cases l <;> first | rfl | exact absurd h (by decide)

theorem text_ne_none (kind : PeerKind) : kind.text ≠ ascii "none" := by
  cases kind <;> decide

theorem chatText_ne_none (hid : p.id = some x) (hzero : 0 ∉ x) :
    chatText (some p) ≠ chatText none := by
  have hnone : chatText none = ascii "none" ++ ascii ":" ++ ascii "none" := by decide
  rw [chatText_some hid hzero, hnone]
  split_ifs with hkind
  · rw [Ne, colon_split (colon_notMem_text _) (by decide), not_and]
    intro h
    exact absurd h (text_ne_none _)
  · rw [Ne, colon_split (by decide) (by decide), not_and]
    intro h
    exact absurd h (by decide)

theorem chatText_eq_iff (hp : p.id = some x) (hq : q.id = some y) (hx : 0 ∉ x) (hy : 0 ∉ y) :
    chatText (some p) = chatText (some q) ↔ p.kind = q.kind ∧
      if p.kind = .direct then p.id = q.id else p.counted = q.counted := by
  have hcounted : p.counted = q.counted ↔ x.take (p.len x) = y.take (q.len y) := by
    rw [PeerRef.counted, PeerRef.counted, hp, hq, Option.map_some, Option.map_some,
      Option.some.injEq]
  rw [chatText_some hp hx, chatText_some hq hy, hcounted, hp, hq, Option.some.injEq]
  by_cases hdirect : p.kind = .direct <;> by_cases hdirect' : q.kind = .direct
  · simp only [hdirect, hdirect', ne_eq, not_true, if_false, if_true, true_and]
    rw [colon_split (by decide) (by decide)]
    simp only [true_and]
  · have hkind : p.kind ≠ q.kind := fun h => hdirect' (h ▸ hdirect)
    simp only [hkind, false_and, iff_false]
    rw [if_neg (by simp [hdirect]), if_pos hdirect', colon_split (by decide)
      (colon_notMem_text _), not_and]
    intro h
    exact absurd (text_injective (show PeerKind.direct.text = q.kind.text from h)).symm hdirect'
  · have hkind : p.kind ≠ q.kind := fun h => hdirect (h ▸ hdirect')
    simp only [hkind, false_and, iff_false]
    rw [if_pos hdirect, if_neg (by simp [hdirect']), colon_split (colon_notMem_text _)
      (by decide), not_and]
    intro h
    exact absurd (text_injective (show p.kind.text = PeerKind.direct.text from h)) hdirect
  · rw [if_pos hdirect, if_pos hdirect', if_neg hdirect,
      colon_split (colon_notMem_text _) (colon_notMem_text _)]
    constructor
    · rintro ⟨hkind, hnames⟩
      exact ⟨text_injective hkind, hnames⟩
    · rintro ⟨hkind, hnames⟩
      exact ⟨congrArg PeerKind.text hkind, hnames⟩

end Keys

/-! ## Isolation -/

/-- A chat as the key is built from it: an agent, a channel and perhaps a peer. -/
structure Chat where
  agentId : Option CString
  channel : CString
  peer : Option PeerRef
  noColon : ch ':' ∉ channel.octets
  named : ∀ p ∈ peer, ∃ x, p.id = some x ∧ 0 ∉ x

/-- The key of the chat. -/
def Chat.key (c : Chat) : Option Bytes :=
  scAgentRoutingBuildSessionKey c.agentId (some c.channel) c.peer

/-- The chats agree in the normal form of the agent, the channel and the peer. -/
def Chat.Agrees (c d : Chat) : Prop :=
  scAgentRoutingNormalizeId normBuf c.agentId = scAgentRoutingNormalizeId normBuf d.agentId ∧
    c.channel = d.channel ∧ PeersAgree c.peer d.peer

/-- Both chats have a key, and it is the same one exactly if they agree. -/
def Chat.Isolated (c d : Chat) : Prop :=
  ∃ k l, c.key = some k ∧ d.key = some l ∧ (k = l ↔ c.Agrees d)

/-- The peers of two chats that agree otherwise are told apart by their counted octets. -/
def Chat.Distinguished (c d : Chat) : Prop :=
  scAgentRoutingNormalizeId normBuf c.agentId = scAgentRoutingNormalizeId normBuf d.agentId →
    c.channel = d.channel → ∀ p ∈ c.peer, ∀ q ∈ d.peer, ¬ Confusing p q

theorem chatText_iff {p q : Option PeerRef} (hp : ∀ r ∈ p, ∃ x, r.id = some x ∧ 0 ∉ x)
    (hq : ∀ r ∈ q, ∃ x, r.id = some x ∧ 0 ∉ x) :
    (chatText p = chatText q ↔ PeersAgree p q) ↔ ∀ r ∈ p, ∀ s ∈ q, ¬ Confusing r s := by
  cases p with
  | none =>
    cases q with
    | none => simp [PeersAgree]
    | some s =>
      obtain ⟨y, hy, hzero⟩ := hq s rfl
      simp [PeersAgree, (chatText_ne_none hy hzero).symm]
  | some r =>
    obtain ⟨x, hx, hxzero⟩ := hp r rfl
    cases q with
    | none => simp [PeersAgree, chatText_ne_none hx hxzero]
    | some s =>
      obtain ⟨y, hy, hyzero⟩ := hq s rfl
      simp only [Option.mem_some_iff, forall_eq', PeersAgree, chatText_eq_iff hx hy hxzero hyzero,
        Confusing]
      by_cases hkind : r.kind = s.kind
      · rw [← hkind]
        by_cases hdirect : r.kind = .direct
        · simp only [hdirect, if_true, true_and, not_not]
        · simp only [hdirect, if_false, false_and, not_false_iff]
      · simp only [hkind, false_and, true_iff, not_and]
        intro hr hs
        exact absurd (hr.trans hs.symm) hkind

/-- The key of a chat, when the normal form of its agent is known. -/
theorem Chat.key_eq {c : Chat} {a : Bytes}
    (ha : scAgentRoutingNormalizeId normBuf c.agentId = some a) : c.key =
      some (ascii "agent:" ++ (a ++ ascii ":" ++
        (c.channel.octets ++ ascii ":" ++ chatText c.peer))) := by
  rw [Chat.key, scAgentRoutingBuildSessionKey, ha]
  rfl

/-- Keys are equal exactly if their parts are. -/
theorem parts_eq_iff {c d : Chat} {a b : Bytes} (ha : ch ':' ∉ a) (hb : ch ':' ∉ b) :
    ascii "agent:" ++ (a ++ ascii ":" ++ (c.channel.octets ++ ascii ":" ++ chatText c.peer)) =
      ascii "agent:" ++ (b ++ ascii ":" ++ (d.channel.octets ++ ascii ":" ++ chatText d.peer)) ↔
        a = b ∧ c.channel = d.channel ∧ chatText c.peer = chatText d.peer := by
  rw [List.append_cancel_left_eq, colon_split ha hb, colon_split c.noColon d.noColon,
    CString.ext_iff]

/-- Two chats are kept apart exactly if the names of their agents fit and no direct peers are
confused. -/
theorem session_isolation_iff (c d : Chat) : c.Isolated d ↔
    NameFits c.agentId ∧ NameFits d.agentId ∧ c.Distinguished d := by
  have hkeys : ∀ a b, scAgentRoutingNormalizeId normBuf c.agentId = some a →
      scAgentRoutingNormalizeId normBuf d.agentId = some b →
        (c.Isolated d ↔ c.Distinguished d) := by
    intro a b ha hb
    have hparts := @parts_eq_iff c d a b (colon_notMem_normal ha) (colon_notMem_normal hb)
    have htext := chatText_iff c.named d.named
    simp only [Chat.Isolated, Chat.key_eq ha, Chat.key_eq hb, Option.some.injEq,
      exists_eq_left', exists_and_left, hparts, Chat.Agrees, ha, hb, Chat.Distinguished]
    rw [← htext]
    tauto
  rw [← normal_isSome_iff, ← normal_isSome_iff, Option.isSome_iff_exists,
    Option.isSome_iff_exists]
  constructor
  · intro h
    obtain ⟨k, l, hk, hl, -⟩ := id h
    rw [Chat.key, scAgentRoutingBuildSessionKey, Option.map_eq_some_iff] at hk hl
    obtain ⟨a, ha, -⟩ := hk
    obtain ⟨b, hb, -⟩ := hl
    exact ⟨⟨a, ha⟩, ⟨b, hb⟩, (hkeys a b ha hb).mp h⟩
  · rintro ⟨⟨a, ha⟩, ⟨b, hb⟩, h⟩
    exact (hkeys a b ha hb).mpr h

/-- A direct chat with the first two octets of a name. -/
def directChat (name : Bytes) (hname : 2 ≤ name.length ∧ 0 ∉ name) : Chat where
  agentId := some (CString.ofBytes (ascii "bot"))
  channel := CString.ofBytes (ascii "telegram")
  peer := some ⟨some name, 2, .direct, fun _ hm => Option.some.inj hm ▸ hname.1⟩
  noColon := by decide
  named := fun _ hp => ⟨name, Option.some.inj hp ▸ rfl, hname.2⟩

/-- Of two peers only the octets `al` are counted, and the keys are different all the same. -/
theorem session_isolation_uncounted :
    ∃ c d : Chat, c.Agrees d ∧ ∃ k l, c.key = some k ∧ d.key = some l ∧ k ≠ l := by
  refine ⟨directChat (ascii "alice") (by decide), directChat (ascii "albert") (by decide),
    ⟨rfl, rfl, rfl, ?_⟩, _, _, rfl, rfl, ?_⟩
  · decide
  · decide

end SeaClaw.Routing
