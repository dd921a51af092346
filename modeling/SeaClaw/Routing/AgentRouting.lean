import SeaClaw.Core.Error
import SeaClaw.Lib.CString
import SeaClaw.Providers.Scrub

/-!
# Routes to agents

A message goes to the agent of the first binding in the highest tier, or to the default agent. A
binding restricts the channel, the account, the peer, the guild, the team and the roles of the
sender, each of them if it is given. The tiers are looked at one after the other, and a binding
that restricts nothing but the roles is in none of them.
-/

namespace SeaClaw.Routing

open Lib
open Providers (isAlnum)

/-- `sc_peer_kind_t` -/
inductive PeerKind where
  | direct | group | channel
  deriving DecidableEq

/-- `sc_peer_ref_t`. The octets at `id` are followed by a terminator, and `id_len` of them may be
counted. -/
structure PeerRef where
  id : Option Bytes
  idLen : ℕ
  kind : PeerKind
  readable : ∀ m ∈ id, idLen ≤ m.length

/-- `sc_agent_binding_t` with its match. -/
structure AgentBinding where
  agentId : Option CString
  channel : Option CString
  accountId : Option CString
  peer : Option PeerRef
  guildId : Option CString
  teamId : Option CString
  roles : List (Option CString)

/-- `sc_route_input_t` -/
structure RouteInput where
  channel : Option CString
  accountId : Option CString
  peer : Option PeerRef
  parentPeer : Option PeerRef
  guildId : Option CString
  teamId : Option CString
  memberRoleIds : List (Option CString)

/-- `sc_matched_by_t` -/
inductive MatchedBy where
  | peer | parentPeer | guildRoles | guild | team | account | channelOnly | default
  deriving DecidableEq

/-- `sc_resolved_route_t`. There is no key where the name of the agent, put into its normal form,
is written past the end of the buffer for it. -/
structure ResolvedRoute where
  sessionKey : Option Bytes
  mainSessionKey : Option Bytes
  agentId : Option CString
  channel : Option CString
  accountId : Option CString
  matchedBy : MatchedBy

/-! ## Keys -/

/-- `NORM_BUF` -/
def normBuf : ℕ := 64

/-- One octet of a name in its normal form. -/
def normOctet (c : UInt8) : UInt8 := if isAlnum c then toLower c else ch '-'

/-- `sc_agent_routing_normalize_id`, nothing where the terminator is written past the buffer. -/
def scAgentRoutingNormalizeId (bufSize : ℕ) (input : Option CString) : Option Bytes :=
  match input with
  | none => some (ascii "default")
  | some input =>
    let buf := (input.octets.take bufSize).map normOctet
    let text := (buf.dropWhile (· = ch '-')).rdropWhile (· = ch '-')
    if text = [] then some (ascii "default")
    else if (buf.rdropWhile (· = ch '-')).length < bufSize then some text
    else none

/-- `peer->id_len ? peer->id_len : strlen(peer->id)` -/
def PeerRef.len (p : PeerRef) (id : Bytes) : ℕ :=
  if p.idLen ≠ 0 then p.idLen else (CString.ofBytes id).octets.length

/-- What `%s` prints of a pointer. -/
def printed : Option CString → Bytes
  | some s => s.octets
  | none => ascii "(null)"

/-- `kind_str` -/
def PeerKind.text : PeerKind → Bytes
  | .direct => ascii "direct"
  | .group => ascii "group"
  | .channel => ascii "channel"

/-- What the key says of the peer. A direct chat is named by the whole string, the others by the
octets that are counted. -/
def chatText : Option PeerRef → Bytes
  | some p =>
    match p.id with
    | some id =>
      if p.kind ≠ .direct then
        p.kind.text ++ ascii ":" ++ (CString.ofBytes (id.take (p.len id))).octets
      else ascii "direct:" ++ (CString.ofBytes id).octets
    | none => ascii "none:none"
  | none => ascii "none:none"

/-- `sc_agent_routing_build_session_key`, with its scope for direct chats and no links. -/
def scAgentRoutingBuildSessionKey (agentId channel : Option CString) (peer : Option PeerRef) :
    Option Bytes :=
  (scAgentRoutingNormalizeId normBuf agentId).map fun agent =>
    ascii "agent:" ++ (agent ++ ascii ":" ++ (printed channel ++ ascii ":" ++ chatText peer))

/-- `sc_agent_routing_build_main_session_key` -/
def scAgentRoutingBuildMainSessionKey (agentId : Option CString) : Option Bytes :=
  (scAgentRoutingNormalizeId normBuf agentId).map fun agent =>
    ascii "agent:" ++ agent ++ ascii ":main"

/-! ## Matching -/

/-- `str_eq` -/
def strEq (a : Bytes) (aLen : ℕ) (b : Bytes) (bLen : ℕ) : Bool :=
  if aLen ≠ bLen then false
  else if aLen = 0 then true
  else a.take aLen = b.take bLen

/-- A string that the binding gives is the one of the input. -/
def sameString (bound given : Option CString) : Bool :=
  match bound with
  | some s => given = some s
  | none => true

/-- `sc_agent_routing_binding_matches_scope` -/
def scAgentRoutingBindingMatchesScope (b : AgentBinding) (input : RouteInput) : Bool :=
  sameString b.channel input.channel && sameString b.accountId input.accountId

/-- `has_matching_role` -/
def hasMatchingRole (bindingRoles memberRoles : List (Option CString)) : Bool :=
  bindingRoles.any fun r => memberRoles.any fun m => r.isSome && m.isSome && r = m

/-- The peer of the binding against the one that is looked at. -/
def peerMatches (bound check : Option PeerRef) : Bool :=
  match bound, check with
  | none, _ => true
  | some _, none => false
  | some p, some q =>
    if p.kind ≠ q.kind then false
    else
      match p.id, q.id with
      | some a, some b => strEq a (p.len a) b (q.len b)
      | _, _ => false

/-- `all_constraints_match` -/
def allConstraintsMatch (b : AgentBinding) (input : RouteInput) (checkPeer : Option PeerRef) :
    Bool :=
  peerMatches b.peer checkPeer && sameString b.guildId input.guildId &&
    sameString b.teamId input.teamId &&
    (b.roles.isEmpty || hasMatchingRole b.roles input.memberRoleIds)

/-- `is_account_only` -/
def isAccountOnly (b : AgentBinding) : Bool :=
  b.peer.isNone && b.guildId.isNone && b.teamId.isNone && b.roles.isEmpty

/-- `is_channel_only` -/
def isChannelOnly (b : AgentBinding) : Bool :=
  b.accountId.isNone && b.peer.isNone && b.guildId.isNone && b.teamId.isNone && b.roles.isEmpty

/-- The parent has a name. -/
def hasParent (input : RouteInput) : Bool :=
  match input.parentPeer with
  | some p =>
    match p.id with
    | some id => p.len id > 0
    | none => false
  | none => false

/-- What a tier asks of a candidate, together with the test in front of its loop. -/
def tierTakes (input : RouteInput) (b : AgentBinding) : MatchedBy → Bool
  | .peer => input.peer.isSome && b.peer.isSome && allConstraintsMatch b input input.peer
  | .parentPeer => hasParent input && b.peer.isSome && allConstraintsMatch b input input.parentPeer
  | .guildRoles => input.guildId.isSome && !input.memberRoleIds.isEmpty && b.guildId.isSome &&
      !b.roles.isEmpty && allConstraintsMatch b input input.peer
  | .guild => input.guildId.isSome && b.guildId.isSome && b.roles.isEmpty &&
      allConstraintsMatch b input input.peer
  | .team => input.teamId.isSome && b.teamId.isSome && allConstraintsMatch b input input.peer
  | .account => b.accountId.isSome && isAccountOnly b
  | .channelOnly => isChannelOnly b
  | .default => false

/-- The tiers in the order in which they are tried. -/
def tiers : List MatchedBy :=
  [.peer, .parentPeer, .guildRoles, .guild, .team, .account, .channelOnly]

/-- `sc_agent_routing_find_default_agent` -/
def scAgentRoutingFindDefaultAgent (agents : List (Option CString)) : Option CString :=
  match agents with
  | some name :: _ => some name
  | _ => some (CString.ofBytes (ascii "main"))

/-- Which allocations succeed. -/
structure RouteMemory where
  candidates : Bool
  sessionKey : Bool
  mainSessionKey : Bool

/-- `build_route` -/
def buildRoute (memory : RouteMemory) (agentId : Option CString) (input : RouteInput)
    (matchedBy : MatchedBy) : Except ScError ResolvedRoute :=
  if !memory.sessionKey then .error .outOfMemory
  else if !memory.mainSessionKey then .error .outOfMemory
  else .ok {
    sessionKey := scAgentRoutingBuildSessionKey agentId input.channel input.peer
    mainSessionKey := scAgentRoutingBuildMainSessionKey agentId
    agentId := agentId
    channel := input.channel
    accountId := input.accountId
    matchedBy := matchedBy }

/-- The first candidate of the first tier that takes one. -/
def chooseBinding (input : RouteInput) (bindings : List AgentBinding) :
    Option (AgentBinding × MatchedBy) :=
  let candidates := bindings.filter (scAgentRoutingBindingMatchesScope · input)
  tiers.findSome? fun tier => (candidates.find? (tierTakes input · tier)).map (·, tier)

/-- `sc_agent_routing_resolve_route`, with the names of the agents. -/
def scAgentRoutingResolveRoute (memory : RouteMemory) (input : RouteInput)
    (bindings : List AgentBinding) (agents : List (Option CString)) :
    Except ScError ResolvedRoute :=
  if !memory.candidates && bindings.length > 0 then .error .outOfMemory
  else
    match chooseBinding input bindings with
    | some (b, tier) => buildRoute memory b.agentId input tier
    | none => buildRoute memory (scAgentRoutingFindDefaultAgent agents) input .default

/-! ## What a binding asks -/

/-- The peer of a binding is the other one: the same kind and the same name. -/
def SamePeer (p q : PeerRef) : Prop :=
  p.kind = q.kind ∧ ∃ a b, p.id = some a ∧ q.id = some b ∧ a.take (p.len a) = b.take (q.len b)

/-- Everything that the binding restricts is as it says, with the peer that is looked at. -/
structure Satisfies (b : AgentBinding) (input : RouteInput) (peer : Option PeerRef) : Prop where
  channel : ∀ s ∈ b.channel, input.channel = some s
  account : ∀ s ∈ b.accountId, input.accountId = some s
  peer : ∀ p ∈ b.peer, ∃ q ∈ peer, SamePeer p q
  guild : ∀ s ∈ b.guildId, input.guildId = some s
  team : ∀ s ∈ b.teamId, input.teamId = some s
  roles : b.roles ≠ [] → ∃ r, some r ∈ b.roles ∧ some r ∈ input.memberRoleIds

/-- The parent of the peer has a name that is not empty. -/
def NamedParent (input : RouteInput) : Prop :=
  ∃ p ∈ input.parentPeer, ∃ id ∈ p.id, id.take (p.len id) ≠ []

/-- The binding belongs to the tier and is satisfied. -/
def InTier (input : RouteInput) (b : AgentBinding) : MatchedBy → Prop
  | .peer => b.peer ≠ none ∧ Satisfies b input input.peer
  | .parentPeer => b.peer ≠ none ∧ NamedParent input ∧ Satisfies b input input.parentPeer
  | .guildRoles => b.guildId ≠ none ∧ b.roles ≠ [] ∧ Satisfies b input input.peer
  | .guild => b.guildId ≠ none ∧ b.roles = [] ∧ Satisfies b input input.peer
  | .team => b.teamId ≠ none ∧ Satisfies b input input.peer
  | .account => b.accountId ≠ none ∧ b.peer = none ∧ b.guildId = none ∧ b.teamId = none ∧
      b.roles = [] ∧ Satisfies b input input.peer
  | .channelOnly => b.accountId = none ∧ b.peer = none ∧ b.guildId = none ∧ b.teamId = none ∧
      b.roles = [] ∧ Satisfies b input input.peer
  | .default => False

section Matching

variable {b : AgentBinding} {input : RouteInput}

theorem sameString_iff {bound given : Option CString} :
    sameString bound given ↔ ∀ s ∈ bound, given = some s := by
  cases bound <;> simp [sameString]

theorem hasMatchingRole_iff {bound given : List (Option CString)} :
    hasMatchingRole bound given ↔ ∃ r, some r ∈ bound ∧ some r ∈ given := by
  simp only [hasMatchingRole, List.any_eq_true, Bool.and_eq_true, decide_eq_true_eq]
  constructor
  · rintro ⟨r, hr, m, hm, ⟨hsome, -⟩, rfl⟩
    obtain ⟨x, rfl⟩ := Option.isSome_iff_exists.mp hsome
    exact ⟨x, hr, hm⟩
  · rintro ⟨r, hbound, hgiven⟩
    exact ⟨some r, hbound, some r, hgiven, ⟨rfl, rfl⟩, rfl⟩

/-- There are as many octets as are counted. -/
theorem PeerRef.len_le {p : PeerRef} {id : Bytes} (h : p.id = some id) :
    p.len id ≤ id.length := by
  rw [PeerRef.len]
  split_ifs with hlen
  · exact p.readable id h
  · exact (List.takeWhile_prefix _).length_le

theorem strEq_iff {a b : Bytes} {aLen bLen : ℕ} (ha : aLen ≤ a.length) (hb : bLen ≤ b.length) :
    strEq a aLen b bLen ↔ a.take aLen = b.take bLen := by
  rw [strEq]
  by_cases hlen : aLen = bLen
  · subst hlen
    by_cases hzero : aLen = 0
    · simp [hzero]
    · simp [hzero]
  · have hne : a.take aLen ≠ b.take bLen := by
      intro h
      have hlength := congrArg List.length h
      rw [List.length_take_of_le ha, List.length_take_of_le hb] at hlength
      exact hlen hlength
    simp [hlen, hne]

theorem peerMatches_iff {bound check : Option PeerRef} :
    peerMatches bound check ↔ ∀ p ∈ bound, ∃ q ∈ check, SamePeer p q := by
  cases bound with
  | none => simp [peerMatches]
  | some p =>
    cases check with
    | none => simp [peerMatches]
    | some q =>
      simp only [peerMatches, Option.mem_some_iff, forall_eq', exists_eq_left', SamePeer]
      by_cases hkind : p.kind = q.kind
      · cases hp : p.id with
        | none => simp [hkind]
        | some x =>
          cases hq : q.id with
          | none => simp [hkind]
          | some y =>
            simp [hkind, strEq_iff (PeerRef.len_le hp) (PeerRef.len_le hq)]
      · simp [hkind]

/-- The filter in front of the tiers and the test inside them are what the binding asks. -/
theorem satisfies_iff {peer : Option PeerRef} : Satisfies b input peer ↔
    scAgentRoutingBindingMatchesScope b input ∧ allConstraintsMatch b input peer := by
  rw [scAgentRoutingBindingMatchesScope, allConstraintsMatch]
  simp only [Bool.and_eq_true, Bool.or_eq_true, sameString_iff, peerMatches_iff,
    hasMatchingRole_iff, List.isEmpty_iff]
  constructor
  · intro h
    refine ⟨⟨h.channel, h.account⟩, ⟨⟨h.peer, h.guild⟩, h.team⟩, ?_⟩
    by_cases hroles : b.roles = []
    · exact Or.inl hroles
    · exact Or.inr (h.roles hroles)
  · rintro ⟨⟨hchannel, haccount⟩, ⟨⟨hpeer, hguild⟩, hteam⟩, hroles⟩
    exact ⟨hchannel, haccount, hpeer, hguild, hteam, hroles.resolve_left⟩

theorem hasParent_iff : hasParent input ↔ NamedParent input := by
  rw [hasParent, NamedParent]
  cases hparent : input.parentPeer with
  | none => simp
  | some p =>
    cases hid : p.id with
    | none => simp [hid]
    | some id =>
      have hlen := PeerRef.len_le hid
      simp only [hid, Option.mem_some_iff, exists_eq_left', decide_eq_true_eq, ne_eq,
        List.take_eq_nil_iff, not_or]
      constructor
      · intro hpos
        refine ⟨by omega, ?_⟩
        rintro rfl
        rw [List.length_nil] at hlen
        omega
      · intro h
        omega

/-- A binding that restricts nothing inside the tiers is satisfied as soon as the filter lets it
through. -/
theorem allConstraintsMatch_only (hpeer : b.peer = none) (hguild : b.guildId = none)
    (hteam : b.teamId = none) (hroles : b.roles = []) (peer : Option PeerRef) :
    allConstraintsMatch b input peer := by
  simp [allConstraintsMatch, hpeer, hguild, hteam, hroles, peerMatches, sameString]

/-- What is restricted is given. -/
theorem isSome_of_forall {α : Type*} {bound given : Option α} (hbound : bound ≠ none)
    (h : ∀ s ∈ bound, given = some s) : given.isSome := by
  obtain ⟨s, hs⟩ := Option.ne_none_iff_exists'.mp hbound
  rw [h s hs]
  rfl

theorem Satisfies.peer_isSome {peer : Option PeerRef} (h : Satisfies b input peer)
    (hpeer : b.peer ≠ none) : peer.isSome := by
  obtain ⟨p, hp⟩ := Option.ne_none_iff_exists'.mp hpeer
  obtain ⟨q, hq, -⟩ := h.peer p hp
  exact Option.isSome_of_mem hq

theorem Satisfies.memberRoles_ne_nil {peer : Option PeerRef} (h : Satisfies b input peer)
    (hroles : b.roles ≠ []) : input.memberRoleIds ≠ [] := by
  obtain ⟨r, -, hr⟩ := h.roles hroles
  exact List.ne_nil_of_mem hr

/-- A candidate is taken by a tier exactly if it belongs to the tier and is satisfied. The test in
front of the loop of a tier asks nothing more. -/
theorem inTier_iff (tier : MatchedBy) : InTier input b tier ↔
    scAgentRoutingBindingMatchesScope b input ∧ tierTakes input b tier := by
  cases tier with
  | peer =>
    simp only [InTier, tierTakes, Bool.and_eq_true, Option.isSome_iff_ne_none]
    constructor
    · rintro ⟨hpeer, h⟩
      obtain ⟨hscope, hall⟩ := satisfies_iff.mp h
      exact ⟨hscope, ⟨Option.isSome_iff_ne_none.mp (h.peer_isSome hpeer), hpeer⟩, hall⟩
    · rintro ⟨hscope, ⟨-, hpeer⟩, hall⟩
      exact ⟨hpeer, satisfies_iff.mpr ⟨hscope, hall⟩⟩
  | parentPeer =>
    simp only [InTier, tierTakes, Bool.and_eq_true, Option.isSome_iff_ne_none, satisfies_iff,
      hasParent_iff]
    tauto
  | guildRoles =>
    simp only [InTier, tierTakes, Bool.and_eq_true, Option.isSome_iff_ne_none,
      Bool.not_eq_true', List.isEmpty_eq_false_iff]
    constructor
    · rintro ⟨hguild, hroles, h⟩
      obtain ⟨hscope, hall⟩ := satisfies_iff.mp h
      have hgiven := Option.isSome_iff_ne_none.mp (isSome_of_forall hguild h.guild)
      exact ⟨hscope, ⟨⟨⟨hgiven, h.memberRoles_ne_nil hroles⟩, hguild⟩, hroles⟩, hall⟩
    · rintro ⟨hscope, ⟨⟨-, hguild⟩, hroles⟩, hall⟩
      exact ⟨hguild, hroles, satisfies_iff.mpr ⟨hscope, hall⟩⟩
  | guild =>
    simp only [InTier, tierTakes, Bool.and_eq_true, Option.isSome_iff_ne_none,
      List.isEmpty_iff]
    constructor
    · rintro ⟨hguild, hroles, h⟩
      obtain ⟨hscope, hall⟩ := satisfies_iff.mp h
      have hgiven := Option.isSome_iff_ne_none.mp (isSome_of_forall hguild h.guild)
      exact ⟨hscope, ⟨⟨hgiven, hguild⟩, hroles⟩, hall⟩
    · rintro ⟨hscope, ⟨⟨-, hguild⟩, hroles⟩, hall⟩
      exact ⟨hguild, hroles, satisfies_iff.mpr ⟨hscope, hall⟩⟩
  | team =>
    simp only [InTier, tierTakes, Bool.and_eq_true, Option.isSome_iff_ne_none]
    constructor
    · rintro ⟨hteam, h⟩
      obtain ⟨hscope, hall⟩ := satisfies_iff.mp h
      have hgiven := Option.isSome_iff_ne_none.mp (isSome_of_forall hteam h.team)
      exact ⟨hscope, ⟨hgiven, hteam⟩, hall⟩
    · rintro ⟨hscope, ⟨-, hteam⟩, hall⟩
      exact ⟨hteam, satisfies_iff.mpr ⟨hscope, hall⟩⟩
  | account =>
    simp only [InTier, tierTakes, isAccountOnly, Bool.and_eq_true, Option.isSome_iff_ne_none,
      Option.isNone_iff_eq_none, List.isEmpty_iff]
    constructor
    · rintro ⟨haccount, hpeer, hguild, hteam, hroles, h⟩
      exact ⟨(satisfies_iff.mp h).1, haccount, ⟨⟨hpeer, hguild⟩, hteam⟩, hroles⟩
    · rintro ⟨hscope, haccount, ⟨⟨hpeer, hguild⟩, hteam⟩, hroles⟩
      have hall : allConstraintsMatch b input input.peer :=
        allConstraintsMatch_only hpeer hguild hteam hroles input.peer
      exact ⟨haccount, hpeer, hguild, hteam, hroles, satisfies_iff.mpr ⟨hscope, hall⟩⟩
  | channelOnly =>
    simp only [InTier, tierTakes, isChannelOnly, Bool.and_eq_true, Option.isNone_iff_eq_none,
      List.isEmpty_iff]
    constructor
    · rintro ⟨haccount, hpeer, hguild, hteam, hroles, h⟩
      exact ⟨(satisfies_iff.mp h).1, ⟨⟨⟨haccount, hpeer⟩, hguild⟩, hteam⟩, hroles⟩
    · rintro ⟨hscope, ⟨⟨⟨haccount, hpeer⟩, hguild⟩, hteam⟩, hroles⟩
      have hall : allConstraintsMatch b input input.peer :=
        allConstraintsMatch_only hpeer hguild hteam hroles input.peer
      exact ⟨haccount, hpeer, hguild, hteam, hroles, satisfies_iff.mpr ⟨hscope, hall⟩⟩
  | default => simp only [InTier, tierTakes, Bool.false_eq_true, and_false]

end Matching

/-! ## The choice -/

/-- One tier is tried before the other. -/
def Before (t u : MatchedBy) : Prop := tiers.idxOf t < tiers.idxOf u

/-- The binding is the first one of the highest tier that has a satisfied binding. -/
structure Chosen (input : RouteInput) (bindings : List AgentBinding) (b : AgentBinding)
    (tier : MatchedBy) : Prop where
  inTier : InTier input b tier
  highest : ∀ b' ∈ bindings, ∀ tier', Before tier' tier → ¬ InTier input b' tier'
  earliest : ∃ front back, bindings = front ++ b :: back ∧ ∀ b' ∈ front, ¬ InTier input b' tier

section Choice

variable {input : RouteInput} {bindings : List AgentBinding}

/-- The loop of a tier runs over the candidates. -/
theorem find?_candidates (tier : MatchedBy) :
    (bindings.filter (scAgentRoutingBindingMatchesScope · input)).find? (tierTakes input · tier) =
      bindings.find? fun b =>
        scAgentRoutingBindingMatchesScope b input && tierTakes input b tier := by
  rw [List.find?_filter]
  simp only [Bool.decide_and, Bool.decide_eq_true]

theorem takes_iff {b : AgentBinding} {tier : MatchedBy} :
    (scAgentRoutingBindingMatchesScope b input && tierTakes input b tier) = true ↔
      InTier input b tier := by
  rw [Bool.and_eq_true, inTier_iff]

theorem find?_candidates_eq_none {tier : MatchedBy} :
    (bindings.filter (scAgentRoutingBindingMatchesScope · input)).find? (tierTakes input · tier) =
      none ↔ ∀ b ∈ bindings, ¬ InTier input b tier := by
  rw [find?_candidates, List.find?_eq_none]
  simp only [takes_iff]

theorem chosen_of_chooseBinding {b : AgentBinding} {tier : MatchedBy}
    (h : chooseBinding input bindings = some (b, tier)) : Chosen input bindings b tier := by
  rw [chooseBinding, List.findSome?_eq_some_iff] at h
  obtain ⟨front, t, back, htiers, hfind, hfront⟩ := h
  rw [Option.map_eq_some_iff] at hfind
  obtain ⟨b', hb', heq⟩ := hfind
  obtain ⟨rfl, rfl⟩ := Prod.mk.inj heq
  rw [find?_candidates, List.find?_eq_some_iff_append] at hb'
  obtain ⟨hin, front', back', hsplit, hearlier⟩ := hb'
  refine ⟨takes_iff.mp hin, ?_, front', back', hsplit, ?_⟩
  · intro c hc u hbefore
    have hu : u ∈ front := by
      by_contra hu
      rw [Before, htiers, List.idxOf_append_of_notMem hu, List.idxOf_append] at hbefore
      split_ifs at hbefore with ht
      · have hlt := List.idxOf_lt_length_of_mem ht
        omega
      · rw [List.idxOf_cons_self] at hbefore
        omega
    have hnone := hfront u hu
    rw [Option.map_eq_none_iff, find?_candidates_eq_none] at hnone
    exact hnone c hc
  · intro c hc hintier
    have hnot := hearlier c hc
    rw [takes_iff.mpr hintier] at hnot
    exact absurd hnot (by decide)

/-- Without a choice, no binding of any tier is satisfied. -/
theorem none_of_chooseBinding (h : chooseBinding input bindings = none) :
    ∀ b ∈ bindings, ∀ tier, ¬ InTier input b tier := by
  intro b hb tier hintier
  rw [chooseBinding, List.findSome?_eq_none_iff] at h
  have hmem : tier ∈ tiers := by
    cases tier with
    | default => exact hintier.elim
    | _ => decide
  have hnone := h tier hmem
  rw [Option.map_eq_none_iff, find?_candidates_eq_none] at hnone
  exact hnone b hb hintier

end Choice

/-- A satisfied binding that restricts a peer, a guild or a team, or that restricts no roles, is in
a tier. -/
theorem exists_inTier {b : AgentBinding} {input : RouteInput} (h : Satisfies b input input.peer)
    (hshape : b.peer ≠ none ∨ b.guildId ≠ none ∨ b.teamId ≠ none ∨ b.roles = []) :
    ∃ tier, InTier input b tier := by
  by_cases hpeer : b.peer = none
  · by_cases hguild : b.guildId = none
    · by_cases hteam : b.teamId = none
      · have hroles : b.roles = [] := by tauto
        by_cases haccount : b.accountId = none
        · exact ⟨.channelOnly, haccount, hpeer, hguild, hteam, hroles, h⟩
        · exact ⟨.account, haccount, hpeer, hguild, hteam, hroles, h⟩
      · exact ⟨.team, hteam, h⟩
    · by_cases hroles : b.roles = []
      · exact ⟨.guild, hguild, hroles, h⟩
      · exact ⟨.guildRoles, hguild, hroles, h⟩
  · exact ⟨.peer, hpeer, h⟩

/-- Without a restriction of the peer it does not matter which peer is looked at. -/
theorem Satisfies.of_no_peer {b : AgentBinding} {input : RouteInput} {peer other : Option PeerRef}
    (h : Satisfies b input peer) (hpeer : b.peer = none) : Satisfies b input other where
  channel := h.channel
  account := h.account
  peer p hp := by
    rw [hpeer] at hp
    exact absurd hp (Option.not_mem_none p)
  guild := h.guild
  team := h.team
  roles := h.roles

theorem buildRoute_ok {memory : RouteMemory} {agentId : Option CString} {input : RouteInput}
    {tier : MatchedBy} {route : ResolvedRoute}
    (h : buildRoute memory agentId input tier = .ok route) :
    route.agentId = agentId ∧ route.matchedBy = tier := by
  rw [buildRoute] at h
  split_ifs at h
  cases h
  exact ⟨rfl, rfl⟩

/-- The route of a message. It leads to the first satisfied binding of the highest tier, or else
to the default agent, and then none of the bindings that restrict a peer, a guild or a team, or no
roles, is satisfied, where the parent of the peer counts only if it has a name. -/
theorem agent_route_sound {memory : RouteMemory} {input : RouteInput}
    {bindings : List AgentBinding} {agents : List (Option CString)} {route : ResolvedRoute}
    (h : scAgentRoutingResolveRoute memory input bindings agents = .ok route) :
    (∃ b, Chosen input bindings b route.matchedBy ∧ route.agentId = b.agentId) ∨
      (route.matchedBy = .default ∧ route.agentId = scAgentRoutingFindDefaultAgent agents ∧
        ∀ b ∈ bindings,
          (b.peer ≠ none ∨ b.guildId ≠ none ∨ b.teamId ≠ none ∨ b.roles = []) →
            ¬ Satisfies b input input.peer ∧
            (NamedParent input → ¬ Satisfies b input input.parentPeer)) := by
  rw [scAgentRoutingResolveRoute] at h
  split_ifs at h
  cases hchoose : chooseBinding input bindings with
  | some choice =>
    obtain ⟨b, tier⟩ := choice
    simp only [hchoose] at h
    obtain ⟨hagent, htier⟩ := buildRoute_ok h
    left
    refine ⟨b, ?_, hagent⟩
    rw [htier]
    exact chosen_of_chooseBinding hchoose
  | none =>
    simp only [hchoose] at h
    obtain ⟨hagent, htier⟩ := buildRoute_ok h
    right
    refine ⟨htier, hagent, ?_⟩
    intro b hb hshape
    have hnone := none_of_chooseBinding hchoose b hb
    have hnot : ¬ Satisfies b input input.peer := by
      intro hsatisfied
      obtain ⟨tier, hintier⟩ := exists_inTier hsatisfied hshape
      exact hnone tier hintier
    refine ⟨hnot, ?_⟩
    intro hnamed hparent
    by_cases hpeer : b.peer = none
    · exact hnot (hparent.of_no_peer hpeer)
    · exact hnone .parentPeer ⟨hpeer, hnamed, hparent⟩

/-- A message from a sender with the role `ops`. -/
def roleInput : RouteInput where
  channel := some (CString.ofBytes (ascii "discord"))
  accountId := none
  peer := none
  parentPeer := none
  guildId := none
  teamId := none
  memberRoleIds := [some (CString.ofBytes (ascii "ops"))]

/-- The role `ops` and nothing else. -/
def roleBinding : AgentBinding where
  agentId := some (CString.ofBytes (ascii "ops-bot"))
  channel := none
  accountId := none
  peer := none
  guildId := none
  teamId := none
  roles := [some (CString.ofBytes (ascii "ops"))]

/-- A peer without a name. -/
def namelessPeer : PeerRef := ⟨some [], 0, .direct, fun _ _ => Nat.zero_le _⟩

/-- Bindings that are satisfied and still do not keep a message from the default agent: one that
restricts only the roles, and one whose peer has an empty name like the parent of the peer. -/
theorem agent_route_to_default :
    (∃ route, scAgentRoutingResolveRoute ⟨true, true, true⟩ roleInput [roleBinding] [] =
      .ok route ∧ route.matchedBy = .default ∧ Satisfies roleBinding roleInput roleInput.peer) ∧
    ∃ route, scAgentRoutingResolveRoute ⟨true, true, true⟩
        { roleInput with parentPeer := some namelessPeer }
        [{ roleBinding with roles := [], peer := some namelessPeer }] [] = .ok route ∧
      route.matchedBy = .default ∧
      Satisfies { roleBinding with roles := [], peer := some namelessPeer }
        { roleInput with parentPeer := some namelessPeer } (some namelessPeer) := by
  constructor
  · exact ⟨_, rfl, rfl, satisfies_iff.mpr (by decide)⟩
  · exact ⟨_, rfl, rfl, satisfies_iff.mpr (by decide)⟩

/-- A binding without restrictions takes the message. -/
theorem agent_route_sound_channel : ∃ b, Chosen roleInput [roleBinding, { roleBinding with
    roles := [] }] b .channelOnly ∧ b.agentId = some (CString.ofBytes (ascii "ops-bot")) := by
  have h := @agent_route_sound ⟨true, true, true⟩ roleInput
    [roleBinding, { roleBinding with roles := [] }] [] _ rfl
  rcases h with ⟨b, hchosen, hagent⟩ | ⟨hdefault, -⟩
  · exact ⟨b, hchosen, hagent.symm⟩
  · cases hdefault

end SeaClaw.Routing
