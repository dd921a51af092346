import SeaClaw.Providers.FallbackPlan

/-!
# When a request follows its plan

A request calls the pairs of its plan in order, stops at the first success and reports a rate limit
of the last call. What keeps it from this is a refusal of the credentials that is tried again, a
rate limit of another part of the program that is taken for one of the provider, a stored message of
an earlier request, a chain that is cut, and a provider without the method.
-/

namespace SeaClaw.Providers

open SeaClaw.Lib SeaClaw.Lib.FirstStop

variable {Out : Type}

/-- A run of a request as its plan has it. -/
structure FollowsPlan (r : ReliableCtx) (w : World Out) (model : Bytes) (run : Run Out) : Prop where
  inOrder : run.visits.map (·.pair) <+: plan r w model
  answered : ∀ v ∈ run.visits,
    v.answers = (List.range v.answers.length).map (w.answer v.pair.round v.pair.which)
  called : ∀ v ∈ run.visits, v.answers ≠ []
  attempts : ∀ v ∈ run.visits, v.answers.length ≤ r.maxRetries.toNat + 1
  afterAuth : ∀ v ∈ run.visits, .error .providerAuth ∉ v.answers.dropLast
  ok : ∀ out, run.outcome = .ok out ↔ (calls run.visits).getLast? = some (.ok out)
  okLast : ∀ a ∈ (calls run.visits).dropLast, succeeds a = false
  failed : ∀ e, run.outcome = .failed e → run.visits.map (·.pair) = plan r w model
  limited : ∀ e, run.outcome = .failed e → (e = .providerRateLimited ↔
    (calls run.visits).getLast? = some (.error .providerRateLimited))
  returns : run.outcome ≠ .wraps

/-- What a request has to meet for its run to be as planned. -/
structure MeetsPlan (method : Provider → Bool) (r : ReliableCtx) (w : World Out) (model : Bytes) :
    Prop where
  memory : w.memory = true ∨ plan r w model = []
  callable : ∀ p ∈ reached r w model, callable method r p = true
  settled : ∀ p ∈ reached r w model, endless r w p = false
  auth : ∀ p ∈ reached r w model, .error .providerAuth ∉ (asks r w p).dropLast
  chain : ∀ p ∈ reached r w model, p.round < modelChainMax
  limit : ∀ e, ((reached r w model).flatMap (asks r w)).getLast? = some (.error e) →
    e ≠ .securityRateLimited ∧ e ≠ .gatewayRateLimited
  stale : w.memory = true → plan r w model = [] →
    finalFailure r.lastErrorMsg ≠ .providerRateLimited

/-! ## The chain of the code and the plan -/

/-- The part of the plan that the chain has room for. -/
def chainPlan (r : ReliableCtx) (w : World Out) (model : Bytes) : List Pair :=
  planFrom r w 0 ((model :: configuredFallbacks r model).take modelChainMax)

theorem modelChain_eq (r : ReliableCtx) (model : Bytes) :
    modelChain r true model =
      .ok ((model :: configuredFallbacks r model).take modelChainMax) := by
  rw [modelChain, configuredFallbacks]
  cases r.modelFallbacks.find? (fun e => e.1 = model) <;> rfl

/-- With memory for the chain a request is the loop over the pairs of it. -/
theorem reliableRequest_seen (method : Provider → Bool) (r : ReliableCtx) {w : World Out}
    (hmemory : w.memory = true) (model : Bytes) :
    (reliableRequest (tryMethod method) r w model).seen =
      pairsLoop method r w (chainPlan r w model) r.lastErrorMsg := by
  rw [reliableRequest, hmemory, modelChain_eq]
  exact modelsLoop_seen method r w 0 _ r.lastErrorMsg

/-- Without it nothing is called. -/
theorem reliableRequest_of_no_memory (method : Provider → Bool) (r : ReliableCtx) {w : World Out}
    (hmemory : w.memory = false) (model : Bytes) :
    reliableRequest (tryMethod method) r w model = ⟨.failed .outOfMemory, r, []⟩ := by
  rw [reliableRequest, hmemory]
  rfl

/-- What the plan has more than the chain is of later rounds. -/
theorem plan_eq_append (r : ReliableCtx) (w : World Out) (model : Bytes) :
    ∃ rest, plan r w model = chainPlan r w model ++ rest ∧
      ∀ p ∈ rest, modelChainMax ≤ p.round := by
  let models := model :: configuredFallbacks r model
  refine ⟨planFrom r w (0 + (models.take modelChainMax).length) (models.drop modelChainMax),
    ?_, ?_⟩
  · rw [plan, chainPlan, ← planFrom_append, List.take_append_drop]
  · intro p hp
    by_cases hlong : modelChainMax ≤ models.length
    · have hround := (round_of_mem_planFrom hp).1
      rw [List.length_take, Nat.min_eq_left hlong, Nat.zero_add] at hround
      exact hround
    · rw [List.drop_of_length_le (by omega)] at hp
      exact absurd hp List.not_mem_nil

theorem round_of_mem_chainPlan {r : ReliableCtx} {w : World Out} {model : Bytes} {p : Pair}
    (hp : p ∈ chainPlan r w model) : p.round < modelChainMax := by
  have hround := (round_of_mem_planFrom hp).2
  rw [List.length_take] at hround
  omega

/-- A request that reaches no pair beyond the chain reaches those of the chain. -/
theorem reached_eq_of_chain {r : ReliableCtx} {w : World Out} {model : Bytes}
    (hchain : ∀ p ∈ reached r w model, p.round < modelChainMax) :
    reached r w model = through (fun p => (asks r w p).any succeeds) (chainPlan r w model) := by
  obtain ⟨rest, hplan, hrest⟩ := plan_eq_append r w model
  rw [reached, hplan, through_append] at hchain ⊢
  split at hchain
  next hany => rw [if_pos hany]
  next hany =>
    have hnil : rest = [] := by
      by_contra hne
      obtain ⟨p, hp⟩ := List.exists_mem_of_ne_nil _
        (through_ne_nil (fun p => (asks r w p).any succeeds) hne)
      have hlow := hchain p (List.mem_append_right _ hp)
      have hhigh := hrest p (mem_of_mem_through hp)
      omega
    rw [if_neg hany, hnil, through, List.append_nil, through_eq_self (by simpa using hany)]

/-! ## The visits of a run -/

/-- A visit of a pair that can be called ends the request where the pair succeeds or has no end. -/
theorem ends_visitOf {method : Provider → Bool} {r : ReliableCtx} {w : World Out} {p : Pair}
    (hcall : callable method r p = true) :
    ends r w (visitOf method r w p) = ((asks r w p).any succeeds || endless r w p) := by
  have hanswers : (visitOf method r w p).answers = asks r w p := if_pos hcall
  rw [ends, hanswers, List.isEmpty_eq_false_iff.mpr (asks_ne_nil r w p)]
  rfl

/-- Where each pair that is reached can be called and has an end, it is what is visited. -/
theorem visits_eq_reached {method : Provider → Bool} {r : ReliableCtx} {w : World Out}
    {model : Bytes} (hmeets : MeetsPlan method r w model) (msg : Bytes) :
    (pairsLoop method r w (chainPlan r w model) msg).2 =
      (reached r w model).map (visitOf method r w) := by
  have hreached := reached_eq_of_chain hmeets.chain
  have hcongr : through (fun p => (asks r w p).any succeeds) (chainPlan r w model) =
      through (fun p => ends r w (visitOf method r w p)) (chainPlan r w model) := by
    apply through_congr
    intro p hp
    rw [← hreached] at hp
    rw [ends_visitOf (hmeets.callable p hp), hmeets.settled p hp, Bool.or_false]
  rw [pairsLoop_visits, through_map, ← hcongr, hreached]

/-- The calls of the pairs that are reached. -/
theorem calls_map_visitOf {method : Provider → Bool} {r : ReliableCtx} {w : World Out}
    {ps : List Pair} (hcall : ∀ p ∈ ps, callable method r p = true) :
    calls (ps.map (visitOf method r w)) = ps.flatMap (asks r w) := by
  rw [calls, List.flatMap_map]
  apply List.flatMap_congr
  intro p hp
  exact if_pos (hcall p hp)

theorem map_pair_map_visitOf (method : Provider → Bool) (r : ReliableCtx) (w : World Out)
    (ps : List Pair) : (ps.map (visitOf method r w)).map (·.pair) = ps := by
  rw [List.map_map]
  exact List.map_id ps

theorem asks_isPrefix (r : ReliableCtx) (w : World Out) (p : Pair) :
    asks r w p <+: (List.range (r.maxRetries.toNat + 1)).map (w.answer p.round p.which) :=
  through_isPrefix _ _

theorem length_asks_le (r : ReliableCtx) (w : World Out) (p : Pair) :
    (asks r w p).length ≤ r.maxRetries.toNat + 1 := by
  simpa using (asks_isPrefix r w p).length_le

/-- The answers of a pair are those of its first attempts. -/
theorem asks_eq_map (r : ReliableCtx) (w : World Out) (p : Pair) :
    asks r w p = (List.range (asks r w p).length).map (w.answer p.round p.which) := by
  have htake := List.prefix_iff_eq_take.mp (asks_isPrefix r w p)
  rw [← List.map_take, List.take_range, Nat.min_eq_left (length_asks_le r w p)] at htake
  exact htake

/-! ## The law -/

/-- The error of a request that failed is a rate limit exactly where that of its last call is. -/
theorem finalFailure_storedAfter {msg : Bytes} {as : List (Except ScError Out)} {e : ScError}
    (h : as.getLast? = some (.error e)) :
    finalFailure (storedAfter msg as) = .providerRateLimited ↔ e ∈ rateLimits := by
  rw [storedAfter_of_getLast? h, finalFailure_string]

/-- A request that meets what the plan asks follows it. -/
theorem followsPlan_of_meetsPlan {method : Provider → Bool} {r : ReliableCtx} {w : World Out}
    {model : Bytes} (hmeets : MeetsPlan method r w model) :
    FollowsPlan r w model (reliableRequest (tryMethod method) r w model) := by
  by_cases hmemory : w.memory = true
  case neg =>
    have hplan := hmeets.memory.resolve_left hmemory
    rw [reliableRequest_of_no_memory method r (by simpa using hmemory)]
    constructor <;> simp [hplan, calls]
  have hseen := reliableRequest_seen method r hmemory model
  generalize reliableRequest (tryMethod method) r w model = run at hseen
  have hout : run.outcome = _ := congrArg Prod.fst hseen
  have hloop : run.visits = _ := congrArg Prod.snd hseen
  have hvisits := hloop.trans (visits_eq_reached hmeets r.lastErrorMsg)
  have hcalls : calls run.visits = (reached r w model).flatMap (asks r w) := by
    rw [hvisits, calls_map_visitOf hmeets.callable]
  have hvisit : ∀ v ∈ run.visits, ∃ p ∈ reached r w model, v = ⟨p, asks r w p⟩ := by
    intro v hv
    rw [hvisits] at hv
    obtain ⟨p, hp, rfl⟩ := List.mem_map.mp hv
    exact ⟨p, hp, by rw [visitOf, if_pos (hmeets.callable p hp)]⟩
  have hfailed : ∀ e, run.outcome = .failed e → reached r w model = plan r w model ∧
      e = finalFailure (storedAfter r.lastErrorMsg (calls run.visits)) := by
    intro e he
    rw [hout, pairsLoop_failed, ← hloop] at he
    refine ⟨?_, he.2⟩
    apply through_eq_self
    rw [← any_through, List.any_eq_false]
    intro p hp
    have hmem : p ∈ chainPlan r w model := by
      apply mem_of_mem_through
      rw [← reached_eq_of_chain hmeets.chain]
      exact hp
    have hends := he.1 p hmem
    rw [ends_visitOf (hmeets.callable p hp), Bool.or_eq_false_iff] at hends
    simpa using hends.1
  constructor
  case inOrder =>
    rw [hvisits, map_pair_map_visitOf]
    exact through_isPrefix _ _
  case answered =>
    intro v hv
    obtain ⟨p, _, rfl⟩ := hvisit v hv
    exact asks_eq_map r w p
  case called =>
    intro v hv
    obtain ⟨p, _, rfl⟩ := hvisit v hv
    exact asks_ne_nil r w p
  case attempts =>
    intro v hv
    obtain ⟨p, _, rfl⟩ := hvisit v hv
    exact length_asks_le r w p
  case afterAuth =>
    intro v hv
    obtain ⟨p, hp, rfl⟩ := hvisit v hv
    exact hmeets.auth p hp
  case ok =>
    intro out
    rw [hout, pairsLoop_ok, ← hloop]
  case okLast =>
    intro a ha
    rw [hloop] at ha
    exact pairsLoop_dropLast _ _ ha
  case failed =>
    intro e he
    rw [hvisits, map_pair_map_visitOf, (hfailed e he).1]
  case limited =>
    intro e he
    obtain ⟨hall, herr⟩ := hfailed e he
    rw [herr]
    cases hlast : (calls run.visits).getLast? with
    | none =>
      have hnone : reached r w model = [] := by
        rw [List.getLast?_eq_none_iff, hcalls, List.flatMap_eq_nil_iff] at hlast
        by_contra hne
        obtain ⟨p, hp⟩ := List.exists_mem_of_ne_nil _ hne
        exact asks_ne_nil r w p (hlast p hp)
      have hstale := hmeets.stale hmemory (hall ▸ hnone)
      rw [List.getLast?_eq_none_iff.mp hlast]
      exact ⟨fun h => absurd h hstale, fun h => by cases h⟩
    | some a =>
      cases a with
      | ok out =>
        rw [hloop, ← pairsLoop_ok, ← hout, he] at hlast
        cases hlast
      | error e' =>
        have hlimit := hmeets.limit e' (hcalls ▸ hlast)
        rw [finalFailure_storedAfter hlast, Option.some.injEq, Except.error.injEq]
        simp [rateLimits, hlimit.1, hlimit.2]
  case returns =>
    intro hwraps
    rw [hout, pairsLoop_wraps, ← hloop] at hwraps
    obtain ⟨v, hv, _, hendless⟩ := hwraps
    obtain ⟨p, hp, rfl⟩ := hvisit v hv
    exact absurd hendless (by simp [hmeets.settled p hp])

/-- A request that follows the plan meets what it asks. -/
theorem meetsPlan_of_followsPlan {method : Provider → Bool} {r : ReliableCtx} {w : World Out}
    {model : Bytes}
    (hfollows : FollowsPlan r w model (reliableRequest (tryMethod method) r w model)) :
    MeetsPlan method r w model := by
  by_cases hmemory : w.memory = true
  case neg =>
    rw [reliableRequest_of_no_memory method r (by simpa using hmemory)] at hfollows
    have hplan : plan r w model = [] := (hfollows.failed .outOfMemory rfl).symm
    have hreached : reached r w model = [] := by
      rw [reached, hplan]
      rfl
    constructor <;> simp [hplan, hreached, hmemory]
  have hseen := reliableRequest_seen method r hmemory model
  generalize reliableRequest (tryMethod method) r w model = run at hseen hfollows
  have hout : run.outcome = _ := congrArg Prod.fst hseen
  have hloop : run.visits = _ := congrArg Prod.snd hseen
  let visited := through (fun p => ends r w (visitOf method r w p)) (chainPlan r w model)
  have hvisits : run.visits = visited.map (visitOf method r w) := by
    rw [hloop, pairsLoop_visits, through_map]
  have hcall : ∀ p ∈ visited, callable method r p = true := by
    intro p hp
    by_contra hcall
    apply hfollows.called (visitOf method r w p)
    · rw [hvisits]
      exact List.mem_map_of_mem hp
    · exact if_neg hcall
  have hsettled : ∀ p ∈ visited, endless r w p = false := by
    intro p hp
    by_contra hendless
    apply hfollows.returns
    rw [hout, pairsLoop_wraps, ← hloop, hvisits]
    refine ⟨_, List.mem_map_of_mem hp, ?_, Bool.not_eq_false _ |>.mp hendless⟩
    rw [visitOf, if_pos (hcall p hp)]
    exact asks_ne_nil r w p
  have hcongr : visited = through (fun p => (asks r w p).any succeeds) (chainPlan r w model) := by
    apply through_congr
    intro p hp
    rw [ends_visitOf (hcall p hp), hsettled p hp, Bool.or_false]
  have hall : ∀ e, run.outcome = .failed e → visited = plan r w model := by
    intro e he
    rw [← hfollows.failed e he, hvisits, map_pair_map_visitOf]
  have hreached : reached r w model = visited := by
    obtain ⟨rest, hplan, _⟩ := plan_eq_append r w model
    cases hany : (chainPlan r w model).any (fun p => (asks r w p).any succeeds) with
    | true => rw [reached, hplan, through_append, if_pos hany, hcongr]
    | false =>
      have hchain : visited = chainPlan r w model := hcongr.trans (through_eq_self hany)
      have hfailed : run.outcome =
          .failed (finalFailure (storedAfter r.lastErrorMsg (calls run.visits))) := by
        rw [hout, pairsLoop_failed, ← hloop]
        refine ⟨?_, rfl⟩
        intro p hp
        have hp' : p ∈ visited := hchain ▸ hp
        rw [ends_visitOf (hcall p hp'), hsettled p hp', Bool.or_false, Bool.eq_false_iff]
        exact List.any_eq_false.mp hany p hp
      have hwhole := hall _ hfailed
      rw [reached, ← hwhole, hchain, through_eq_self hany]
  have hcalls : calls run.visits = (reached r w model).flatMap (asks r w) := by
    rw [hvisits, hreached, calls_map_visitOf hcall]
  have hanswers : ∀ p ∈ visited, (⟨p, asks r w p⟩ : Visit Out) ∈ run.visits := by
    intro p hp
    rw [hvisits]
    refine List.mem_map.mpr ⟨p, hp, ?_⟩
    rw [visitOf, if_pos (hcall p hp)]
  have hfails : (∀ out, (calls run.visits).getLast? ≠ some (.ok out)) →
      run.outcome = .failed (finalFailure (storedAfter r.lastErrorMsg (calls run.visits))) := by
    intro hnot
    cases houtcome : run.outcome with
    | ok out => exact absurd ((hfollows.ok out).mp houtcome) (hnot out)
    | wraps => exact absurd houtcome hfollows.returns
    | failed e =>
      rw [hout, pairsLoop_failed, ← hloop] at houtcome
      rw [houtcome.2]
  constructor
  case memory => exact Or.inl hmemory
  case callable =>
    rw [hreached]
    exact hcall
  case settled =>
    rw [hreached]
    exact hsettled
  case auth =>
    intro p hp
    exact hfollows.afterAuth _ (hanswers p (hreached ▸ hp))
  case chain =>
    intro p hp
    rw [hreached, hcongr] at hp
    exact round_of_mem_chainPlan (mem_of_mem_through hp)
  case limit =>
    intro e hlast
    rw [← hcalls] at hlast
    have hlimited := hfollows.limited _ (hfails (by simp [hlast]))
    rw [finalFailure_storedAfter hlast, hlast, Option.some.injEq, Except.error.injEq] at hlimited
    constructor
    · rintro rfl
      exact absurd (hlimited.mp (by decide)) (by decide)
    · rintro rfl
      exact absurd (hlimited.mp (by decide)) (by decide)
  case stale =>
    intro _ hplan hlimit
    have hnone : calls run.visits = [] := by
      rw [hcalls, reached, hplan]
      rfl
    have hlimited := hfollows.limited _ (hfails (by simp [hnone]))
    rw [hnone] at hlimited
    exact absurd (hlimited.mp hlimit) (by simp)

/-- A request follows its plan exactly where it meets what the plan asks. -/
theorem followsPlan_iff (method : Provider → Bool) (r : ReliableCtx) (w : World Out)
    (model : Bytes) :
    FollowsPlan r w model (reliableRequest (tryMethod method) r w model) ↔
      MeetsPlan method r w model :=
  ⟨meetsPlan_of_followsPlan, followsPlan_of_meetsPlan⟩

/-- Both requests of the reliable provider follow their plans exactly where they meet what these
ask. -/
theorem reliable_followsPlan_iff (r : ReliableCtx) (w : World Out) (ws : World Bytes)
    (model : Bytes) :
    (FollowsPlan r w model (reliableChat r w model) ↔ MeetsPlan Provider.hasChat r w model) ∧
      (FollowsPlan r ws model (reliableChatWithSystem r ws model) ↔
        MeetsPlan Provider.hasChatWithSystem r ws model) :=
  ⟨followsPlan_iff Provider.hasChat r w model,
    followsPlan_iff Provider.hasChatWithSystem r ws model⟩

/-- With one retry, a provider that refuses the credentials is asked again. -/
theorem reliableChat_retries_auth :
    ∃ r, scReliableCreateEx true ⟨some ⟨true, true⟩⟩ 1 [] [] = .ok r ∧
      ∃ w : World Bytes, (∀ i p j, w.answer i p j = .error .providerAuth) ∧
        (reliableChat r w (ascii "gpt-4")).visits.map (·.answers) =
          [[.error .providerAuth, .error .providerAuth]] ∧
        ¬ FollowsPlan r w (ascii "gpt-4") (reliableChat r w (ascii "gpt-4")) := by
  let w : World Bytes := ⟨true, fun _ _ _ => .error .providerAuth, fun _ => 0, fun _ => 0⟩
  refine ⟨_, rfl, w, fun _ _ _ => rfl, ?_⟩
  have hanswers : (reliableChat ⟨⟨some ⟨true, true⟩⟩, [], [], 1, [], ⟨0, 0, 0, 0⟩⟩ w
      (ascii "gpt-4")).visits.map (·.answers) =
        [[.error .providerAuth, .error .providerAuth]] := by decide
  refine ⟨hanswers, ?_⟩
  intro hfollows
  have hmem := List.mem_singleton_self
    [(.error .providerAuth : Except ScError Bytes), .error .providerAuth]
  rw [← hanswers] at hmem
  obtain ⟨v, hv, hcalls⟩ := List.mem_map.mp hmem
  apply hfollows.afterAuth v hv
  rw [hcalls]
  exact List.mem_singleton_self _

end SeaClaw.Providers
