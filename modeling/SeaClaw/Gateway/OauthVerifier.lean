import SeaClaw.Gateway.Oauth

/-!
# The verifier of a login

The table holds some of the open starts, in their order. What a callback passes on is read from
the slot of its entry after that entry is gone, so it is the verifier of the next entry.
-/

namespace SeaClaw.Gateway

open SeaClaw.Lib

/-! ## Generated texts -/

@[simp] theorem length_pkceText (n : ℕ) (seed : UInt32) : (pkceText n seed).length = n := by
  induction n generalizing seed with
  | zero => rfl
  | succ n ih => simp only [pkceText, List.length_cons, ih]

/-- What a start generates fits into an entry. -/
structure PendingEntry.Fits (e : PendingEntry) : Prop where
  state : e.state.length = 43
  verifier : e.verifier.length = 43

theorem OauthConfig.fits_generated (cfg : OauthConfig) (t : StartTimes) :
    (cfg.generated t).Fits :=
  ⟨length_pkceText _ _, length_pkceText _ _⟩

/-- A state of that length is not cut. -/
theorem take_eq_of_length_take {state : Bytes} (h : (state.take (oauthStateLen - 1)).length = 43) :
    state.take (oauthStateLen - 1) = state := by
  apply List.take_of_length_le
  simp only [List.length_take, oauthStateLen] at h ⊢
  omega

theorem oauthPendingStore_fits (table : List PendingEntry) {e : PendingEntry} (h : e.Fits) :
    oauthPendingStore table e.state e.verifier e.createdAt =
      if oauthPendingMax ≤ table.length then table else table ++ [e] := by
  have hstate : e.state.take (oauthStateLen - 1) = e.state :=
    List.take_of_length_le (h.state.trans_le (by decide))
  have hverifier : e.verifier.take (oauthVerifierLen - 1) = e.verifier :=
    List.take_of_length_le (h.verifier.trans_le (by decide))
  simp only [oauthPendingStore, hstate, hverifier]

/-! ## The table -/

/-- The first entry with the state is removed. -/
theorem oauthPendingRemove_eq_eraseP (table : List PendingEntry) (state : Bytes) :
    oauthPendingRemove table state = table.eraseP (·.state = state) := by
  rw [oauthPendingRemove, List.eraseP_eq_eraseIdx]
  cases table.findIdx? (·.state = state) with
  | none => rfl
  | some i => rfl

/-- Where the first entry with a property is removed from a list, and the first with another
from a sublist of it, a sublist is left if the second entry has the first property too. -/
theorem eraseP_sublist_eraseP {α : Type*} {p q : α → Bool} {xs ys : List α} (h : xs.Sublist ys)
    (hpq : ∀ x, p x → q x) (hfirst : ∀ x, xs.find? q = some x → p x) :
    (xs.eraseP q).Sublist (ys.eraseP p) := by
  induction h with
  | slnil => exact .slnil
  | @cons xs ys y h ih =>
    by_cases hy : p y
    · rw [List.eraseP_cons_of_pos hy]
      exact List.eraseP_sublist.trans h
    · rw [List.eraseP_cons_of_neg hy]
      exact (ih hfirst).cons y
  | @cons_cons xs ys y h ih =>
    by_cases hq : q y
    · have hp : p y := hfirst y (List.find?_cons_of_pos hq)
      rw [List.eraseP_cons_of_pos hq, List.eraseP_cons_of_pos hp]
      exact h
    · have hp : ¬ p y := fun hp => hq (hpq y hp)
      rw [List.eraseP_cons_of_neg hq, List.eraseP_cons_of_neg hp]
      refine (ih fun x hx => hfirst x ?_).cons_cons y
      rwa [List.find?_cons_of_neg hq]

/-- A lookup finds the first entry with the state, if it is not too old. -/
theorem oauthPendingLookup_eq_some_iff {table : List PendingEntry} {state : Bytes} {now : ℤ}
    {i : ℕ} : oauthPendingLookup table state now = some i ↔
      ∃ front e back, table = front ++ e :: back ∧ front.length = i ∧
        (∀ x ∈ front, x.state ≠ state) ∧ e.Answers state now := by
  rw [oauthPendingLookup, Option.filter_eq_some_iff, List.findIdx?_eq_some_iff_getElem]
  constructor
  · rintro ⟨⟨hi, hstate, hbefore⟩, hlive⟩
    rw [← List.getElem_eq_getD (h := hi), decide_eq_true_eq] at hlive
    refine ⟨table.take i, table[i], table.drop (i + 1), ?_, ?_, ?_, ?_, hlive⟩
    · rw [← List.drop_eq_getElem_cons hi, List.take_append_drop]
    · exact List.length_take_of_le hi.le
    · intro x hx
      obtain ⟨j, hj, rfl⟩ := List.getElem_of_mem hx
      have hji : j < i := hj.trans_le (List.length_take_le _ _)
      simpa using hbefore j hji
    · simpa using hstate
  · rintro ⟨front, e, back, rfl, rfl, hfront, hstate, hlive⟩
    refine ⟨⟨by simp, by simpa using hstate, ?_⟩, ?_⟩
    · intro j hj
      rw [List.getElem_append_left hj]
      simpa using hfront _ (List.getElem_mem hj)
    · simpa using hlive

/-- What is looked up is what is removed. -/
theorem oauthPendingRemove_of_lookup {table : List PendingEntry} {state : Bytes} {now : ℤ} {i : ℕ}
    (h : oauthPendingLookup table state now = some i) :
    oauthPendingRemove table state = table.eraseIdx i := by
  rw [oauthPendingLookup, Option.filter_eq_some_iff] at h
  simp only [oauthPendingRemove, h.1]

/-- What is in the slot of an entry once the entry is removed. -/
theorem getD_eraseIdx_length (front back : List PendingEntry) (e : PendingEntry) :
    ((front ++ e :: back).eraseIdx front.length).getD front.length .zero = back.getD 0 .zero := by
  rw [List.eraseIdx_append_of_length_le le_rfl, Nat.sub_self, List.eraseIdx_zero, List.tail_cons,
    List.getD_eq_getElem?_getD, List.getD_eq_getElem?_getD, List.getElem?_append_right le_rfl,
    Nat.sub_self]

/-! ## Callbacks -/

/-- The table holds some of the open starts in their order, and nothing is open where no start
is handed out. -/
structure OauthRun.Ordered (cfg : OauthConfig) (s : OauthRun) : Prop where
  sublist : s.table.Sublist s.open_
  fits : ∀ e ∈ s.open_, e.Fits
  none_open : cfg.urlFits = false → s.open_ = []

section Callback

variable {cfg : OauthConfig} {s : OauthRun}

/-- What is found in the table answers to the state itself. -/
theorem OauthRun.Ordered.answers_of_lookup (hs : s.Ordered cfg) {state : Bytes} {now : ℤ}
    {front back : List PendingEntry} {e : PendingEntry} (htable : s.table = front ++ e :: back)
    (he : e.Answers (state.take (oauthStateLen - 1)) now) :
    e ∈ s.open_ ∧ e.Answers state now := by
  have hmem : e ∈ s.open_ := by
    apply hs.sublist.subset
    rw [htable]
    exact List.mem_append_right _ List.mem_cons_self
  refine ⟨hmem, ?_, he.2⟩
  have hlength : (state.take (oauthStateLen - 1)).length = 43 := by
    rw [← he.1]
    exact (hs.fits e hmem).state
  rw [he.1]
  exact take_eq_of_length_take hlength

/-- A callback that no open start answers is turned away. -/
theorem OauthRun.Ordered.lookup_eq_none (hs : s.Ordered cfg) {state : Bytes} {now : ℤ}
    (hnone : s.open_.find? (·.Answers state now) = none) :
    oauthPendingLookup s.table (state.take (oauthStateLen - 1)) now = none := by
  cases hlookup : oauthPendingLookup s.table (state.take (oauthStateLen - 1)) now with
  | none => rfl
  | some i =>
    obtain ⟨front, e, back, htable, -, -, he⟩ := oauthPendingLookup_eq_some_iff.mp hlookup
    obtain ⟨hmem, hanswers⟩ := hs.answers_of_lookup htable he
    have hnot := List.find?_eq_none.mp hnone e hmem
    exact absurd (decide_eq_true hanswers) hnot

/-- A start that is called back is open, and its state is the called one and is not cut. -/
theorem OauthRun.Ordered.called (hs : s.Ordered cfg) {state : Bytes} {now : ℤ} {e : PendingEntry}
    (hfind : s.open_.find? (·.Answers state now) = some e) :
    e.Fits ∧ e.state = state ∧ state.take (oauthStateLen - 1) = state := by
  have hfits := hs.fits e (List.mem_of_find?_eq_some hfind)
  have hanswers : e.Answers state now := by simpa using List.find?_some hfind
  refine ⟨hfits, hanswers.1, ?_⟩
  apply List.take_of_length_le
  rw [← hanswers.1, hfits.state]
  decide

/-- A callback passes on a verifier exactly if an entry with the state is found and the next entry
has that verifier. -/
theorem oauthCallback_eq_exchange_iff {table : List PendingEntry} {path : Bytes}
    {cookieHeader : Option Bytes} {now : ℤ} {code state verifier : Bytes}
    (hparams : callbackParams path = some (code, state))
    (hcookie : cookieHasState cookieHeader state = true) (hverifier : verifier ≠ []) :
    (∃ code, (oauthCallback table path cookieHeader now).1 = .exchange code verifier) ↔
      HeldTwice table (state.take (oauthStateLen - 1)) verifier now := by
  simp only [oauthCallback, hparams, hcookie, if_true]
  constructor
  · rintro ⟨code', h⟩
    cases hlookup : oauthPendingLookup table (state.take (oauthStateLen - 1)) now with
    | none => simp only [hlookup, reduceCtorEq] at h
    | some i =>
      rw [hlookup, oauthPendingRemove_of_lookup hlookup] at h
      obtain ⟨front, e, back, rfl, rfl, hfront, he⟩ := oauthPendingLookup_eq_some_iff.mp hlookup
      simp only [getD_eraseIdx_length, OauthAnswer.exchange.injEq] at h
      cases back with
      | nil => exact absurd h.2.symm hverifier
      | cons next back => exact ⟨front, e, next, back, rfl, hfront, he, h.2⟩
  · rintro ⟨front, e, next, back, rfl, hfront, he, rfl⟩
    have hlookup : oauthPendingLookup (front ++ e :: next :: back)
        (state.take (oauthStateLen - 1)) now = some front.length :=
      oauthPendingLookup_eq_some_iff.mpr ⟨front, e, next :: back, rfl, rfl, hfront, he⟩
    refine ⟨code.take 511, ?_⟩
    simp only [hlookup, oauthPendingRemove_of_lookup hlookup, getD_eraseIdx_length,
      List.getD_cons_zero]

/-- A callback does what it should exactly if it finds its start in the table. -/
theorem OauthRun.Ordered.ownVerifier_iff_findsStart (hs : s.Ordered cfg) (r : OauthRequest) :
    OwnVerifier cfg s r ↔ FindsStart s r := by
  unfold OwnVerifier FindsStart OauthRun.calledStart OauthRequest.calledState oauthHandle
  cases hroute : r.route with
  | start => exact Iff.rfl
  | other => exact Iff.rfl
  | callback =>
    simp only
    cases hparams : callbackParams r.path with
    | none => simp only [Option.bind_none, Option.isSome_none, Bool.false_eq_true, reduceCtorEq,
        false_implies, implies_true]
    | some p =>
      obtain ⟨code, state⟩ := p
      by_cases hcookie : cookieHasState r.cookieHeader state
      · simp only [Option.bind_some, hcookie, if_true]
        cases hfind : s.open_.find? (·.Answers state r.now) with
        | none =>
          have hlookup := hs.lookup_eq_none hfind
          simp only [Option.isSome_some, oauthCallback, hparams, hcookie, if_true, hlookup,
            reduceCtorEq, false_implies, implies_true]
        | some e =>
          obtain ⟨hfits, hstate, htake⟩ := hs.called hfind
          have hverifier : e.verifier ≠ [] :=
            List.ne_nil_of_length_pos (hfits.verifier.symm ▸ by decide)
          simp only [oauthCallback_eq_exchange_iff hparams hcookie hverifier, htake,
            Option.some.injEq, forall_eq', hstate]
      · have hcallback : (oauthCallback s.table r.path r.cookieHeader r.now).1 = .unauthorized := by
          simp only [oauthCallback, hparams, hcookie, Bool.false_eq_true, if_false]
        simp only [Option.bind_some, hcookie, Bool.false_eq_true, if_false, Option.bind_none,
          hcallback, implies_true, reduceCtorEq, false_implies]

/-! ## Steps -/

/-- A start keeps the table in the order of the open starts. -/
theorem OauthRun.Ordered.start (hs : s.Ordered cfg) (t : StartTimes) :
    OauthRun.Ordered cfg ⟨(oauthStart cfg s.table t).2,
      if cfg.urlFits then s.open_ ++ [cfg.generated t] else s.open_⟩ := by
  have hfits := cfg.fits_generated t
  cases hurl : cfg.urlFits with
  | true =>
    simp only [oauthStart, hurl, if_true, oauthPendingStore_fits s.table hfits]
    refine ⟨?_, ?_, by simp [hurl]⟩
    · split
      · exact hs.sublist.trans (List.sublist_append_left _ _)
      · exact hs.sublist.append (List.Sublist.refl _)
    · intro e he
      rcases List.mem_append.mp he with he | he
      · exact hs.fits e he
      · rw [List.mem_singleton.mp he]
        exact hfits
  | false =>
    have hopen := hs.none_open hurl
    have htable : s.table = [] := by
      apply List.sublist_nil.mp
      rw [← hopen]
      exact hs.sublist
    have hremoved : (oauthStart cfg s.table t).2 = [] := by
      simp only [oauthStart, hurl, htable, oauthPendingRemove_eq_eraseP,
        oauthPendingStore_fits [] hfits]
      simp [oauthPendingMax]
    rw [hremoved, hopen, if_neg Bool.false_ne_true]
    exact ⟨List.Sublist.refl _, fun e he => absurd he List.not_mem_nil, fun _ => rfl⟩

/-- A callback that finds its start, if it has one, keeps the order. -/
theorem OauthRun.Ordered.calledBack (hs : s.Ordered cfg) {state : Bytes} {now : ℤ}
    (hfinds : ∀ e, s.open_.find? (·.Answers state now) = some e →
      HeldTwice s.table e.state e.verifier now) :
    OauthRun.Ordered cfg ⟨oauthPendingRemove s.table (state.take (oauthStateLen - 1)),
      s.open_.eraseP (·.Answers state now)⟩ := by
  refine ⟨?_, ?_, ?_⟩
  · rw [oauthPendingRemove_eq_eraseP]
    cases hfind : s.open_.find? (·.Answers state now) with
    | none =>
      rw [List.eraseP_of_forall_not (List.find?_eq_none.mp hfind)]
      exact List.eraseP_sublist.trans hs.sublist
    | some e =>
      obtain ⟨hfits, hstate, htake⟩ := hs.called hfind
      obtain ⟨front, first, next, back, htable, hfront, hfirst, -⟩ := hfinds e hfind
      rw [htake]
      apply eraseP_sublist_eraseP hs.sublist
      · intro x hx
        simp only [decide_eq_true_eq] at hx ⊢
        exact hx.1
      · intro x hx
        have hskip : front.find? (fun x => decide (x.state = state)) = none := by
          rw [List.find?_eq_none]
          intro y hy
          simpa [hstate] using hfront y hy
        rw [hstate] at hfirst
        rw [htable, List.find?_append, hskip, Option.none_or,
          List.find?_cons_of_pos (by simpa using hfirst.1)] at hx
        obtain rfl := Option.some.inj hx
        exact decide_eq_true hfirst
  · intro e he
    exact hs.fits e (List.mem_of_mem_eraseP he)
  · intro hurl
    rw [hs.none_open hurl, List.eraseP_nil]

/-- A request whose callback finds its start keeps the order. -/
theorem OauthRun.Ordered.step (hs : s.Ordered cfg) {r : OauthRequest} (hr : FindsStart s r)
    {s' : OauthRun} (h : oauthStep cfg s r = some s') : s'.Ordered cfg := by
  obtain rfl := Option.some.inj h
  unfold FindsStart OauthRun.calledStart OauthRequest.calledState at hr
  simp only [oauthHandle, OauthRun.openAfter]
  cases hroute : r.route with
  | start => exact hs.start r.start
  | other => exact hs
  | callback =>
    simp only [hroute] at hr ⊢
    cases hparams : callbackParams r.path with
    | none =>
      simp only [oauthCallback, OauthRequest.calledState, hparams, Option.bind_none]
      exact hs
    | some p =>
      obtain ⟨code, state⟩ := p
      by_cases hcookie : cookieHasState r.cookieHeader state
      · simp only [hparams, Option.bind_some, hcookie, if_true] at hr
        simp only [oauthCallback, OauthRequest.calledState, hparams, Option.bind_some, hcookie,
          if_true]
        have hkeep := hs.calledBack hr
        cases oauthPendingLookup s.table (state.take (oauthStateLen - 1)) r.now with
        | none => exact hkeep
        | some i => exact hkeep
      · simp only [oauthCallback, OauthRequest.calledState, hparams, Option.bind_some, hcookie,
          Bool.false_eq_true, if_false]
        exact hs

end Callback

theorem OauthRun.ordered_empty (cfg : OauthConfig) : OauthRun.Ordered cfg ⟨[], []⟩ :=
  ⟨List.Sublist.refl _, fun _ he => absurd he List.not_mem_nil, fun _ => rfl⟩

/-- In a run of requests every callback for an open start passes on the verifier of that start,
and the others are turned away, exactly if every callback for an open start finds the first entry
with its state live and followed by an entry with the same verifier. -/
theorem oauth_own_verifier_iff (cfg : OauthConfig) (requests : List OauthRequest) :
    Machine.EveryStep (oauthStep cfg) (OwnVerifier cfg) ⟨[], []⟩ requests ↔
      Machine.EveryStep (oauthStep cfg) FindsStart ⟨[], []⟩ requests :=
  Machine.everyStep_congr_along (I := OauthRun.Ordered cfg) (fun _ _ _ hs hr h => hs.step hr h)
    (fun _ r hs => hs.ownVerifier_iff_findsStart r) (OauthRun.ordered_empty cfg) requests

/-- A start at the first second of the clock. -/
def firstStart : OauthRequest := ⟨ascii "/api/auth/oauth/start", none, ⟨0, 0, 0⟩, 0⟩

/-- The callback a second later. -/
def firstCallback : OauthRequest where
  path := ascii ("/api/auth/oauth/callback?code=c" ++
    "&state=AcElqftdaalsbefTw5s9Q_ZvgdEs0dCrG4z6yffu3IZ")
  cookieHeader := some (ascii "oauth_state=AcElqftdaalsbefTw5s9Q_ZvgdEs0dCrG4z6yffu3IZ")
  start := ⟨0, 0, 0⟩
  now := 1

/-- The only login: behind its entry there is no other, so an empty verifier is passed on. -/
theorem oauth_passes_freed_verifier :
    ¬ Machine.EveryStep (oauthStep ⟨0, true⟩) (OwnVerifier ⟨0, true⟩) ⟨[], []⟩
      [firstStart, firstCallback] := by
  intro h
  let e : PendingEntry := OauthConfig.generated ⟨0, true⟩ ⟨0, 0, 0⟩
  have hstep : oauthStep ⟨0, true⟩ ⟨[], []⟩ firstStart = some ⟨[e], [e]⟩ := by
    simp only [oauthStep, Option.some.injEq, OauthRun.mk.injEq]
    decide +kernel
  have hordered : OauthRun.Ordered ⟨0, true⟩ ⟨[e], [e]⟩ :=
    (OauthRun.ordered_empty _).step (r := firstStart) trivial hstep
  have hfinds := (hordered.ownVerifier_iff_findsStart firstCallback).mp (h.2 _ hstep).1
  have hcalled : OauthRun.calledStart ⟨[e], [e]⟩ firstCallback = some e := by decide
  have hroute : firstCallback.route = .callback := by decide
  simp only [FindsStart, hroute] at hfinds
  obtain ⟨front, first, next, back, htable, -⟩ := hfinds e hcalled
  have hlength := congrArg List.length htable
  simp only [List.length_append, List.length_cons, List.length_nil] at hlength
  omega

end SeaClaw.Gateway
