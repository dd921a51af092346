import SeaClaw.Gateway.Tenant

/-!
# Tenants beside each other

What a call answers about a user, and what it leaves of that user's entry, depends on that entry
alone; it leaves the entries of the others as they are. So the calls about the others can be left
out. The usage of a tenant counts its tokens up to multiples of 2^64.
-/

namespace SeaClaw.Gateway

open SeaClaw.Lib SeaClaw.Lib.SlotTable

/-! ## One user -/

/-- The entry of a tenant, with its bucket. -/
abbrev TenantEntry := Tenant × RateBucket

/-- What a call does to the entry of its user. -/
def userCall (v : Option TenantEntry) : TenantOp → TenantAnswer × Option TenantEntry
  | .create tenant =>
    if tenant.userId.octets = [] then (.status (.error .invalidArgument), v)
    else
      match v with
      | some _ => (.status (.error .alreadyExists), v)
      | none => (.status (.ok ()), some (tenant, ⟨0, 0⟩))
  | .get _ => (.tenant (v.elim (.error .notFound) fun e => .ok e.1), v)
  | .update tenant =>
    match v with
    | none => (.status (.error .notFound), none)
    | some e => (.status (.ok ()), some (tenant, e.2))
  | .delete _ =>
    match v with
    | none => (.status (.error .notFound), none)
    | some _ => (.status (.ok ()), none)
  | .incrementUsage _ tokens =>
    match v with
    | none => (.status (.error .notFound), none)
    | some e => (.status (.ok ()),
        some ({ e.1 with usageCurrentTokens := e.1.usageCurrentTokens + tokens }, e.2))
  | .checkQuota _ => (.allowed (v.elim false fun e => e.1.withinQuota), v)
  | .checkRateLimit _ now =>
    match v with
    | none => (.allowed false, none)
    | some e => (.allowed (e.1.takeTurn e.2 now).1, some (e.1, (e.1.takeTurn e.2 now).2))

/-- The slots of the two arrays as one. -/
def TenantStore.slots (store : TenantStore) (i : ℕ) : TenantEntry :=
  (store.tenants i, store.rateBuckets i)

/-- The user of an entry. -/
def entryUser (e : TenantEntry) : CString := e.1.userId

/-- The entry of a user. -/
def TenantStore.entry (store : TenantStore) : CString → Option TenantEntry :=
  value entryUser store.slots store.count

/-- No two entries are of one user. -/
def TenantStore.Distinct (store : TenantStore) : Prop :=
  SlotTable.Distinct entryUser store.slots store.count

section Refines

variable {store : TenantStore}

theorem findTenant_eq (userId : CString) :
    findTenant store userId = indexOf entryUser store.slots store.count userId := rfl

/-- A user is found where it has an entry. -/
theorem find_of_entry (h : store.Distinct) {userId : CString} {e : TenantEntry}
    (he : store.entry userId = some e) :
    ∃ i < store.count, findTenant store userId = some i ∧ store.slots i = e ∧
      entryUser e = userId := by
  obtain ⟨i, hi, rfl⟩ := Option.map_eq_some_iff.mp he
  obtain ⟨hlt, hkey⟩ := (indexOf_eq_some_iff h).mp hi
  exact ⟨i, hlt, hi, rfl, hkey⟩

theorem find_of_none {userId : CString} (he : store.entry userId = none) :
    findTenant store userId = none := by
  rw [findTenant_eq]
  exact value_eq_none_iff.mp he

/-- A call is that on the entry of its user, and leaves the other entries as they are. -/
def TenantStore.Refines (store : TenantStore) (op : TenantOp) : Prop :=
  (tenantCall store op).1 = (userCall (store.entry op.user) op).1 ∧
    (tenantCall store op).2.Distinct ∧
    ∀ u, (tenantCall store op).2.entry u =
      if u = op.user then (userCall (store.entry op.user) op).2 else store.entry u

/-- A call that leaves the store as it is. -/
theorem refines_of_same (h : store.Distinct) {op : TenantOp}
    (hanswer : (tenantCall store op).1 = (userCall (store.entry op.user) op).1)
    (hstore : (tenantCall store op).2 = store)
    (hentry : (userCall (store.entry op.user) op).2 = store.entry op.user) :
    store.Refines op := by
  refine ⟨hanswer, hstore.symm ▸ h, fun u => ?_⟩
  rw [hstore, hentry]
  split_ifs with hu
  · rw [hu]
  · rfl

/-- A call that puts another entry into the slot of its user. -/
theorem refines_of_set (h : store.Distinct) {op : TenantOp} {i : ℕ} {e : TenantEntry}
    (e' : TenantEntry) (hi : i < store.count) (hslot : store.slots i = e) (huser : entryUser e = op.user)
    (huser' : entryUser e' = op.user)
    (hanswer : (tenantCall store op).1 = (userCall (store.entry op.user) op).1)
    (hcount : (tenantCall store op).2.count = store.count)
    (hslots : (tenantCall store op).2.slots = Function.update store.slots i e')
    (hentry : (userCall (store.entry op.user) op).2 = some e') : store.Refines op := by
  have hkey : entryUser e' = entryUser (store.slots i) := by rw [hslot, huser, huser']
  refine ⟨hanswer, ?_, fun u => ?_⟩
  · rw [TenantStore.Distinct, hcount, hslots]
    exact h.set hkey
  · rw [TenantStore.entry, hcount, hslots, value_set h hi hkey, huser', hentry]
    rfl

theorem slots_setTenant (i : ℕ) (t : Tenant) :
    TenantStore.slots { store with tenants := Function.update store.tenants i t } =
      Function.update store.slots i (t, store.rateBuckets i) := by
  funext j
  by_cases hj : j = i
  · subst hj
    simp [TenantStore.slots]
  · simp [TenantStore.slots, hj]

theorem slots_setBucket (i : ℕ) (b : RateBucket) :
    TenantStore.slots { store with rateBuckets := Function.update store.rateBuckets i b } =
      Function.update store.slots i (store.tenants i, b) := by
  funext j
  by_cases hj : j = i
  · subst hj
    simp [TenantStore.slots]
  · simp [TenantStore.slots, hj]

theorem slots_setBoth (i count : ℕ) (t : Tenant) (b : RateBucket) :
    TenantStore.slots ⟨Function.update store.tenants i t, Function.update store.rateBuckets i b,
      count⟩ = Function.update store.slots i (t, b) := by
  funext j
  by_cases hj : j = i
  · subst hj
    simp [TenantStore.slots]
  · simp [TenantStore.slots, hj]

theorem refines_create (h : store.Distinct) (hroom : store.count < maxTenants) (t : Tenant) :
    store.Refines (.create t) := by
  by_cases hempty : t.userId.octets = []
  · apply refines_of_same h <;> simp [tenantCall, scTenantCreate, userCall, hempty]
  cases he : store.entry t.userId with
  | some e =>
    obtain ⟨i, -, hfind, -⟩ := find_of_entry h he
    apply refines_of_same h <;>
      simp [tenantCall, scTenantCreate, userCall, hempty, TenantOp.user, he, hfind]
  | none =>
    have hfind := find_of_none he
    have hcall : tenantCall store (.create t) = (.status (.ok ()), ⟨Function.update store.tenants
        store.count t, Function.update store.rateBuckets store.count ⟨0, 0⟩, store.count + 1⟩) := by
      simp [tenantCall, scTenantCreate, hempty, hfind, not_le.mpr hroom]
    have hback : userCall (store.entry t.userId) (.create t) =
        (.status (.ok ()), some (t, ⟨0, 0⟩)) := by
      rw [he]
      simp [userCall, hempty]
    have hnew : value entryUser store.slots store.count (entryUser (t, ⟨0, 0⟩)) = none := he
    refine ⟨?_, ?_, fun u => ?_⟩
    · rw [hcall]
      exact (congrArg Prod.fst hback).symm
    · rw [hcall, TenantStore.Distinct, slots_setBoth]
      exact h.push hnew
    · rw [hcall, TenantStore.entry, slots_setBoth, value_push h hnew]
      exact congrArg (fun v => if u = t.userId then v else store.entry u)
        (congrArg Prod.snd hback).symm

theorem refines_update (h : store.Distinct) (t : Tenant) : store.Refines (.update t) := by
  cases he : store.entry t.userId with
  | none =>
    have hfind := find_of_none he
    apply refines_of_same h <;> simp [tenantCall, scTenantUpdate, userCall, TenantOp.user, he, hfind]
  | some e =>
    obtain ⟨i, hi, hfind, rfl, huser⟩ := find_of_entry h he
    refine refines_of_set h (t, store.rateBuckets i) hi rfl huser rfl ?_ ?_ ?_ ?_
    · simp [tenantCall, scTenantUpdate, userCall, TenantOp.user, he, hfind]
    · simp [tenantCall, scTenantUpdate, hfind]
    · simp only [tenantCall, scTenantUpdate, hfind]
      exact slots_setTenant i t
    · simp [userCall, TenantOp.user, he, TenantStore.slots]

theorem refines_incrementUsage (h : store.Distinct) (userId : CString) (tokens : UInt64) :
    store.Refines (.incrementUsage userId tokens) := by
  cases he : store.entry userId with
  | none =>
    have hfind := find_of_none he
    apply refines_of_same h <;>
      simp [tenantCall, scTenantIncrementUsage, userCall, TenantOp.user, he, hfind]
  | some e =>
    obtain ⟨i, hi, hfind, rfl, huser⟩ := find_of_entry h he
    refine refines_of_set h ({ store.tenants i with
      usageCurrentTokens := (store.tenants i).usageCurrentTokens + tokens },
      store.rateBuckets i) hi rfl huser huser ?_ ?_ ?_ ?_
    · simp [tenantCall, scTenantIncrementUsage, userCall, TenantOp.user, he, hfind]
    · simp [tenantCall, scTenantIncrementUsage, hfind]
    · simp only [tenantCall, scTenantIncrementUsage, hfind]
      exact slots_setTenant i _
    · simp [userCall, TenantOp.user, he, TenantStore.slots]

theorem refines_checkRateLimit (h : store.Distinct) (userId : CString) (now : ℤ) :
    store.Refines (.checkRateLimit userId now) := by
  cases he : store.entry userId with
  | none =>
    have hfind := find_of_none he
    apply refines_of_same h <;>
      simp [tenantCall, scTenantCheckRateLimit, userCall, TenantOp.user, he, hfind]
  | some e =>
    obtain ⟨i, hi, hfind, rfl, huser⟩ := find_of_entry h he
    refine refines_of_set h (store.tenants i,
      ((store.tenants i).takeTurn (store.rateBuckets i) now).2) hi rfl huser huser ?_ ?_ ?_ ?_
    · simp [tenantCall, scTenantCheckRateLimit, userCall, TenantOp.user, he, hfind,
        TenantStore.slots]
    · simp [tenantCall, scTenantCheckRateLimit, hfind]
    · simp only [tenantCall, scTenantCheckRateLimit, hfind]
      exact slots_setBucket i _
    · simp [userCall, TenantOp.user, he, TenantStore.slots]

theorem refines_delete (h : store.Distinct) (userId : CString) :
    store.Refines (.delete userId) := by
  cases he : store.entry userId with
  | none =>
    have hfind := find_of_none he
    apply refines_of_same h <;> simp [tenantCall, scTenantDelete, userCall, TenantOp.user, he, hfind]
  | some e =>
    obtain ⟨i, hi, hfind, rfl, huser⟩ := find_of_entry h he
    have hanswer : (tenantCall store (.delete userId)).1 = .status (.ok ()) := by
      simp [tenantCall, scTenantDelete, hfind]
    have hcount : (tenantCall store (.delete userId)).2.count = store.count - 1 := by
      simp only [tenantCall, scTenantDelete, hfind]
      split <;> rfl
    have hslots : (tenantCall store (.delete userId)).2.slots = fill store.slots store.count i := by
      simp only [tenantCall, scTenantDelete, hfind, fill]
      split
      · exact slots_setBoth i _ _ _
      · rfl
    refine ⟨?_, ?_, fun u => ?_⟩
    · rw [hanswer]
      simp [userCall, TenantOp.user, he]
    · rw [TenantStore.Distinct, hcount, hslots]
      exact h.remove hi
    · have hback : (userCall (store.entry userId) (.delete userId)).2 = none := by
        rw [he]
        rfl
      rw [TenantStore.entry, hcount, hslots, value_remove h hi, huser]
      exact congrArg (fun v => if u = userId then v else store.entry u) hback.symm

theorem refines_get (h : store.Distinct) (userId : CString) : store.Refines (.get userId) := by
  refine refines_of_same h ?_ rfl rfl
  cases he : store.entry userId with
  | none => simp [tenantCall, scTenantGet, userCall, TenantOp.user, he, find_of_none he]
  | some e =>
    obtain ⟨i, -, hfind, rfl, -⟩ := find_of_entry h he
    simp [tenantCall, scTenantGet, userCall, TenantOp.user, he, hfind, TenantStore.slots]

theorem refines_checkQuota (h : store.Distinct) (userId : CString) :
    store.Refines (.checkQuota userId) := by
  refine refines_of_same h ?_ rfl rfl
  cases he : store.entry userId with
  | none => simp [tenantCall, scTenantCheckQuota, userCall, TenantOp.user, he, find_of_none he]
  | some e =>
    obtain ⟨i, -, hfind, rfl, -⟩ := find_of_entry h he
    simp [tenantCall, scTenantCheckQuota, userCall, TenantOp.user, he, hfind, TenantStore.slots]

theorem refines (h : store.Distinct) (hroom : store.count < maxTenants) (op : TenantOp) :
    store.Refines op := by
  cases op with
  | create t => exact refines_create h hroom t
  | get userId => exact refines_get h userId
  | update t => exact refines_update h t
  | delete userId => exact refines_delete h userId
  | incrementUsage userId tokens => exact refines_incrementUsage h userId tokens
  | checkQuota userId => exact refines_checkQuota h userId
  | checkRateLimit userId now => exact refines_checkRateLimit h userId now

end Refines

/-! ## Runs without the other users -/

section Isolation

variable {u : CString}

/-- Only one user has an entry. -/
def TenantStore.Only (store : TenantStore) (u : CString) : Prop :=
  ∀ v, v ≠ u → store.entry v = none

/-- A store of one user has room. -/
theorem TenantStore.Only.count_lt {store : TenantStore} (hu : store.Only u) (h : store.Distinct) :
    store.count < maxTenants := by
  have huser : ∀ i < store.count, entryUser (store.slots i) = u := by
    intro i hi
    by_contra hne
    have hnone := indexOf_eq_none_iff.mp (value_eq_none_iff.mp (hu _ hne))
    exact hnone i hi rfl
  by_contra hle
  have hlt : 1 < store.count := lt_of_lt_of_le (by decide) (not_lt.mp hle)
  exact absurd (h 0 (by omega) 1 hlt ((huser 0 (by omega)).trans (huser 1 hlt).symm)) (by decide)

/-- Two stores with the same entry of a user answer the same about the user, if in one of them
the calls about the others are left out. -/
theorem tenantAnswers_filter {s : TenantRun} {store : TenantStore} (hs : s.store.Distinct)
    (hstore : store.Distinct) (hu : store.Only u) (hentry : s.store.entry u = store.entry u)
    {ops : List TenantOp} (hroom : Machine.Throughout tenantStep HasRoom s ops) :
    (tenantAnswers s.store ops).filter (fun a => a.1 = u) =
      tenantAnswers store (ops.filter fun op => op.user = u) := by
  induction ops generalizing s store with
  | nil => rfl
  | cons op ops ih =>
    obtain ⟨hcount, s', hstep, hrest⟩ := hroom
    obtain rfl := Option.some.inj hstep
    obtain ⟨hanswer, hdistinct, hentries⟩ := refines hs (Nat.lt_succ_of_le hcount) op
    rw [tenantAnswers]
    by_cases hop : op.user = u
    · obtain ⟨hanswer', hdistinct', hentries'⟩ := refines hstore (hu.count_lt hstore) op
      have honly : (tenantCall store op).2.Only u := fun v hv => by
        rw [hentries', if_neg (hop ▸ hv), hu v hv]
      have hsame : (tenantCall s.store op).2.entry u = (tenantCall store op).2.entry u := by
        rw [hentries, hentries', if_pos hop.symm, if_pos hop.symm, hop, hentry]
      rw [List.filter_cons, List.filter_cons, if_pos (decide_eq_true hop),
        if_pos (decide_eq_true hop), tenantAnswers, ← ih hdistinct hdistinct' honly hsame hrest, hanswer, hanswer', hop, hentry]
    · have hsame : (tenantCall s.store op).2.entry u = store.entry u := by
        rw [hentries, if_neg (Ne.symm hop), hentry]
      rw [List.filter_cons, List.filter_cons, if_neg (by simpa using hop),
        if_neg (by simpa using hop)]
      exact ih hdistinct hstore hu hsame hrest

theorem distinct_init : scTenantStoreInit.Distinct := fun _ hi => absurd hi (Nat.not_lt_zero _)

/-- As long as there is room, the calls about the other users change no answer. -/
theorem isolated_of_room {counted : CString → ℕ} {ops : List TenantOp}
    (hroom : Machine.Throughout tenantStep HasRoom ⟨scTenantStoreInit, counted⟩ ops) :
    Isolated ops := fun _ =>
  tenantAnswers_filter distinct_init distinct_init (fun _ _ => rfl) rfl hroom

end Isolation

/-! ## Quotas -/

section Quota

/-- The usage of an entry counts the tokens up to multiples of 2^64, and has reached the quota
where they have. -/
structure Counts (e : TenantEntry) (n : ℕ) : Prop where
  mod : n % 2 ^ 64 = e.1.usageCurrentTokens.toNat
  reached : e.1.usageQuotaTokens ≠ 0 → e.1.usageQuotaTokens.toNat ≤ n →
    e.1.usageQuotaTokens.toNat ≤ e.1.usageCurrentTokens.toNat

/-- The usage that a tenant is created or updated with. -/
theorem counts_stored (t : Tenant) (b : RateBucket) : Counts (t, b) t.usageCurrentTokens.toNat :=
  ⟨Nat.mod_eq_of_lt t.usageCurrentTokens.toNat_lt, fun _ h => h⟩

/-- More tokens are counted right exactly if they do not carry the usage around to below the
quota. -/
theorem Counts.add_iff {t : Tenant} {b : RateBucket} {n : ℕ} (h : Counts (t, b) n)
    (tokens : UInt64) :
    Counts ({ t with usageCurrentTokens := t.usageCurrentTokens + tokens }, b) (n + tokens.toNat) ↔
      (t.usageQuotaTokens ≠ 0 → 2 ^ 64 ≤ t.usageCurrentTokens.toNat + tokens.toNat →
        t.usageQuotaTokens.toNat + 2 ^ 64 ≤ t.usageCurrentTokens.toNat + tokens.toNat) := by
  have hsum : (t.usageCurrentTokens + tokens).toNat =
      (t.usageCurrentTokens.toNat + tokens.toNat) % 2 ^ 64 := UInt64.toNat_add _ _
  have hmod := h.mod
  have hreached := h.reached
  dsimp only at hmod hreached
  have hq := t.usageQuotaTokens.toNat_lt
  have ht := tokens.toNat_lt
  have hu := t.usageCurrentTokens.toNat_lt
  constructor
  · rintro ⟨-, hnow⟩ hquota hover
    have := hnow hquota
    dsimp only at this
    rw [hsum] at this
    omega
  · intro hcond
    refine ⟨?_, fun hquota hle => ?_⟩
    · dsimp only
      rw [hsum]
      omega
    · dsimp only at hquota hle ⊢
      have := hreached hquota
      have := hcond hquota
      rw [hsum]
      omega

/-- Whether an entry is turned away. -/
theorem withinQuota_eq_false_iff (t : Tenant) : t.withinQuota = false ↔
    t.usageQuotaTokens ≠ 0 ∧ t.usageQuotaTokens.toNat ≤ t.usageCurrentTokens.toNat := by
  rw [Tenant.withinQuota, decide_eq_false_iff_not, not_or, UInt64.lt_iff_toNat_lt, not_lt]

theorem scTenantGet_eq {store : TenantStore} (h : store.Distinct) (u : CString) :
    scTenantGet store u = (store.entry u).elim (.error .notFound) fun e => .ok e.1 := by
  have hanswer := (refines_get h u).1
  simpa [tenantCall, userCall, TenantOp.user] using hanswer

theorem scTenantGet_eq_ok_iff {store : TenantStore} (h : store.Distinct) {u : CString}
    {t : Tenant} : scTenantGet store u = .ok t ↔ ∃ b, store.entry u = some (t, b) := by
  rw [scTenantGet_eq h]
  cases store.entry u with
  | none => simp
  | some e => simp [Prod.ext_iff, eq_comm]

theorem scTenantCheckQuota_eq {store : TenantStore} (h : store.Distinct) (u : CString) :
    scTenantCheckQuota store u = (store.entry u).elim false fun e => e.1.withinQuota := by
  have hanswer := (refines_checkQuota h u).1
  simpa [tenantCall, userCall, TenantOp.user] using hanswer

/-- The users are turned away where each entry has reached its quota together with its tokens. -/
theorem quotaHolds_iff {s : TenantRun} (h : s.store.Distinct) : QuotaHolds s ↔
    ∀ u e, s.store.entry u = some e → e.1.usageQuotaTokens ≠ 0 →
      e.1.usageQuotaTokens.toNat ≤ s.counted u →
      e.1.usageQuotaTokens.toNat ≤ e.1.usageCurrentTokens.toNat := by
  constructor
  · intro hq u e he hquota hle
    have hfalse := hq u e.1 ((scTenantGet_eq_ok_iff h).mpr ⟨e.2, he⟩) hquota hle
    rw [scTenantCheckQuota_eq h, he] at hfalse
    exact ((withinQuota_eq_false_iff e.1).mp hfalse).2
  · intro hq u t ht hquota hle
    obtain ⟨b, hb⟩ := (scTenantGet_eq_ok_iff h).mp ht
    rw [scTenantCheckQuota_eq h, hb]
    exact (withinQuota_eq_false_iff t).mpr ⟨hquota, hq u (t, b) hb hquota hle⟩

/-- Every entry counts its tokens. -/
structure AllCount (s : TenantRun) : Prop where
  distinct : s.store.Distinct
  counts : ∀ u e, s.store.entry u = some e → Counts e (s.counted u)

theorem AllCount.quotaHolds {s : TenantRun} (h : AllCount s) : QuotaHolds s :=
  (quotaHolds_iff h.distinct).mpr fun u e he => (h.counts u e he).reached

theorem countTokens_of_ne {counted : CString → ℕ} {answer : TenantAnswer} {op : TenantOp}
    {u : CString} (hu : u ≠ op.user) : countTokens counted answer op u = counted u := by
  cases op with
  | create t | update t =>
    unfold countTokens
    split
    · exact Function.update_of_ne hu _ _
    · rfl
  | incrementUsage userId tokens =>
    unfold countTokens
    split
    · exact Function.update_of_ne hu _ _
    · rfl
  | get _ | delete _ | checkQuota _ | checkRateLimit _ _ => rfl

/-- Behind a call everything counts if the entry of its user does. -/
theorem AllCount.step_of_user {s s' : TenantRun} (h : AllCount s) {op : TenantOp}
    (hrefines : s.store.Refines op) (hstep : tenantStep s op = some s')
    (huser : ∀ e, (userCall (s.store.entry op.user) op).2 = some e →
      Counts e (countTokens s.counted (userCall (s.store.entry op.user) op).1 op op.user)) :
    AllCount s' := by
  obtain ⟨hanswer, hdistinct, hentries⟩ := hrefines
  obtain rfl := Option.some.inj hstep
  refine ⟨hdistinct, fun u e he => ?_⟩
  dsimp only at he ⊢
  rw [hentries] at he
  by_cases hu : u = op.user
  · rw [if_pos hu] at he
    rw [hanswer, hu]
    exact huser e he
  · rw [if_neg hu] at he
    rw [countTokens_of_ne hu]
    exact h.counts u e he

/-- A call keeps everything counted under its condition. -/
theorem AllCount.step {s s' : TenantRun} (h : AllCount s) {op : TenantOp}
    (hrefines : s.store.Refines op) (hop : CountsUp s op) (hstep : tenantStep s op = some s') :
    AllCount s' := by
  apply h.step_of_user hrefines hstep
  intro e he
  cases hv : s.store.entry op.user with
  | none =>
    rw [hv] at he
    cases op with
    | create t =>
      by_cases hempty : t.userId.octets = []
      · simp [userCall, hempty] at he
      · simp only [userCall, hempty, if_false, Option.some.injEq] at he ⊢
        subst he
        simp only [countTokens, TenantOp.user, Function.update_self]
        exact counts_stored t _
    | get _ | update _ | delete _ | incrementUsage _ _ | checkQuota _ | checkRateLimit _ _ =>
      simp [userCall] at he
  | some e₀ =>
    have hcounts := h.counts _ _ hv
    rw [hv] at he
    cases op with
    | create t =>
      by_cases hempty : t.userId.octets = []
      · simp only [userCall, hempty, if_true, Option.some.injEq] at he ⊢
        exact he ▸ hcounts
      · simp only [userCall, hempty, if_false, Option.some.injEq] at he ⊢
        exact he ▸ hcounts
    | get _ | checkQuota _ =>
      simp only [userCall, Option.some.injEq] at he ⊢
      exact he ▸ hcounts
    | checkRateLimit _ _ =>
      simp only [userCall, Option.some.injEq] at he ⊢
      subst he
      exact ⟨hcounts.mod, hcounts.reached⟩
    | delete _ => simp [userCall] at he
    | update t =>
      simp only [userCall, Option.some.injEq] at he ⊢
      subst he
      simp only [countTokens, TenantOp.user, Function.update_self]
      exact counts_stored t _
    | incrementUsage userId tokens =>
      simp only [userCall, Option.some.injEq] at he ⊢
      subst he
      simp only [countTokens, TenantOp.user, Function.update_self]
      refine (hcounts.add_iff tokens).mpr ?_
      exact hop e₀.1 ((scTenantGet_eq_ok_iff h.distinct).mpr ⟨e₀.2, hv⟩)

/-- A user whose tokens are carried around to below the quota is let through. -/
theorem AllCount.countsUp {s s' : TenantRun} (h : AllCount s) {op : TenantOp}
    (hrefines : s.store.Refines op) (hstep : tenantStep s op = some s') (hquota : QuotaHolds s') :
    CountsUp s op := by
  cases op with
  | create _ | get _ | update _ | delete _ | checkQuota _ | checkRateLimit _ _ => trivial
  | incrementUsage userId tokens =>
    intro t ht
    obtain ⟨b, hb⟩ := (scTenantGet_eq_ok_iff h.distinct).mp ht
    have hcounts := h.counts _ _ hb
    obtain ⟨hanswer, hdistinct, hentries⟩ := hrefines
    obtain rfl := Option.some.inj hstep
    refine (hcounts.add_iff tokens).mp ⟨?_, ?_⟩
    · have hmod := hcounts.mod
      dsimp only at hmod ⊢
      rw [UInt64.toNat_add, ← hmod, Nat.mod_add_mod]
    · have hcall : userCall (s.store.entry userId) (.incrementUsage userId tokens) =
          (.status (.ok ()), some ({ t with
            usageCurrentTokens := t.usageCurrentTokens + tokens }, b)) := by
        rw [hb]
        rfl
      have hentry := (hentries userId).trans ((if_pos rfl).trans (congrArg Prod.snd hcall))
      have hreached := (quotaHolds_iff hdistinct).mp hquota userId _ hentry
      rw [hanswer.trans (congrArg Prod.fst hcall)] at hreached
      simpa only [countTokens, Function.update_self] using hreached

end Quota

/-! ## Runs -/

theorem allCount_init (counted : CString → ℕ) : AllCount ⟨scTenantStoreInit, counted⟩ :=
  ⟨distinct_init, fun _ _ h => nomatch h⟩

/-- As long as there is room, the calls about other users change no answer and the quotas hold
in every state, exactly when no increment carries a usage around 2^64 to below its quota. -/
theorem tenants_isolated_iff {counted : CString → ℕ} {ops : List TenantOp}
    (hroom : Machine.Throughout tenantStep HasRoom ⟨scTenantStoreInit, counted⟩ ops) :
    (Isolated ops ∧ Machine.Throughout tenantStep QuotaHolds ⟨scTenantStoreInit, counted⟩ ops) ↔
      Machine.EveryStep tenantStep CountsUp ⟨scTenantStoreInit, counted⟩ ops := by
  rw [and_iff_right (isolated_of_room hroom)]
  refine Machine.throughout_iff_everyStep_along (I := AllCount) (fun _ h => h.quotaHolds) ?_ ?_
    (allCount_init counted) hroom
  · intro s op s' h hcount hop hstep
    exact h.step (refines h.distinct (Nat.lt_succ_of_le hcount) op) hop hstep
  · intro s op s' h hcount hstep hop hquota
    exact hop (h.countsUp (refines h.distinct (Nat.lt_succ_of_le hcount) op) hstep hquota)

/-- A tenant with some quota and usage. -/
def tenantU (quota usage : UInt64) : Tenant :=
  ⟨⟨[0x75], fun h => nomatch List.mem_singleton.mp h⟩, Tenant.zero.displayName, .user, 60, quota,
    usage⟩

/-- Five tokens of a hundred are used. -/
theorem tenants_isolated_five :
    Isolated [.create (tenantU 100 0), .incrementUsage (tenantU 100 0).userId 5] ∧
      Machine.Throughout tenantStep QuotaHolds ⟨scTenantStoreInit, fun _ => 0⟩
        [.create (tenantU 100 0), .incrementUsage (tenantU 100 0).userId 5] := by
  refine (tenants_isolated_iff ?_).mpr ?_
  · exact ⟨Nat.zero_le _, _, rfl, (by decide : 1 ≤ 255), _, rfl, (by decide : 1 ≤ 255)⟩
  · refine ⟨trivial, fun s hs => ⟨fun t ht _ hover => ?_, fun _ _ => trivial⟩⟩
    obtain rfl := Option.some.inj hs
    obtain rfl : tenantU 100 0 = t := Except.ok.inj ht
    exact absurd hover (by decide)

/-- A usage at the end of its 64 bits starts again at zero, and the tenant is let through. -/
theorem tenants_quota_wraps : ¬ Machine.Throughout tenantStep QuotaHolds
    ⟨scTenantStoreInit, fun _ => 0⟩ [.create (tenantU 100 18446744073709551615),
      .incrementUsage (tenantU 100 0).userId 1] := by
  intro h
  obtain ⟨s, hrun, hquota⟩ := h.run
  obtain rfl := Option.some.inj hrun
  have hfalse := hquota (tenantU 100 0).userId (tenantU 100 0) rfl (by decide) (by decide)
  exact absurd hfalse (by decide)

end SeaClaw.Gateway
