import SeaClaw.Core.Error
import SeaClaw.Lib.CString
import SeaClaw.Lib.Machine
import SeaClaw.Lib.SlotTable

/-!
# The tenant store

Tenants and their rate buckets in two arrays with the same slots. A tenant that is deleted gives
its slots to the last one. The tokens counted for each user are kept beside the store as natural
numbers.
-/

namespace SeaClaw.Gateway

open SeaClaw.Lib

/-- `MAX_TENANTS` -/
def maxTenants : ℕ := 256

/-- `sc_tenant_role_t` -/
inductive TenantRole where
  | admin | user | readonly
  deriving DecidableEq

/-- `sc_tenant_t` -/
structure Tenant where
  userId : CString
  displayName : CString
  role : TenantRole
  rateLimitRpm : UInt32
  usageQuotaTokens : UInt64
  usageCurrentTokens : UInt64
  deriving DecidableEq

/-- `rate_bucket_t` -/
structure RateBucket where
  windowStart : ℤ
  count : UInt32
  deriving DecidableEq

/-- `struct sc_tenant_store` -/
structure TenantStore where
  tenants : ℕ → Tenant
  rateBuckets : ℕ → RateBucket
  count : ℕ

/-- A tenant of zeros. -/
def Tenant.zero : Tenant := ⟨⟨[], List.not_mem_nil⟩, ⟨[], List.not_mem_nil⟩, .admin, 0, 0, 0⟩

/-- `sc_tenant_store_init` -/
def scTenantStoreInit : TenantStore := ⟨fun _ => .zero, fun _ => ⟨0, 0⟩, 0⟩

/-- `find_tenant` -/
def findTenant (store : TenantStore) (userId : CString) : Option ℕ :=
  (List.range store.count).find? fun i => (store.tenants i).userId = userId

/-- `sc_tenant_create` -/
def scTenantCreate (store : TenantStore) (tenant : Tenant) : Except ScError Unit × TenantStore :=
  if tenant.userId.octets = [] then (.error .invalidArgument, store)
  else if (findTenant store tenant.userId).isSome then (.error .alreadyExists, store)
  else if maxTenants ≤ store.count then (.error .outOfMemory, store)
  else (.ok (), {
    tenants := Function.update store.tenants store.count tenant
    rateBuckets := Function.update store.rateBuckets store.count ⟨0, 0⟩
    count := store.count + 1 })

/-- `sc_tenant_get` -/
def scTenantGet (store : TenantStore) (userId : CString) : Except ScError Tenant :=
  match findTenant store userId with
  | none => .error .notFound
  | some idx => .ok (store.tenants idx)

/-- `sc_tenant_update`, which leaves the bucket. -/
def scTenantUpdate (store : TenantStore) (tenant : Tenant) : Except ScError Unit × TenantStore :=
  match findTenant store tenant.userId with
  | none => (.error .notFound, store)
  | some idx => (.ok (), { store with tenants := Function.update store.tenants idx tenant })

/-- `sc_tenant_delete` -/
def scTenantDelete (store : TenantStore) (userId : CString) : Except ScError Unit × TenantStore :=
  match findTenant store userId with
  | none => (.error .notFound, store)
  | some idx =>
    let last := store.count - 1
    (.ok (),
      if idx < last then {
        tenants := Function.update store.tenants idx (store.tenants last)
        rateBuckets := Function.update store.rateBuckets idx (store.rateBuckets last)
        count := last }
      else { store with count := last })

/-- `sc_tenant_increment_usage`, in 64 bits. -/
def scTenantIncrementUsage (store : TenantStore) (userId : CString) (tokens : UInt64) :
    Except ScError Unit × TenantStore :=
  match findTenant store userId with
  | none => (.error .notFound, store)
  | some idx =>
    let t := store.tenants idx
    (.ok (), { store with
      tenants := Function.update store.tenants idx
        { t with usageCurrentTokens := t.usageCurrentTokens + tokens } })

/-- What `sc_tenant_check_quota` answers about a tenant. -/
def Tenant.withinQuota (t : Tenant) : Bool :=
  t.usageQuotaTokens = 0 ∨ t.usageCurrentTokens < t.usageQuotaTokens

/-- `sc_tenant_check_quota` -/
def scTenantCheckQuota (store : TenantStore) (userId : CString) : Bool :=
  match findTenant store userId with
  | none => false
  | some idx => (store.tenants idx).withinQuota

/-- The answer of a rate limit and the bucket behind it. -/
def Tenant.takeTurn (t : Tenant) (b : RateBucket) (now : ℤ) : Bool × RateBucket :=
  if t.rateLimitRpm = 0 then (true, b)
  else
    let b := if 60 ≤ now - b.windowStart then ⟨now, 0⟩ else b
    if t.rateLimitRpm ≤ b.count then (false, b) else (true, { b with count := b.count + 1 })

/-- `sc_tenant_check_rate_limit` -/
def scTenantCheckRateLimit (store : TenantStore) (userId : CString) (now : ℤ) :
    Bool × TenantStore :=
  match findTenant store userId with
  | none => (false, store)
  | some idx =>
    let r := (store.tenants idx).takeTurn (store.rateBuckets idx) now
    (r.1, { store with rateBuckets := Function.update store.rateBuckets idx r.2 })

/-! ## Runs -/

/-- A call. -/
inductive TenantOp where
  | create (tenant : Tenant)
  | get (userId : CString)
  | update (tenant : Tenant)
  | delete (userId : CString)
  | incrementUsage (userId : CString) (tokens : UInt64)
  | checkQuota (userId : CString)
  | checkRateLimit (userId : CString) (now : ℤ)

/-- The user a call is about. -/
def TenantOp.user : TenantOp → CString
  | .create tenant => tenant.userId
  | .get userId => userId
  | .update tenant => tenant.userId
  | .delete userId => userId
  | .incrementUsage userId _ => userId
  | .checkQuota userId => userId
  | .checkRateLimit userId _ => userId

/-- What a call returns. -/
inductive TenantAnswer where
  | status (e : Except ScError Unit)
  | tenant (t : Except ScError Tenant)
  | allowed (b : Bool)

/-- One call on a store. -/
def tenantCall (store : TenantStore) : TenantOp → TenantAnswer × TenantStore
  | .create tenant => (scTenantCreate store tenant).map .status id
  | .get userId => (.tenant (scTenantGet store userId), store)
  | .update tenant => (scTenantUpdate store tenant).map .status id
  | .delete userId => (scTenantDelete store userId).map .status id
  | .incrementUsage userId tokens => (scTenantIncrementUsage store userId tokens).map .status id
  | .checkQuota userId => (.allowed (scTenantCheckQuota store userId), store)
  | .checkRateLimit userId now => (scTenantCheckRateLimit store userId now).map .allowed id

/-- The answers of a run, each with the user it is about. -/
def tenantAnswers (store : TenantStore) : List TenantOp → List (CString × TenantAnswer)
  | [] => []
  | op :: ops => (op.user, (tenantCall store op).1) :: tenantAnswers (tenantCall store op).2 ops

/-- The answers about a user are those of the run with the calls about that user alone. -/
def Isolated (ops : List TenantOp) : Prop :=
  ∀ u : CString, (tenantAnswers scTenantStoreInit ops).filter (fun a => a.1 = u) =
    tenantAnswers scTenantStoreInit (ops.filter fun op => op.user = u)

/-- A store, with the tokens of each user: the usage that was stored by the last creation or
update, and what was counted since. -/
structure TenantRun where
  store : TenantStore
  counted : CString → ℕ

/-- The tokens of the users after a call, by whether it succeeded. -/
def countTokens (counted : CString → ℕ) (answer : TenantAnswer) : TenantOp → CString → ℕ
  | .create tenant | .update tenant =>
    match answer with
    | .status (.ok _) =>
      Function.update counted tenant.userId tenant.usageCurrentTokens.toNat
    | _ => counted
  | .incrementUsage userId tokens =>
    match answer with
    | .status (.ok _) => Function.update counted userId (counted userId + tokens.toNat)
    | _ => counted
  | _ => counted

/-- One call of a run. -/
def tenantStep (s : TenantRun) (op : TenantOp) : Option TenantRun :=
  some ⟨(tenantCall s.store op).2, countTokens s.counted (tenantCall s.store op).1 op⟩

/-- A user whose tokens have reached a quota is turned away. -/
def QuotaHolds (s : TenantRun) : Prop :=
  ∀ u t, scTenantGet s.store u = .ok t → t.usageQuotaTokens ≠ 0 →
    t.usageQuotaTokens.toNat ≤ s.counted u → scTenantCheckQuota s.store u = false

/-- The store has room for one more tenant. -/
def HasRoom (s : TenantRun) : Prop := s.store.count ≤ 255

/-- An increment does not carry the usage around 2^64 to below a quota. -/
def CountsUp (s : TenantRun) : TenantOp → Prop
  | .incrementUsage userId tokens =>
    ∀ t, scTenantGet s.store userId = .ok t → t.usageQuotaTokens ≠ 0 →
      2 ^ 64 ≤ t.usageCurrentTokens.toNat + tokens.toNat →
      t.usageQuotaTokens.toNat + 2 ^ 64 ≤ t.usageCurrentTokens.toNat + tokens.toNat
  | _ => True

end SeaClaw.Gateway
