import McpgSdk.Cluster.Wire
import McpgSdk.Protocol

/-!
# Leases over the plugin boundary

A plugin acquires a lease through its client, renews it and gives it back. The shim of an acquisition
packs what the backend did in one record: a handle for a lease it granted, no handle and no text for
one it declined, no handle and the text of an error otherwise. Two decoders of the client unpack it.

* `acquireThrough`, `clusterLeaseRenew`: the shims, with the calls the backend sees;
* `acquireCommon`, `tryAcquireCommon`, `HeldLease.renew`: the client;
* **`leases_survive`**: what the caller gets of an acquisition or a renewal is what the backend did;
* `HeldLease.run`: calls of `renew` and `release` on a lease, up to its drop;
* **`lifecycle_iff`**: the coordinator sees renewals, one release and one drop, in this order, if and
  only if no `renew` is called after a `release`;
* `renewed_after_release`: a renewal of a lease that was given back reaches the coordinator.
-/

set_option autoImplicit false

namespace McpgSdk

namespace Cluster

/-! ## The backend's side -/

/-- A lease the backend granted: its handle, the fencing token and the RFC3339 expiry. -/
structure Grant where
  handle : ℕ
  fencingToken : ℕ
  expiresAt : String
  deriving DecidableEq, Repr

/-- A cluster backend with its operations on leases. -/
structure SyncLeaseBackend (E : Type) extends SyncClusterBackend E where
  acquireLeadership : String → ℕ → Outcome E Grant
  acquireLock : String → ℕ → Outcome E Grant
  tryAcquireLeadership : String → ℕ → Outcome E (Option Grant)
  tryAcquireLock : String → ℕ → Outcome E (Option Grant)
  leaseRenew : ℕ → Outcome E String

/-- A call about leases as the backend sees it. -/
inductive LeaseCall
  | acquireLeadership (role : String) (ttlMs : ℕ)
  | acquireLock (key : String) (ttlMs : ℕ)
  | tryAcquireLeadership (role : String) (ttlMs : ℕ)
  | tryAcquireLock (key : String) (ttlMs : ℕ)
  | renew (leaseHandle : ℕ)
  | release (leaseHandle : ℕ)
  | drop (leaseHandle : ℕ)
  deriving DecidableEq, Repr

/-- The record an acquisition returns over the boundary. -/
structure LeaseHandle where
  handle : ℕ
  fencingToken : ℕ
  expiresAt : String
  errorJson : Slot

/-- A granted lease as the shim packs it. -/
def LeaseHandle.granted (g : Grant) : LeaseHandle := ⟨g.handle, g.fencingToken, g.expiresAt, none⟩

/-- A declined one. -/
def LeaseHandle.declined : LeaseHandle := ⟨0, 0, "", none⟩

/-- The arguments of an acquisition: the role or the key, and the time to live. -/
structure AcquireArgs where
  name : String
  ttlMs : ℕ
  deriving DecidableEq, Repr

/-- The arguments as the client writes them; `field` is `role` or `key`. -/
def AcquireArgs.toValue (field : String) (a : AcquireArgs) : Json :=
  .obj [(field, .str a.name), ("ttl_ms", .num (.posInt a.ttlMs))]

/-- The arguments as the shim reads them: from an object, or from an array of their fields. -/
def AcquireArgs.fromValue (field : String) : Json → Option AcquireArgs
  | .obj fields => do
    return ⟨← (fields.lookup field).bind Json.asStr, ← (fields.lookup "ttl_ms").bind Json.asU64⟩
  | .arr [name, ttlMs] => do return ⟨← name.asStr, ← ttlMs.asU64⟩
  | _ => none

theorem AcquireArgs.fromValue_toValue {field : String} (hfield : field ≠ "ttl_ms") (a : AcquireArgs) :
    AcquireArgs.fromValue field (a.toValue field) = some a := by
  have hne : "ttl_ms" ≠ field := Ne.symm hfield
  simp [fromValue, toValue, Json.lookup_cons_ite, hne, Json.asStr]

section Shim

variable {E α : Type} (errors : ClusterErrors E)

/-- `__mcpg_cluster_lease_acquire_err`. -/
def leaseAcquireErr (err : E) : LeaseHandle := ⟨0, 0, "", some (errors.toValue err)⟩

/-- The body the four acquisition shims share: read the arguments, call the backend with them, pack
what it returned. `malformed` is serde's reason for refusing the arguments. -/
def acquireThrough (malformed : Json → String) (field op : String) (call : String → ℕ → LeaseCall)
    (backend : String → ℕ → Outcome E α) (pack : α → LeaseHandle) (args : Json) :
    List LeaseCall × LeaseHandle :=
  match AcquireArgs.fromValue field args with
  | none =>
    ([], leaseAcquireErr errors
      (errors.invalidReference ("malformed acquire args: " ++ malformed args)))
  | some a =>
    ([call a.name a.ttlMs],
      match backend a.name a.ttlMs with
      | .returned (.ok grant) => pack grant
      | .returned (.error e) => leaseAcquireErr errors e
      | .panicked => leaseAcquireErr errors (errors.internal ("plugin panicked during " ++ op)))

variable (malformed : Json → String) (b : SyncLeaseBackend E)

/-- `__mcpg_cluster_acquire_leadership`. -/
def clusterAcquireLeadership : Json → List LeaseCall × LeaseHandle :=
  acquireThrough errors malformed "role" "acquire_leadership" .acquireLeadership
    b.acquireLeadership .granted

/-- `__mcpg_cluster_acquire_lock`. -/
def clusterAcquireLock : Json → List LeaseCall × LeaseHandle :=
  acquireThrough errors malformed "key" "acquire_lock" .acquireLock b.acquireLock .granted

/-- `__mcpg_cluster_try_acquire_leadership`. -/
def clusterTryAcquireLeadership : Json → List LeaseCall × LeaseHandle :=
  acquireThrough errors malformed "role" "try_acquire_leadership" .tryAcquireLeadership
    b.tryAcquireLeadership fun grant => (grant.map .granted).getD .declined

/-- `__mcpg_cluster_try_acquire_lock`. -/
def clusterTryAcquireLock : Json → List LeaseCall × LeaseHandle :=
  acquireThrough errors malformed "key" "try_acquire_lock" .tryAcquireLock
    b.tryAcquireLock fun grant => (grant.map .granted).getD .declined

/-- `__mcpg_cluster_lease_renew`. -/
def clusterLeaseRenew (leaseHandle : ℕ) : List LeaseCall × Slot :=
  ([.renew leaseHandle],
    catchPanic (respondResult errors Json.str) (b.leaseRenew leaseHandle))

end Shim

/-! ## The client's side -/

/-- A lease the client holds, with its fencing token and expiry. -/
structure HeldLease extends ClusterLease where
  fencingToken : ℕ
  expiresAt : String
  deriving DecidableEq, Repr

/-- The lease a client holds after it was granted. -/
def HeldLease.ofGrant (g : Grant) : HeldLease := ⟨⟨g.handle, false⟩, g.fencingToken, g.expiresAt⟩

/-- `Duration::as_millis`. -/
def asMillis (ttl : Nanos) : ℕ := ttl / 1000000

/-- A time to live as the client sends it, `as_millis() as u64`. -/
def ttlMs (ttl : Nanos) : ℕ := asMillis ttl % 2 ^ 64

section Client

variable {E : Type} (errors : ClusterErrors E)

/-- `decode_error` of a text that may be empty. -/
def decodeErrorText (op : String) : Slot → E
  | none => errors.internal ("undecodable " ++ op ++ " error from coordinator")
  | some payload => decodeError errors payload op

/-- `ClusterClient::acquire_common`. -/
def acquireCommon (vtFn : Json → List LeaseCall × LeaseHandle) (args : Json) :
    List LeaseCall × Except E HeldLease :=
  let (calls, result) := vtFn args
  (calls,
    if result.handle = 0 then .error (decodeErrorText errors "acquire" result.errorJson)
    else .ok ⟨⟨result.handle, false⟩, result.fencingToken, result.expiresAt⟩)

/-- `decode_try_acquire`: the lease, `none` for one that was declined, or the error. -/
def decodeTryAcquire (result : LeaseHandle) : Except E (Option HeldLease) :=
  if result.handle ≠ 0 then
    .ok (some ⟨⟨result.handle, false⟩, result.fencingToken, result.expiresAt⟩)
  else if result.errorJson.isNone then .ok none
  else .error (decodeErrorText errors "try_acquire" result.errorJson)

/-- `ClusterClient::try_acquire_common`. -/
def tryAcquireCommon (vtFn : Json → List LeaseCall × LeaseHandle) (args : Json) :
    List LeaseCall × Except E (Option HeldLease) :=
  let (calls, result) := vtFn args
  (calls, decodeTryAcquire errors result)

variable (malformed : Json → String) (b : SyncLeaseBackend E)

/-- `ClusterClient::acquire_leadership` through the shim of a backend. -/
def ClusterClient.acquireLeadership (role : String) (ttl : Nanos) :
    List LeaseCall × Except E HeldLease :=
  acquireCommon errors (clusterAcquireLeadership errors malformed b)
    (AcquireArgs.toValue "role" ⟨role, ttlMs ttl⟩)

/-- `ClusterClient::acquire_lock`. -/
def ClusterClient.acquireLock (key : String) (ttl : Nanos) : List LeaseCall × Except E HeldLease :=
  acquireCommon errors (clusterAcquireLock errors malformed b)
    (AcquireArgs.toValue "key" ⟨key, ttlMs ttl⟩)

/-- `ClusterClient::try_acquire_leadership`. -/
def ClusterClient.tryAcquireLeadership (role : String) (ttl : Nanos) :
    List LeaseCall × Except E (Option HeldLease) :=
  tryAcquireCommon errors (clusterTryAcquireLeadership errors malformed b)
    (AcquireArgs.toValue "role" ⟨role, ttlMs ttl⟩)

/-- `ClusterClient::try_acquire_lock`. -/
def ClusterClient.tryAcquireLock (key : String) (ttl : Nanos) :
    List LeaseCall × Except E (Option HeldLease) :=
  tryAcquireCommon errors (clusterTryAcquireLock errors malformed b)
    (AcquireArgs.toValue "key" ⟨key, ttlMs ttl⟩)

/-- How `ClusterLease::renew` reads the answer: the new expiry or an error. `text` is the text of a
value, for the error about an answer that cannot be read. -/
def readRenewal (text : Json → String) : Slot → Except E String
  | none => .error (errors.internal "undecodable renew payload: ")
  | some value =>
    match (value.get? "ok").bind Json.asStr with
    | some expires => .ok expires
    | none =>
      match (value.get? "err").bind errors.fromValue with
      | some err => .error err
      | none => .error (errors.internal ("undecodable renew payload: " ++ text value))

/-- `ClusterLease::renew` through the shim of a backend. -/
def HeldLease.renew (text : Json → String) (lease : HeldLease) :
    List LeaseCall × HeldLease × Except E Unit :=
  let (calls, payload) := clusterLeaseRenew errors b lease.leaseHandle
  match readRenewal errors text payload with
  | .ok expires => (calls, { lease with expiresAt := expires }, .ok ())
  | .error err => (calls, lease, .error err)

/-- `ClusterLease::release`, with the call the backend sees. -/
def HeldLease.release (lease : HeldLease) : List LeaseCall × HeldLease × Except E Unit :=
  let (released, result) := lease.toClusterLease.release errors b.toSyncClusterBackend
  (if lease.released then [] else [.release lease.leaseHandle],
    { lease with toClusterLease := released }, result)

/-- `ClusterLease::drop`: what it returns is ignored. -/
def HeldLease.drop (lease : HeldLease) : List LeaseCall :=
  (if lease.released then [] else [.release lease.leaseHandle]) ++ [.drop lease.leaseHandle]

end Client

/-! ## Acquisitions and renewals survive -/

/-- An outcome with its result mapped. -/
def Outcome.map {E α β : Type} (f : α → β) : Outcome E α → Outcome E β
  | .returned (.ok a) => .returned (.ok (f a))
  | .returned (.error e) => .returned (.error e)
  | .panicked => .panicked

/-- An acquisition is faithful: the backend sees one call, with the name asked for and the time to
live if it fits 64 bits of milliseconds, and the caller gets what the backend did, granted leases
having a handle. -/
def FaithfulAcquire {E α β : Type} (call : String → ℕ → LeaseCall) (backend : String → ℕ → Outcome E α)
    (HasHandle : α → Prop) (held : α → β)
    (client : String → Nanos → List LeaseCall × Except E β) : Prop :=
  ∀ name ttl, ∃ ms, (asMillis ttl < 2 ^ 64 → ms = asMillis ttl) ∧
    (client name ttl).1 = [call name ms] ∧
    ((∀ a, backend name ms = .returned (.ok a) → HasHandle a) →
      Survives ((backend name ms).map held) (client name ttl).2)

/-- A renewal is faithful: the backend sees one call, a new expiry is taken over, and an error or a
panic leaves the lease as it was. -/
def FaithfulRenew {E : Type} (b : SyncLeaseBackend E) (lease : HeldLease)
    (result : List LeaseCall × HeldLease × Except E Unit) : Prop :=
  result.1 = [.renew lease.leaseHandle] ∧
    match b.leaseRenew lease.leaseHandle with
    | .returned (.ok expires) => result.2 = ({ lease with expiresAt := expires }, .ok ())
    | .returned (.error e) => result.2 = (lease, .error e)
    | .panicked => result.2.1 = lease ∧ ∃ e, result.2.2 = .error e

section Survival

variable {E α : Type} {errors : ClusterErrors E} {malformed : Json → String}

theorem ttlMs_eq {ttl : Nanos} (h : asMillis ttl < 2 ^ 64) : ttlMs ttl = asMillis ttl :=
  Nat.mod_eq_of_lt h

theorem acquireThrough_toValue {field op : String} (hfield : field ≠ "ttl_ms")
    (call : String → ℕ → LeaseCall) (backend : String → ℕ → Outcome E α) (pack : α → LeaseHandle)
    (name : String) (ms : ℕ) :
    acquireThrough errors malformed field op call backend pack
        (AcquireArgs.toValue field ⟨name, ms⟩) =
      ([call name ms],
        match backend name ms with
        | .returned (.ok grant) => pack grant
        | .returned (.error e) => leaseAcquireErr errors e
        | .panicked => leaseAcquireErr errors (errors.internal ("plugin panicked during " ++ op))) := by
  unfold acquireThrough
  rw [AcquireArgs.fromValue_toValue hfield]

theorem decodeErrorText_err (h : ∀ e, errors.fromValue (errors.toValue e) = some e) (op : String)
    (e : E) : decodeErrorText errors op (leaseAcquireErr errors e).errorJson = e := by
  show decodeError errors (errors.toValue e) op = e
  rw [decodeError, h, Option.getD_some]

theorem decodeTryAcquire_err (h : ∀ e, errors.fromValue (errors.toValue e) = some e) (e : E) :
    decodeTryAcquire errors (leaseAcquireErr errors e) = .error e := by
  have herror := decodeErrorText_err h "try_acquire" e
  rw [decodeTryAcquire, if_neg (by simp [leaseAcquireErr]), if_neg (by simp [leaseAcquireErr]),
    herror]

theorem acquireCommon_faithful (h : ∀ e, errors.fromValue (errors.toValue e) = some e)
    {field op : String} (hfield : field ≠ "ttl_ms") (call : String → ℕ → LeaseCall)
    (backend : String → ℕ → Outcome E Grant) :
    FaithfulAcquire call backend (fun g => g.handle ≠ 0) HeldLease.ofGrant fun name ttl =>
      acquireCommon errors (acquireThrough errors malformed field op call backend .granted)
        (AcquireArgs.toValue field ⟨name, ttlMs ttl⟩) := by
  intro name ttl
  refine ⟨ttlMs ttl, ttlMs_eq, ?_, fun hhandle => ?_⟩
  · simp only [acquireCommon, acquireThrough_toValue hfield]
  · simp only [acquireCommon, acquireThrough_toValue hfield]
    cases ho : backend name (ttlMs ttl) with
    | panicked => exact ⟨_, if_pos rfl⟩
    | returned result =>
      cases result with
      | ok grant => exact if_neg (hhandle grant ho)
      | error e =>
        have herror := decodeErrorText_err h "acquire" e
        exact (if_pos rfl).trans (congrArg Except.error herror)

theorem tryAcquireCommon_faithful (h : ∀ e, errors.fromValue (errors.toValue e) = some e)
    {field op : String} (hfield : field ≠ "ttl_ms") (call : String → ℕ → LeaseCall)
    (backend : String → ℕ → Outcome E (Option Grant)) :
    FaithfulAcquire call backend (fun grant => ∀ g, grant = some g → g.handle ≠ 0)
      (Option.map HeldLease.ofGrant) fun name ttl =>
        tryAcquireCommon errors (acquireThrough errors malformed field op call backend
          fun grant => (grant.map .granted).getD .declined)
          (AcquireArgs.toValue field ⟨name, ttlMs ttl⟩) := by
  intro name ttl
  refine ⟨ttlMs ttl, ttlMs_eq, ?_, fun hhandle => ?_⟩
  · simp only [tryAcquireCommon, acquireThrough_toValue hfield]
  · simp only [tryAcquireCommon, acquireThrough_toValue hfield]
    cases ho : backend name (ttlMs ttl) with
    | panicked => exact ⟨_, decodeTryAcquire_err h _⟩
    | returned result =>
      cases result with
      | ok grant =>
        cases grant with
        | none => rfl
        | some g => exact if_pos (hhandle (some g) ho g rfl)
      | error e => exact decodeTryAcquire_err h e

theorem renew_faithful (h : ∀ e, errors.fromValue (errors.toValue e) = some e)
    (text : Json → String) (b : SyncLeaseBackend E) (lease : HeldLease) :
    FaithfulRenew b lease (lease.renew errors b text) := by
  unfold FaithfulRenew HeldLease.renew clusterLeaseRenew
  cases b.leaseRenew lease.leaseHandle with
  | panicked => exact ⟨rfl, rfl, _, rfl⟩
  | returned result =>
    cases result with
    | ok expires => exact ⟨rfl, rfl⟩
    | error e =>
      have hread : readRenewal errors text (respondResult errors Json.str (.error e)) = .error e := by
        simp [readRenewal, respondResult, Json.lookup_cons_ite, h]
      simp only [catchPanic, hread]
      exact ⟨trivial, trivial⟩

/-- **Leases survive the boundary.** For every backend, the four ways to acquire a lease and its
renewal give the caller what the backend did: the same grant, that it declined, the same error, or an
error for a panic. -/
theorem leases_survive (h : ∀ e, errors.fromValue (errors.toValue e) = some e)
    (malformed text : Json → String) (b : SyncLeaseBackend E) :
    FaithfulAcquire .acquireLeadership b.acquireLeadership (fun g => g.handle ≠ 0) HeldLease.ofGrant
        (ClusterClient.acquireLeadership errors malformed b) ∧
      FaithfulAcquire .acquireLock b.acquireLock (fun g => g.handle ≠ 0) HeldLease.ofGrant
        (ClusterClient.acquireLock errors malformed b) ∧
      FaithfulAcquire .tryAcquireLeadership b.tryAcquireLeadership
        (fun grant => ∀ g, grant = some g → g.handle ≠ 0) (Option.map HeldLease.ofGrant)
        (ClusterClient.tryAcquireLeadership errors malformed b) ∧
      FaithfulAcquire .tryAcquireLock b.tryAcquireLock
        (fun grant => ∀ g, grant = some g → g.handle ≠ 0) (Option.map HeldLease.ofGrant)
        (ClusterClient.tryAcquireLock errors malformed b) ∧
      ∀ lease, FaithfulRenew b lease (lease.renew errors b text) :=
  ⟨acquireCommon_faithful h (by decide) _ _, acquireCommon_faithful h (by decide) _ _,
    tryAcquireCommon_faithful h (by decide) _ _, tryAcquireCommon_faithful h (by decide) _ _,
    renew_faithful h text b⟩

end Survival

/-- A backend that grants whatever is asked for, declines to try, and fails to renew. -/
def grantsNoRenewal : SyncLeaseBackend PlainError where
  toSyncClusterBackend := answering (.returned (.ok ()))
  acquireLeadership _ _ := .returned (.ok ⟨7, 3, "2026-01-01T00:00:00Z"⟩)
  acquireLock _ _ := .panicked
  tryAcquireLeadership _ _ := .returned (.ok none)
  tryAcquireLock _ _ := .returned (.error .timeout)
  leaseRenew _ := .returned (.error (.internal "gone"))

theorem leases_survive_grantsNoRenewal :
    (ClusterClient.acquireLeadership plainErrors (fun _ => "") grantsNoRenewal "role"
        (millis 5000)).2 = .ok ⟨⟨7, false⟩, 3, "2026-01-01T00:00:00Z"⟩ ∧
      (ClusterClient.tryAcquireLeadership plainErrors (fun _ => "") grantsNoRenewal "role"
        (millis 5000)).2 = .ok none ∧
      (ClusterClient.tryAcquireLock plainErrors (fun _ => "") grantsNoRenewal "key"
        (millis 5000)).2 = .error .timeout := by
  obtain ⟨hlead, -, htryLead, htryLock, -⟩ :=
    leases_survive plainErrors_lawful.fromValue_toValue (fun _ => "") (fun _ => "") grantsNoRenewal
  obtain ⟨ms, -, -, hl⟩ := hlead "role" (millis 5000)
  obtain ⟨ms', -, -, htl⟩ := htryLead "role" (millis 5000)
  obtain ⟨ms'', -, -, htk⟩ := htryLock "key" (millis 5000)
  refine ⟨hl fun g hg => ?_, htl fun grant hg g hsome => ?_, htk fun grant hg => ?_⟩
  · obtain rfl : ⟨7, 3, "2026-01-01T00:00:00Z"⟩ = g := by
      injection hg with hg
      injection hg
    decide
  · subst hsome
    injection hg with hg
    injection hg with hg
    cases hg
  · injection hg with hg
    cases hg

/-! ## The life of a lease -/

/-- A call on a lease. -/
inductive LeaseOp
  | renew
  | release
  deriving DecidableEq, Repr

section Lifecycle

variable {E : Type} (errors : ClusterErrors E) (text : Json → String)

/-- One call on a lease, answered by a backend. -/
def HeldLease.apply (lease : HeldLease) (op : LeaseOp) (b : SyncLeaseBackend E) :
    List LeaseCall × HeldLease :=
  match op with
  | .renew => ((lease.renew errors b text).1, (lease.renew errors b text).2.1)
  | .release => ((lease.release errors b).1, (lease.release errors b).2.1)

/-- What the coordinator sees of a lease: the given calls, each answered in any way, and its drop. -/
def HeldLease.run (lease : HeldLease) : List (LeaseOp × SyncLeaseBackend E) → List LeaseCall
  | [] => lease.drop
  | (op, b) :: ops => (lease.apply errors text op b).1 ++ (lease.apply errors text op b).2.run ops

/-- The life a lease should have: renewals, one release, one drop. -/
def Orderly (leaseHandle : ℕ) (calls : List LeaseCall) : Prop :=
  ∃ n, calls = List.replicate n (.renew leaseHandle) ++ [.release leaseHandle, .drop leaseHandle]

/-- No `renew` is called after a `release`. -/
def NoRenewAfterRelease (ops : List LeaseOp) : Prop :=
  .renew ∉ ops.dropWhile fun op => decide (op = .renew)

instance (ops : List LeaseOp) : Decidable (NoRenewAfterRelease ops) := by
  unfold NoRenewAfterRelease
  infer_instance

theorem apply_renew (lease : HeldLease) (b : SyncLeaseBackend E) :
    ∃ expires, lease.apply errors text .renew b =
      ([.renew lease.leaseHandle], { lease with expiresAt := expires }) := by
  simp only [HeldLease.apply, HeldLease.renew, clusterLeaseRenew]
  cases readRenewal errors text
    (catchPanic (respondResult errors Json.str) (b.leaseRenew lease.leaseHandle)) with
  | ok expires => exact ⟨expires, rfl⟩
  | error err => exact ⟨lease.expiresAt, rfl⟩

variable {errors text}

theorem apply_release (lease : HeldLease) (b : SyncLeaseBackend E) :
    lease.apply errors text .release b =
      (if lease.released then [] else [.release lease.leaseHandle],
        { lease with released := true }) := by
  unfold HeldLease.apply HeldLease.release ClusterLease.release
  by_cases h : lease.released
  · rw [if_pos h]
    simp only [h, if_true]
    exact Prod.ext rfl (by rw [← h])
  · rw [if_neg h]

theorem run_released {lease : HeldLease} (h : lease.released = true)
    (ops : List (LeaseOp × SyncLeaseBackend E)) :
    lease.run errors text ops =
      List.replicate ((ops.map Prod.fst).count .renew) (LeaseCall.renew lease.leaseHandle) ++
        [LeaseCall.drop lease.leaseHandle] := by
  induction ops generalizing lease with
  | nil => simp [HeldLease.run, HeldLease.drop, h]
  | cons call ops ih =>
    obtain ⟨op, b⟩ := call
    cases op with
    | renew =>
      obtain ⟨expires, happly⟩ := apply_renew errors text lease b
      have htail := ih (show { lease with expiresAt := expires }.released = true from h)
      rw [HeldLease.run, happly]
      show [_] ++ _ = _
      rw [htail, List.map_cons, List.count_cons_self, List.replicate_succ]
      rfl
    | release =>
      rw [HeldLease.run, apply_release, if_pos h, ih rfl, List.map_cons,
        List.count_cons_of_ne (by simp)]
      rfl

/-- What the coordinator sees of a lease that was not given back yet. -/
theorem run_held {lease : HeldLease} (h : lease.released = false)
    (ops : List (LeaseOp × SyncLeaseBackend E)) :
    lease.run errors text ops =
      List.replicate ((ops.map Prod.fst).takeWhile fun op => decide (op = .renew)).length
          (LeaseCall.renew lease.leaseHandle) ++ LeaseCall.release lease.leaseHandle ::
        List.replicate (((ops.map Prod.fst).dropWhile fun op => decide (op = .renew)).count .renew)
          (LeaseCall.renew lease.leaseHandle) ++ [LeaseCall.drop lease.leaseHandle] := by
  induction ops generalizing lease with
  | nil => simp [HeldLease.run, HeldLease.drop, h]
  | cons call ops ih =>
    obtain ⟨op, b⟩ := call
    cases op with
    | renew =>
      obtain ⟨expires, happly⟩ := apply_renew errors text lease b
      have htail := ih (show { lease with expiresAt := expires }.released = false from h)
      rw [HeldLease.run, happly]
      show [_] ++ _ = _
      rw [htail, List.map_cons, List.takeWhile_cons_of_pos (by simp),
        List.dropWhile_cons_of_pos (by simp), List.length_cons, List.replicate_succ]
      rfl
    | release =>
      rw [HeldLease.run, apply_release, if_neg (by simp [h]), run_released rfl, List.map_cons,
        List.takeWhile_cons_of_neg (by simp), List.dropWhile_cons_of_neg (by simp),
        List.count_cons_of_ne (by simp)]
      rfl

theorem orderly_iff (leaseHandle n m : ℕ) :
    Orderly leaseHandle (List.replicate n (LeaseCall.renew leaseHandle) ++
      LeaseCall.release leaseHandle :: List.replicate m (LeaseCall.renew leaseHandle) ++
      [LeaseCall.drop leaseHandle]) ↔ m = 0 := by
  constructor
  · rintro ⟨k, hk⟩
    by_contra hm
    -- Both sides end in the drop; the call before it is a renewal on one and the release on the other.
    obtain ⟨m, rfl⟩ := Nat.exists_eq_succ_of_ne_zero hm
    rw [List.replicate_succ', ← List.cons_append, ← List.append_assoc, List.append_assoc] at hk
    have hend := (List.append_inj' hk rfl).2
    cases hend
  · rintro rfl
    exact ⟨n, by simp⟩

/-- **The life of a lease.** Whatever the coordinator answers, it sees renewals, one release and one
drop as the last call if and only if no `renew` is called after a `release`. -/
theorem lifecycle_iff (errors : ClusterErrors E) (text : Json → String) (g : Grant)
    (ops : List (LeaseOp × SyncLeaseBackend E)) :
    Orderly g.handle ((HeldLease.ofGrant g).run errors text ops) ↔
      NoRenewAfterRelease (ops.map Prod.fst) := by
  rw [run_held rfl]
  show Orderly g.handle (_ ++ LeaseCall.release g.handle ::
    List.replicate _ (LeaseCall.renew g.handle) ++ [LeaseCall.drop g.handle]) ↔ _
  refine (orderly_iff _ _ _).trans ?_
  exact List.count_eq_zero

end Lifecycle

/-- **A renewal after the release reaches the coordinator.** -/
theorem renewed_after_release :
    ¬ ∀ (E : Type) (errors : ClusterErrors E) (text : Json → String) (g : Grant)
      (ops : List (LeaseOp × SyncLeaseBackend E)),
      Orderly g.handle ((HeldLease.ofGrant g).run errors text ops) := by
  intro h
  have hlife := h PlainError plainErrors (fun _ => "") ⟨7, 3, ""⟩
    [(.release, grantsNoRenewal), (.renew, grantsNoRenewal)]
  rw [run_held rfl] at hlife
  exact absurd ((orderly_iff 7 0 1).mp hlife) (by decide)

end Cluster

end McpgSdk
