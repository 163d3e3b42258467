import McpgSdk.Lib.Json

/-!
# Cluster results over the plugin boundary

A cluster backend answers through a shim the macro generates; a plugin reads the answer with a
client of its own. The shim writes a result as an envelope, `ok` or `err`, and answers a panic with
the empty string. The client of `publish` and `release` takes the empty string for success and reads
anything else as a bare error, so it never reads the envelope.

* `Slot`, `respondResult`, `clusterPublish`, `clusterLeaseRelease`: the shim;
* `ClusterClient.publish`, `ClusterLease.release`: the client;
* `PublishArgs.fromValue_toValue`: the arguments arrive as they were sent;
* **`results_survive_iff`**: a result survives only when it is the very error the client makes up;
* `accepted_publish_fails`: a publish that succeeded is reported as failed.
-/

set_option autoImplicit false

namespace McpgSdk

namespace Cluster

/-- The cluster crate's error type, with the variants the SDK makes and its JSON. -/
structure ClusterErrors (E : Type) where
  internal : String → E
  invalidReference : String → E
  toValue : E → Json
  fromValue : Json → Option E

/-- Every error is read back from its JSON, and an object with the one field `err` is no error: the
JSON of an error names its variant. -/
structure ClusterErrors.Lawful {E : Type} (errors : ClusterErrors E) : Prop where
  fromValue_toValue : ∀ e, errors.fromValue (errors.toValue e) = some e
  refuses_envelope : ∀ e, errors.fromValue (.obj [("err", errors.toValue e)]) = none

/-- What a slot of the table answers: the empty string, or the text of a value. -/
abbrev Slot : Type := Option Json

/-- How a call into a backend ends. -/
inductive Outcome (E α : Type)
  | returned (result : Except E α)
  | panicked

/-- The operations of a cluster backend used here. -/
structure SyncClusterBackend (E : Type) where
  publish : String → Option String → List UInt8 → Outcome E Unit
  leaseRelease : ℕ → Outcome E Unit

section Shim

variable {E : Type} (errors : ClusterErrors E)

/-- `respond_result_rstring`: a result as an envelope. -/
def respondResult {α : Type} (okValue : α → Json) : Except E α → Slot
  | .ok a => some (.obj [("ok", okValue a)])
  | .error e => some (.obj [("err", errors.toValue e)])

/-- `catch_panic_to_empty_rstring`: a panic is the empty string. -/
def catchPanic {α : Type} (respond : Except E α → Slot) : Outcome E α → Slot
  | .returned result => respond result
  | .panicked => none

/-- The unit value as serde writes it. -/
def unitValue (_ : Unit) : Json := .null

end Shim

/-! ## The arguments of a publication -/

/-- What `publish` sends. -/
structure PublishArgs where
  topic : String
  routingKey : Option String
  payload : List UInt8
  deriving DecidableEq, Repr

/-- One byte as serde writes it. -/
def byteValue (b : UInt8) : Json := .num (.posInt b.toNat)

/-- One byte as serde reads it. -/
def byteOf (v : Json) : Option UInt8 :=
  v.asU64.bind fun n => if n < 256 then some (UInt8.ofNat n) else none

/-- The arguments as the client writes them. -/
def PublishArgs.toValue (a : PublishArgs) : Json :=
  .obj [("payload", .arr (a.payload.map byteValue)),
    ("routing_key", (a.routingKey.map Json.str).getD .null), ("topic", .str a.topic)]

/-- A routing key as the shim reads it: absent and null are none. -/
def readRoutingKey : Option Json → Option (Option String)
  | none => some none
  | some .null => some none
  | some (.str s) => some (some s)
  | some _ => none

/-- A payload as the shim reads it. -/
def readPayload : Json → Option (List UInt8)
  | .arr items => items.mapM byteOf
  | _ => none

/-- The arguments as the shim reads them: from an object, or from an array of their fields. -/
def PublishArgs.fromValue : Json → Option PublishArgs
  | .obj fields => do
    let topic ← (fields.lookup "topic").bind Json.asStr
    let routingKey ← readRoutingKey (fields.lookup "routing_key")
    let payload ← (fields.lookup "payload").bind readPayload
    return ⟨topic, routingKey, payload⟩
  | .arr [topic, routingKey, payload] => do
    return ⟨← topic.asStr, ← readRoutingKey (some routingKey), ← readPayload payload⟩
  | _ => none

theorem byteOf_byteValue (b : UInt8) : byteOf (byteValue b) = some b := by
  simp [byteOf, byteValue, b.toNat_lt]

theorem readPayload_map (payload : List UInt8) :
    readPayload (.arr (payload.map byteValue)) = some payload := by
  rw [readPayload]
  induction payload with
  | nil => rfl
  | cons b payload ih =>
    rw [List.map_cons, List.mapM_cons, byteOf_byteValue, ih]
    rfl

/-- **The arguments arrive as they were sent.** -/
theorem PublishArgs.fromValue_toValue (a : PublishArgs) :
    PublishArgs.fromValue a.toValue = some a := by
  obtain ⟨topic, routingKey, payload⟩ := a
  have hp := readPayload_map payload
  cases routingKey <;>
    simp [fromValue, toValue, Json.lookup_cons_ite, hp, Json.asStr, readRoutingKey]

/-! ## The shim and the client -/

section Wire

variable {E : Type} (errors : ClusterErrors E)

/-- `__mcpg_cluster_publish`. `malformed` is serde's reason for refusing the arguments. -/
def clusterPublish (malformed : Json → String) (b : SyncClusterBackend E) (args : Json) : Slot :=
  match PublishArgs.fromValue args with
  | none => respondResult errors unitValue
      (.error (errors.invalidReference ("malformed publish args: " ++ malformed args)))
  | some a =>
    catchPanic (respondResult errors unitValue) (b.publish a.topic a.routingKey a.payload)

/-- `__mcpg_cluster_lease_release`. -/
def clusterLeaseRelease (b : SyncClusterBackend E) (leaseHandle : ℕ) : Slot :=
  catchPanic (respondResult errors unitValue) (b.leaseRelease leaseHandle)

/-- An error a coordinator sent, or one the client makes up. -/
def decodeError (payload : Json) (op : String) : E :=
  (errors.fromValue payload).getD
    (errors.internal ("undecodable " ++ op ++ " error from coordinator"))

/-- How the client reads the answer to `publish` and `release`. -/
def readAnswer (op : String) : Slot → Except E Unit
  | none => .ok ()
  | some payload => .error (decodeError errors payload op)

/-- `ClusterClient::publish` through the shim of a backend. -/
def ClusterClient.publish (malformed : Json → String) (b : SyncClusterBackend E) (topic : String)
    (routingKey : Option String) (payload : List UInt8) : Except E Unit :=
  readAnswer errors "publish"
    (clusterPublish errors malformed b (PublishArgs.toValue ⟨topic, routingKey, payload⟩))

/-- A lease the client holds. -/
structure ClusterLease where
  leaseHandle : ℕ
  released : Bool
  deriving DecidableEq, Repr

/-- `ClusterLease::release` through the shim of a backend: a second release does nothing. -/
def ClusterLease.release (b : SyncClusterBackend E) (lease : ClusterLease) :
    ClusterLease × Except E Unit :=
  if lease.released then (lease, .ok ())
  else
    ({ lease with released := true },
      readAnswer errors "release" (clusterLeaseRelease errors b lease.leaseHandle))

end Wire

/-- A result survives: the caller gets what the backend returned, and an error for a panic. -/
def Survives {E α : Type} (outcome : Outcome E α) (result : Except E α) : Prop :=
  match outcome with
  | .returned r => result = r
  | .panicked => ∃ e, result = .error e

section Survival

variable {E : Type} {errors : ClusterErrors E}

/-- What the client makes of an outcome: every answer but a panic's is an error it makes up. -/
theorem readAnswer_catchPanic (h : errors.Lawful) (op : String) (outcome : Outcome E Unit) :
    Survives outcome
        (readAnswer errors op (catchPanic (respondResult errors unitValue) outcome)) ↔
      outcome = .returned (.error
        (errors.internal ("undecodable " ++ op ++ " error from coordinator"))) := by
  cases outcome with
  | panicked =>
    refine iff_of_false ?_ nofun
    rintro ⟨e, he⟩
    cases he
  | returned r =>
    cases r with
    | ok u => exact iff_of_false nofun nofun
    | error e =>
      simp only [catchPanic, respondResult, readAnswer, decodeError, h.refuses_envelope,
        Option.getD_none, Survives, Outcome.returned.injEq, Except.error.injEq]
      exact eq_comm

/-- **When a result survives.** `publish` and `release` give their caller what the backend returned
if and only if that was the very error the client makes up for an answer it cannot read. -/
theorem results_survive_iff (h : errors.Lawful) (malformed : Json → String)
    (b : SyncClusterBackend E) :
    (∀ topic routingKey payload,
      Survives (b.publish topic routingKey payload)
          (ClusterClient.publish errors malformed b topic routingKey payload) ↔
        b.publish topic routingKey payload =
          .returned (.error (errors.internal "undecodable publish error from coordinator"))) ∧
      ∀ lease : ClusterLease, lease.released = false →
        (Survives (b.leaseRelease lease.leaseHandle) (lease.release errors b).2 ↔
          b.leaseRelease lease.leaseHandle =
            .returned (.error (errors.internal "undecodable release error from coordinator"))) := by
  refine ⟨fun topic routingKey payload => ?_, fun lease hl => ?_⟩
  · rw [ClusterClient.publish, clusterPublish, PublishArgs.fromValue_toValue]
    exact readAnswer_catchPanic h "publish" _
  · rw [ClusterLease.release, if_neg (by simp [hl])]
    exact readAnswer_catchPanic h "release" _

end Survival

/-- Some of the cluster errors, for evaluating on concrete inputs. -/
inductive PlainError
  | internal (reason : String)
  | invalidReference (message : String)
  | timeout
  deriving DecidableEq, Repr

/-- Their JSON, tagged with the variant. -/
def plainErrors : ClusterErrors PlainError where
  internal := .internal
  invalidReference := .invalidReference
  toValue
    | .internal reason => .obj [("error", .str "internal"), ("reason", .str reason)]
    | .invalidReference message =>
      .obj [("error", .str "invalid_reference"), ("message", .str message)]
    | .timeout => .obj [("error", .str "timeout")]
  fromValue
    | .obj fields =>
      match (fields.lookup "error").bind Json.asStr with
      | some "internal" => ((fields.lookup "reason").bind Json.asStr).map .internal
      | some "invalid_reference" =>
        ((fields.lookup "message").bind Json.asStr).map .invalidReference
      | some "timeout" => some .timeout
      | _ => none
    | _ => none

theorem plainErrors_lawful : plainErrors.Lawful := by
  constructor <;> intro e <;> cases e <;> rfl

/-- A backend that answers every call the same way. -/
def answering (outcome : Outcome PlainError Unit) : SyncClusterBackend PlainError where
  publish _ _ _ := outcome
  leaseRelease _ := outcome

/-- The one error that survives a publication. -/
theorem results_survive_iff_madeUp :
    Survives (.returned (.error (.internal "undecodable publish error from coordinator")))
      (ClusterClient.publish plainErrors (fun _ => "") (answering (.returned (.error
        (.internal "undecodable publish error from coordinator")))) "topic" none [1]) :=
  ((results_survive_iff plainErrors_lawful (fun _ => "") (answering (.returned (.error
    (.internal "undecodable publish error from coordinator"))))).1 "topic" none [1]).mpr rfl

/-- **A publication that was accepted is reported as failed.** -/
theorem accepted_publish_fails :
    ¬ ∀ (E : Type) (errors : ClusterErrors E), errors.Lawful →
      ∀ (malformed : Json → String) (b : SyncClusterBackend E),
        (∀ topic routingKey payload, Survives (b.publish topic routingKey payload)
          (ClusterClient.publish errors malformed b topic routingKey payload)) ∧
        ∀ lease : ClusterLease, lease.released = false →
          Survives (b.leaseRelease lease.leaseHandle) (lease.release errors b).2 := by
  intro H
  have h := (H PlainError plainErrors plainErrors_lawful (fun _ => "")
    (answering (.returned (.ok ())))).1 "topic" none [1]
  cases h

end Cluster

end McpgSdk
