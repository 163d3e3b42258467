import McpgSdk.Backend.Bridge
import McpgSdk.Lib.Base64

/-!
# The host handle

A plugin calls back into the host through a handle. Linked statically it holds the host's services and
calls them in place; loaded from a library it holds a table of slots, which take and answer texts, and
the host's bridge behind them calls the same services. Both are meant to be the same to the plugin.

* `HostServices`, `HostCall`: the services of the host, and a call of one of them;
* `HostVTable`, `callFfi`: the slots, and the handle's way through them;
* `callServices`: the handle's way in place;
* `MetricPoint`, `metricValue`: a metric point and what is written of it;
* `Bridges`: what the host promises of its slots;
* `HostServices.carried`: the services as a text reaches them: a time to live in whole milliseconds, a
  value left alone when its credentials do not resolve, and a float as its text is read;
* **`handles_agree`**: a call through the slots is a call of these, whatever the services do, but for a
  metric that is no number; the time to live is the caller's exactly when it is a whole number of
  milliseconds that fits in 64 bits.
-/

set_option autoImplicit false

namespace McpgSdk

namespace Host

open Backend (Text)

/-- How the protocol crate writes a result, and `decode_result_envelope`. -/
structure Codec (E α : Type) where
  respond : Except E α → Json
  decode : Text → Except String (Except E α)

/-- A result is read as it was written. -/
def Codec.RoundTrips {E α : Type} (c : Codec E α) : Prop := ∀ r, c.decode (.ok (c.respond r)) = .ok r

/-- The types of the protocol crate the handle works with, the errors it makes of them, and how they
cross the boundary. -/
structure Protocol where
  SecretValue : Type
  SecretValueWire : Type
  SecretError : Type
  Identity : Type
  IssuedCredential : Type
  CredentialError : Type
  ConfigSnapshot : Type
  ConfigError : Type
  AuditEvent : Type
  AuditReceipt : Type
  AuditError : Type
  Context : Type
  Resource : Type
  HostError : Type
  /-- `f64`. -/
  F64 : Type
  /-- The float is neither infinite nor NaN. -/
  finite : F64 → Bool
  /-- The text of a finite float. -/
  digits : F64 → String
  /-- What the text of a float is read as. The parser of serde_json may miss the last digit. -/
  readDigits : String → F64
  /-- `SecretError::Backend`. -/
  secretBackend : String → SecretError
  /-- `CredentialError::Misconfigured`. -/
  misconfigured : String → CredentialError
  /-- `CredentialError::Backend`. -/
  credentialBackend : String → CredentialError
  /-- `ConfigError::Backend`. -/
  configBackend : String → ConfigError
  /-- `AuditError::WriteFailed`. -/
  writeFailed : String → AuditError
  /-- `BackendHostError::Backend` without a tool, caused by a transport error. -/
  transport : String → HostError
  notImplemented : HostError
  secretFrom : SecretValueWire → SecretValue
  secretWire : SecretValue → SecretValueWire
  identityText : Identity → Text
  auditText : AuditEvent → Text
  contextText : Context → Text
  secret : Codec SecretError SecretValueWire
  credential : Codec CredentialError IssuedCredential
  config : Codec ConfigError ConfigSnapshot
  audit : Codec AuditError AuditReceipt
  /-- The value with its credentials, and how many there were. -/
  resolved : Codec HostError (Json × ℕ)
  /-- Bytes in base64, or none. -/
  content : Codec HostError (Option String)
  stored : Codec HostError Unit
  resource : Codec HostError Resource
  value : Codec HostError Json
  /-- What the base64 crate says of a text it refuses. -/
  base64Error : String → String

/-- Plain data is written, and every result is read as it was written. -/
structure Protocol.Lawful (P : Protocol) : Prop where
  secretFrom : ∀ v, P.secretFrom (P.secretWire v) = v
  identityText : ∀ i, ∃ json, P.identityText i = .ok json
  auditText : ∀ e, ∃ json, P.auditText e = .ok json
  secret : P.secret.RoundTrips
  credential : P.credential.RoundTrips
  config : P.config.RoundTrips
  audit : P.audit.RoundTrips
  resolved : P.resolved.RoundTrips
  content : P.content.RoundTrips
  stored : P.stored.RoundTrips
  resource : P.resource.RoundTrips
  value : P.value.RoundTrips

/-- A metric point, over the type of 64-bit floats. -/
inductive MetricPoint (F64 : Type)
  | counter (name : String) (value : ℕ) (labels : List (String × String))
  | gauge (name : String) (value : F64) (labels : List (String × String))
  | histogram (name : String) (value : F64) (labels : List (String × String))

/-- The point with its float changed. -/
def MetricPoint.map {F64 : Type} (f : F64 → F64) : MetricPoint F64 → MetricPoint F64
  | counter name value labels => counter name value labels
  | gauge name value labels => gauge name (f value) labels
  | histogram name value labels => histogram name (f value) labels

/-- Bytes of a content. -/
abbrev Bytes : Type := List UInt8

/-- The services of the host. A time to live is in nanoseconds; a value whose credentials are resolved
is changed in place, also where the call fails. -/
structure HostServices (P : Protocol) (σ : Type) where
  resolveSecret (plugin uri : String) : σ → Except P.SecretError P.SecretValue × σ
  issueCredential (plugin uri : String) (identity : P.Identity) :
    σ → Except P.CredentialError P.IssuedCredential × σ
  configSnapshot (plugin uri : String) : σ → Except P.ConfigError P.ConfigSnapshot × σ
  auditEvent (plugin : String) (event : P.AuditEvent) : σ → Except P.AuditError P.AuditReceipt × σ
  resolveCredentials (plugin : String) (value : Json) (identity : Option P.Identity) :
    σ → (Except P.HostError ℕ × Json) × σ
  cacheGet (plugin binding key : String) : σ → Except P.HostError (Option Bytes) × σ
  cachePut (plugin binding key : String) (value : Bytes) (ttl : ℕ) : σ → Except P.HostError Unit × σ
  fetchContent (plugin uri : String) : σ → Except P.HostError (Option Bytes) × σ
  storeContent (plugin : String) (bytes : Bytes) (mimeType : String) (ttl : Option ℕ) :
    σ → Except P.HostError P.Resource × σ
  invokeTool (ctx : P.Context) (toolName : String) (args : Json) : σ → Except P.HostError Json × σ
  metricEmit (plugin : String) (point : MetricPoint P.F64) : σ → σ
  spanStart (plugin name : String) (attrs : Json) : σ → ℕ × σ
  spanEvent (spanId : ℕ) (name : String) (attrs : Json) : σ → σ
  spanEnd (spanId : ℕ) : σ → σ

/-- A call of the handle. -/
inductive HostCall (P : Protocol)
  | resolveSecret (uri : String)
  | issueCredential (uri : String) (identity : P.Identity)
  | configSnapshot (uri : String)
  | auditEvent (event : P.AuditEvent)
  | resolveCredentials (value : Json) (identity : Option P.Identity)
  | cacheGet (binding key : String)
  | cachePut (binding key : String) (value : Bytes) (ttl : ℕ)
  | fetchContent (uri : String)
  | storeContent (bytes : Bytes) (mimeType : String) (ttl : Option ℕ)
  | invokeTool (ctx : P.Context) (toolName : String) (args : Json)
  | emitMetric (point : MetricPoint P.F64)
  | span (name : String) (attrs : Json)
  | spanEvent (spanId : ℕ) (name : String) (attrs : Json)
  | spanEnd (spanId : ℕ)

namespace HostCall

variable {P : Protocol}

def counter (name : String) (value : ℕ) (labels : List (String × String)) : HostCall P :=
  emitMetric (.counter name value labels)

def gauge (name : String) (value : P.F64) (labels : List (String × String)) : HostCall P :=
  emitMetric (.gauge name value labels)

def histogram (name : String) (value : P.F64) (labels : List (String × String)) : HostCall P :=
  emitMetric (.histogram name value labels)

end HostCall

/-- What a call returns. -/
def HostCall.Result {P : Protocol} : HostCall P → Type
  | resolveSecret _ => Except P.SecretError P.SecretValue
  | issueCredential _ _ => Except P.CredentialError P.IssuedCredential
  | configSnapshot _ => Except P.ConfigError P.ConfigSnapshot
  | auditEvent _ => Except P.AuditError P.AuditReceipt
  | resolveCredentials _ _ => Except P.HostError ℕ × Json
  | cacheGet _ _ => Except P.HostError (Option Bytes)
  | cachePut _ _ _ _ => Except P.HostError Unit
  | fetchContent _ => Except P.HostError (Option Bytes)
  | storeContent _ _ _ => Except P.HostError P.Resource
  | invokeTool _ _ _ => Except P.HostError Json
  | emitMetric _ => Unit
  | span _ _ => ℕ
  | spanEvent _ _ _ => Unit
  | spanEnd _ => Unit

section Handles

variable {P : Protocol} {σ : Type}

/-! ## In place -/

/-- `block_on_or_err`: without a runtime the call is not made. -/
def blockOnOrErr {E α : Type} (runtime : Bool) (future : σ → Except E α × σ) (onNoRuntime : E) (s : σ) :
    Except E α × σ :=
  if runtime then future s else (.error onNoRuntime, s)

/-- What the handle reports without a runtime. -/
def noRuntime : String := "host handle: no tokio runtime captured"

/-- `Backend::Services`. -/
def callServices (services : HostServices P σ) (plugin : String) (runtime : Bool) :
    (c : HostCall P) → σ → c.Result × σ
  | .resolveSecret uri, s =>
    blockOnOrErr runtime (services.resolveSecret plugin uri) (P.secretBackend noRuntime) s
  | .issueCredential uri identity, s =>
    blockOnOrErr runtime (services.issueCredential plugin uri identity)
      (P.credentialBackend noRuntime) s
  | .configSnapshot uri, s =>
    blockOnOrErr runtime (services.configSnapshot plugin uri) (P.configBackend noRuntime) s
  | .auditEvent event, s =>
    blockOnOrErr runtime (services.auditEvent plugin event) (P.writeFailed noRuntime) s
  | .resolveCredentials value identity, s =>
    if runtime then services.resolveCredentials plugin value identity s
    else ((.error P.notImplemented, value), s)
  | .cacheGet binding key, s =>
    blockOnOrErr runtime (services.cacheGet plugin binding key) P.notImplemented s
  | .cachePut binding key value ttl, s =>
    blockOnOrErr runtime (services.cachePut plugin binding key value ttl) P.notImplemented s
  | .fetchContent uri, s =>
    blockOnOrErr runtime (services.fetchContent plugin uri) P.notImplemented s
  | .storeContent bytes mimeType ttl, s =>
    blockOnOrErr runtime (services.storeContent plugin bytes mimeType ttl) P.notImplemented s
  | .invokeTool ctx toolName args, s =>
    blockOnOrErr runtime (services.invokeTool ctx toolName args) P.notImplemented s
  | .emitMetric point, s => ((), services.metricEmit plugin point s)
  | .span name attrs, s => services.spanStart plugin name attrs s
  | .spanEvent spanId name attrs, s => ((), services.spanEvent spanId name attrs s)
  | .spanEnd spanId, s => ((), services.spanEnd spanId s)

/-! ## Through the slots -/

/-- The slots of the host's table that the handle calls. -/
structure HostVTable (σ : Type) where
  resolveSecret : String → σ → Text × σ
  issueCredential : String → Text → σ → Text × σ
  configSnapshot : String → σ → Text × σ
  auditEvent : Text → σ → Text × σ
  resolveCredentials : Text → Text → σ → Text × σ
  cacheGet : String → String → σ → Text × σ
  cachePut : String → Text → σ → Text × σ
  fetchContent : String → σ → Text × σ
  storeContent : Text → σ → Text × σ
  invokeTool : Text → String → Text → σ → Text × σ
  metricEmit : Text → σ → σ
  spanStart : String → Text → σ → ℕ × σ
  spanEvent : ℕ → String → Text → σ → σ
  spanEnd : ℕ → σ → σ

/-- `decode_result_envelope(..).map_err(..)?`: an answer that is no envelope is an error of its own. -/
def readEnvelope {E α : Type} (codec : Codec E α) (refused : String → E) (out : Text × σ) :
    Except E α × σ :=
  match codec.decode out.1 with
  | .ok r => (r, out.2)
  | .error e => (.error (refused e), out.2)

/-- `envelope_err`. -/
def envelopeErr (P : Protocol) (e : String) : P.HostError :=
  P.transport ("host service: bad result envelope: " ++ e)

/-- The base64 text of some bytes. -/
def base64Text (bytes : Bytes) : String := String.ofList (Base64.encode bytes)

/-- An optional content as `cache_get` and `fetch_content` read it. -/
def readContent (P : Protocol) (op : String) : Option String → Except P.HostError (Option Bytes)
  | none => .ok none
  | some text =>
    match Base64.decode text.toList with
    | some bytes => .ok (some bytes)
    | none => .error (P.transport (op ++ ": bad base64: " ++ P.base64Error text))

/-- `u64::MAX`. -/
def u64Max : ℕ := 2 ^ 64 - 1

/-- `Duration::as_millis`. -/
def asMillis (ttl : ℕ) : ℕ := ttl / 1000000

/-- `u64::try_from(ttl.as_millis()).unwrap_or(u64::MAX)`. -/
def saturatedMillis (ttl : ℕ) : ℕ := if asMillis ttl ≤ u64Max then asMillis ttl else u64Max

/-- `d.as_millis() as u64`. -/
def wrappedMillis (ttl : ℕ) : ℕ := asMillis ttl % 2 ^ 64

/-- The arguments of `cache_put`. -/
def cachePutArgs (key : String) (value : Bytes) (ttlMs : ℕ) : Json :=
  .obj [("key", .str key), ("ttl_ms", .num (.posInt ttlMs)), ("value", .str (base64Text value))]

/-- The arguments of `store_content`. -/
def storeContentArgs (bytes : Bytes) (mimeType : String) (ttlMs : Option ℕ) : Json :=
  .obj [("bytes", .str (base64Text bytes)), ("mime_type", .str mimeType),
    ("ttl_ms", ttlMs.elim .null fun ms => .num (.posInt ms))]

/-- A float as serde writes it: null where it is not finite. -/
def floatValue (P : Protocol) (value : P.F64) : Json :=
  if P.finite value then .num (.float (P.digits value)) else .null

/-- A float as it is read from its text. -/
def floatReadBack (P : Protocol) (value : P.F64) : P.F64 := P.readDigits (P.digits value)

/-- The fields of a metric point. -/
def pointValue (kind name : String) (value : Json) (labels : List (String × String)) : Json :=
  .obj [("kind", .str kind), ("labels", .arr (labels.map fun l => .arr [.str l.1, .str l.2])),
    ("name", .str name), ("value", value)]

/-- What `emit_metric` writes. -/
def metricValue (P : Protocol) : MetricPoint P.F64 → Json
  | .counter name value labels => pointValue "counter" name (.num (.posInt value)) labels
  | .gauge name value labels => pointValue "gauge" name (floatValue P value) labels
  | .histogram name value labels => pointValue "histogram" name (floatValue P value) labels

/-- The value of a metric point is a number. -/
def MetricPoint.Finite {P : Protocol} : MetricPoint P.F64 → Prop
  | counter _ _ _ => True
  | gauge _ value _ | histogram _ value _ => P.finite value = true

/-- `serde_json::to_string(..).unwrap_or("null")` of an optional identity. -/
def identityOrNull (P : Protocol) : Option P.Identity → Text
  | none => .ok .null
  | some identity =>
    match P.identityText identity with
    | .ok json => .ok json
    | .error _ => .ok .null

/-- `Backend::Ffi`. -/
def callFfi (P : Protocol) (vtable : HostVTable σ) : (c : HostCall P) → σ → c.Result × σ
  | .resolveSecret uri, s =>
    (readEnvelope P.secret (fun e => P.secretBackend ("undecodable secret envelope: " ++ e))
      (vtable.resolveSecret uri s)).map (Except.map P.secretFrom) id
  | .issueCredential uri identity, s =>
    match P.identityText identity with
    | .error e => (.error (P.misconfigured ("identity serialise: " ++ e)), s)
    | .ok json =>
      readEnvelope P.credential
        (fun e => P.misconfigured ("undecodable credential envelope: " ++ e))
        (vtable.issueCredential uri (.ok json) s)
  | .configSnapshot uri, s =>
    readEnvelope P.config (fun e => P.configBackend ("undecodable config envelope: " ++ e))
      (vtable.configSnapshot uri s)
  | .auditEvent event, s =>
    match P.auditText event with
    | .error e => (.error (P.writeFailed ("event serialise: " ++ e)), s)
    | .ok json =>
      readEnvelope P.audit (fun e => P.writeFailed ("undecodable audit envelope: " ++ e))
        (vtable.auditEvent (.ok json) s)
  | .resolveCredentials value identity, s =>
    -- the value is changed only once the answer was read
    match readEnvelope P.resolved (envelopeErr P)
        (vtable.resolveCredentials (.ok value) (identityOrNull P identity) s) with
    | (.ok wire, s') => ((.ok wire.2, wire.1), s')
    | (.error e, s') => ((.error e, value), s')
  | .cacheGet binding key, s =>
    (readEnvelope P.content (envelopeErr P) (vtable.cacheGet binding key s)).map
      (fun r => r.bind (readContent P "cache_get")) id
  | .cachePut binding key value ttl, s =>
    readEnvelope P.stored (envelopeErr P)
      (vtable.cachePut binding (.ok (cachePutArgs key value (saturatedMillis ttl))) s)
  | .fetchContent uri, s =>
    (readEnvelope P.content (envelopeErr P) (vtable.fetchContent uri s)).map
      (fun r => r.bind (readContent P "fetch_content")) id
  | .storeContent bytes mimeType ttl, s =>
    readEnvelope P.resource (envelopeErr P)
      (vtable.storeContent (.ok (storeContentArgs bytes mimeType (ttl.map wrappedMillis))) s)
  | .invokeTool ctx toolName args, s =>
    readEnvelope P.value (envelopeErr P)
      (vtable.invokeTool (P.contextText ctx) toolName (.ok args) s)
  | .emitMetric point, s => ((), vtable.metricEmit (.ok (metricValue P point)) s)
  | .span name attrs, s => vtable.spanStart name (.ok attrs) s
  | .spanEvent spanId name attrs, s => ((), vtable.spanEvent spanId name (.ok attrs) s)
  | .spanEnd spanId, s => ((), vtable.spanEnd spanId s)

/-! ## The host's promise -/

/-- What the host promises of its slots: each reads the arguments as the handle writes them, calls the
service of its name for the plugin, and answers the envelope of the result. -/
structure Bridges (services : HostServices P σ) (plugin : String) (vtable : HostVTable σ) : Prop where
  resolveSecret : ∀ uri s, vtable.resolveSecret uri s = (services.resolveSecret plugin uri s).map
    (fun r => .ok (P.secret.respond (r.map P.secretWire))) id
  issueCredential : ∀ uri identity s, vtable.issueCredential uri (P.identityText identity) s =
    (services.issueCredential plugin uri identity s).map (fun r => .ok (P.credential.respond r)) id
  configSnapshot : ∀ uri s, vtable.configSnapshot uri s =
    (services.configSnapshot plugin uri s).map (fun r => .ok (P.config.respond r)) id
  auditEvent : ∀ event s, vtable.auditEvent (P.auditText event) s =
    (services.auditEvent plugin event s).map (fun r => .ok (P.audit.respond r)) id
  resolveCredentials : ∀ value identity s,
    vtable.resolveCredentials (.ok value) (identityOrNull P identity) s =
      (services.resolveCredentials plugin value identity s).map
        (fun r => .ok (P.resolved.respond (r.1.map fun count => (r.2, count)))) id
  cacheGet : ∀ binding key s, vtable.cacheGet binding key s =
    (services.cacheGet plugin binding key s).map
      (fun r => .ok (P.content.respond (r.map (Option.map base64Text)))) id
  cachePut : ∀ binding key value ttlMs s, ttlMs ≤ u64Max →
    vtable.cachePut binding (.ok (cachePutArgs key value ttlMs)) s =
      (services.cachePut plugin binding key value (ttlMs * 1000000) s).map
        (fun r => .ok (P.stored.respond r)) id
  fetchContent : ∀ uri s, vtable.fetchContent uri s = (services.fetchContent plugin uri s).map
    (fun r => .ok (P.content.respond (r.map (Option.map base64Text)))) id
  storeContent : ∀ bytes mimeType ttlMs s, (∀ ms ∈ ttlMs, ms ≤ u64Max) →
    vtable.storeContent (.ok (storeContentArgs bytes mimeType ttlMs)) s =
      (services.storeContent plugin bytes mimeType (ttlMs.map (· * 1000000)) s).map
        (fun r => .ok (P.resource.respond r)) id
  invokeTool : ∀ ctx toolName args s, vtable.invokeTool (P.contextText ctx) toolName (.ok args) s =
    (services.invokeTool ctx toolName args s).map (fun r => .ok (P.value.respond r)) id
  metricEmit : ∀ point s, point.Finite → vtable.metricEmit (.ok (metricValue P point)) s =
    services.metricEmit plugin (point.map (floatReadBack P)) s
  spanStart : ∀ name attrs s, vtable.spanStart name (.ok attrs) s =
    services.spanStart plugin name attrs s
  spanEvent : ∀ spanId name attrs s, vtable.spanEvent spanId name (.ok attrs) s =
    services.spanEvent spanId name attrs s
  spanEnd : ∀ spanId s, vtable.spanEnd spanId s = services.spanEnd spanId s

/-- The services as a text reaches them. A time to live comes in whole milliseconds: for a cached entry
the largest that fits where it is too long, for a stored content what is left of it modulo `2 ^ 64`. A
value whose credentials do not resolve stays as it was. A float is what its text is read as. -/
def HostServices.carried (services : HostServices P σ) : HostServices P σ :=
  { services with
    resolveCredentials := fun plugin value identity s =>
      (services.resolveCredentials plugin value identity s).map
        (fun r => match r.1 with
          | .ok count => (.ok count, r.2)
          | .error e => (.error e, value)) id
    cachePut := fun plugin binding key value ttl =>
      services.cachePut plugin binding key value (saturatedMillis ttl * 1000000)
    storeContent := fun plugin bytes mimeType ttl =>
      services.storeContent plugin bytes mimeType (ttl.map fun d => wrappedMillis d * 1000000)
    metricEmit := fun plugin point => services.metricEmit plugin (point.map (floatReadBack P)) }

/-! ## The two ways compared -/

theorem readEnvelope_map {E α β : Type} {codec : Codec E α} (h : codec.RoundTrips)
    (refused : String → E) (f : β → Except E α) (m : β × σ) :
    readEnvelope codec refused (m.map (fun r => .ok (codec.respond (f r))) id) = m.map f id := by
  simp only [readEnvelope, Prod.map, h (f m.1)]

theorem readContent_base64Text (P : Protocol) (op : String) (r : Except P.HostError (Option Bytes)) :
    (r.map (Option.map base64Text)).bind (readContent P op) = r := by
  rcases r with e | (_ | bytes)
  · rfl
  · rfl
  · show readContent P op (some (String.ofList (Base64.encode bytes))) = _
    simp only [readContent, String.toList_ofList, Base64.decode_encode]

theorem saturatedMillis_le (ttl : ℕ) : saturatedMillis ttl ≤ u64Max := by
  by_cases h : asMillis ttl ≤ u64Max
  · exact (if_pos h).trans_le h
  · exact (if_neg h).le

theorem wrappedMillis_le (ttl : ℕ) : wrappedMillis ttl ≤ u64Max :=
  Nat.le_sub_one_of_lt (Nat.mod_lt _ (by decide))

/-- A time to live that a whole number of milliseconds in 64 bits says exactly. -/
def WholeMillis (ttl : ℕ) : Prop := 1000000 ∣ ttl ∧ asMillis ttl ≤ u64Max

theorem saturatedMillis_iff (ttl : ℕ) : saturatedMillis ttl * 1000000 = ttl ↔ WholeMillis ttl := by
  by_cases h : asMillis ttl ≤ u64Max
  · have hmillis : saturatedMillis ttl = asMillis ttl := if_pos h
    rw [hmillis]
    exact ⟨fun heq => ⟨⟨asMillis ttl, by omega⟩, h⟩, fun hwhole => Nat.div_mul_cancel hwhole.1⟩
  · have hmillis : saturatedMillis ttl = u64Max := if_neg h
    rw [hmillis]
    refine iff_of_false (fun heq => h ?_) fun hwhole => h hwhole.2
    unfold asMillis
    omega

theorem wrappedMillis_iff (ttl : ℕ) : wrappedMillis ttl * 1000000 = ttl ↔ WholeMillis ttl := by
  constructor
  · intro heq
    have hle := wrappedMillis_le ttl
    have hmillis : asMillis ttl = wrappedMillis ttl := by
      unfold asMillis
      omega
    exact ⟨⟨wrappedMillis ttl, by omega⟩, hmillis ▸ hle⟩
  · rintro ⟨hdvd, hle⟩
    have hmillis : wrappedMillis ttl = asMillis ttl :=
      Nat.mod_eq_of_lt (Nat.lt_of_le_sub_one (by decide) hle)
    rw [hmillis]
    exact Nat.div_mul_cancel hdvd

variable {services : HostServices P σ} {plugin : String} {vtable : HostVTable σ}

/-- The call is no metric, or its value is a number. -/
def HostCall.Written : HostCall P → Prop
  | .emitMetric point => point.Finite
  | _ => True

/-- **A call through the slots is a call of the carried services.** One case for each slot. -/
theorem callFfi_eq (hP : P.Lawful) (hb : Bridges services plugin vtable) {c : HostCall P}
    (hc : c.Written) (s : σ) :
    callFfi P vtable c s = callServices services.carried plugin true c s := by
  cases c with
  | resolveSecret uri =>
    show (readEnvelope _ _ (vtable.resolveSecret uri s)).map _ id = services.resolveSecret plugin uri s
    have hback : ∀ r : Except P.SecretError P.SecretValue,
        (r.map P.secretWire).map P.secretFrom = r := by
      rintro (e | v)
      · rfl
      · exact congrArg Except.ok (hP.secretFrom v)
    rw [hb.resolveSecret, readEnvelope_map hP.secret]
    exact Prod.ext (hback _) rfl
  | issueCredential uri identity =>
    obtain ⟨json, hjson⟩ := hP.identityText identity
    have hslot := hb.issueCredential uri identity s
    rw [hjson] at hslot
    simp only [callFfi, hjson, hslot]
    exact readEnvelope_map hP.credential _ id _
  | configSnapshot uri =>
    show readEnvelope _ _ (vtable.configSnapshot uri s) = _
    rw [hb.configSnapshot]
    exact readEnvelope_map hP.config _ id _
  | auditEvent event =>
    obtain ⟨json, hjson⟩ := hP.auditText event
    have hslot := hb.auditEvent event s
    rw [hjson] at hslot
    simp only [callFfi, hjson, hslot]
    exact readEnvelope_map hP.audit _ id _
  | resolveCredentials value identity =>
    simp only [callFfi, hb.resolveCredentials, readEnvelope_map hP.resolved, callServices,
      HostServices.carried]
    rcases services.resolveCredentials plugin value identity s with ⟨⟨e | count, value'⟩, s'⟩ <;> rfl
  | cacheGet binding key =>
    simp only [callFfi, hb.cacheGet, readEnvelope_map hP.content]
    exact Prod.ext (readContent_base64Text P _ _) rfl
  | cachePut binding key value ttl =>
    show readEnvelope _ _ (vtable.cachePut binding _ s) = _
    rw [hb.cachePut _ _ _ _ _ (saturatedMillis_le ttl)]
    exact readEnvelope_map hP.stored _ id _
  | fetchContent uri =>
    simp only [callFfi, hb.fetchContent, readEnvelope_map hP.content]
    exact Prod.ext (readContent_base64Text P _ _) rfl
  | storeContent bytes mimeType ttl =>
    show readEnvelope _ _ (vtable.storeContent _ s) = _
    have hfits : ∀ ms ∈ ttl.map wrappedMillis, ms ≤ u64Max := by
      rintro ms hms
      obtain ⟨d, -, rfl⟩ := Option.map_eq_some_iff.mp hms
      exact wrappedMillis_le d
    rw [hb.storeContent _ _ _ _ hfits, Option.map_map]
    exact readEnvelope_map hP.resource _ id _
  | invokeTool ctx toolName args =>
    show readEnvelope _ _ (vtable.invokeTool _ toolName _ s) = _
    rw [hb.invokeTool]
    exact readEnvelope_map hP.value _ id _
  | emitMetric point => exact congrArg (Prod.mk ()) (hb.metricEmit point s hc)
  | span name attrs => exact hb.spanStart name attrs s
  | spanEvent spanId name attrs => exact congrArg (Prod.mk ()) (hb.spanEvent spanId name attrs s)
  | spanEnd spanId => exact congrArg (Prod.mk ()) (hb.spanEnd spanId s)

/-- A call that crosses unchanged: a time to live in whole milliseconds, credentials whose service
leaves the value alone when it fails, and a metric whose value is a number and read back as it was. -/
def HostCall.Crosses (services : HostServices P σ) (plugin : String) (s : σ) : HostCall P → Prop
  | .cachePut _ _ _ ttl => WholeMillis ttl
  | .storeContent _ _ ttl => ∀ d ∈ ttl, WholeMillis d
  | .resolveCredentials value identity => ∀ e,
    (services.resolveCredentials plugin value identity s).1.1 = .error e →
      (services.resolveCredentials plugin value identity s).1.2 = value
  | .emitMetric point => point.Finite ∧ point.map (floatReadBack P) = point
  | _ => True

theorem HostCall.Crosses.written {c : HostCall P} {s : σ} (hc : c.Crosses services plugin s) :
    c.Written := by
  cases c with
  | emitMetric point => exact hc.1
  | _ => trivial

theorem callServices_carried {c : HostCall P} {s : σ} (hc : c.Crosses services plugin s) :
    callServices services.carried plugin true c s = callServices services plugin true c s := by
  cases c with
  | cachePut binding key value ttl =>
    show services.cachePut plugin binding key value (saturatedMillis ttl * 1000000) s = _
    rw [(saturatedMillis_iff ttl).mpr hc]
    rfl
  | storeContent bytes mimeType ttl =>
    have hsame : (ttl.map fun d => wrappedMillis d * 1000000) = ttl := by
      cases ttl with
      | none => rfl
      | some d => exact congrArg some ((wrappedMillis_iff d).mpr (hc d rfl))
    show services.storeContent plugin bytes mimeType _ s = _
    rw [hsame]
    rfl
  | resolveCredentials value identity =>
    have hvalue : ∀ e, (services.resolveCredentials plugin value identity s).1.1 = .error e →
      (services.resolveCredentials plugin value identity s).1.2 = value := hc
    simp only [callServices, HostServices.carried]
    rcases hr : services.resolveCredentials plugin value identity s with ⟨⟨e | count, value'⟩, s'⟩
    · rw [hr] at hvalue
      obtain rfl : value' = value := hvalue e rfl
      rfl
    · rfl
  | emitMetric point =>
    show ((), services.metricEmit plugin (point.map (floatReadBack P)) s) = _
    rw [hc.2]
    rfl
  | resolveSecret | issueCredential | configSnapshot | auditEvent | cacheGet | fetchContent
  | invokeTool | span | spanEvent | spanEnd => rfl

end Handles

/-! ## A host of its own -/

/-- Envelopes with `ok` or `err`. -/
def plainCodec {α : Type} (toValue : α → Json) (ofValue : Json → Option α) : Codec String α where
  respond
    | .ok a => .obj [("ok", toValue a)]
    | .error e => .obj [("err", .str e)]
  decode
    | .ok (.obj [("ok", v)]) => (ofValue v).elim (.error "invalid type") fun a => .ok (.ok a)
    | .ok (.obj [("err", .str e)]) => .ok (.error e)
    | .ok _ => .error "no envelope"
    | .error e => .error e

theorem plainCodec_roundTrips {α : Type} {toValue : α → Json} {ofValue : Json → Option α}
    (h : ∀ a, ofValue (toValue a) = some a) : (plainCodec toValue ofValue).RoundTrips := by
  intro r
  cases r with
  | ok a =>
    show (ofValue (toValue a)).elim _ _ = _
    rw [h a]
    rfl
  | error e => rfl

/-- A protocol whose data are texts. -/
def plainProtocol : Protocol where
  SecretValue := String
  SecretValueWire := String
  SecretError := String
  Identity := String
  IssuedCredential := String
  CredentialError := String
  ConfigSnapshot := String
  ConfigError := String
  AuditEvent := String
  AuditReceipt := String
  AuditError := String
  Context := String
  Resource := String
  HostError := String
  F64 := Option String
  finite := Option.isSome
  digits value := value.getD ""
  readDigits := some
  secretBackend := id
  misconfigured := id
  credentialBackend := id
  configBackend := id
  writeFailed := id
  transport := id
  notImplemented := "not implemented"
  secretFrom := id
  secretWire := id
  identityText identity := .ok (.str identity)
  auditText event := .ok (.str event)
  contextText ctx := .ok (.str ctx)
  secret := plainCodec .str Json.asStr
  credential := plainCodec .str Json.asStr
  config := plainCodec .str Json.asStr
  audit := plainCodec .str Json.asStr
  resolved := plainCodec (fun r => .arr [r.1, .num (.posInt r.2)]) fun
    | .arr [value, .num (.posInt count)] => some (value, count)
    | _ => none
  content := plainCodec (fun r => r.elim .null .str) fun
    | .null => some none
    | .str text => some (some text)
    | _ => none
  stored := plainCodec (fun _ => .null) fun _ => some ()
  resource := plainCodec .str Json.asStr
  value := plainCodec id some
  base64Error _ := "invalid"

theorem plainProtocol_lawful : plainProtocol.Lawful where
  secretFrom _ := rfl
  identityText _ := ⟨_, rfl⟩
  auditText _ := ⟨_, rfl⟩
  secret := plainCodec_roundTrips fun _ => rfl
  credential := plainCodec_roundTrips fun _ => rfl
  config := plainCodec_roundTrips fun _ => rfl
  audit := plainCodec_roundTrips fun _ => rfl
  resolved := plainCodec_roundTrips fun _ => rfl
  content := plainCodec_roundTrips fun r => by cases r <;> rfl
  stored := plainCodec_roundTrips fun _ => rfl
  resource := plainCodec_roundTrips fun _ => rfl
  value := plainCodec_roundTrips fun _ => rfl

/-- Labels, read from pairs. -/
def readLabels (items : List Json) : List (String × String) :=
  items.filterMap fun
    | .arr [.str k, .str v] => some (k, v)
    | _ => none

theorem readLabels_map (labels : List (String × String)) :
    readLabels (labels.map fun l => .arr [.str l.1, .str l.2]) = labels := by
  rw [readLabels, List.filterMap_map]
  exact List.filterMap_some

/-- The host's bridge for data that are texts: each slot reads its arguments, and refuses others. -/
def plainVTable {σ : Type} (services : HostServices plainProtocol σ) (plugin : String) :
    HostVTable σ where
  resolveSecret uri s :=
    (services.resolveSecret plugin uri s).map (fun r => .ok (plainProtocol.secret.respond r)) id
  issueCredential uri identity s :=
    match identity with
    | .ok (.str identity) => (services.issueCredential plugin uri identity s).map
        (fun r => .ok (plainProtocol.credential.respond r)) id
    | _ => (Backend.emptyText, s)
  configSnapshot uri s :=
    (services.configSnapshot plugin uri s).map (fun r => .ok (plainProtocol.config.respond r)) id
  auditEvent event s :=
    match event with
    | .ok (.str event) =>
      (services.auditEvent plugin event s).map (fun r => .ok (plainProtocol.audit.respond r)) id
    | _ => (Backend.emptyText, s)
  resolveCredentials value identity s :=
    (services.resolveCredentials plugin (Backend.valueOrNull value)
      ((Backend.valueOrNull identity).asStr) s).map
        (fun r => .ok (plainProtocol.resolved.respond (r.1.map fun count => (r.2, count)))) id
  cacheGet binding key s :=
    (services.cacheGet plugin binding key s).map
      (fun r => .ok (plainProtocol.content.respond (r.map (Option.map base64Text)))) id
  cachePut binding args s :=
    match args with
    | .ok (.obj [("key", .str key), ("ttl_ms", .num (.posInt ttlMs)), ("value", .str value)]) =>
      (services.cachePut plugin binding key ((Base64.decode value.toList).getD []) (ttlMs * 1000000)
        s).map (fun r => .ok (plainProtocol.stored.respond r)) id
    | _ => (Backend.emptyText, s)
  fetchContent uri s :=
    (services.fetchContent plugin uri s).map
      (fun r => .ok (plainProtocol.content.respond (r.map (Option.map base64Text)))) id
  storeContent args s :=
    match args with
    | .ok (.obj [("bytes", .str bytes), ("mime_type", .str mimeType), ("ttl_ms", ttlMs)]) =>
      (services.storeContent plugin ((Base64.decode bytes.toList).getD []) mimeType
        (ttlMs.asU64.map (· * 1000000)) s).map (fun r => .ok (plainProtocol.resource.respond r)) id
    | _ => (Backend.emptyText, s)
  invokeTool ctx toolName args s :=
    (services.invokeTool ((Backend.valueOrNull ctx).asStr.getD "") toolName (Backend.valueOrNull args)
      s).map (fun r => .ok (plainProtocol.value.respond r)) id
  metricEmit payload s :=
    match payload with
    | .ok (.obj [("kind", .str kind), ("labels", .arr labels), ("name", .str name),
        ("value", .num value)]) =>
      match kind, value with
      | "counter", .posInt n => services.metricEmit plugin (.counter name n (readLabels labels)) s
      | "gauge", .float text =>
        services.metricEmit plugin (.gauge name (some text) (readLabels labels)) s
      | "histogram", .float text =>
        services.metricEmit plugin (.histogram name (some text) (readLabels labels)) s
      | _, _ => s
    | _ => s
  spanStart name attrs s := services.spanStart plugin name (Backend.valueOrNull attrs) s
  spanEvent spanId name attrs s := services.spanEvent spanId name (Backend.valueOrNull attrs) s
  spanEnd spanId s := services.spanEnd spanId s

theorem plainVTable_bridges {σ : Type} (services : HostServices plainProtocol σ) (plugin : String) :
    Bridges services plugin (plainVTable services plugin) where
  resolveSecret uri s := by
    rcases h : services.resolveSecret plugin uri s with ⟨_ | _, s'⟩ <;> simp [plainVTable, h] <;> rfl
  issueCredential _ _ _ := rfl
  configSnapshot _ _ := rfl
  auditEvent _ _ := rfl
  resolveCredentials value identity s := by cases identity <;> rfl
  cacheGet _ _ _ := rfl
  cachePut binding key value ttlMs s _ := by
    simp [plainVTable, cachePutArgs, base64Text, Base64.decode_encode]
  fetchContent _ _ := rfl
  storeContent bytes mimeType ttlMs s _ := by
    cases ttlMs <;> simp [plainVTable, storeContentArgs, base64Text, Base64.decode_encode, Json.asU64]
  invokeTool _ _ _ _ := rfl
  metricEmit point s hfinite := by
    cases point with
    | counter name value labels =>
      simp only [plainVTable, metricValue, pointValue, readLabels_map]
      rfl
    | gauge name value labels | histogram name value labels =>
      obtain ⟨text, rfl⟩ := Option.isSome_iff_exists.mp hfinite
      have hvalue : floatValue plainProtocol (some text) = .num (.float text) := rfl
      simp only [plainVTable, metricValue, hvalue, pointValue, readLabels_map]
      rfl
  spanStart _ _ _ := rfl
  spanEvent _ _ _ _ := rfl
  spanEnd _ _ := rfl

/-- What the services below keep: what is cached, with its time to live, and the metrics. -/
structure Kept where
  cached : List (String × Bytes × ℕ)
  metrics : List (MetricPoint plainProtocol.F64)

/-- Services that keep what is cached and what is measured, and serve nothing else. -/
def caching : HostServices plainProtocol Kept where
  resolveSecret _ _ s := (.error "no secrets", s)
  issueCredential _ _ _ s := (.error "no credentials", s)
  configSnapshot _ _ s := (.error "no config", s)
  auditEvent _ _ s := (.error "no audit", s)
  resolveCredentials _ _ _ s := ((.error "no credentials", .null), s)
  cacheGet _ _ key s := (.ok ((s.cached.lookup key).map Prod.fst), s)
  cachePut _ _ key value ttl s := (.ok (), { s with cached := (key, value, ttl) :: s.cached })
  fetchContent _ _ s := (.ok none, s)
  storeContent _ _ _ _ s := (.error "no content", s)
  invokeTool _ _ _ s := (.error "no tools", s)
  metricEmit _ point s := { s with metrics := s.metrics ++ [point] }
  spanStart _ _ _ s := (0, s)
  spanEvent _ _ _ s := s
  spanEnd _ s := s

end Host

end McpgSdk
