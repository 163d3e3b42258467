import McpgSdk.Lib.Json
import McpgSdk.Lib.OrdMap

/-!
# The two bridges to a backend

A backend is written against a synchronous trait. Linked into the host it is wrapped by an adapter
to the host's own trait; loaded from a library it is called through a table of slots the macro
generates, which take and answer texts.

* `SyncBackendPlugin`: a backend, with the trait's default bodies;
* `SyncBackendPluginAdapter`: the backend linked statically;
* `makeVtable`, `throughVTable`: the backend behind its slots, and the host's call of a slot;
* `throughVTable_eq`: a slot gives the host what the backend itself returned;
* **`bridges_agree_iff`**: both bridges give the same result, except for a transaction group or a
  capability expansion that the backend answers otherwise than the host's default body;
* `sessions_agree`: so do two sessions without these calls, from the same state;
* `transactions_not_forwarded`: a backend that counts its transactions is never asked.
-/

set_option autoImplicit false

namespace McpgSdk

namespace Backend

/-- A text over the boundary, as serde reads it: the value it is the text of, or the reason for
refusing it. -/
abbrev Text : Type := Except String Json

/-- The empty text, answered only after a panic. -/
def emptyText : Text := .error "EOF while parsing a value at line 1 column 0"

/-- How a call ends. -/
inductive Attempt (α : Type)
  | returned (result : α)
  | panicked

/-- A method of a backend with state `σ`: methods take `&self`, so they may change what is behind a
lock. -/
abbrev Method (σ α : Type) : Type := σ → Attempt α × σ

/-- A method that answers the same in every state. -/
def answer {σ α : Type} (a : α) : Method σ α := fun s => (.returned a, s)

/-- A result envelope: how the protocol crate writes a result and how the host reads it. -/
structure Envelope (E α : Type) where
  respondResult : Except E α → Json
  readResult : Text → Except E α

/-- An envelope is read back as the result it was written for. -/
def Envelope.RoundTrips {E α : Type} (envelope : Envelope E α) : Prop :=
  ∀ r, envelope.readResult (.ok (envelope.respondResult r)) = r

/-- The types of the protocol crate a backend works with, and how they cross the boundary. -/
structure Protocol where
  Error : Type
  Request : Type
  Response : Type
  ResourcePage : Type
  CapabilitySet : Type
  transport : String → Error
  emptyPage : ResourcePage
  defaultCapabilities : CapabilitySet
  requestText : Request → Text
  requestOf : Text → Except String Request
  readSchema : Option Text → Option Json
  registered : Envelope Error Unit
  response : Envelope Error Response
  txResults : Envelope Error Json
  page : Envelope Error ResourcePage
  capabilities : Envelope Error CapabilitySet
  candidates : Envelope Error (List String)

/-- Requests, schemas and envelopes are read back as they were written. -/
structure Protocol.Lawful (P : Protocol) : Prop where
  requestOf_requestText : ∀ r, P.requestOf (P.requestText r) = .ok r
  readSchema_map : ∀ schema : Option Json, P.readSchema (schema.map .ok) = schema
  registered : P.registered.RoundTrips
  response : P.response.RoundTrips
  txResults : P.txResults.RoundTrips
  page : P.page.RoundTrips
  capabilities : P.capabilities.RoundTrips
  candidates : P.candidates.RoundTrips

/-- `SyncBackendPlugin`, without its streams and audit fields. -/
structure SyncBackendPlugin (P : Protocol) (σ : Type) where
  registerProfile : String → Json → Method σ (Except P.Error Unit)
  execute : String → P.Request → Method σ (Except P.Error P.Response)
  executeTransaction : String → Json → Method σ (Except P.Error Json) := fun _ _ =>
    answer (.error (P.transport "execute_transaction is not supported by this backend"))
  inputSchema : String → Method σ (Option Json) := fun _ => answer none
  outputSchema : String → Method σ (Option Json) := fun _ => answer none
  listResources : String → Option String → Method σ (Except P.Error P.ResourcePage) := fun _ _ =>
    answer (.ok P.emptyPage)
  expandCapabilities : Method σ (Except P.Error P.CapabilitySet) :=
    answer (.ok P.defaultCapabilities)
  completeTemplateVariable : String → String → String → Json → BTreeMap String String →
    Method σ (Except P.Error (List String)) := fun _ _ _ _ _ => answer (.ok [])

/-- A call the host makes of a backend. -/
inductive Call (P : Protocol)
  | registerProfile (profileName : String) (spec : Json)
  | execute (profileName : String) (request : P.Request)
  | executeTransaction (backendName : String) (txGroup : Json)
  | inputSchema (profileName : String)
  | outputSchema (profileName : String)
  | listResources (profileName : String) (cursor : Option String)
  | expandCapabilities
  | completeTemplateVariable (profileName variableName typed : String) (config : Json)
      (context : BTreeMap String String)

/-- What a call returns. -/
def Call.Result {P : Protocol} : Call P → Type
  | registerProfile _ _ => Except P.Error Unit
  | execute _ _ => Except P.Error P.Response
  | executeTransaction _ _ => Except P.Error Json
  | inputSchema _ => Option Json
  | outputSchema _ => Option Json
  | listResources _ _ => Except P.Error P.ResourcePage
  | expandCapabilities => Except P.Error P.CapabilitySet
  | completeTemplateVariable _ _ _ _ _ => Except P.Error (List String)

section Bridges

variable {P : Protocol} {σ : Type}

/-- The backend's own method for a call. -/
def SyncBackendPlugin.own (plugin : SyncBackendPlugin P σ) : (c : Call P) → Method σ c.Result
  | .registerProfile profileName spec => plugin.registerProfile profileName spec
  | .execute profileName request => plugin.execute profileName request
  | .executeTransaction backendName txGroup => plugin.executeTransaction backendName txGroup
  | .inputSchema profileName => plugin.inputSchema profileName
  | .outputSchema profileName => plugin.outputSchema profileName
  | .listResources profileName cursor => plugin.listResources profileName cursor
  | .expandCapabilities => plugin.expandCapabilities
  | .completeTemplateVariable profileName variableName typed config context =>
    plugin.completeTemplateVariable profileName variableName typed config context

/-! ## Linked statically -/

/-- The host trait's default bodies for the two methods the adapter does not override. They do not
reach the backend. -/
structure AsyncDefaults (P : Protocol) where
  executeTransaction : String → Json → Except P.Error Json
  expandCapabilities : Except P.Error P.CapabilitySet

/-- `SyncBackendPluginAdapter`: the methods it overrides go to the backend, the others have the
host trait's default bodies. -/
def SyncBackendPluginAdapter (defaults : AsyncDefaults P) (inner : SyncBackendPlugin P σ) :
    (c : Call P) → Method σ c.Result
  | .registerProfile profileName spec => inner.registerProfile profileName spec
  | .execute profileName request => inner.execute profileName request
  | .inputSchema profileName => inner.inputSchema profileName
  | .outputSchema profileName => inner.outputSchema profileName
  | .listResources profileName cursor => inner.listResources profileName cursor
  | .completeTemplateVariable profileName variableName typed config context =>
    inner.completeTemplateVariable profileName variableName typed config context
  | .executeTransaction backendName txGroup =>
    answer (defaults.executeTransaction backendName txGroup)
  | .expandCapabilities => answer defaults.expandCapabilities

/-! ## Loaded from a library -/

/-- The slots of a backend's table. -/
structure BackendVTable (σ : Type) where
  registerProfile : String → Text → σ → Text × σ
  execute : String → Text → σ → Text × σ
  executeTransaction : String → Text → σ → Text × σ
  inputSchemaJson : String → σ → Option Text × σ
  outputSchemaJson : String → σ → Option Text × σ
  listResources : String → Option String → σ → Text × σ
  expandCapabilities : σ → Text × σ
  completeTemplateVariable : Text → σ → Text × σ

/-- `catch_panic_to_empty_rstring` around a method whose result is put in an envelope. -/
def respond {E α : Type} (envelope : Envelope E α) (m : Method σ (Except E α)) (s : σ) : Text × σ :=
  match m s with
  | (.returned r, s') => (.ok (envelope.respondResult r), s')
  | (.panicked, s') => (emptyText, s')

/-- How a slot answers with a schema: none after a panic. -/
def respondSchema (m : Method σ (Option Json)) (s : σ) : Option Text × σ :=
  match m s with
  | (.returned schema, s') => (schema.map .ok, s')
  | (.panicked, s') => (none, s')

/-- `serde_json::from_str(..).unwrap_or(Value::Null)`. -/
def valueOrNull (text : Text) : Json := text.toOption.getD .null

/-- A string field of the completion arguments; empty when it is missing or no string. -/
def strField (args : Json) (name : String) : String := ((args.get? name).bind Json.asStr).getD ""

/-- The completion context: the fields of an object that are strings. -/
def contextField (args : Json) : BTreeMap String String :=
  match args.get? "context" with
  | some (.obj fields) => .ofList (fields.filterMap fun f => f.2.asStr.map fun v => (f.1, v)) compare
  | _ => .ofList [] compare

/-- `__mcpg_binding_execute`: a request that is not read is answered with an error. -/
def bindingExecute (plugin : SyncBackendPlugin P σ) (backendName : String) (requestJson : Text)
    (s : σ) : Text × σ :=
  match P.requestOf requestJson with
  | .ok request => respond P.response (plugin.execute backendName request) s
  | .error e =>
    (.ok (P.response.respondResult (.error (P.transport ("invalid request JSON: " ++ e)))), s)

/-- `__mcpg_binding_complete_template_variable`. -/
def bindingCompleteTemplateVariable (plugin : SyncBackendPlugin P σ) (argsJson : Text) (s : σ) :
    Text × σ :=
  let args := valueOrNull argsJson
  respond P.candidates (plugin.completeTemplateVariable (strField args "profile_name")
    (strField args "variable_name") (strField args "prefix") ((args.get? "config").getD .null)
    (contextField args)) s

/-- `make_vtable`: the slots the macro generates for a backend. -/
def makeVtable (plugin : SyncBackendPlugin P σ) : BackendVTable σ where
  registerProfile backendName specJson :=
    respond P.registered (plugin.registerProfile backendName (valueOrNull specJson))
  execute := bindingExecute plugin
  executeTransaction backendName txGroupJson :=
    respond P.txResults (plugin.executeTransaction backendName (valueOrNull txGroupJson))
  inputSchemaJson backendName := respondSchema (plugin.inputSchema backendName)
  outputSchemaJson backendName := respondSchema (plugin.outputSchema backendName)
  listResources backendName cursor := respond P.page (plugin.listResources backendName cursor)
  expandCapabilities := respond P.capabilities plugin.expandCapabilities
  completeTemplateVariable := bindingCompleteTemplateVariable plugin

/-- The completion arguments as the host writes them, in key order. -/
def completeArgs (profileName variableName typed : String) (config : Json)
    (context : BTreeMap String String) : Json :=
  .obj [("config", config), ("context", .obj (context.toList.map fun e => (e.1, .str e.2))),
    ("prefix", .str typed), ("profile_name", .str profileName),
    ("variable_name", .str variableName)]

/-- The host's call of a slot: the arguments as texts, and the answer read back. -/
def BackendVTable.call (t : BackendVTable σ) : (c : Call P) → σ → c.Result × σ
  | .registerProfile profileName spec, s =>
    (t.registerProfile profileName (.ok spec) s).map P.registered.readResult id
  | .execute profileName request, s =>
    (t.execute profileName (P.requestText request) s).map P.response.readResult id
  | .executeTransaction backendName txGroup, s =>
    (t.executeTransaction backendName (.ok txGroup) s).map P.txResults.readResult id
  | .inputSchema profileName, s => (t.inputSchemaJson profileName s).map P.readSchema id
  | .outputSchema profileName, s => (t.outputSchemaJson profileName s).map P.readSchema id
  | .listResources profileName cursor, s =>
    (t.listResources profileName cursor s).map P.page.readResult id
  | .expandCapabilities, s => (t.expandCapabilities s).map P.capabilities.readResult id
  | .completeTemplateVariable profileName variableName typed config context, s =>
    (t.completeTemplateVariable
      (.ok (completeArgs profileName variableName typed config context)) s).map
        P.candidates.readResult id

/-- A call of a loaded backend. -/
def throughVTable (plugin : SyncBackendPlugin P σ) (c : Call P) (s : σ) : c.Result × σ :=
  (makeVtable plugin).call c s

end Bridges

/-! ## What a slot gives the host -/

section Slots

variable {P : Protocol} {σ : Type} {plugin : SyncBackendPlugin P σ}

theorem map_respond {E α : Type} {envelope : Envelope E α} (h : envelope.RoundTrips)
    {m : Method σ (Except E α)} {s : σ} {r : Except E α} (hm : (m s).1 = .returned r) :
    (respond envelope m s).map envelope.readResult id = (r, (m s).2) := by
  have hs : m s = (.returned r, (m s).2) := Prod.ext hm rfl
  unfold respond
  rw [hs]
  exact Prod.ext (h r) rfl

theorem map_respondSchema (h : P.Lawful) {m : Method σ (Option Json)} {s : σ} {r : Option Json}
    (hm : (m s).1 = .returned r) :
    (respondSchema m s).map P.readSchema id = (r, (m s).2) := by
  have hs : m s = (.returned r, (m s).2) := Prod.ext hm rfl
  unfold respondSchema
  rw [hs]
  exact Prod.ext (h.readSchema_map r) rfl

theorem contextField_completeArgs (profileName variableName typed : String) (config : Json)
    (context : BTreeMap String String) :
    contextField (completeArgs profileName variableName typed config context) = context := by
  have hentries : (context.toList.map fun e => (e.1, Json.str e.2)).filterMap
      (fun f => f.2.asStr.map fun v => (f.1, v)) = context.toList := by
    rw [List.filterMap_map]
    exact List.filterMap_some
  show Std.ExtTreeMap.ofList _ compare = context
  rw [hentries, OrdMap.ofList_toList]

theorem binding_completeArgs (profileName variableName typed : String) (config : Json)
    (context : BTreeMap String String) (s : σ) :
    bindingCompleteTemplateVariable plugin
        (.ok (completeArgs profileName variableName typed config context)) s =
      respond P.candidates
        (plugin.completeTemplateVariable profileName variableName typed config context) s := by
  have hcontext := contextField_completeArgs profileName variableName typed config context
  show respond P.candidates (plugin.completeTemplateVariable profileName variableName typed config
    (contextField (completeArgs profileName variableName typed config context))) s = _
  rw [hcontext]

/-- **A slot gives the host what the backend itself returned.** -/
theorem throughVTable_eq (h : P.Lawful) {c : Call P} {s : σ} {r : c.Result}
    (hc : (plugin.own c s).1 = .returned r) :
    throughVTable plugin c s = (r, (plugin.own c s).2) := by
  cases c with
  | registerProfile profileName spec => exact map_respond h.registered hc
  | execute profileName request =>
    show (bindingExecute plugin _ _ s).map _ id = _
    rw [bindingExecute, h.requestOf_requestText]
    exact map_respond h.response hc
  | executeTransaction backendName txGroup => exact map_respond h.txResults hc
  | inputSchema profileName => exact map_respondSchema h hc
  | outputSchema profileName => exact map_respondSchema h hc
  | listResources profileName cursor => exact map_respond h.page hc
  | expandCapabilities => exact map_respond h.capabilities hc
  | completeTemplateVariable profileName variableName typed config context =>
    show (bindingCompleteTemplateVariable plugin _ s).map _ id = _
    rw [binding_completeArgs]
    exact map_respond h.candidates hc

end Slots

/-! ## The bridges compared -/

section Compare

variable {P : Protocol} {σ : Type}

/-- The adapter overrides the method of a call. -/
def Call.Forwarded : Call P → Prop
  | .executeTransaction _ _ => False
  | .expandCapabilities => False
  | _ => True

/-- A result the host trait's default body gives to a call the adapter does not forward. -/
def AsyncDefaults.Gives (defaults : AsyncDefaults P) : (c : Call P) → c.Result → Prop
  | .executeTransaction backendName txGroup, r =>
    defaults.executeTransaction backendName txGroup = r
  | .expandCapabilities, r => defaults.expandCapabilities = r
  | _, _ => False

theorem adapter_of_forwarded (defaults : AsyncDefaults P) (plugin : SyncBackendPlugin P σ)
    {c : Call P} (hc : c.Forwarded) (s : σ) :
    SyncBackendPluginAdapter defaults plugin c s = plugin.own c s := by
  cases c <;> first | rfl | exact hc.elim

/-- What the adapter returns: the backend's own answer where it forwards the call, and the default
body's where it does not. -/
theorem adapter_returned_iff (defaults : AsyncDefaults P) (plugin : SyncBackendPlugin P σ)
    {c : Call P} {s : σ} {r : c.Result} (hc : (plugin.own c s).1 = .returned r) :
    (SyncBackendPluginAdapter defaults plugin c s).1 = .returned r ↔
      c.Forwarded ∨ defaults.Gives c r := by
  by_cases hf : c.Forwarded
  · rw [adapter_of_forwarded defaults plugin hf]
    exact iff_of_true hc (.inl hf)
  · rw [or_iff_right hf]
    cases c with
    | executeTransaction backendName txGroup =>
      exact ⟨Attempt.returned.inj, congrArg Attempt.returned⟩
    | expandCapabilities => exact ⟨Attempt.returned.inj, congrArg Attempt.returned⟩
    | _ => exact absurd trivial hf

/-- **When the two bridges agree.** For every backend, state and call in which its own method
returns, the statically linked backend gives the result the loaded one gives if and only if the
adapter forwards the call or the backend answers it as the host trait's default body does. -/
theorem bridges_agree_iff (h : P.Lawful) (defaults : AsyncDefaults P)
    (plugin : SyncBackendPlugin P σ) (c : Call P) (s : σ) (r : c.Result)
    (hc : (plugin.own c s).1 = .returned r) :
    (SyncBackendPluginAdapter defaults plugin c s).1 = .returned (throughVTable plugin c s).1 ↔
      c.Forwarded ∨ defaults.Gives c r := by
  rw [throughVTable_eq h hc]
  exact adapter_returned_iff defaults plugin hc

/-! ## Sessions -/

/-- The calls of a session, one after the other, with how each ended. -/
def session (bridge : (c : Call P) → Method σ c.Result) :
    List (Call P) → σ → List ((c : Call P) × Attempt c.Result) × σ
  | [], s => ([], s)
  | c :: calls, s =>
    let (rest, t) := session bridge calls (bridge c s).2
    (⟨c, (bridge c s).1⟩ :: rest, t)

/-- A loaded backend as a bridge: the host always reads some result. -/
def loaded (plugin : SyncBackendPlugin P σ) (c : Call P) : Method σ c.Result := fun s =>
  (throughVTable plugin c s).map .returned id

/-- **Sessions agree.** A session of forwarded calls in which the backend does not panic has the same
results and leaves the same state through both bridges. -/
theorem sessions_agree (h : P.Lawful) (defaults : AsyncDefaults P) (plugin : SyncBackendPlugin P σ)
    (calls : List (Call P)) (s : σ) (hf : ∀ c ∈ calls, c.Forwarded)
    (hp : ∀ a ∈ (session plugin.own calls s).1, ∃ r, a.2 = .returned r) :
    session (SyncBackendPluginAdapter defaults plugin) calls s =
      session (loaded plugin) calls s := by
  induction calls generalizing s with
  | nil => rfl
  | cons c calls ih =>
    obtain ⟨r, hr⟩ := hp ⟨c, (plugin.own c s).1⟩ List.mem_cons_self
    have hstatic := adapter_of_forwarded defaults plugin (hf c List.mem_cons_self) s
    have hloaded : loaded plugin c s = plugin.own c s := by
      rw [loaded, throughVTable_eq h hr]
      exact Prod.ext hr.symm rfl
    have hrest := ih (plugin.own c s).2 (fun d hd => hf d (List.mem_cons_of_mem c hd))
      fun a ha => hp a (List.mem_cons_of_mem _ ha)
    simp only [session, hstatic, hloaded, hrest]

end Compare

/-! ## A backend that counts its transactions -/

/-- An envelope as the macro's comments describe it: `ok` or `err`, and the host's own error for
anything else. -/
def plainEnvelope {α : Type} (toValue : α → Json) (ofValue : Json → Option α) :
    Envelope String α where
  respondResult
    | .ok a => .obj [("ok", toValue a)]
    | .error e => .obj [("err", .str e)]
  readResult
    | .ok (.obj [("ok", v)]) => (ofValue v).elim (.error "undecodable") .ok
    | .ok (.obj [("err", .str e)]) => .error e
    | _ => .error "undecodable"

theorem plainEnvelope_roundTrips {α : Type} {toValue : α → Json} {ofValue : Json → Option α}
    (h : ∀ a, ofValue (toValue a) = some a) : (plainEnvelope toValue ofValue).RoundTrips := by
  intro r
  cases r with
  | ok a =>
    show (ofValue (toValue a)).elim _ _ = _
    rw [h a]
    rfl
  | error e => rfl

/-- A list of strings as a value. -/
def stringsValue (items : List String) : Json := .arr (items.map .str)

/-- A list of strings as it is read. -/
def stringsOf : Json → Option (List String)
  | .arr items => items.mapM Json.asStr
  | _ => none

theorem stringsOf_stringsValue (items : List String) :
    stringsOf (stringsValue items) = some items := by
  show (items.map Json.str).mapM Json.asStr = some items
  induction items with
  | nil => rfl
  | cons item items ih =>
    rw [List.map_cons, List.mapM_cons, ih]
    rfl

/-- A plain protocol for evaluating on concrete inputs: errors, requests and responses are strings,
pages and capability sets lists of names. -/
def plainProtocol : Protocol where
  Error := String
  Request := String
  Response := String
  ResourcePage := List String
  CapabilitySet := List String
  transport := id
  emptyPage := []
  defaultCapabilities := []
  requestText request := .ok (.str request)
  requestOf text := text.bind fun v => v.asStr.elim (.error "invalid type") .ok
  readSchema text := text.bind Except.toOption
  registered := plainEnvelope (fun _ => .null) fun _ => some ()
  response := plainEnvelope .str Json.asStr
  txResults := plainEnvelope id some
  page := plainEnvelope stringsValue stringsOf
  capabilities := plainEnvelope stringsValue stringsOf
  candidates := plainEnvelope stringsValue stringsOf

theorem plainProtocol_lawful : plainProtocol.Lawful where
  requestOf_requestText _ := rfl
  readSchema_map schema := by cases schema <;> rfl
  registered := plainEnvelope_roundTrips fun _ => rfl
  response := plainEnvelope_roundTrips fun _ => rfl
  txResults := plainEnvelope_roundTrips fun _ => rfl
  page := plainEnvelope_roundTrips stringsOf_stringsValue
  capabilities := plainEnvelope_roundTrips stringsOf_stringsValue
  candidates := plainEnvelope_roundTrips stringsOf_stringsValue

/-- A backend that answers a transaction group with the number of groups before it, and inherits the
trait's default bodies for what it need not have. -/
def counting : SyncBackendPlugin plainProtocol ℕ where
  registerProfile _ _ := answer (.ok ())
  execute _ request := answer (.ok request)
  executeTransaction _ _ := fun n => (.returned (.ok (.num (.posInt n))), n + 1)

/-- Default bodies of a host trait: no transactions and no capabilities. -/
def plainDefaults : AsyncDefaults plainProtocol where
  executeTransaction _ _ := .error "execute_transaction is not supported by this backend"
  expandCapabilities := .ok []

/-- A request the adapter forwards, and an expansion the backend leaves to its default body. -/
theorem bridges_agree_iff_counting :
    (SyncBackendPluginAdapter plainDefaults counting (.execute "orders" "select 1") 0).1 =
        .returned (throughVTable counting (.execute "orders" "select 1") 0).1 ∧
      (SyncBackendPluginAdapter plainDefaults counting .expandCapabilities 0).1 =
        .returned (throughVTable counting .expandCapabilities 0).1 :=
  ⟨(bridges_agree_iff plainProtocol_lawful plainDefaults counting (.execute "orders" "select 1") 0
      (.ok "select 1") rfl).mpr (.inl trivial),
    (bridges_agree_iff plainProtocol_lawful plainDefaults counting .expandCapabilities 0
      (.ok []) rfl).mpr (.inr rfl)⟩

/-- **Transaction groups are not forwarded.** Whatever the host trait's default bodies answer, some
group of the counting backend is answered otherwise when it is linked statically. -/
theorem transactions_not_forwarded :
    ¬ ∃ defaults : AsyncDefaults plainProtocol,
      ∀ (c : Call plainProtocol) (s : ℕ) (r : c.Result), (counting.own c s).1 = .returned r →
        (SyncBackendPluginAdapter defaults counting c s).1 =
          .returned (throughVTable counting c s).1 := by
  rintro ⟨defaults, H⟩
  -- the default body gives the first group and the second the same answer
  have h0 := H (.executeTransaction "orders" .null) 0 (.ok (.num (.posInt 0))) rfl
  have h1 := H (.executeTransaction "orders" .null) 1 (.ok (.num (.posInt 1))) rfl
  have h : (Except.ok (.num (.posInt 0)) : Except String Json) = .ok (.num (.posInt 1)) :=
    (Attempt.returned.inj h0).symm.trans (Attempt.returned.inj h1)
  cases h

end Backend

end McpgSdk
