import McpgSdk.Testing.Gateway
import McpgSdk.Backend.Bridge

/-!
# The plugin chain behind slots

Gates, transforms and identity resolvers are written against synchronous traits. Linked into the
gateway they are wrapped by adapters that delegate, and a panic unwinds the whole call. Loaded from a
library they are called through slots, which take texts, catch panics and answer in their place: a
gate's panic is a denial, a transform's an error, a resolver's an invalid credential. What calls the
slots is the host's, and no part of the SDK: it is a parameter with a promise.

* `SyncToolGate`, `SyncTransform`, `SyncIdentityResolver`: the plugins, which may panic;
* `linkedGateway`, `callLinked`: the gateway's chain with the plugins linked statically;
* `ToolGateVTable`, `TransformVTable`: the slots of the macro;
* `HostAdapters`, `Delegates`: the host's way to the slots and its promise, for values that a text
  carries;
* `loadedGateway`, `callLoaded`: the same chain behind the slots;
* **`chains_agree`**: both make the same of every call whose values fit, up to the first panic; the
  slots then end the call there, with a denial or an error, and never let it pass;
* `IdentityDelegates`, **`identities_agree`**: so for the resolvers: a panic is no way to the next one.
-/

set_option autoImplicit false

namespace McpgSdk

namespace Testing

open Backend (Attempt Method Text valueOrNull)

/-- `SyncToolGate`. -/
structure SyncToolGate (ι σ : Type) where
  evaluatePre : PluginContext ι → Json → Option Json → Json → Method σ GateDecision
  evaluatePost : PluginContext ι → Json → Json → ℕ → Json → Method σ GateDecision

/-- `SyncTransform`. -/
structure SyncTransform (ι σ : Type) where
  transformArguments : PluginContext ι → Json → Json → Method σ TransformResult
  transformResult : PluginContext ι → Json → Json → Method σ TransformResult

/-! ## Linked statically -/

/-- The state of the plugins, and whether a panic is unwinding the call. -/
structure Unwind (σ : Type) where
  plugins : σ
  panicked : Bool

/-- A method called in place. When it panics the caller gets no answer; the chain is given `stop`,
which ends it, and its result is dropped. -/
def unwinding {σ α : Type} (stop : α) (m : Method σ α) (u : Unwind σ) : α × Unwind σ :=
  match m u.plugins with
  | (.returned a, s) => (a, ⟨s, u.panicked⟩)
  | (.panicked, s) => (stop, ⟨s, true⟩)

section Linked

variable {ι σ : Type}

/-- `SyncToolGateAdapter`: it delegates. -/
def SyncToolGateAdapter (inner : SyncToolGate ι σ) : ToolGatePlugin ι (Unwind σ) where
  evaluatePreDispatch ctx arguments callMeta config :=
    unwinding (.deny "" .null) (inner.evaluatePre ctx arguments callMeta config)
  evaluatePostDispatch ctx arguments result executionDurationMs config :=
    unwinding (.deny "" .null) (inner.evaluatePost ctx arguments result executionDurationMs config)

/-- `SyncTransformAdapter`: it delegates. -/
def SyncTransformAdapter (inner : SyncTransform ι σ) : TransformPlugin ι (Unwind σ) where
  transformArguments ctx arguments config :=
    unwinding (.error "") (inner.transformArguments ctx arguments config)
  transformResult ctx result config :=
    unwinding (.error "") (inner.transformResult ctx result config)

/-- The gateway with the plugins linked statically. -/
def linkedGateway (gates : List (SyncToolGate ι σ × Json))
    (transforms : List (SyncTransform ι σ × Json)) (defaultIdentity : ι) :
    MockGateway ι (Unwind σ) where
  toolGates := gates.map (Prod.map SyncToolGateAdapter id)
  transforms := transforms.map (Prod.map SyncTransformAdapter id)
  defaultIdentity := defaultIdentity

/-- A tool call through the linked plugins, with the calls it makes. -/
def runLinked (gates : List (SyncToolGate ι σ × Json)) (transforms : List (SyncTransform ι σ × Json))
    (defaultIdentity : ι) (toText : Json → String) (toolName : String) (arguments : Json)
    (callMeta : Option Json) (s : σ) : ToolCallResult × World ι (Unwind σ) :=
  (linkedGateway gates transforms defaultIdentity).callToolWithMeta toText toolName arguments callMeta
    ⟨⟨s, false⟩, []⟩

/-- A tool call through the linked plugins. After a panic it has no result. -/
def callLinked (gates : List (SyncToolGate ι σ × Json)) (transforms : List (SyncTransform ι σ × Json))
    (defaultIdentity : ι) (toText : Json → String) (toolName : String) (arguments : Json)
    (callMeta : Option Json) : Method σ ToolCallResult := fun s =>
  let out := runLinked gates transforms defaultIdentity toText toolName arguments callMeta s
  (if out.2.plugins.panicked then .panicked else .returned out.1, out.2.plugins.plugins)

end Linked

/-! ## Loaded from a library -/

/-- The protocol crate's types at the boundary, their conversions, and what its panic guards answer. -/
structure Abi (ι : Type) where
  RPluginContext : Type
  RGateDecision : Type
  RTransformResult : Type
  contextInto : PluginContext ι → RPluginContext
  contextFrom : RPluginContext → PluginContext ι
  decisionInto : GateDecision → RGateDecision
  decisionFrom : RGateDecision → GateDecision
  resultInto : TransformResult → RTransformResult
  resultFrom : RTransformResult → TransformResult
  /-- What `catch_panic_to_deny` answers. -/
  panicDeny : RGateDecision
  /-- What `catch_panic_to_transform_error` answers. -/
  panicTransformError : RTransformResult

/-- Values cross the boundary unchanged, and the guards answer what they are named after. -/
structure Abi.Lawful {ι : Type} (abi : Abi ι) : Prop where
  context : ∀ c, abi.contextFrom (abi.contextInto c) = c
  decision : ∀ d, abi.decisionFrom (abi.decisionInto d) = d
  result : ∀ r, abi.resultFrom (abi.resultInto r) = r
  deny : ∃ message details, abi.decisionFrom abi.panicDeny = .deny message details
  error : ∃ message, abi.resultFrom abi.panicTransformError = .error message

/-- `catch_panic_to_…`: a panic is answered with `guard`. -/
def catchPanicTo {σ α β : Type} (guard : β) (into : α → β) (m : Method σ α) (s : σ) : β × σ :=
  match m s with
  | (.returned a, s') => (into a, s')
  | (.panicked, s') => (guard, s')

/-- `serde_json::from_str(..).unwrap_or(json!({}))`. -/
def valueOrEmpty (text : Text) : Json := text.toOption.getD (.obj [])

section Loaded

variable {ι σ : Type} (abi : Abi ι)

/-- `__mcpg_plugin_evaluate_pre`. -/
def pluginEvaluatePre (plugin : SyncToolGate ι σ) (ctx : abi.RPluginContext) (args : Text)
    (callMeta : Option Text) (cfg : Text) (s : σ) : abi.RGateDecision × σ :=
  catchPanicTo abi.panicDeny abi.decisionInto (plugin.evaluatePre (abi.contextFrom ctx)
    (valueOrNull args) (callMeta.bind Except.toOption) (valueOrEmpty cfg)) s

/-- `__mcpg_plugin_evaluate_post`. -/
def pluginEvaluatePost (plugin : SyncToolGate ι σ) (ctx : abi.RPluginContext) (args result : Text)
    (durationMs : ℕ) (cfg : Text) (s : σ) : abi.RGateDecision × σ :=
  catchPanicTo abi.panicDeny abi.decisionInto (plugin.evaluatePost (abi.contextFrom ctx)
    (valueOrNull args) (valueOrNull result) durationMs (valueOrEmpty cfg)) s

/-- `__mcpg_transform_arguments`. -/
def transformArgumentsSlot (plugin : SyncTransform ι σ) (ctx : abi.RPluginContext) (args cfg : Text)
    (s : σ) : abi.RTransformResult × σ :=
  catchPanicTo abi.panicTransformError abi.resultInto
    (plugin.transformArguments (abi.contextFrom ctx) (valueOrNull args) (valueOrEmpty cfg)) s

/-- `__mcpg_transform_result`. -/
def transformResultSlot (plugin : SyncTransform ι σ) (ctx : abi.RPluginContext) (result cfg : Text)
    (s : σ) : abi.RTransformResult × σ :=
  catchPanicTo abi.panicTransformError abi.resultInto
    (plugin.transformResult (abi.contextFrom ctx) (valueOrNull result) (valueOrEmpty cfg)) s

/-- The slots of a gate. -/
structure ToolGateVTable (σ : Type) where
  evaluatePre : abi.RPluginContext → Text → Option Text → Text → σ → abi.RGateDecision × σ
  evaluatePost : abi.RPluginContext → Text → Text → ℕ → Text → σ → abi.RGateDecision × σ

/-- The slots of a transform. -/
structure TransformVTable (σ : Type) where
  transformArguments : abi.RPluginContext → Text → Text → σ → abi.RTransformResult × σ
  transformResult : abi.RPluginContext → Text → Text → σ → abi.RTransformResult × σ

def toolGateVTable (plugin : SyncToolGate ι σ) : ToolGateVTable abi σ where
  evaluatePre := pluginEvaluatePre abi plugin
  evaluatePost := pluginEvaluatePost abi plugin

def transformVTable (plugin : SyncTransform ι σ) : TransformVTable abi σ where
  transformArguments := transformArgumentsSlot abi plugin
  transformResult := transformResultSlot abi plugin

/-- What the host makes of the slots of a plugin: something its chain can call. -/
structure HostAdapters (σ : Type) where
  gate : ToolGateVTable abi σ → ToolGatePlugin ι σ
  transform : TransformVTable abi σ → TransformPlugin ι σ

variable {abi}

/-- What the host promises of its adapters: where the values fit, they call the slot of the same name
with texts that are read back as the values, and return what it answers. -/
structure HostAdapters.Delegates (host : HostAdapters abi σ) (Fits : Json → Prop) : Prop where
  pre : ∀ slots ctx arguments callMeta config s,
    Fits arguments → (∀ v ∈ callMeta, Fits v) → Fits config →
      (host.gate slots).evaluatePreDispatch ctx arguments callMeta config s =
        (slots.evaluatePre (abi.contextInto ctx) (.ok arguments) (callMeta.map .ok) (.ok config) s).map
          abi.decisionFrom id
  post : ∀ slots ctx arguments result executionDurationMs config s,
    Fits arguments → Fits result → Fits config →
      (host.gate slots).evaluatePostDispatch ctx arguments result executionDurationMs config s =
        (slots.evaluatePost (abi.contextInto ctx) (.ok arguments) (.ok result) executionDurationMs
          (.ok config) s).map abi.decisionFrom id
  arguments : ∀ slots ctx arguments config s, Fits arguments → Fits config →
    (host.transform slots).transformArguments ctx arguments config s =
      (slots.transformArguments (abi.contextInto ctx) (.ok arguments) (.ok config) s).map
        abi.resultFrom id
  result : ∀ slots ctx result config s, Fits result → Fits config →
    (host.transform slots).transformResult ctx result config s =
      (slots.transformResult (abi.contextInto ctx) (.ok result) (.ok config) s).map abi.resultFrom id

/-- The gateway with the plugins behind their slots. -/
def loadedGateway (host : HostAdapters abi σ) (gates : List (SyncToolGate ι σ × Json))
    (transforms : List (SyncTransform ι σ × Json)) (defaultIdentity : ι) : MockGateway ι σ where
  toolGates := gates.map (Prod.map (fun plugin => host.gate (toolGateVTable abi plugin)) id)
  transforms := transforms.map (Prod.map (fun plugin => host.transform (transformVTable abi plugin)) id)
  defaultIdentity := defaultIdentity

/-- A tool call through the slots. -/
def callLoaded (host : HostAdapters abi σ) (gates : List (SyncToolGate ι σ × Json))
    (transforms : List (SyncTransform ι σ × Json)) (defaultIdentity : ι) (toText : Json → String)
    (toolName : String) (arguments : Json) (callMeta : Option Json) (s : σ) : ToolCallResult × σ :=
  let out := (loadedGateway host gates transforms defaultIdentity).callToolWithMeta toText toolName
    arguments callMeta ⟨s, []⟩
  (out.1, out.2.plugins)

end Loaded

/-! ## One stage -/

/-- A method whose answer is put among the chain's. -/
def answering {σ α : Type} (f : α → Answer) (m : Method σ α) : Method σ Answer := fun s =>
  match m s with
  | (.returned a, s') => (.returned (f a), s')
  | (.panicked, s') => (.panicked, s')

section Guards

variable {σ α : Type} (f : α → Answer) (m : Method σ α)

theorem map_unwinding (stop : α) (u : Unwind σ) :
    (unwinding stop m u).map f id = unwinding (f stop) (answering f m) u := by
  unfold unwinding answering
  rcases m u.plugins with ⟨_ | _, s⟩ <;> rfl

/-- Where values cross unchanged, the caller of a slot sees the method, and the guard for a panic. -/
theorem map_catchPanicTo {β : Type} {into : α → β} {back : β → α} (hback : ∀ a, back (into a) = a)
    (guard : β) (s : σ) :
    (catchPanicTo guard into m s).map back id = catchPanicTo (back guard) id m s := by
  unfold catchPanicTo
  rcases m s with ⟨a | _, s'⟩
  · exact Prod.ext (hback a) rfl
  · rfl

theorem map_slot {β : Type} {into : α → β} {back : β → α} (hback : ∀ a, back (into a) = a) (guard : β)
    (s : σ) :
    ((catchPanicTo guard into m s).map back id).map f id =
      catchPanicTo (f (back guard)) id (answering f m) s := by
  rw [map_catchPanicTo m hback]
  unfold catchPanicTo answering
  rcases m s with ⟨_ | _, s'⟩ <;> rfl

end Guards

/-- The values a call hands to its plugin. -/
def Call.values {ι σ : Type} : Call ι σ → List Json
  | .preDispatch _ config _ arguments callMeta => config :: arguments :: callMeta.toList
  | .transformArguments _ config _ arguments => [config, arguments]
  | .transformResult _ config _ result => [config, result]
  | .postDispatch _ config _ arguments result _ => [config, arguments, result]

/-- A plugin of the chain in its place, before it is linked or loaded. -/
inductive SyncStage (ι σ : Type)
  | preGate (gate : SyncToolGate ι σ × Json)
  | arguments (transform : SyncTransform ι σ × Json)
  | result (transform : SyncTransform ι σ × Json)
  | postGate (gate : SyncToolGate ι σ × Json)

section Stages

variable {ι σ : Type}

/-- All stages in order. -/
def syncStages (gates : List (SyncToolGate ι σ × Json)) (transforms : List (SyncTransform ι σ × Json)) :
    List (SyncStage ι σ) :=
  gates.map .preGate ++ (transforms.map .arguments ++
    (transforms.map .result ++ gates.map .postGate))

namespace SyncStage

def linked : SyncStage ι σ → Stage ι (Unwind σ)
  | preGate gate => .preGate (gate.map SyncToolGateAdapter id)
  | arguments transform => .arguments (transform.map SyncTransformAdapter id)
  | result transform => .result (transform.map SyncTransformAdapter id)
  | postGate gate => .postGate (gate.map SyncToolGateAdapter id)

def loaded {abi : Abi ι} (host : HostAdapters abi σ) : SyncStage ι σ → Stage ι σ
  | preGate gate => .preGate (gate.map (fun plugin => host.gate (toolGateVTable abi plugin)) id)
  | arguments transform =>
    .arguments (transform.map (fun plugin => host.transform (transformVTable abi plugin)) id)
  | result transform =>
    .result (transform.map (fun plugin => host.transform (transformVTable abi plugin)) id)
  | postGate gate => .postGate (gate.map (fun plugin => host.gate (toolGateVTable abi plugin)) id)

/-- The plugin's own method for its stage. -/
def own (q : Request ι) (t : Threaded) : SyncStage ι σ → Method σ Answer
  | preGate gate => answering .gate (gate.1.evaluatePre q.ctx q.original q.callMeta gate.2)
  | arguments transform =>
    answering .transform (transform.1.transformArguments q.ctx t.args transform.2)
  | result transform => answering .transform (transform.1.transformResult q.ctx t.result transform.2)
  | postGate gate =>
    answering .gate (gate.1.evaluatePost q.ctx t.args t.result simulatedMs gate.2)

/-- What stands for the answer of a linked stage that panicked. -/
def stop : SyncStage ι σ → Answer
  | preGate _ | postGate _ => .gate (.deny "" .null)
  | arguments _ | result _ => .transform (.error "")

/-- What the slot of a stage answers for a panic. -/
def guarded (abi : Abi ι) : SyncStage ι σ → Answer
  | preGate _ | postGate _ => .gate (abi.decisionFrom abi.panicDeny)
  | arguments _ | result _ => .transform (abi.resultFrom abi.panicTransformError)

variable (q : Request ι) (t : Threaded) (stage : SyncStage ι σ)

theorem perform_linked (u : Unwind σ) :
    (stage.linked.call q t).perform u = unwinding stage.stop (stage.own q t) u := by
  cases stage with
  | preGate gate =>
    show Prod.map Answer.gate id (unwinding _ (gate.1.evaluatePre _ _ _ _) u) = _
    rw [map_unwinding]
    rfl
  | arguments transform =>
    show Prod.map Answer.transform id (unwinding _ (transform.1.transformArguments _ _ _) u) = _
    rw [map_unwinding]
    rfl
  | result transform =>
    show Prod.map Answer.transform id (unwinding _ (transform.1.transformResult _ _ _) u) = _
    rw [map_unwinding]
    rfl
  | postGate gate =>
    show Prod.map Answer.gate id (unwinding _ (gate.1.evaluatePost _ _ _ _ _) u) = _
    rw [map_unwinding]
    rfl

/-- Where the values of a call fit, a loaded stage is its plugin's own method behind the guard. -/
theorem perform_loaded {abi : Abi ι} (h : abi.Lawful) {host : HostAdapters abi σ} {Fits : Json → Prop}
    (hhost : host.Delegates Fits) (hfits : ∀ v ∈ (stage.linked.call q t).values, Fits v) (s : σ) :
    ((stage.loaded host).call q t).perform s =
      catchPanicTo (stage.guarded abi) id (stage.own q t) s := by
  cases stage with
  | preGate gate =>
    simp only [linked, Stage.call, Call.values, Prod.map, id, List.forall_mem_cons, Option.mem_toList]
      at hfits
    obtain ⟨hconfig, harguments, hmeta⟩ := hfits
    have hread : (q.callMeta.map (.ok : Json → Text)).bind Except.toOption = q.callMeta := by
      cases q.callMeta <;> rfl
    show Prod.map Answer.gate id
      ((host.gate _).evaluatePreDispatch q.ctx q.original q.callMeta gate.2 s) = _
    rw [hhost.pre _ _ _ _ _ _ harguments hmeta hconfig]
    show Prod.map Answer.gate id (Prod.map abi.decisionFrom id (catchPanicTo _ _
      (gate.1.evaluatePre (abi.contextFrom (abi.contextInto q.ctx)) q.original _ gate.2) s)) = _
    rw [h.context, hread]
    exact map_slot _ _ h.decision _ s
  | arguments transform =>
    simp only [linked, Stage.call, Call.values, Prod.map, id, List.forall_mem_cons] at hfits
    obtain ⟨hconfig, harguments, -⟩ := hfits
    show Prod.map Answer.transform id
      ((host.transform _).transformArguments q.ctx t.args transform.2 s) = _
    rw [hhost.arguments _ _ _ _ _ harguments hconfig]
    show Prod.map Answer.transform id (Prod.map abi.resultFrom id (catchPanicTo _ _
      (transform.1.transformArguments (abi.contextFrom (abi.contextInto q.ctx)) _ _) s)) = _
    rw [h.context]
    exact map_slot _ _ h.result _ s
  | result transform =>
    simp only [linked, Stage.call, Call.values, Prod.map, id, List.forall_mem_cons] at hfits
    obtain ⟨hconfig, hresult, -⟩ := hfits
    show Prod.map Answer.transform id
      ((host.transform _).transformResult q.ctx t.result transform.2 s) = _
    rw [hhost.result _ _ _ _ _ hresult hconfig]
    show Prod.map Answer.transform id (Prod.map abi.resultFrom id (catchPanicTo _ _
      (transform.1.transformResult (abi.contextFrom (abi.contextInto q.ctx)) _ _) s)) = _
    rw [h.context]
    exact map_slot _ _ h.result _ s
  | postGate gate =>
    simp only [linked, Stage.call, Call.values, Prod.map, id, List.forall_mem_cons] at hfits
    obtain ⟨hconfig, harguments, hresult, -⟩ := hfits
    show Prod.map Answer.gate id
      ((host.gate _).evaluatePostDispatch q.ctx t.args t.result simulatedMs gate.2 s) = _
    rw [hhost.post _ _ _ _ _ _ _ harguments hresult hconfig]
    show Prod.map Answer.gate id (Prod.map abi.decisionFrom id (catchPanicTo _ _
      (gate.1.evaluatePost (abi.contextFrom (abi.contextInto q.ctx)) _ _ _ _) s)) = _
    rw [h.context]
    exact map_slot _ _ h.decision _ s

theorem same_effect {abi : Abi ι} (host : HostAdapters abi σ) (a : Answer) :
    interrupted t ((stage.loaded host).call q t, a) = interrupted t (stage.linked.call q t, a) ∧
      t.after q.toText ((stage.loaded host).call q t, a) =
        t.after q.toText (stage.linked.call q t, a) := by
  cases stage <;> rcases a with _ | (_ | _ | _) <;> exact ⟨rfl, rfl⟩

theorem stop_interrupts : stage.stop.interrupts = true := by cases stage <;> rfl

theorem guarded_interrupts {abi : Abi ι} (h : abi.Lawful) :
    (stage.guarded abi).interrupts = true := by
  obtain ⟨message, details, hdeny⟩ := h.deny
  obtain ⟨error, herror⟩ := h.error
  cases stage <;> simp [guarded, Answer.interrupts, hdeny, herror]

end SyncStage

/-! ## The whole chain -/

/-- The call ended with the answer of a panic guard: a denial, or the error of a transform. -/
structure FailedClosed (abi : Abi ι) (r : ToolCallResult) : Prop where
  phase : r.phase ≠ .complete
  guarded : r.gateDecision = some (abi.decisionFrom abi.panicDeny) ∨
    r.gateDecision = none ∧ ∃ message, abi.resultFrom abi.panicTransformError = .error message ∧
      r.result = some (errorResult message)

theorem failedClosed_of_guarded {abi : Abi ι} (h : abi.Lawful) (host : HostAdapters abi σ)
    (q : Request ι) (t : Threaded) (stage : SyncStage ι σ) :
    FailedClosed abi (interrupted t ((stage.loaded host).call q t, stage.guarded abi)) := by
  obtain ⟨message, herror⟩ := h.error
  refine ⟨phase_ne_complete _, ?_⟩
  cases stage with
  | preGate | postGate => exact .inl rfl
  | arguments | result =>
    refine .inr ⟨rfl, message, herror, ?_⟩
    simp only [interrupted, SyncStage.guarded, herror]
    rfl

/-- How the end of a loaded chain compares with that of the linked one. -/
structure Agrees (abi : Abi ι) (linked : ToolCallResult × World ι (Unwind σ))
    (loaded : ToolCallResult × World ι σ) : Prop where
  state : linked.2.plugins.plugins = loaded.2.plugins
  returned : linked.2.plugins.panicked = false → loaded.1 = linked.1
  panicked : linked.2.plugins.panicked = true → FailedClosed abi loaded.1

/-- **Up to the first panic both chains are the same.** By induction over the stages, from states in
which the linked chain has not panicked. -/
theorem follow_agrees {abi : Abi ι} (h : abi.Lawful) {host : HostAdapters abi σ} {Fits : Json → Prop}
    (hhost : host.Delegates Fits) (q : Request ι) (stages : List (SyncStage ι σ)) (t : Threaded)
    (made : List (Call ι σ × Answer)) (made' : List (Call ι (Unwind σ) × Answer)) (s : σ)
    (hfits : ∀ m ∈ (follow q (stages.map SyncStage.linked) t ⟨⟨s, false⟩, made'⟩).2.made,
      ∀ v ∈ m.1.values, Fits v) :
    Agrees abi (follow q (stages.map SyncStage.linked) t ⟨⟨s, false⟩, made'⟩)
      (follow q (stages.map (SyncStage.loaded host)) t ⟨s, made⟩) := by
  induction stages generalizing t s made made' with
  | nil => exact ⟨rfl, fun _ => rfl, fun hp => nomatch hp⟩
  | cons stage stages ih =>
    rw [List.map_cons] at hfits
    rw [List.map_cons, List.map_cons]
    have hperform := stage.perform_linked q t ⟨s, false⟩
    have hvalues := hfits _ (first_mem_made (w := ⟨⟨s, false⟩, made'⟩) hperform)
    rcases hown : stage.own q t s with ⟨a | _, s'⟩
    · have hlinked : (stage.linked.call q t).perform ⟨s, false⟩ = (a, ⟨s', false⟩) := by
        rw [hperform, unwinding]
        simp only [hown]
      have hloaded : ((stage.loaded host).call q t).perform s = (a, s') := by
        rw [stage.perform_loaded q t h hhost hvalues, catchPanicTo]
        simp only [hown, id]
      rw [follow_cons (w := ⟨⟨s, false⟩, made'⟩) hlinked] at hfits
      rw [follow_cons (w := ⟨⟨s, false⟩, made'⟩) hlinked, follow_cons (w := ⟨s, made⟩) hloaded]
      obtain ⟨hresult, hafter⟩ := stage.same_effect q t host a
      by_cases ha : a.interrupts = true
      · rw [if_pos ha, if_pos ha, hresult]
        exact ⟨rfl, fun _ => rfl, fun hp => nomatch hp⟩
      · rw [if_neg ha] at hfits
        rw [if_neg ha, if_neg ha, hafter]
        exact ih _ _ _ _ hfits
    · have hlinked : (stage.linked.call q t).perform ⟨s, false⟩ = (stage.stop, ⟨s', true⟩) := by
        rw [hperform, unwinding]
        simp only [hown]
      have hloaded : ((stage.loaded host).call q t).perform s = (stage.guarded abi, s') := by
        rw [stage.perform_loaded q t h hhost hvalues, catchPanicTo]
        simp only [hown]
      rw [follow_cons (w := ⟨⟨s, false⟩, made'⟩) hlinked, follow_cons (w := ⟨s, made⟩) hloaded,
        if_pos stage.stop_interrupts, if_pos (stage.guarded_interrupts h)]
      exact ⟨rfl, fun hp => (nomatch hp), fun _ => failedClosed_of_guarded h host q t stage⟩

theorem stages_linked (gates : List (SyncToolGate ι σ × Json))
    (transforms : List (SyncTransform ι σ × Json)) (defaultIdentity : ι) :
    (linkedGateway gates transforms defaultIdentity).stages =
      (syncStages gates transforms).map SyncStage.linked := by
  simp only [MockGateway.stages, linkedGateway, syncStages, List.map_append, List.map_map]
  rfl

theorem stages_loaded {abi : Abi ι} (host : HostAdapters abi σ) (gates : List (SyncToolGate ι σ × Json))
    (transforms : List (SyncTransform ι σ × Json)) (defaultIdentity : ι) :
    (loadedGateway host gates transforms defaultIdentity).stages =
      (syncStages gates transforms).map (SyncStage.loaded host) := by
  simp only [MockGateway.stages, loadedGateway, syncStages, List.map_append, List.map_map]
  rfl

/-- **A loaded chain is the linked chain, and fails closed.** For every list of gates and transforms,
whatever they do, and every call whose values fit in a text: the plugins are left in the same state, so
they saw the same calls; where the linked call returns, the loaded one returns the same; and where it
panics, the loaded one ends at the plugin that panicked, with a denial or a transform's error. A loaded
call thus passes only if the linked one does. -/
theorem chains_agree {abi : Abi ι} (h : abi.Lawful) {host : HostAdapters abi σ} {Fits : Json → Prop}
    (hhost : host.Delegates Fits) (gates : List (SyncToolGate ι σ × Json))
    (transforms : List (SyncTransform ι σ × Json)) (defaultIdentity : ι) (toText : Json → String)
    (toolName : String) (arguments : Json) (callMeta : Option Json) (s : σ)
    (hfits : ∀ m ∈ (runLinked gates transforms defaultIdentity toText toolName arguments callMeta
      s).2.made, ∀ v ∈ m.1.values, Fits v) :
    let linked := callLinked gates transforms defaultIdentity toText toolName arguments callMeta s
    let loaded := callLoaded host gates transforms defaultIdentity toText toolName arguments callMeta s
    linked.2 = loaded.2 ∧ (∀ r, linked.1 = .returned r → loaded.1 = r) ∧
      (linked.1 = .panicked → FailedClosed abi loaded.1) ∧
      (loaded.1.isAllowed = true → linked.1 = .returned loaded.1) := by
  have hagrees : Agrees abi
      (runLinked gates transforms defaultIdentity toText toolName arguments callMeta s)
      ((loadedGateway host gates transforms defaultIdentity).callToolWithMeta toText toolName arguments
        callMeta ⟨s, []⟩) := by
    unfold runLinked at hfits ⊢
    rw [callToolWithMeta_eq_follow, stages_linked] at hfits
    rw [callToolWithMeta_eq_follow, callToolWithMeta_eq_follow, stages_linked, stages_loaded]
    exact follow_agrees h hhost _ _ _ _ _ s hfits
  unfold callLinked callLoaded
  revert hagrees
  generalize runLinked gates transforms defaultIdentity toText toolName arguments callMeta s = linked
  generalize (loadedGateway host gates transforms defaultIdentity).callToolWithMeta _ _ _ _ _ = loaded
  rintro ⟨hstate, hreturned, hpanicked⟩
  dsimp only
  refine ⟨hstate, ?_⟩
  cases hp : linked.2.plugins.panicked with
  | false =>
    have hresult := hreturned hp
    exact ⟨fun r hr => hresult.trans (Attempt.returned.inj hr), fun hr => (nomatch hr),
      fun _ => congrArg Attempt.returned hresult.symm⟩
  | true =>
    have hclosed := hpanicked hp
    refine ⟨fun r hr => (nomatch hr), fun _ => hclosed, fun hallowed => ?_⟩
    exact absurd (eq_of_beq hallowed) hclosed.phase

end Stages

/-- Values that are their own copies at the boundary. -/
def plainAbi : Abi Unit where
  RPluginContext := PluginContext Unit
  RGateDecision := GateDecision
  RTransformResult := TransformResult
  contextInto := id
  contextFrom := id
  decisionInto := id
  decisionFrom := id
  resultInto := id
  resultFrom := id
  panicDeny := .deny "plugin panicked" .null
  panicTransformError := .error "plugin panicked"

theorem plainAbi_lawful : plainAbi.Lawful where
  context _ := rfl
  decision _ := rfl
  result _ := rfl
  deny := ⟨_, _, rfl⟩
  error := ⟨_, rfl⟩

/-- A gate that counts its calls and answers as it is told. -/
def countingGate (decision : Attempt GateDecision) : SyncToolGate Unit ℕ where
  evaluatePre _ _ _ _ calls := (decision, calls + 1)
  evaluatePost _ _ _ _ _ calls := (decision, calls + 1)

/-- A gate that allows, one that panics, and one that is not reached. -/
def secondPanics : List (SyncToolGate Unit ℕ × Json) :=
  [(countingGate (.returned (.allow .null)), .null), (countingGate .panicked, .null),
    (countingGate (.returned (.allow .null)), .null)]

/-- Adapters that write every value by `text`. -/
def plainAdapters {ι : Type} (abi : Abi ι) (σ : Type) (text : Json → Text) : HostAdapters abi σ where
  gate slots := {
    evaluatePreDispatch := fun ctx arguments callMeta config s =>
      (slots.evaluatePre (abi.contextInto ctx) (text arguments) (callMeta.map text) (text config)
        s).map abi.decisionFrom id
    evaluatePostDispatch := fun ctx arguments result executionDurationMs config s =>
      (slots.evaluatePost (abi.contextInto ctx) (text arguments) (text result) executionDurationMs
        (text config) s).map abi.decisionFrom id }
  transform slots := {
    transformArguments := fun ctx arguments config s =>
      (slots.transformArguments (abi.contextInto ctx) (text arguments) (text config) s).map
        abi.resultFrom id
    transformResult := fun ctx result config s =>
      (slots.transformResult (abi.contextInto ctx) (text result) (text config) s).map
        abi.resultFrom id }

theorem plainAdapters_delegates {ι : Type} (abi : Abi ι) (σ : Type) (text : Json → Text) :
    (plainAdapters abi σ text).Delegates fun v => text v = .ok v where
  pre slots ctx arguments callMeta config s harguments hmeta hconfig := by
    have htexts : callMeta.map text = callMeta.map .ok := by
      cases callMeta with
      | none => rfl
      | some v => exact congrArg some (hmeta v rfl)
    simp only [plainAdapters, harguments, htexts, hconfig]
  post slots ctx arguments result executionDurationMs config s harguments hresult hconfig := by
    simp only [plainAdapters, harguments, hresult, hconfig]
  arguments slots ctx arguments config s harguments hconfig := by
    simp only [plainAdapters, harguments, hconfig]
  result slots ctx result config s hresult hconfig := by
    simp only [plainAdapters, hresult, hconfig]

theorem chains_agree_secondPanics :
    let host := plainAdapters plainAbi ℕ .ok
    (callLinked secondPanics [] () (fun _ => "") "tool" .null none 0).1 = .panicked ∧
      FailedClosed plainAbi
        (callLoaded host secondPanics [] () (fun _ => "") "tool" .null none 0).1 ∧
      (callLoaded host secondPanics [] () (fun _ => "") "tool" .null none 0).2 = 2 := by
  obtain ⟨-, -, hpanicked, -⟩ := chains_agree plainAbi_lawful (plainAdapters_delegates plainAbi ℕ .ok)
    secondPanics [] () (fun _ => "") "tool" .null none 0 fun _ _ _ _ => rfl
  exact ⟨rfl, hpanicked rfl, rfl⟩

/-! ## Identity resolvers -/

/-- What a resolver makes of a request. -/
inductive IdentityResolution (ι : Type)
  | resolved (identity : ι)
  | invalid (reason : String)
  | none

/-- `SyncIdentityResolver`, for a request's headers and metadata. -/
structure SyncIdentityResolver (ι μ σ : Type) where
  resolveIdentity : List (String × String) → μ → Json → Method σ (IdentityResolution ι)

/-- A resolver as the gateway calls it. -/
structure IdentityProviderPlugin (ι μ σ : Type) where
  resolveIdentity : List (String × String) → μ → Json → σ → IdentityResolution ι × σ

section Identity

variable {ι μ σ : Type}

/-- `resolve_identity_with_metadata`: the first resolver that does not pass decides. -/
def resolveIdentityWithMetadata (headers : List (String × String)) (metadata : μ) :
    List (IdentityProviderPlugin ι μ σ × Json) → σ → IdentityResolution ι × σ
  | [], s => (.none, s)
  | (plugin, config) :: rest, s =>
    let r := plugin.resolveIdentity headers metadata config s
    match r.1 with
    | .resolved _ => r
    | .invalid _ => r
    | .none => resolveIdentityWithMetadata headers metadata rest r.2

/-- `SyncIdentityAdapter`: it delegates. -/
def SyncIdentityAdapter (inner : SyncIdentityResolver ι μ σ) :
    IdentityProviderPlugin ι μ (Unwind σ) where
  resolveIdentity headers metadata config :=
    unwinding (.invalid "") (inner.resolveIdentity headers metadata config)

/-- The chain of linked resolvers. After a panic it has no result. -/
def resolveLinked (resolvers : List (SyncIdentityResolver ι μ σ × Json))
    (headers : List (String × String)) (metadata : μ) : Method σ (IdentityResolution ι) := fun s =>
  let out := resolveIdentityWithMetadata headers metadata
    (resolvers.map (Prod.map SyncIdentityAdapter id)) ⟨s, false⟩
  (if out.2.panicked then .panicked else .returned out.1, out.2.plugins)

/-- The protocol crate's side of a resolver's slot. -/
structure IdentityAbi (ι μ : Type) where
  RIdentityResolution : Type
  resolutionInto : IdentityResolution ι → RIdentityResolution
  resolutionFrom : RIdentityResolution → IdentityResolution ι
  /-- What `catch_panic_to_identity_invalid` answers. -/
  panicInvalid : RIdentityResolution
  metadataText : μ → Text
  /-- An empty text is among those that are not read. -/
  readMetadata : Text → Except String μ
  defaultMetadata : μ

/-- Resolutions and metadata cross unchanged, and the guard answers an invalid credential. -/
structure IdentityAbi.Lawful (abi : IdentityAbi ι μ) : Prop where
  resolution : ∀ r, abi.resolutionFrom (abi.resolutionInto r) = r
  metadata : ∀ m, abi.readMetadata (abi.metadataText m) = .ok m
  invalid : ∃ reason, abi.resolutionFrom abi.panicInvalid = .invalid reason

/-- A header as the slot reads it: an array that starts with two strings. -/
def readHeader : Json → Option (String × String)
  | .arr (.str name :: .str value :: _) => some (name, value)
  | _ => none

/-- The headers the slot reads: entries that are none are passed over. -/
def readHeaders (headersJson : Text) : List (String × String) :=
  match headersJson with
  | .ok (.arr entries) => entries.filterMap readHeader
  | _ => []

/-- The headers as the host writes them: an array of pairs. -/
def headersValue (headers : List (String × String)) : Json :=
  .arr (headers.map fun h => .arr [.str h.1, .str h.2])

variable (abi : IdentityAbi ι μ)

/-- `__mcpg_identity_resolve`. -/
def identityResolve (plugin : SyncIdentityResolver ι μ σ) (headersJson metadataJson configJson : Text)
    (s : σ) : abi.RIdentityResolution × σ :=
  catchPanicTo abi.panicInvalid abi.resolutionInto (plugin.resolveIdentity (readHeaders headersJson)
    ((abi.readMetadata metadataJson).toOption.getD abi.defaultMetadata) (valueOrEmpty configJson)) s

/-- The slot of a resolver. -/
abbrev IdentitySlot (σ : Type) : Type := Text → Text → Text → σ → abi.RIdentityResolution × σ

/-- What the host makes of the slot of a resolver: something its chain can call. -/
abbrev IdentityAdapter (σ : Type) : Type := IdentitySlot abi σ → IdentityProviderPlugin ι μ σ

variable {abi}

/-- What the host promises of its adapter: where the config fits, it calls the slot with the headers as
an array of pairs, the metadata's text and a text that is read back as the config, and returns what the
slot answers. -/
def IdentityDelegates (host : IdentityAdapter abi σ) (Fits : Json → Prop) : Prop :=
  ∀ slot headers metadata config s, Fits config →
    (host slot).resolveIdentity headers metadata config s =
      (slot (.ok (headersValue headers)) (abi.metadataText metadata) (.ok config) s).map
        abi.resolutionFrom id

/-- The chain of resolvers behind their slots. -/
def resolveLoaded (host : IdentityAdapter abi σ) (resolvers : List (SyncIdentityResolver ι μ σ × Json))
    (headers : List (String × String)) (metadata : μ) (s : σ) : IdentityResolution ι × σ :=
  resolveIdentityWithMetadata headers metadata
    (resolvers.map (Prod.map (fun plugin => host (identityResolve abi plugin)) id)) s

theorem readHeaders_headersValue (headers : List (String × String)) :
    readHeaders (.ok (headersValue headers)) = headers := by
  show (headers.map _).filterMap readHeader = headers
  rw [List.filterMap_map]
  exact List.filterMap_some

theorem host_resolveIdentity (h : abi.Lawful) {host : IdentityAdapter abi σ} {Fits : Json → Prop}
    (hhost : IdentityDelegates host Fits) (plugin : SyncIdentityResolver ι μ σ)
    (headers : List (String × String)) (metadata : μ) {config : Json} (hconfig : Fits config) (s : σ) :
    (host (identityResolve abi plugin)).resolveIdentity headers metadata config s =
      catchPanicTo (abi.resolutionFrom abi.panicInvalid) id
        (plugin.resolveIdentity headers metadata config) s := by
  rw [hhost _ _ _ _ _ hconfig]
  show (catchPanicTo _ _ (plugin.resolveIdentity (readHeaders (.ok (headersValue headers)))
    ((abi.readMetadata (abi.metadataText metadata)).toOption.getD _) config) s).map _ id = _
  rw [readHeaders_headersValue, h.metadata]
  exact map_catchPanicTo _ h.resolution _ s

/-- How the end of a chain of loaded resolvers compares with that of the linked ones. -/
structure ResolvesAlike (abi : IdentityAbi ι μ) (linked : IdentityResolution ι × Unwind σ)
    (loaded : IdentityResolution ι × σ) : Prop where
  state : linked.2.plugins = loaded.2
  returned : linked.2.panicked = false → loaded.1 = linked.1
  panicked : linked.2.panicked = true → loaded.1 = abi.resolutionFrom abi.panicInvalid

theorem resolves_alike (h : abi.Lawful) {host : IdentityAdapter abi σ} {Fits : Json → Prop}
    (hhost : IdentityDelegates host Fits) (headers : List (String × String)) (metadata : μ)
    (resolvers : List (SyncIdentityResolver ι μ σ × Json)) (hfits : ∀ r ∈ resolvers, Fits r.2) (s : σ) :
    ResolvesAlike abi
      (resolveIdentityWithMetadata headers metadata
        (resolvers.map (Prod.map SyncIdentityAdapter id)) ⟨s, false⟩)
      (resolveLoaded host resolvers headers metadata s) := by
  obtain ⟨reason, hreason⟩ := h.invalid
  unfold resolveLoaded
  induction resolvers generalizing s with
  | nil => exact ⟨rfl, fun _ => rfl, fun hp => (nomatch hp)⟩
  | cons resolver resolvers ih =>
    obtain ⟨hconfig, hrest⟩ := List.forall_mem_cons.mp hfits
    rcases hown : resolver.1.resolveIdentity headers metadata resolver.2 s with ⟨r | _, s'⟩
    · have hlinked : (SyncIdentityAdapter resolver.1).resolveIdentity headers metadata resolver.2
          ⟨s, false⟩ = (r, ⟨s', false⟩) := by
        simp only [SyncIdentityAdapter, unwinding, hown]
      have hloaded : (host (identityResolve abi resolver.1)).resolveIdentity headers metadata
          resolver.2 s = (r, s') := by
        rw [host_resolveIdentity h hhost _ _ _ hconfig, catchPanicTo]
        simp only [hown, id]
      simp only [List.map_cons, Prod.map, id, resolveIdentityWithMetadata, hlinked, hloaded]
      cases r with
      | resolved identity => exact ⟨rfl, fun _ => rfl, fun hp => (nomatch hp)⟩
      | invalid reason => exact ⟨rfl, fun _ => rfl, fun hp => (nomatch hp)⟩
      | none => exact ih hrest s'
    · have hlinked : (SyncIdentityAdapter resolver.1).resolveIdentity headers metadata resolver.2
          ⟨s, false⟩ = (.invalid "", ⟨s', true⟩) := by
        simp only [SyncIdentityAdapter, unwinding, hown]
      have hloaded : (host (identityResolve abi resolver.1)).resolveIdentity headers metadata
          resolver.2 s = (.invalid reason, s') := by
        rw [host_resolveIdentity h hhost _ _ _ hconfig, catchPanicTo]
        simp only [hown, hreason]
      simp only [List.map_cons, Prod.map, id, resolveIdentityWithMetadata, hlinked, hloaded]
      exact ⟨rfl, fun hp => (nomatch hp), fun _ => hreason.symm⟩

/-- **A panic is no way past a resolver.** For every list of resolvers whose configs fit in a text,
whatever they do, and every request: the loaded chain leaves the plugins as the linked one does, and
answers as it answers; where the linked chain panics, the loaded one answers that the credential is
invalid, and asks no further resolver. An identity is thus handed out, or a request taken for anonymous,
only where the linked chain does so. -/
theorem identities_agree (h : abi.Lawful) {host : IdentityAdapter abi σ} {Fits : Json → Prop}
    (hhost : IdentityDelegates host Fits) (resolvers : List (SyncIdentityResolver ι μ σ × Json))
    (hfits : ∀ r ∈ resolvers, Fits r.2) (headers : List (String × String)) (metadata : μ) (s : σ) :
    let linked := resolveLinked resolvers headers metadata s
    let loaded := resolveLoaded host resolvers headers metadata s
    linked.2 = loaded.2 ∧ (∀ r, linked.1 = .returned r → loaded.1 = r) ∧
      (linked.1 = .panicked → ∃ reason, loaded.1 = .invalid reason) ∧
      ((∀ reason, loaded.1 ≠ .invalid reason) → linked.1 = .returned loaded.1) := by
  obtain ⟨reason, hreason⟩ := h.invalid
  have hagrees := resolves_alike h hhost headers metadata resolvers hfits s
  unfold resolveLinked
  revert hagrees
  generalize resolveIdentityWithMetadata headers metadata
    (resolvers.map (Prod.map SyncIdentityAdapter id)) ⟨s, false⟩ = linked
  generalize resolveLoaded host resolvers headers metadata s = loaded
  rintro ⟨hstate, hreturned, hpanicked⟩
  dsimp only
  refine ⟨hstate, ?_⟩
  cases hp : linked.2.panicked with
  | false =>
    have hresult := hreturned hp
    exact ⟨fun r hr => hresult.trans (Attempt.returned.inj hr), fun hr => (nomatch hr),
      fun _ => congrArg Attempt.returned hresult.symm⟩
  | true =>
    have hclosed : loaded.1 = .invalid reason := (hpanicked hp).trans hreason
    exact ⟨fun r hr => (nomatch hr), fun _ => ⟨reason, hclosed⟩, fun hne => absurd hclosed (hne reason)⟩

end Identity

/-- Resolutions and metadata that are their own copies at the boundary. -/
def plainIdentityAbi : IdentityAbi String Unit where
  RIdentityResolution := IdentityResolution String
  resolutionInto := id
  resolutionFrom := id
  panicInvalid := .invalid "plugin panicked"
  metadataText _ := .ok (.obj [])
  readMetadata text := text.map fun _ => ()
  defaultMetadata := ()

theorem plainIdentityAbi_lawful : plainIdentityAbi.Lawful where
  resolution _ := rfl
  metadata _ := rfl
  invalid := ⟨_, rfl⟩

/-- A resolver that counts its calls and answers as it is told. -/
def countingResolver (resolution : Attempt (IdentityResolution String)) :
    SyncIdentityResolver String Unit ℕ where
  resolveIdentity _ _ _ calls := (resolution, calls + 1)

/-- A resolver that passes, one that panics, and one that takes everybody for a guest. -/
def guestAfterPanic : List (SyncIdentityResolver String Unit ℕ × Json) :=
  [(countingResolver (.returned .none), .null), (countingResolver .panicked, .null),
    (countingResolver (.returned (.resolved "guest")), .null)]

/-- An adapter that writes every config by `text`. -/
def plainIdentityAdapter (σ : Type) (text : Json → Text) : IdentityAdapter plainIdentityAbi σ :=
  fun slot =>
    { resolveIdentity := fun headers _ config s =>
        (slot (.ok (headersValue headers)) (.ok (.obj [])) (text config) s).map id id }

theorem plainIdentityAdapter_delegates (σ : Type) (text : Json → Text) :
    IdentityDelegates (plainIdentityAdapter σ text) fun v => text v = .ok v := by
  intro slot headers metadata config s hconfig
  simp only [plainIdentityAdapter, hconfig]
  rfl

theorem identities_agree_guestAfterPanic :
    let host := plainIdentityAdapter ℕ .ok
    (resolveLinked guestAfterPanic [("authorization", "x")] () 0).1 = .panicked ∧
      (∃ reason, (resolveLoaded host guestAfterPanic [("authorization", "x")] () 0).1 =
        .invalid reason) ∧
      (resolveLoaded host guestAfterPanic [("authorization", "x")] () 0).2 = 2 := by
  obtain ⟨-, -, hpanicked, -⟩ := identities_agree plainIdentityAbi_lawful
    (plainIdentityAdapter_delegates ℕ .ok) guestAfterPanic (fun _ _ => rfl) [("authorization", "x")] ()
    0
  exact ⟨rfl, hpanicked rfl, rfl⟩

end Testing

end McpgSdk
