import McpgSdk.Lib.Json
import McpgSdk.Lib.Run

/-!
# The mock gateway's plugin chain

A simulated tool call passes the gates, the transforms of its arguments, an execution that echoes the
arguments, the transforms of the result, and the gates again. Any of them may interrupt it.

* `callToolWithMeta`: the call, as four loops over two lists of plugins. Plugins share a state that
  every call may read and change; each call made is recorded with its answer (`World`);
* `Stage`, `stages`: the chain as one list; `follow`: one loop over it, with the values threaded so far;
* **`callToolWithMeta_eq_follow`**: the four loops are that one loop;
* `Chained`: what it means that a run of the chain ended at its first interruption, with
  **`chained_follow`** for any chain, and `Chained.denied`: a denial is final;
* **`call_to_first_interruption`**: so every call runs the chain to its first interruption.
-/

set_option autoImplicit false

namespace McpgSdk

namespace Testing

/-! ## What plugins are given and answer -/

/-- What a plugin is told about the request. The identity is handed on and never read. -/
structure PluginContext (ι : Type) where
  requestId : String
  sessionId : Option String
  toolName : String
  surface : String
  identity : ι
  transport : String

/-- What a gate decides, with the fields the gateway reads and the others in `details`. -/
inductive GateDecision
  | allow (details : Json)
  | deny (message : String) (details : Json)
  | challenge (challengeData : Json) (details : Json)
  | pendingApproval (details : Json)

/-- What a transform does to its value. -/
inductive TransformResult
  | unchanged
  | modified (value : Json)
  | error (message : String)

/-- A gate: it decides from what it is given and the state of the plugins, which it may change. -/
structure ToolGatePlugin (ι σ : Type) where
  evaluatePreDispatch :
    PluginContext ι → Json → Option Json → Json → σ → GateDecision × σ
  evaluatePostDispatch :
    PluginContext ι → Json → Json → ℕ → Json → σ → GateDecision × σ

/-- A transform of arguments and of results. -/
structure TransformPlugin (ι σ : Type) where
  transformArguments : PluginContext ι → Json → Json → σ → TransformResult × σ
  transformResult : PluginContext ι → Json → Json → σ → TransformResult × σ

/-- The plugins of the chain in the order they were registered, each with its config. -/
structure MockGateway (ι σ : Type) where
  toolGates : List (ToolGatePlugin ι σ × Json)
  transforms : List (TransformPlugin ι σ × Json)
  defaultIdentity : ι

/-- Where a tool call stopped. -/
inductive ToolCallPhase
  | preDispatchGate
  | preDispatchTransform
  | postDispatchGate
  | postDispatchTransform
  | complete
  deriving DecidableEq, Repr

/-- The result of a simulated tool call. -/
structure ToolCallResult where
  phase : ToolCallPhase
  gateDecision : Option GateDecision
  arguments : Json
  result : Option Json
  metadata : List Json := []

/-- A call of a plugin with all it is given. -/
inductive Call (ι σ : Type)
  | preDispatch (gate : ToolGatePlugin ι σ) (config : Json) (ctx : PluginContext ι) (arguments : Json)
    (callMeta : Option Json)
  | transformArguments (transform : TransformPlugin ι σ) (config : Json) (ctx : PluginContext ι)
    (arguments : Json)
  | transformResult (transform : TransformPlugin ι σ) (config : Json) (ctx : PluginContext ι)
    (result : Json)
  | postDispatch (gate : ToolGatePlugin ι σ) (config : Json) (ctx : PluginContext ι)
    (arguments result : Json) (elapsedMs : ℕ)

/-- The answer to a call. -/
inductive Answer
  | gate (decision : GateDecision)
  | transform (result : TransformResult)

/-- The state of the plugins, and every call made with its answer. -/
structure World (ι σ : Type) where
  plugins : σ
  made : List (Call ι σ × Answer)

section Code

variable {ι σ : Type}

/-- Record a call and its answer. -/
def World.after (w : World ι σ) (plugins : σ) (call : Call ι σ) (answer : Answer) : World ι σ :=
  ⟨plugins, w.made ++ [(call, answer)]⟩

/-- The context of a mock call. -/
def MockGateway.context (gw : MockGateway ι σ) (toolName : String) : PluginContext ι where
  requestId := "mock-request-1"
  sessionId := some "mock-session-1"
  toolName := toolName
  surface := "tool"
  identity := gw.defaultIdentity
  transport := "mock"

/-- The result reported for a transform that failed. -/
def errorResult (message : String) : Json := .obj [("error", .str message)]

/-- The simulated execution: the arguments' text as the content. -/
def echo (toText : Json → String) (arguments : Json) : Json :=
  .obj [("content", .arr [.obj [("text", .str (toText arguments)), ("type", .str "text")]]),
    ("isError", .bool false)]

/-- Milliseconds the simulated execution takes. -/
def simulatedMs : ℕ := 1

variable (ctx : PluginContext ι)

/-! ## The call -/

/-- Step 1: the gates before the execution. The call returns early with a result. -/
def preDispatchGates (arguments : Json) (callMeta : Option Json) :
    List (ToolGatePlugin ι σ × Json) → World ι σ → Option ToolCallResult × World ι σ
  | [], w => (none, w)
  | (gate, config) :: rest, w =>
    let d := gate.evaluatePreDispatch ctx arguments callMeta config w.plugins
    let w' := w.after d.2 (.preDispatch gate config ctx arguments callMeta) (.gate d.1)
    match d.1 with
    | .deny _ _ => (some ⟨.preDispatchGate, some d.1, arguments, none, []⟩, w')
    | .challenge _ _ => (some ⟨.preDispatchGate, some d.1, arguments, none, []⟩, w')
    | .allow _ => preDispatchGates arguments callMeta rest w'
    -- the harness has no pause and resume: surfaced as the end of the call
    | .pendingApproval _ => (some ⟨.preDispatchGate, some d.1, arguments, none, []⟩, w')

/-- Step 2: the transforms of the arguments, each on the output of the one before. -/
def argumentTransforms :
    List (TransformPlugin ι σ × Json) → Json → World ι σ → Except ToolCallResult Json × World ι σ
  | [], currentArgs, w => (.ok currentArgs, w)
  | (transform, config) :: rest, currentArgs, w =>
    let r := transform.transformArguments ctx currentArgs config w.plugins
    let w' := w.after r.2 (.transformArguments transform config ctx currentArgs) (.transform r.1)
    match r.1 with
    | .unchanged => argumentTransforms rest currentArgs w'
    | .modified value => argumentTransforms rest value w'
    | .error message =>
      (.error ⟨.preDispatchTransform, none, currentArgs, some (errorResult message), []⟩, w')

/-- Step 4: the transforms of the result, each on the output of the one before. -/
def resultTransforms (currentArgs : Json) :
    List (TransformPlugin ι σ × Json) → Json → World ι σ → Except ToolCallResult Json × World ι σ
  | [], currentResult, w => (.ok currentResult, w)
  | (transform, config) :: rest, currentResult, w =>
    let r := transform.transformResult ctx currentResult config w.plugins
    let w' := w.after r.2 (.transformResult transform config ctx currentResult) (.transform r.1)
    match r.1 with
    | .unchanged => resultTransforms currentArgs rest currentResult w'
    | .modified value => resultTransforms currentArgs rest value w'
    | .error message =>
      (.error ⟨.postDispatchTransform, none, currentArgs, some (errorResult message), []⟩, w')

/-- Step 5: the gates after the execution. -/
def postDispatchGates (currentArgs currentResult : Json) :
    List (ToolGatePlugin ι σ × Json) → World ι σ → Option ToolCallResult × World ι σ
  | [], w => (none, w)
  | (gate, config) :: rest, w =>
    let d := gate.evaluatePostDispatch ctx currentArgs currentResult simulatedMs config w.plugins
    let w' := w.after d.2 (.postDispatch gate config ctx currentArgs currentResult simulatedMs)
      (.gate d.1)
    match d.1 with
    | .deny _ _ => (some ⟨.postDispatchGate, some d.1, currentArgs, some currentResult, []⟩, w')
    | .challenge _ _ => (some ⟨.postDispatchGate, some d.1, currentArgs, some currentResult, []⟩, w')
    | .pendingApproval _ =>
      (some ⟨.postDispatchGate, some d.1, currentArgs, some currentResult, []⟩, w')
    | .allow _ => postDispatchGates currentArgs currentResult rest w'

/-- A tool call through the whole chain. `toText` is the compact text of a value. -/
def MockGateway.callToolWithMeta (gw : MockGateway ι σ) (toText : Json → String) (toolName : String)
    (arguments : Json) (callMeta : Option Json) (w : World ι σ) : ToolCallResult × World ι σ :=
  let ctx := gw.context toolName
  match preDispatchGates ctx arguments callMeta gw.toolGates w with
  | (some early, w) => (early, w)
  | (none, w) =>
    match argumentTransforms ctx gw.transforms arguments w with
    | (.error early, w) => (early, w)
    | (.ok currentArgs, w) =>
      match resultTransforms ctx currentArgs gw.transforms (echo toText currentArgs) w with
      | (.error early, w) => (early, w)
      | (.ok currentResult, w) =>
        match postDispatchGates ctx currentArgs currentResult gw.toolGates w with
        | (some early, w) => (early, w)
        | (none, w) => (⟨.complete, none, currentArgs, some currentResult, []⟩, w)

/-- A tool call without metadata. -/
def MockGateway.callTool (gw : MockGateway ι σ) (toText : Json → String) (toolName : String)
    (arguments : Json) (w : World ι σ) : ToolCallResult × World ι σ :=
  gw.callToolWithMeta toText toolName arguments none w

/-- The call passed the whole chain. -/
def ToolCallResult.isAllowed (r : ToolCallResult) : Bool := r.phase == .complete

/-- A gate denied the call. -/
def ToolCallResult.isDenied (r : ToolCallResult) : Bool :=
  match r.gateDecision with
  | some (.deny _ _) => true
  | _ => false

end Code

/-! ## The chain as one list -/

/-- A plugin of the chain, in the place where it is called. -/
inductive Stage (ι σ : Type)
  | preGate (gate : ToolGatePlugin ι σ × Json)
  | arguments (transform : TransformPlugin ι σ × Json)
  | result (transform : TransformPlugin ι σ × Json)
  | postGate (gate : ToolGatePlugin ι σ × Json)

section Chain

variable {ι σ : Type}

/-- All stages in order: the gates, the transforms of the arguments, those of the result, the gates. -/
def MockGateway.stages (gw : MockGateway ι σ) : List (Stage ι σ) :=
  gw.toolGates.map .preGate ++ (gw.transforms.map .arguments ++
    (gw.transforms.map .result ++ gw.toolGates.map .postGate))

/-- The values threaded through the chain: the arguments, and the result of executing with them. -/
structure Threaded where
  args : Json
  result : Json

/-- Arguments not executed yet: their result would be their echo. -/
def threaded (toText : Json → String) (args : Json) : Threaded := ⟨args, echo toText args⟩

/-- What a call leaves of the threaded values. -/
def Threaded.after (toText : Json → String) (t : Threaded) : Call ι σ × Answer → Threaded
  | (.transformArguments _ _ _ _, .transform (.modified value)) => threaded toText value
  | (.transformResult _ _ _ _, .transform (.modified value)) => { t with result := value }
  | _ => t

/-- The answer ends the call: a gate does not allow it, or a transform fails. -/
def Answer.interrupts : Answer → Bool
  | .gate (.allow _) => false
  | .gate _ => true
  | .transform (.error _) => true
  | .transform _ => false

/-- The decision of an answer, if a gate gave it. -/
def Answer.decision : Answer → Option GateDecision
  | .gate decision => some decision
  | .transform _ => none

/-- The phase a call belongs to. -/
def Call.phase : Call ι σ → ToolCallPhase
  | .preDispatch _ _ _ _ _ => .preDispatchGate
  | .transformArguments _ _ _ _ => .preDispatchTransform
  | .transformResult _ _ _ _ => .postDispatchTransform
  | .postDispatch _ _ _ _ _ _ => .postDispatchGate

/-- The result reported with an interruption. -/
def reportedResult : Call ι σ → Answer → Option Json
  | .postDispatch _ _ _ _ result _, _ => some result
  | _, .transform (.error message) => some (errorResult message)
  | _, _ => none

/-- What an interrupting call makes of the tool call. -/
def interrupted (t : Threaded) (m : Call ι σ × Answer) : ToolCallResult :=
  ⟨m.1.phase, m.2.decision, t.args, reportedResult m.1 m.2, []⟩

/-- What a chain without interruption makes of it. -/
def completed (t : Threaded) : ToolCallResult := ⟨.complete, none, t.args, some t.result, []⟩

/-- Perform a call. -/
def Call.perform : Call ι σ → σ → Answer × σ
  | .preDispatch gate config ctx arguments callMeta, s =>
    let d := gate.evaluatePreDispatch ctx arguments callMeta config s
    (.gate d.1, d.2)
  | .transformArguments transform config ctx arguments, s =>
    let r := transform.transformArguments ctx arguments config s
    (.transform r.1, r.2)
  | .transformResult transform config ctx result, s =>
    let r := transform.transformResult ctx result config s
    (.transform r.1, r.2)
  | .postDispatch gate config ctx arguments result elapsedMs, s =>
    let d := gate.evaluatePostDispatch ctx arguments result elapsedMs config s
    (.gate d.1, d.2)

/-- Perform calls one after the other. -/
def replay : List (Call ι σ) → σ → List Answer × σ
  | [], s => ([], s)
  | call :: rest, s =>
    let a := call.perform s
    let r := replay rest a.2
    (a.1 :: r.1, r.2)

/-- What is fixed for a whole call. -/
structure Request (ι : Type) where
  toText : Json → String
  ctx : PluginContext ι
  original : Json
  callMeta : Option Json

/-- The call a stage makes when `t` is threaded so far. -/
def Stage.call (q : Request ι) (t : Threaded) : Stage ι σ → Call ι σ
  | .preGate gate => .preDispatch gate.1 gate.2 q.ctx q.original q.callMeta
  | .arguments transform => .transformArguments transform.1 transform.2 q.ctx t.args
  | .result transform => .transformResult transform.1 transform.2 q.ctx t.result
  | .postGate gate => .postDispatch gate.1 gate.2 q.ctx t.args t.result simulatedMs

/-- One loop over the chain, to the first interruption. -/
def follow (q : Request ι) :
    List (Stage ι σ) → Threaded → World ι σ → ToolCallResult × World ι σ
  | [], t, w => (completed t, w)
  | stage :: rest, t, w =>
    let call := stage.call q t
    let a := call.perform w.plugins
    let w' := w.after a.2 call a.1
    if a.1.interrupts then (interrupted t (call, a.1), w')
    else follow q rest (t.after q.toText (call, a.1)) w'

/-! ## The four loops are one -/

variable (q : Request ι) (rest : List (Stage ι σ))

theorem follow_cons {q : Request ι} {rest : List (Stage ι σ)} {stage : Stage ι σ} {t : Threaded}
    {w : World ι σ} {a : Answer} {s : σ} (h : (stage.call q t).perform w.plugins = (a, s)) :
    follow q (stage :: rest) t w =
      if a.interrupts then (interrupted t (stage.call q t, a), w.after s (stage.call q t) a)
      else follow q rest (t.after q.toText (stage.call q t, a)) (w.after s (stage.call q t) a) := by
  simp only [follow, h]

theorem follow_preGates (gates : List (ToolGatePlugin ι σ × Json)) {t : Threaded}
    (ht : t.args = q.original) (w : World ι σ) :
    follow q (gates.map .preGate ++ rest) t w =
      match preDispatchGates q.ctx q.original q.callMeta gates w with
      | (some early, w) => (early, w)
      | (none, w) => follow q rest t w := by
  induction gates generalizing w with
  | nil => rfl
  | cons gate gates ih =>
    cases hd : gate.1.evaluatePreDispatch q.ctx q.original q.callMeta gate.2 w.plugins with
    | mk decision s =>
    have hperform : ((Stage.preGate gate).call q t).perform w.plugins = (.gate decision, s) := by
      simp only [Stage.call, Call.perform, hd]
    rw [List.map_cons, List.cons_append, follow_cons hperform]
    simp only [preDispatchGates, hd]
    cases decision with
    | allow details => exact ih _
    | deny message details | challenge data details | pendingApproval details =>
      simp only [Answer.interrupts, interrupted, if_true, ht]
      rfl

theorem follow_arguments (transforms : List (TransformPlugin ι σ × Json)) (args : Json)
    (w : World ι σ) :
    follow q (transforms.map .arguments ++ rest) (threaded q.toText args) w =
      match argumentTransforms q.ctx transforms args w with
      | (.error early, w) => (early, w)
      | (.ok args, w) => follow q rest (threaded q.toText args) w := by
  induction transforms generalizing args w with
  | nil => rfl
  | cons transform transforms ih =>
    cases hr : transform.1.transformArguments q.ctx args transform.2 w.plugins with
    | mk result s =>
    have hperform : ((Stage.arguments transform).call q (threaded q.toText args)).perform w.plugins =
        (.transform result, s) := by
      simp only [Stage.call, Call.perform, threaded, hr]
    rw [List.map_cons, List.cons_append, follow_cons hperform]
    simp only [argumentTransforms, hr]
    cases result with
    | unchanged => exact ih _ _
    | modified value => exact ih _ _
    | error message => rfl

theorem follow_results (transforms : List (TransformPlugin ι σ × Json)) (args result : Json)
    (w : World ι σ) :
    follow q (transforms.map .result ++ rest) ⟨args, result⟩ w =
      match resultTransforms q.ctx args transforms result w with
      | (.error early, w) => (early, w)
      | (.ok result, w) => follow q rest ⟨args, result⟩ w := by
  induction transforms generalizing result w with
  | nil => rfl
  | cons transform transforms ih =>
    cases hr : transform.1.transformResult q.ctx result transform.2 w.plugins with
    | mk answer s =>
    have hperform : ((Stage.result transform).call q ⟨args, result⟩).perform w.plugins =
        (.transform answer, s) := by
      simp only [Stage.call, Call.perform, hr]
    rw [List.map_cons, List.cons_append, follow_cons hperform]
    simp only [resultTransforms, hr]
    cases answer with
    | unchanged => exact ih _ _
    | modified value => exact ih _ _
    | error message => rfl

theorem follow_postGates (gates : List (ToolGatePlugin ι σ × Json)) (args result : Json)
    (w : World ι σ) :
    follow q (gates.map .postGate) ⟨args, result⟩ w =
      match postDispatchGates q.ctx args result gates w with
      | (some early, w) => (early, w)
      | (none, w) => (completed ⟨args, result⟩, w) := by
  induction gates generalizing w with
  | nil => rfl
  | cons gate gates ih =>
    cases hd : gate.1.evaluatePostDispatch q.ctx args result simulatedMs gate.2 w.plugins with
    | mk decision s =>
    have hperform : ((Stage.postGate gate).call q ⟨args, result⟩).perform w.plugins =
        (.gate decision, s) := by
      simp only [Stage.call, Call.perform, hd]
    rw [List.map_cons, follow_cons hperform]
    simp only [postDispatchGates, hd]
    cases decision with
    | allow details => exact ih _
    | deny message details | challenge data details | pendingApproval details => rfl

/-- **The four loops are one loop over the chain.** -/
theorem callToolWithMeta_eq_follow (gw : MockGateway ι σ) (toText : Json → String) (toolName : String)
    (arguments : Json) (callMeta : Option Json) (w : World ι σ) :
    gw.callToolWithMeta toText toolName arguments callMeta w =
      follow ⟨toText, gw.context toolName, arguments, callMeta⟩ gw.stages (threaded toText arguments)
        w := by
  rw [MockGateway.stages, follow_preGates _ _ _ rfl, MockGateway.callToolWithMeta]
  dsimp only
  rcases preDispatchGates (gw.context toolName) arguments callMeta gw.toolGates w with ⟨_ | early, w₁⟩
  · dsimp only
    have hargs := follow_arguments ⟨toText, gw.context toolName, arguments, callMeta⟩
      (gw.transforms.map .result ++ gw.toolGates.map .postGate) gw.transforms arguments w₁
    rw [hargs]
    rcases argumentTransforms (gw.context toolName) gw.transforms arguments w₁ with ⟨early | args, w₂⟩
    · rfl
    · dsimp only [threaded]
      rw [follow_results]
      dsimp only
      rcases resultTransforms (gw.context toolName) args gw.transforms (echo toText args) w₂ with
        ⟨early | result, w₃⟩
      · rfl
      · dsimp only
        rw [follow_postGates]
        rfl
  · rfl

end Chain

/-! ## To the first interruption -/

section Interruption

variable {ι σ : Type}

/-- A run of a chain from the threaded values `t₀` and the plugins' state `s₀`, which made the calls
`made`, ended in the result `r` and left the plugins in the state `s`, went exactly to its first
interruption. -/
structure Chained (q : Request ι) (stages : List (Stage ι σ)) (t₀ : Threaded) (s₀ : σ)
    (made : List (Call ι σ × Answer)) (r : ToolCallResult) (s : σ) : Prop where
  /-- Every call is that of its stage, on the values threaded by the calls before it. -/
  calls : ∀ pre m post, made = pre ++ m :: post → ∃ stage, stages[pre.length]? = some stage ∧
    m.1 = stage.call q (pre.foldl (Threaded.after q.toText) t₀)
  /-- The answers are those the plugins give to these calls in this order. -/
  answers : replay (made.map Prod.fst) s₀ = (made.map Prod.snd, s)
  /-- No call is made after one that interrupts. -/
  last : ∀ pre m post, made = pre ++ m :: post → m.2.interrupts = true → post = []
  /-- Without an interruption every stage is called. -/
  whole : (∀ m ∈ made, m.2.interrupts = false) → made.length = stages.length
  /-- The call completes exactly when nothing interrupts. -/
  complete : r.phase = .complete ↔ ∀ m ∈ made, m.2.interrupts = false
  finished : (∀ m ∈ made, m.2.interrupts = false) →
    r = completed (made.foldl (Threaded.after q.toText) t₀)
  /-- Phase and decision are those of the interrupting call, the arguments those threaded up to it. -/
  stopped : ∀ pre m, made = pre ++ [m] → m.2.interrupts = true →
    r = interrupted (pre.foldl (Threaded.after q.toText) t₀) m

theorem phase_ne_complete (call : Call ι σ) : call.phase ≠ .complete := by
  cases call <;> exact fun h => ToolCallPhase.noConfusion h

variable {q : Request ι} {rest : List (Stage ι σ)} {stage : Stage ι σ} {t : Threaded} {s₀ s₁ s : σ}
  {a : Answer}

theorem chained_nil (q : Request ι) (t : Threaded) (s : σ) :
    Chained q ([] : List (Stage ι σ)) t s [] (completed t) s where
  calls _ _ _ h := absurd h nil_ne_split
  answers := rfl
  last _ _ _ h := absurd h nil_ne_split
  whole _ := rfl
  complete := iff_of_true rfl (List.forall_mem_nil _)
  finished _ := rfl
  stopped _ _ h := absurd h nil_ne_split

theorem chained_stop (hperform : (stage.call q t).perform s₀ = (a, s)) (ha : a.interrupts = true) :
    Chained q (stage :: rest) t s₀ [(stage.call q t, a)] (interrupted t (stage.call q t, a)) s := by
  have hsplit : ∀ {pre post : List (Call ι σ × Answer)} {m : Call ι σ × Answer},
      [(stage.call q t, a)] = pre ++ m :: post → pre = [] ∧ m = (stage.call q t, a) ∧ post = [] := by
    intro pre post m h
    cases pre with
    | nil =>
      obtain ⟨rfl, rfl⟩ := List.cons.inj h
      exact ⟨rfl, rfl, rfl⟩
    | cons m' pre =>
      exact absurd (List.cons.inj h).2 nil_ne_split
  have hsome : ¬ ∀ m ∈ [(stage.call q t, a)], m.2.interrupts = false := by
    intro hall
    rw [hall _ List.mem_cons_self] at ha
    cases ha
  refine ⟨fun pre m post h => ?_, ?_, fun pre m post h _ => (hsplit h).2.2,
    fun hall => absurd hall hsome, iff_of_false (phase_ne_complete _) hsome,
    fun hall => absurd hall hsome, fun pre m h _ => ?_⟩
  · obtain ⟨rfl, rfl, -⟩ := hsplit h
    exact ⟨stage, rfl, rfl⟩
  · simp only [List.map_cons, List.map_nil, replay, hperform]
  · obtain ⟨rfl, rfl, -⟩ := hsplit h
    rfl

theorem chained_next {made : List (Call ι σ × Answer)} {r : ToolCallResult}
    (hperform : (stage.call q t).perform s₀ = (a, s₁)) (ha : a.interrupts = false)
    (h : Chained q rest (t.after q.toText (stage.call q t, a)) s₁ made r s) :
    Chained q (stage :: rest) t s₀ ((stage.call q t, a) :: made) r s := by
  have hall : (∀ m ∈ (stage.call q t, a) :: made, m.2.interrupts = false) ↔
      ∀ m ∈ made, m.2.interrupts = false := by
    rw [List.forall_mem_cons]
    exact and_iff_right ha
  refine ⟨fun pre m post hsplit => ?_, ?_, fun pre m post hsplit hm => ?_, fun hnone => ?_,
    h.complete.trans hall.symm, fun hnone => h.finished (hall.mp hnone), fun pre m hsplit hm => ?_⟩
  · cases pre with
    | nil =>
      obtain ⟨rfl, -⟩ := List.cons.inj hsplit
      exact ⟨stage, rfl, rfl⟩
    | cons m' pre =>
      obtain ⟨rfl, hrest⟩ := List.cons.inj hsplit
      exact h.calls pre m post hrest
  · simp only [List.map_cons, replay, hperform, h.answers]
  · cases pre with
    | nil =>
      obtain ⟨rfl, -⟩ := List.cons.inj hsplit
      rw [ha] at hm
      cases hm
    | cons m' pre => exact h.last pre m post (List.cons.inj hsplit).2 hm
  · rw [List.length_cons, List.length_cons, h.whole (hall.mp hnone)]
  · cases pre with
    | nil =>
      obtain ⟨rfl, -⟩ := List.cons.inj hsplit
      rw [ha] at hm
      cases hm
    | cons m' pre =>
      obtain ⟨rfl, hrest⟩ := List.cons.inj hsplit
      exact h.stopped pre m hrest hm

/-- **One loop over a chain goes to the first interruption**, whatever the plugins do. -/
theorem chained_follow (q : Request ι) (stages : List (Stage ι σ)) (t : Threaded) (w : World ι σ) :
    ∃ made, (follow q stages t w).2.made = w.made ++ made ∧
      Chained q stages t w.plugins made (follow q stages t w).1 (follow q stages t w).2.plugins := by
  induction stages generalizing t w with
  | nil => exact ⟨[], (List.append_nil _).symm, chained_nil q t w.plugins⟩
  | cons stage rest ih =>
    cases hperform : (stage.call q t).perform w.plugins with
    | mk a s =>
    rw [follow_cons hperform]
    by_cases ha : a.interrupts = true
    · rw [if_pos ha]
      exact ⟨[(stage.call q t, a)], rfl, chained_stop hperform ha⟩
    · rw [if_neg ha]
      obtain ⟨made, hmade, hchain⟩ := ih (t.after q.toText (stage.call q t, a))
        (w.after s (stage.call q t) a)
      refine ⟨(stage.call q t, a) :: made, ?_, chained_next hperform (Bool.not_eq_true _ ▸ ha) hchain⟩
      rw [hmade, World.after, List.append_assoc, List.singleton_append]

theorem mem_made_follow {stages : List (Stage ι σ)} {w : World ι σ} {m : Call ι σ × Answer}
    (h : m ∈ w.made) : m ∈ (follow q stages t w).2.made := by
  obtain ⟨made, hmade, -⟩ := chained_follow q stages t w
  rw [hmade]
  exact List.mem_append_left made h

theorem first_mem_made {w : World ι σ} (hperform : (stage.call q t).perform w.plugins = (a, s)) :
    (stage.call q t, a) ∈ (follow q (stage :: rest) t w).2.made := by
  have hmem : (stage.call q t, a) ∈ (w.after s (stage.call q t) a).made :=
    List.mem_append_right _ (List.mem_singleton_self _)
  rw [follow_cons hperform]
  split_ifs
  · exact hmem
  · exact mem_made_follow hmem

/-- **A denial is final**: whatever was allowed before it, the call is denied. -/
theorem Chained.denied {stages : List (Stage ι σ)} {made : List (Call ι σ × Answer)}
    {r : ToolCallResult} (h : Chained q stages t s₀ made r s) {call : Call ι σ} {message : String}
    {details : Json} (hm : (call, Answer.gate (.deny message details)) ∈ made) :
    r.isDenied = true ∧ r.isAllowed = false := by
  obtain ⟨pre, post, hsplit⟩ := List.append_of_mem hm
  obtain rfl := h.last pre _ post hsplit rfl
  have hr := h.stopped pre _ hsplit rfl
  have hphase : r.phase ≠ .complete := by
    rw [hr]
    exact phase_ne_complete call
  refine ⟨?_, beq_false_of_ne hphase⟩
  rw [hr]
  rfl

/-- **The chain runs to the first interruption.** For any gates and transforms with any behaviour and
any call, the plugin calls made are exactly those up to and including the first interrupting one, in the
order of the stages and on the values threaded so far; the phase is complete exactly when every gate
allows and no transform fails; otherwise phase, decision and arguments are those of the interruption. -/
theorem call_to_first_interruption (gw : MockGateway ι σ) (toText : Json → String) (toolName : String)
    (arguments : Json) (callMeta : Option Json) (plugins : σ) :
    let r := gw.callToolWithMeta toText toolName arguments callMeta ⟨plugins, []⟩
    Chained ⟨toText, gw.context toolName, arguments, callMeta⟩ gw.stages (threaded toText arguments)
      plugins r.2.made r.1 r.2.plugins := by
  intro r
  obtain ⟨made, hmade, hchain⟩ := chained_follow
    ⟨toText, gw.context toolName, arguments, callMeta⟩ gw.stages (threaded toText arguments)
    ⟨plugins, []⟩
  rw [List.nil_append] at hmade
  rw [← hmade, ← callToolWithMeta_eq_follow] at hchain
  exact hchain

end Interruption

end Testing

end McpgSdk
