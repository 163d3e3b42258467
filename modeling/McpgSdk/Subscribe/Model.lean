import McpgSdk.Protocol
import McpgSdk.Lib.Run

/-!
# Callbacks lent across the boundary

A plugin that subscribes boxes its closure, leaks the box, and hands its address to another party with a
trampoline that turns the address back into the box. When the subscription is dropped, the party is told
to stop and the box is reclaimed. Four kinds of subscription do so: topics and peers with the cluster
coordinator, credential revocations and secret rotations with the gateway. They share one heap, in which
an address that was freed may be used again.

* `Kind`, `Pc`, `Sub`, `Registration`, `Invocation`, `World`: subscriptions, the parties' tables, the
  callbacks that run, and the heap;
* `free`, `trampoline`: the two places that trust an address; a wrong one is a `fault`;
* `step`: one step of a subscription, of a party or of a callback;
* `Promise`: what the allocator and the parties promise;
* `Moves`, **`moves_of_step`**: every way the system can move.
-/

set_option autoImplicit false

namespace McpgSdk

namespace Subscribe

/-- Who is handed a callback. -/
inductive Party
  /-- The cluster coordinator: `subscribe`, `watch_peers`, `cancel_stream`. -/
  | coordinator
  /-- The host bridge: `subscribe_…`, `host_unsubscribe`. -/
  | gateway
  deriving DecidableEq, Repr

/-- What a subscription is for. Its box, trampoline and reclaim are of this type. -/
inductive Kind
  | publishedMessage
  | peerEvent
  | credentialRevoked
  | secretRotation
  deriving DecidableEq, Repr

def Kind.party : Kind → Party
  | publishedMessage | peerEvent => .coordinator
  | credentialRevoked | secretRotation => .gateway

/-- Where a subscription stands. -/
inductive Pc
  /-- The callback is boxed; inside the party's subscribe call. -/
  | boxed (ctx : ℕ)
  /-- The call answered a handle; zero when it refused. -/
  | answered (ctx handle : ℕ)
  /-- The plugin holds the guard. -/
  | held (ctx handle : ℕ)
  /-- The guard is dropped; inside `cancel_stream` or `host_unsubscribe`. -/
  | revoking (ctx handle : ℕ)
  /-- Before the box is reclaimed. -/
  | revoked (ctx : ℕ)
  /-- The subscribe call was refused and its box reclaimed. -/
  | failed
  | dropped
  deriving DecidableEq, Repr

structure Sub where
  kind : Kind
  pc : Pc
  deriving DecidableEq, Repr

/-- A leaked box: its type, and whose it is. -/
structure CallbackBox where
  kind : Kind
  owner : ℕ
  deriving DecidableEq, Repr

/-- An entry of a party's table: the trampoline, the address it passes, and whose subscription it is. -/
structure Registration where
  kind : Kind
  handle : ℕ
  ctx : ℕ
  owner : ℕ
  deriving DecidableEq, Repr

/-- A callback that runs; `entered` once the trampoline looked at its box. -/
structure Invocation where
  reg : Registration
  payload : String
  entered : Bool
  deriving DecidableEq, Repr

/-- The heap, the subscriptions, the parties' tables, and what happened. -/
structure World where
  heap : BTreeMap ℕ CallbackBox
  subs : List Sub
  registered : List Registration
  running : List Invocation
  /-- An address was trusted that was not a box of the right type. -/
  fault : Bool
  /-- The subscriptions whose box was reclaimed. -/
  freed : List ℕ
  /-- The calls of the plugins' closures. -/
  calls : List (ℕ × String)

/-- A step of a subscription, of a party or of a callback. -/
inductive Act
  /-- A closure is boxed at `ctx`, and the subscribe call is made. -/
  | subscribe (kind : Kind) (ctx : ℕ)
  /-- The subscribe call answers. -/
  | answer (i handle : ℕ)
  /-- The plugin looks at the answer. -/
  | returns (i : ℕ)
  /-- The guard is dropped. -/
  | drop (i : ℕ)
  /-- The party takes the entry of the handle out of its table. -/
  | unregister (i : ℕ)
  /-- The unsubscribe call returns. -/
  | revoked (i : ℕ)
  /-- The box is reclaimed. -/
  | reclaim (i : ℕ)
  /-- The party ends a stream by itself. -/
  | shutdown (r : Registration)
  /-- The party calls a trampoline. -/
  | fire (r : Registration) (payload : String)
  /-- The trampoline looks at its box and calls the closure. -/
  | enter (c : Invocation)
  /-- The closure returns. -/
  | finish (c : Invocation)

namespace World

/-- Nothing is subscribed. -/
def start : World := ⟨∅, [], [], [], false, [], []⟩

/-- The address holds a box of the type. -/
def holds (w : World) (kind : Kind) (ctx : ℕ) : Bool := w.heap[ctx]?.any fun b => b.kind == kind

/-- `Box::from_raw`, and the box is dropped. -/
def free (kind : Kind) (ctx i : ℕ) (w : World) : World :=
  { w with
    heap := w.heap.erase ctx
    fault := w.fault || !w.holds kind ctx
    freed := w.freed ++ [i] }

/-- The trampoline: it trusts the address. Those of the coordinator pass over a null address, an empty
payload and one that is not an event; `decodes` tells those that are. -/
def trampoline (decodes : Kind → String → Bool) (w : World) (r : Registration) (payload : String) :
    World :=
  if r.kind.party = .coordinator ∧ r.ctx = 0 then w
  else
    let w := { w with fault := w.fault || !w.holds r.kind r.ctx }
    if r.kind.party = .coordinator ∧ (payload = "" ∨ decodes r.kind payload = false) then w
    else { w with calls := w.calls ++ [(r.owner, payload)] }

/-- The subscription moves on. -/
def moveTo (w : World) (i : ℕ) (kind : Kind) (pc : Pc) : World :=
  { w with subs := w.subs.set i ⟨kind, pc⟩ }

/-- The entry or the callback is under the handle with the party. -/
def Under (party : Party) (handle : ℕ) (r : Registration) : Prop :=
  r.kind.party = party ∧ r.handle = handle

instance (party : Party) (handle : ℕ) (r : Registration) : Decidable (Under party handle r) :=
  inferInstanceAs (Decidable (_ ∧ _))

/-- The subscribe call answers; a handle that is not zero is in the party's table. -/
def answer (w : World) (i handle : ℕ) : Option World :=
  match w.subs[i]? with
  | some ⟨kind, .boxed ctx⟩ =>
    some { w.moveTo i kind (.answered ctx handle) with
      registered := if handle = 0 then w.registered else w.registered ++ [⟨kind, handle, ctx, i⟩] }
  | _ => none

/-- What the plugin does with the answer. With the coordinator a refusal is an error and the box is
reclaimed at once; with the gateway there is a guard in any case. -/
def returns (w : World) (i : ℕ) : Option World :=
  match w.subs[i]? with
  | some ⟨kind, .answered ctx handle⟩ =>
    if kind.party = .coordinator ∧ handle = 0 then some ((w.moveTo i kind .failed).free kind ctx i)
    else some (w.moveTo i kind (.held ctx handle))
  | _ => none

/-- The guard is dropped. The gateway is not told when it had refused. -/
def drop (w : World) (i : ℕ) : Option World :=
  match w.subs[i]? with
  | some ⟨kind, .held ctx handle⟩ =>
    if kind.party = .gateway ∧ handle = 0 then some (w.moveTo i kind (.revoked ctx))
    else some (w.moveTo i kind (.revoking ctx handle))
  | _ => none

/-- The party takes out of its table what is under the handle. -/
def unregister (w : World) (i : ℕ) : Option World :=
  match w.subs[i]? with
  | some ⟨kind, .revoking _ handle⟩ =>
    some { w with registered := w.registered.filter fun r => ¬ Under kind.party handle r }
  | _ => none

/-- The unsubscribe call returns. -/
def revoked (w : World) (i : ℕ) : Option World :=
  match w.subs[i]? with
  | some ⟨kind, .revoking ctx _⟩ => some (w.moveTo i kind (.revoked ctx))
  | _ => none

/-- The box is reclaimed; with the coordinator unless its address is null. -/
def reclaim (w : World) (i : ℕ) : Option World :=
  match w.subs[i]? with
  | some ⟨kind, .revoked ctx⟩ =>
    if kind.party = .coordinator ∧ ctx = 0 then some (w.moveTo i kind .dropped)
    else some ((w.moveTo i kind .dropped).free kind ctx i)
  | _ => none

/-- One step; none where it cannot be taken. -/
def step (decodes : Kind → String → Bool) (w : World) : Act → Option World
  | .subscribe kind ctx =>
    some { w with
      heap := w.heap.insert ctx ⟨kind, w.subs.length⟩
      subs := w.subs ++ [⟨kind, .boxed ctx⟩] }
  | .answer i handle => w.answer i handle
  | .returns i => w.returns i
  | .drop i => w.drop i
  | .unregister i => w.unregister i
  | .revoked i => w.revoked i
  | .reclaim i => w.reclaim i
  | .shutdown r => some { w with registered := w.registered.erase r }
  | .fire r payload => some { w with running := w.running ++ [⟨r, payload, false⟩] }
  | .enter c =>
    if c ∈ w.running ∧ c.entered = false then
      some { w.trampoline decodes c.reg c.payload with
        running := w.running.erase c ++ [{ c with entered := true }] }
    else none
  | .finish c =>
    if c ∈ w.running ∧ c.entered = true then some { w with running := w.running.erase c } else none

/-- The step relation. -/
def Steps (decodes : Kind → String → Bool) (w : World) (a : Act) (w' : World) : Prop :=
  w.step decodes a = some w'

/-- The party and the handle of an unsubscribe call that runs. -/
def revokes (w : World) (i : ℕ) : Option (Party × ℕ) :=
  match w.subs[i]? with
  | some ⟨kind, .revoking _ handle⟩ => some (kind.party, handle)
  | _ => none

/-- What the other side promises: the allocator gives an address that is not null and not in use; a
party calls only what is in its table, and its unsubscribe call returns only when nothing is left under
the handle, in its table or running. -/
def Promise (w : World) : Act → Prop
  | .subscribe _ ctx => ctx ≠ 0 ∧ w.heap[ctx]? = none
  | .fire r _ => r ∈ w.registered
  | .revoked i => ∀ ph ∈ w.revokes i, (∀ r ∈ w.registered, ¬ Under ph.1 ph.2 r) ∧
      ∀ c ∈ w.running, ¬ Under ph.1 ph.2 c.reg
  | _ => True

instance (w : World) : (a : Act) → Decidable (w.Promise a)
  | .subscribe _ ctx => inferInstanceAs (Decidable (ctx ≠ 0 ∧ w.heap[ctx]? = none))
  | .fire r _ => inferInstanceAs (Decidable (r ∈ w.registered))
  | .revoked i => inferInstanceAs (Decidable (∀ ph ∈ w.revokes i,
      (∀ r ∈ w.registered, ¬ Under ph.1 ph.2 r) ∧ ∀ c ∈ w.running, ¬ Under ph.1 ph.2 c.reg))
  | .answer _ _ | .returns _ | .drop _ | .unregister _ | .reclaim _ | .shutdown _ | .enter _
  | .finish _ => inferInstanceAs (Decidable True)

/-! ## What a step can do -/

/-- Every way the system can move. -/
inductive Moves (decodes : Kind → String → Bool) (w : World) : Act → World → Prop
  | subscribe {kind : Kind} {ctx : ℕ} : Moves decodes w (.subscribe kind ctx) { w with
      heap := w.heap.insert ctx ⟨kind, w.subs.length⟩
      subs := w.subs ++ [⟨kind, .boxed ctx⟩] }
  | refuse {i ctx : ℕ} {kind : Kind} (hsub : w.subs[i]? = some ⟨kind, .boxed ctx⟩) :
      Moves decodes w (.answer i 0) (w.moveTo i kind (.answered ctx 0))
  | register {i ctx handle : ℕ} {kind : Kind} (hsub : w.subs[i]? = some ⟨kind, .boxed ctx⟩)
      (hhandle : handle ≠ 0) : Moves decodes w (.answer i handle)
        { w.moveTo i kind (.answered ctx handle) with
          registered := w.registered ++ [⟨kind, handle, ctx, i⟩] }
  | fail {i ctx : ℕ} {kind : Kind} (hsub : w.subs[i]? = some ⟨kind, .answered ctx 0⟩) :
      Moves decodes w (.returns i) ((w.moveTo i kind .failed).free kind ctx i)
  | hold {i ctx handle : ℕ} {kind : Kind} (hsub : w.subs[i]? = some ⟨kind, .answered ctx handle⟩) :
      Moves decodes w (.returns i) (w.moveTo i kind (.held ctx handle))
  | skip {i ctx : ℕ} {kind : Kind} (hsub : w.subs[i]? = some ⟨kind, .held ctx 0⟩) :
      Moves decodes w (.drop i) (w.moveTo i kind (.revoked ctx))
  | drop {i ctx handle : ℕ} {kind : Kind} (hsub : w.subs[i]? = some ⟨kind, .held ctx handle⟩) :
      Moves decodes w (.drop i) (w.moveTo i kind (.revoking ctx handle))
  | unregister {i ctx handle : ℕ} {kind : Kind}
      (hsub : w.subs[i]? = some ⟨kind, .revoking ctx handle⟩) : Moves decodes w (.unregister i)
        { w with registered := w.registered.filter fun r => ¬ Under kind.party handle r }
  | revoked {i ctx handle : ℕ} {kind : Kind}
      (hsub : w.subs[i]? = some ⟨kind, .revoking ctx handle⟩) :
      Moves decodes w (.revoked i) (w.moveTo i kind (.revoked ctx))
  | pass {i : ℕ} {kind : Kind} (hsub : w.subs[i]? = some ⟨kind, .revoked 0⟩) :
      Moves decodes w (.reclaim i) (w.moveTo i kind .dropped)
  | reclaim {i ctx : ℕ} {kind : Kind} (hsub : w.subs[i]? = some ⟨kind, .revoked ctx⟩) :
      Moves decodes w (.reclaim i) ((w.moveTo i kind .dropped).free kind ctx i)
  | shutdown {r : Registration} :
      Moves decodes w (.shutdown r) { w with registered := w.registered.erase r }
  | fire {r : Registration} {payload : String} : Moves decodes w (.fire r payload)
      { w with running := w.running ++ [⟨r, payload, false⟩] }
  | enter {c : Invocation} (hc : c ∈ w.running) : Moves decodes w (.enter c)
      { w.trampoline decodes c.reg c.payload with
        running := w.running.erase c ++ [{ c with entered := true }] }
  | finish {c : Invocation} : Moves decodes w (.finish c) { w with running := w.running.erase c }

/-- **A step is one of the moves.** -/
theorem moves_of_step {decodes : Kind → String → Bool} {w w' : World} {a : Act}
    (h : Steps decodes w a w') : Moves decodes w a w' := by
  cases a with
  | subscribe | shutdown | fire =>
    cases h
    constructor
  | answer i handle =>
    simp only [Steps, step, answer] at h
    split at h
    case h_1 kind ctx hsub =>
      cases h
      split_ifs with hzero
      · subst hzero
        exact .refuse hsub
      · exact .register hsub hzero
    case h_2 => cases h
  | returns i =>
    simp only [Steps, step, returns] at h
    split at h
    case h_1 kind ctx handle hsub =>
      split_ifs at h with hrefused <;> cases h
      · obtain ⟨-, rfl⟩ := hrefused
        exact .fail hsub
      · exact .hold hsub
    case h_2 => cases h
  | drop i =>
    simp only [Steps, step, drop] at h
    split at h
    case h_1 kind ctx handle hsub =>
      split_ifs at h with hrefused <;> cases h
      · obtain ⟨-, rfl⟩ := hrefused
        exact .skip hsub
      · exact .drop hsub
    case h_2 => cases h
  | unregister i =>
    simp only [Steps, step, unregister] at h
    split at h
    case h_1 kind ctx handle hsub =>
      cases h
      exact .unregister hsub
    case h_2 => cases h
  | revoked i =>
    simp only [Steps, step, revoked] at h
    split at h
    case h_1 kind ctx handle hsub =>
      cases h
      exact .revoked hsub
    case h_2 => cases h
  | reclaim i =>
    simp only [Steps, step, reclaim] at h
    split at h
    case h_1 kind ctx hsub =>
      split_ifs at h with hnull <;> cases h
      · obtain ⟨-, rfl⟩ := hnull
        exact .pass hsub
      · exact .reclaim hsub
    case h_2 => cases h
  | enter c =>
    simp only [Steps, step, Option.ite_none_right_eq_some] at h
    obtain ⟨⟨hc, -⟩, h⟩ := h
    cases h
    exact .enter hc
  | finish c =>
    simp only [Steps, step, Option.ite_none_right_eq_some] at h
    obtain ⟨-, h⟩ := h
    cases h
    exact .finish

end World

end Subscribe

end McpgSdk
