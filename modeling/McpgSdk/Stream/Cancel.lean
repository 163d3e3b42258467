import Mathlib.Data.Nat.Notation
import Mathlib.Tactic.SplitIfs
import McpgSdk.Lib.Run

/-!
# Cancelling a stream

A stream is forwarded by a task of the runtime: it takes items off the stream and hands each to the
host's callback. Cancelling it aborts the task and waits, at most five seconds, until the task's
future is gone. The runtime drops an aborted task only between two polls, and a poll goes on for as
long as the stream has an item ready.

* `Phase`, `Canceller`, `State.next`: the task, its canceller, and their steps in any interleaving;
* `running_of_poll`: a task inside a poll may still call the callback, aborted or not;
* **`cancel_synchronous`**: a cancel is synchronous in every run in which its wait does not time out
  inside a poll, and a wait that does is followed by a call of the callback in some run;
* `ready_stream_outlives_cancel`: a stream with items ready is in the callback after the cancel has
  returned.
-/

set_option autoImplicit false

namespace McpgSdk

namespace Stream

/-- The two forwarders of the SDK. -/
inductive Kind
  | cluster
  | http
  deriving DecidableEq, Repr

/-- Where the forwarder's task is. -/
inductive Phase
  /-- Spawned, not polled yet: the future still holds the sender of its signal. -/
  | unpolled
  /-- The last poll returned `Pending`. -/
  | parked
  /-- Inside a poll, about to ask the stream. -/
  | polling
  /-- Inside a poll, with an item to encode. -/
  | holding
  /-- Inside the callback, with an item. -/
  | emitting
  /-- Inside the callback, with the chunk that ends an HTTP stream. -/
  | ending
  /-- The future is dropped. -/
  | gone
  deriving DecidableEq, Repr

/-- The runtime has the task between two polls. -/
def Phase.Idle (p : Phase) : Prop := p = .unpolled ∨ p = .parked

/-- A call of the callback is running. -/
def Phase.Calling (p : Phase) : Prop := p = .emitting ∨ p = .ending

/-- A poll of the task is running. -/
def Phase.InPoll (p : Phase) : Prop := p = .polling ∨ p = .holding ∨ p.Calling

instance (p : Phase) : Decidable p.Idle := inferInstanceAs (Decidable (_ ∨ _))

instance (p : Phase) : Decidable p.Calling := inferInstanceAs (Decidable (_ ∨ _))

instance (p : Phase) : Decidable p.InPoll := inferInstanceAs (Decidable (_ ∨ _ ∨ _))

/-- The channel the task signals its end on. -/
inductive Channel
  | empty
  | signalled
  | disconnected
  deriving DecidableEq, Repr

/-- How the wait of a cancel ended. -/
inductive WaitEnd
  | signalled
  | disconnected
  | timedOut
  deriving DecidableEq, Repr

/-- Where the cancel is. A waiting one remembers the call of the callback that ran when it began. -/
inductive Canceller
  | idle
  | waiting (begunIn : Option ℕ)
  | returned (wait : WaitEnd)
  deriving DecidableEq, Repr

/-- The cancel waits for the task. -/
def Canceller.isWaiting : Canceller → Bool
  | waiting _ => true
  | _ => false

/-- The cancel has returned. -/
def Canceller.isReturned : Canceller → Bool
  | returned _ => true
  | _ => false

/-- A forwarder, its canceller, and whether the callback's box is freed. -/
structure State where
  phase : Phase
  aborted : Bool
  channel : Channel
  /-- How many calls of the callback have started. -/
  calls : ℕ
  canceller : Canceller
  freed : Bool
  deriving DecidableEq, Repr

/-- What a stream answers to a poll. -/
inductive StreamPoll
  | pending
  | ready
  | ended
  deriving DecidableEq, Repr

/-- A step of the task, of the runtime or of the canceller. -/
inductive Act
  | poll
  | stream (answer : StreamPoll)
  | encode (encodes : Bool)
  | callbackReturns
  | unwind
  | reap
  | cancel
  | receive
  | timeout
  | free
  deriving DecidableEq, Repr

namespace State

/-- A stream that was just forwarded. -/
def start : State where
  phase := .unpolled
  aborted := false
  channel := .empty
  calls := 0
  canceller := .idle
  freed := false

/-- The cancel has returned. -/
def Returned (s : State) : Prop := s.canceller.isReturned = true

instance (s : State) : Decidable s.Returned := inferInstanceAs (Decidable (_ = _))

/-- A call of the callback is running. -/
def Running (s : State) : Prop := s.phase.Calling

instance (s : State) : Decidable s.Running := inferInstanceAs (Decidable s.phase.Calling)

/-- The task enters the callback. -/
def startCall (s : State) (p : Phase) : State := { s with phase := p, calls := s.calls + 1 }

/-- The future is dropped with the guard alive: the guard signals. -/
def finish (s : State) : State := { s with phase := .gone, channel := .signalled }

/-- The stream's answer to a poll. Only an HTTP stream sends a chunk at its end. -/
def answered (kind : Kind) (s : State) : StreamPoll → State
  | .pending => { s with phase := .parked }
  | .ready => { s with phase := .holding }
  | .ended => if kind = .http then s.startCall .ending else s.finish

/-- An item encoded or not. The cluster forwarder skips an item that does not encode, the HTTP one
hands out the empty text. -/
def encoded (kind : Kind) (s : State) (encodes : Bool) : State :=
  if encodes ∨ kind = .http then s.startCall .emitting else { s with phase := .polling }

/-- The callback returns: the task asks the stream again, or ends. -/
def afterCall (s : State) : State :=
  if s.phase = .ending then s.finish else { s with phase := .polling }

/-- The runtime drops an aborted task. One that was never polled has not made its guard: its sender
is dropped with what the future captured. -/
def reaped (s : State) : State :=
  if s.phase = .unpolled then { s with phase := .gone, channel := .disconnected } else s.finish

/-- `abort`, and the start of the wait. -/
def beginCancel (s : State) : State :=
  { s with aborted := true, canceller := .waiting (if s.Running then some s.calls else none) }

/-- The wait is over. -/
def endCancel (s : State) (wait : WaitEnd) : State := { s with canceller := .returned wait }

/-- The cancel waits for the task. -/
def Waiting (s : State) : Prop := s.canceller.isWaiting = true

instance (s : State) : Decidable s.Waiting := inferInstanceAs (Decidable (_ = _))

/-- The call that was running when the cancel began has returned. -/
def CallReturned (s : State) : Prop := ¬ (s.Running ∧ s.canceller = .waiting (some s.calls))

instance (s : State) : Decidable s.CallReturned := inferInstanceAs (Decidable (¬ (_ ∧ _)))

/-- What `recv_timeout` finds in a channel before its bound. -/
def received (s : State) : Option WaitEnd :=
  match s.channel with
  | .empty => none
  | .signalled => some .signalled
  | .disconnected => some .disconnected

/-- One step. -/
def next (kind : Kind) (s : State) : Act → Option State
  | .poll => if s.phase.Idle ∧ s.aborted = false then some { s with phase := .polling } else none
  | .stream answer => if s.phase = .polling then some (s.answered kind answer) else none
  | .encode encodes => if s.phase = .holding then some (s.encoded kind encodes) else none
  | .callbackReturns => if s.Running then some s.afterCall else none
  -- a panic of the stream or the callback unwinds the poll
  | .unwind => if s.phase.InPoll then some s.finish else none
  | .reap => if s.phase.Idle ∧ s.aborted = true then some s.reaped else none
  | .cancel => if s.canceller = .idle then some s.beginCancel else none
  | .receive => if s.Waiting then s.received.map s.endCancel else none
  | .timeout => if s.Waiting ∧ s.CallReturned then some (s.endCancel .timedOut) else none
  -- `Subscription::drop` frees the callback's box right after the cancel
  | .free => if s.Returned ∧ s.freed = false then some { s with freed := true } else none

end State

/-- The step relation. -/
def Step (kind : Kind) (s : State) (a : Act) (t : State) : Prop := s.next kind a = some t

/-! ## What a step can do -/

variable {kind : Kind} {s t : State} {a : Act}

theorem Phase.Idle.ne_gone {p : Phase} (h : p.Idle) : p ≠ .gone := by
  rintro rfl
  exact absurd h (by decide)

theorem Phase.InPoll.ne_gone {p : Phase} (h : p.InPoll) : p ≠ .gone := by
  rintro rfl
  exact absurd h (by decide)

theorem Phase.not_inPoll_gone : ¬ Phase.gone.InPoll := by decide

/-- What a step of the task or the runtime leaves alone. -/
structure TaskStep (s t : State) : Prop where
  aborted : t.aborted = s.aborted
  canceller : t.canceller = s.canceller
  freed : t.freed = s.freed
  channel : t.channel = s.channel ∨ t.phase = .gone

theorem TaskStep.returned_iff (h : TaskStep s t) : t.Returned ↔ s.Returned := by
  unfold State.Returned
  rw [h.canceller]

theorem TaskStep.moved (s : State) (p : Phase) : TaskStep s { s with phase := p } :=
  ⟨rfl, rfl, rfl, .inl rfl⟩

theorem TaskStep.startCall (s : State) (p : Phase) : TaskStep s (s.startCall p) :=
  ⟨rfl, rfl, rfl, .inl rfl⟩

theorem TaskStep.finish (s : State) : TaskStep s s.finish := ⟨rfl, rfl, rfl, .inr rfl⟩

theorem TaskStep.answered (kind : Kind) (s : State) (answer : StreamPoll) :
    TaskStep s (s.answered kind answer) := by
  cases answer with
  | pending => exact .moved s _
  | ready => exact .moved s _
  | ended =>
    show TaskStep s (if kind = .http then _ else _)
    split_ifs
    · exact .startCall s _
    · exact .finish s

theorem TaskStep.encoded (kind : Kind) (s : State) (encodes : Bool) :
    TaskStep s (s.encoded kind encodes) := by
  unfold State.encoded
  split_ifs
  · exact .startCall s _
  · exact .moved s _

theorem TaskStep.afterCall (s : State) : TaskStep s s.afterCall := by
  unfold State.afterCall
  split_ifs
  · exact .finish s
  · exact .moved s _

theorem phase_reaped (s : State) : s.reaped.phase = .gone := by
  unfold State.reaped
  split_ifs <;> rfl

theorem TaskStep.reaped (s : State) : TaskStep s s.reaped := by
  refine ⟨?_, ?_, ?_, .inr (phase_reaped s)⟩ <;>
    · unfold State.reaped
      split_ifs <;> rfl

/-- **The steps.** Inside a poll the task goes on whether it is aborted or not; between two polls it
is polled again only when it is not aborted. -/
theorem step_cases (h : Step kind s a t) :
    (TaskStep s t ∧ (s.phase.InPoll ∨ s.phase.Idle ∧ (s.aborted = false ∨ t.phase = .gone))) ∨
      (s.canceller = .idle ∧ t = s.beginCancel) ∨
      (∃ wait, s.Waiting ∧ (s.received = some wait ∨ a = .timeout) ∧ t = s.endCancel wait) ∨
      (s.Returned ∧ t = { s with freed := true }) := by
  cases a with
  | poll =>
    obtain ⟨hg, ⟨⟩⟩ := Option.ite_none_right_eq_some.mp h
    exact .inl ⟨.moved s _, .inr ⟨hg.1, .inl hg.2⟩⟩
  | stream answer =>
    obtain ⟨hg, ⟨⟩⟩ := Option.ite_none_right_eq_some.mp h
    exact .inl ⟨.answered kind s answer, .inl (.inl hg)⟩
  | encode encodes =>
    obtain ⟨hg, ⟨⟩⟩ := Option.ite_none_right_eq_some.mp h
    exact .inl ⟨.encoded kind s encodes, .inl (.inr (.inl hg))⟩
  | callbackReturns =>
    obtain ⟨hg, ⟨⟩⟩ := Option.ite_none_right_eq_some.mp h
    exact .inl ⟨.afterCall s, .inl (.inr (.inr hg))⟩
  | unwind =>
    obtain ⟨hg, ⟨⟩⟩ := Option.ite_none_right_eq_some.mp h
    exact .inl ⟨.finish s, .inl hg⟩
  | reap =>
    obtain ⟨hg, ⟨⟩⟩ := Option.ite_none_right_eq_some.mp h
    exact .inl ⟨.reaped s, .inr ⟨hg.1, .inr (phase_reaped s)⟩⟩
  | cancel =>
    obtain ⟨hg, ⟨⟩⟩ := Option.ite_none_right_eq_some.mp h
    exact .inr (.inl ⟨hg, rfl⟩)
  | receive =>
    obtain ⟨hg, h⟩ := Option.ite_none_right_eq_some.mp h
    obtain ⟨wait, hwait, rfl⟩ := Option.map_eq_some_iff.mp h
    exact .inr (.inr (.inl ⟨wait, hg, .inl hwait, rfl⟩))
  | timeout =>
    obtain ⟨hg, ⟨⟩⟩ := Option.ite_none_right_eq_some.mp h
    exact .inr (.inr (.inl ⟨_, hg.1, .inr rfl, rfl⟩))
  | free =>
    obtain ⟨hg, ⟨⟩⟩ := Option.ite_none_right_eq_some.mp h
    exact .inr (.inr (.inr ⟨hg.1, rfl⟩))

/-! ## A cancel that is waited out -/

/-- What every run keeps. -/
structure Inv (s : State) : Prop where
  aborted : s.canceller ≠ .idle → s.aborted = true
  gone : s.channel ≠ .empty → s.phase = .gone
  freed : s.freed = true → s.Returned

theorem ne_idle_of_waiting (hw : s.Waiting) : s.canceller ≠ .idle := by
  intro hc
  unfold State.Waiting at hw
  rw [hc] at hw
  cases hw

theorem ne_idle_of_returned (hr : s.Returned) : s.canceller ≠ .idle := by
  intro hc
  unfold State.Returned at hr
  rw [hc] at hr
  cases hr

theorem inv_start : Inv .start := ⟨fun h => (h rfl).elim, fun h => (h rfl).elim, nofun⟩

theorem gone_of_received (hi : Inv s) {wait : WaitEnd} (h : s.received = some wait) :
    s.phase = .gone := by
  apply hi.gone
  intro hempty
  unfold State.received at h
  rw [hempty] at h
  cases h

theorem inv_step (hi : Inv s) (h : Step kind s a t) : Inv t := by
  rcases step_cases h with ⟨ht, hp⟩ | ⟨hc, rfl⟩ | ⟨wait, hw, -, rfl⟩ | ⟨hr, rfl⟩
  · refine ⟨fun hc => ?_, fun hc => ?_, fun hf => ?_⟩
    · rw [ht.aborted]
      exact hi.aborted (ht.canceller ▸ hc)
    · rcases ht.channel with hsame | hgone
      · -- a future that is gone takes no step
        have hgone := hi.gone (hsame ▸ hc)
        rcases hp with hin | ⟨hidle, -⟩
        · exact absurd hgone hin.ne_gone
        · exact absurd hgone hidle.ne_gone
      · exact hgone
    · exact ht.returned_iff.mpr (hi.freed (ht.freed ▸ hf))
  · exact ⟨fun _ => rfl, hi.gone, fun hf => absurd hc (ne_idle_of_returned (hi.freed hf))⟩
  · exact ⟨fun _ => hi.aborted (ne_idle_of_waiting hw), hi.gone, fun _ => rfl⟩
  · exact ⟨hi.aborted, hi.gone, fun _ => hr⟩

theorem inv_of_reach {ok : State → Act → Prop} (h : Reach (Step kind) ok .start s) : Inv s :=
  h.invariant inv_start fun _ _ _ hi _ hs => inv_step hi hs

/-- Once the cancel has returned outside a poll, no step starts another poll. -/
theorem settled_step (hi : Inv s) (hr : s.Returned) (hp : ¬ s.phase.InPoll)
    (h : Step kind s a t) : t.Returned ∧ ¬ t.phase.InPoll := by
  rcases step_cases h with ⟨ht, hin | ⟨-, hab | hgone⟩⟩ | ⟨hc, rfl⟩ | ⟨wait, hw, -, rfl⟩ | ⟨-, rfl⟩
  · exact absurd hin hp
  · rw [hi.aborted (ne_idle_of_returned hr)] at hab
    cases hab
  · refine ⟨ht.returned_iff.mpr hr, ?_⟩
    rw [hgone]
    exact Phase.not_inPoll_gone
  · exact absurd hc (ne_idle_of_returned hr)
  · exact ⟨rfl, hp⟩
  · exact ⟨hr, hp⟩

/-- From here on no call of the callback is running, whatever the steps. -/
def Quiet (kind : Kind) (s : State) : Prop := ∀ t, Reach (Step kind) anyStep s t → ¬ t.Running

theorem quiet_of_settled (hi : Inv s) (hr : s.Returned) (hp : ¬ s.phase.InPoll) : Quiet kind s := by
  intro t ht hrunning
  have hkept : Inv t ∧ t.Returned ∧ ¬ t.phase.InPoll :=
    ht.invariant (I := fun u => Inv u ∧ u.Returned ∧ ¬ u.phase.InPoll) ⟨hi, hr, hp⟩
      fun _ _ _ hu _ hs => ⟨inv_step hu.1 hs, settled_step hu.1 hu.2.1 hu.2.2 hs⟩
  exact hkept.2.2 (.inr (.inr hrunning))

/-- A wait may time out only when no poll of the task is running. -/
def QuiescentTimeout (s : State) (a : Act) : Prop := a = .timeout → ¬ s.phase.InPoll

theorem not_inPoll_of_returned (h : Reach (Step kind) QuiescentTimeout .start s)
    (hr : s.Returned) : ¬ s.phase.InPoll := by
  have hkept : Inv s ∧ (s.Returned → ¬ s.phase.InPoll) := by
    refine h.invariant (I := fun u => Inv u ∧ (u.Returned → ¬ u.phase.InPoll)) ⟨inv_start, nofun⟩
      fun u a v hu hok hs => ⟨inv_step hu.1 hs, fun hv => ?_⟩
    by_cases hru : u.Returned
    · exact (settled_step hu.1 hru (hu.2 hru) hs).2
    · rcases step_cases hs with ⟨ht, -⟩ | ⟨-, rfl⟩ | ⟨wait, -, hend, rfl⟩ | ⟨hru', -⟩
      · exact absurd (ht.returned_iff.mp hv) hru
      · cases hv
      · rcases hend with hreceived | htimeout
        · show ¬ u.phase.InPoll
          rw [gone_of_received hu.1 hreceived]
          exact Phase.not_inPoll_gone
        · exact hok htimeout
      · exact absurd hru' hru
  exact hkept.2 hr

theorem running_of_poll (hp : s.phase.InPoll) :
    ∃ t, Reach (Step kind) anyStep s t ∧ t.Running := by
  have encodes : ∀ u : State, u.phase = .holding →
      ∃ t, Reach (Step kind) anyStep u t ∧ t.Running := by
    intro u hu
    have hencoded : u.encoded kind true = u.startCall .emitting := if_pos (.inl rfl)
    have hstep : Step kind u (.encode true) (u.startCall .emitting) :=
      (if_pos hu).trans (congrArg some hencoded)
    exact ⟨_, .tail .refl trivial hstep, .inl rfl⟩
  rcases hp with hpolling | hholding | hcalling
  · have hstep : Step kind s (.stream .ready) { s with phase := .holding } := if_pos hpolling
    obtain ⟨t, ht, hrunning⟩ := encodes { s with phase := .holding } rfl
    have hfirst : Reach (Step kind) anyStep s { s with phase := .holding } :=
      .tail .refl trivial hstep
    exact ⟨t, hfirst.trans ht, hrunning⟩
  · exact encodes s hholding
  · exact ⟨s, .refl, hcalling⟩

/-- **When a cancel is synchronous.** In every run in which no wait times out inside a poll, once the
cancel has returned no call of the callback is running or can start, and none runs on a freed box. A
wait that times out is followed by no call if and only if no poll was running. -/
theorem cancel_synchronous (kind : Kind) :
    (∀ s, Reach (Step kind) QuiescentTimeout .start s →
        (s.Returned → Quiet kind s) ∧ (s.freed = true → ¬ s.Running)) ∧
      ∀ s t, Reach (Step kind) anyStep .start s → Step kind s .timeout t →
        (Quiet kind t ↔ ¬ s.phase.InPoll) := by
  refine ⟨fun s hs => ?_, fun s t hs ht => ?_⟩
  · have hi := inv_of_reach hs
    have hquiet : s.Returned → Quiet kind s := fun hr =>
      quiet_of_settled hi hr (not_inPoll_of_returned hs hr)
    exact ⟨hquiet, fun hf => hquiet (hi.freed hf) s .refl⟩
  · obtain ⟨-, ⟨⟩⟩ := Option.ite_none_right_eq_some.mp ht
    refine ⟨fun hquiet hin => ?_, fun hp => ?_⟩
    · have hcall : ∃ u, Reach (Step kind) anyStep (s.endCancel .timedOut) u ∧ u.Running :=
        running_of_poll hin
      obtain ⟨u, hu, hrunning⟩ := hcall
      exact hquiet u hu hrunning
    · exact quiet_of_settled (inv_step (inv_of_reach hs) ht) rfl hp

/-! ## Runs -/

/-- A run of the given steps, all of them allowed. -/
def run (kind : Kind) (allowed : Act → Bool) (acts : List Act) : Option State :=
  acts.foldlM (fun s a => if allowed a then s.next kind a else none) .start

theorem reach_run {ok : State → Act → Prop} {allowed : Act → Bool}
    (hok : ∀ s a, allowed a → ok s a) {acts : List Act} (h : run kind allowed acts = some s) :
    Reach (Step kind) ok .start s := by
  refine Reach.of_foldlM (fun u a v hstep => ?_) h
  obtain ⟨ha, hstep⟩ := Option.ite_none_right_eq_some.mp hstep
  exact ⟨hok u a ha, hstep⟩

/-- The cancel arrives in the callback of an item; the stream has no other ready, and the wait gets
its signal. -/
def oneReady : List Act :=
  [.poll, .stream .ready, .encode true, .cancel, .callbackReturns, .stream .pending, .reap, .receive,
    .free]

theorem cancel_synchronous_oneReady :
    ∃ s, Reach (Step .cluster) QuiescentTimeout .start s ∧ s.calls = 1 ∧ s.freed = true ∧
      Quiet .cluster s := by
  obtain ⟨s, hs, hcalls, hreturned, hfreed⟩ := end_of_run
    (r := run .cluster (fun a => decide (a ≠ .timeout)) oneReady)
    (P := fun s => s.calls = 1 ∧ s.Returned ∧ s.freed = true) (by decide +kernel)
  have hs : Reach (Step .cluster) QuiescentTimeout .start s :=
    reach_run (fun _ _ ha htimeout => absurd htimeout (of_decide_eq_true ha)) hs
  exact ⟨s, hs, hcalls, hfreed, ((cancel_synchronous .cluster).1 s hs).1 hreturned⟩

/-- The cancel arrives in the callback of an item, and the stream has another ready: the callback
returns, the wait times out, and the task is in its second call. -/
def twoReady : List Act :=
  [.poll, .stream .ready, .encode true, .cancel, .callbackReturns, .stream .ready, .encode true,
    .timeout]

/-- **A stream with items ready outlives its cancel.** For neither forwarder is the callback at rest
once the cancel has returned: a call of it is running, and the box behind it may be freed at any
moment. -/
theorem ready_stream_outlives_cancel :
    ¬ ∃ kind : Kind, ∀ s : State, Reach (Step kind) anyStep .start s → s.Returned →
      ¬ s.Running ∧ ∀ a t, Step kind s a t → ¬ t.Running := by
  rintro ⟨kind, H⟩
  obtain ⟨s, hs, hreturned, hrunning⟩ := end_of_run (r := run kind (fun _ => true) twoReady)
    (P := fun s => s.Returned ∧ s.Running) (by cases kind <;> decide +kernel)
  have hs : Reach (Step kind) anyStep .start s := reach_run (fun _ _ _ => trivial) hs
  exact (H s hs hreturned).1 hrunning

end Stream

end McpgSdk
