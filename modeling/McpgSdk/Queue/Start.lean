import McpgSdk.Queue.Window

/-!
# Starting a queue watch

`spawn_queue_watch` checks the options, starts the receiving thread and then the settling thread.
Either start can fail, and the receiving thread runs as soon as it is started. The host gets a handle
only when both are there.

* `Launch`: a watch being started, with the threads that run;
* `reach_watch`: whatever the start comes to, the watch in it takes steps of the queue watch;
* **`quiet_after_failure_iff`**: once the start has failed no call of the source or of the host begins,
  except when it was the settling thread that could not be started;
* `receiver_outlives_failure`: then the receiving thread goes on, and nobody can stop it.
-/

set_option autoImplicit false

namespace McpgSdk

namespace Queue

/-- Where `spawn_queue_watch` stands. -/
inductive SpawnPc
  /-- Before `validate`. -/
  | validating
  /-- Before the receiving thread is started. -/
  | startingReceiver
  /-- Before the settling thread is started. -/
  | startingSettler
  | returned (result : Except WatchError Unit)

/-- What the operating system answers to the two starts; its reason when it refuses. -/
structure ThreadStarts where
  receiver : Except String Unit
  settler : Except String Unit

/-- A watch being started, and which of its threads run. -/
structure Launch where
  pc : SpawnPc
  receiving : Bool
  settling : Bool
  watch : Queue

/-- A step of a start: of `spawn_queue_watch` itself, or of the watch. -/
inductive LaunchAct
  | spawn
  | watch (a : Act)

namespace Launch

/-- Before the first statement. -/
def start (now : Nanos) : Launch := ⟨.validating, false, false, Queue.start now⟩

/-- A thread that could not be started. -/
def cannotStart (reason : String) : WatchError :=
  .subscribe ("queue watch: cannot start its thread: " ++ reason)

/-- The next statement of `spawn_queue_watch`; none once it has returned. -/
def spawnNext (c : Config) (starts : ThreadStarts) (l : Launch) : Option Launch :=
  match l.pc with
  | .validating =>
    match c.options.validate with
    | .error message =>
      some { l with pc := .returned (.error (.invalidSpec (c.options.source ++ ": " ++ message))) }
    | .ok () => some { l with pc := .startingReceiver }
  | .startingReceiver =>
    match starts.receiver with
    | .error reason => some { l with pc := .returned (.error (cannotStart reason)) }
    | .ok () => some { l with pc := .startingSettler, receiving := true }
  -- a failure here leaves the receiving thread as it is
  | .startingSettler =>
    match starts.settler with
    | .error reason => some { l with pc := .returned (.error (cannotStart reason)) }
    | .ok () => some { l with pc := .returned (.ok ()), settling := true }
  | .returned _ => none

/-- Who can take a step of the watch: a thread that runs, or the host with its handle. -/
def canStep (l : Launch) : Act → Bool
  | .receiver | .connected _ | .received _ => l.receiving
  | .settler => l.settling
  | .ack _ | .cancel => (l.pc matches .returned (.ok ()))
  | .tick _ => true

/-- One step; none where it cannot be taken. -/
def step (X : Externs) (c : Config) (starts : ThreadStarts) (l : Launch) : LaunchAct → Option Launch
  | .spawn => l.spawnNext c starts
  | .watch a =>
    if l.canStep a then (l.watch.step X c a).map fun q => { l with watch := q } else none

/-- The step relation. -/
def Steps (X : Externs) (c : Config) (starts : ThreadStarts) (l : Launch) (a : LaunchAct)
    (l' : Launch) : Prop :=
  l.step X c starts a = some l'

/-- `spawn_queue_watch` has returned an error. -/
def Failed (l : Launch) : Prop := ∃ error, l.pc = .returned (.error error)

end Launch

/-- The calls a receiving thread makes. -/
inductive ThreadCall
  | connect
  | receive
  | emitEvent
  deriving DecidableEq, Repr

/-- The call that begins with a step. -/
def callOf (q q' : Queue) : Option ThreadCall :=
  match q.receiver, q'.receiver with
  | .top, .connecting => some .connect
  | .waitRoom, .receiving _ => some .receive
  | .emitting _ _ _ _, .offering _ => some .emitEvent
  | .acking [], .top => some .emitEvent
  | _, _ => none

theorem callOf_eq_none {q q' : Queue} (h : q'.receiver = q.receiver) : callOf q q' = none := by
  unfold callOf
  rw [h]
  cases q.receiver with
  | acking items => cases items <;> rfl
  | _ => rfl

namespace Launch

/-- Every way a start can move. -/
inductive Moves (X : Externs) (c : Config) (starts : ThreadStarts) (l : Launch) :
    LaunchAct → Launch → Prop
  | refuse {error : WatchError} (hpc : l.pc = .validating) :
      Moves X c starts l .spawn { l with pc := .returned (.error error) }
  | accept (hpc : l.pc = .validating) (hvalid : c.options.validate = .ok ()) :
      Moves X c starts l .spawn { l with pc := .startingReceiver }
  | noReceiver {error : WatchError} (hpc : l.pc = .startingReceiver) :
      Moves X c starts l .spawn { l with pc := .returned (.error error) }
  | receiver (hpc : l.pc = .startingReceiver) (hstart : starts.receiver = .ok ()) :
      Moves X c starts l .spawn { l with pc := .startingSettler, receiving := true }
  | noSettler {reason : String} (hpc : l.pc = .startingSettler)
      (hstart : starts.settler = .error reason) :
      Moves X c starts l .spawn { l with pc := .returned (.error (cannotStart reason)) }
  | settler (hpc : l.pc = .startingSettler) :
      Moves X c starts l .spawn { l with pc := .returned (.ok ()), settling := true }
  | watch {a : Act} {q : Queue} (hcan : l.canStep a = true) (hstep : l.watch.step X c a = some q) :
      Moves X c starts l (.watch a) { l with watch := q }

section

variable {X : Externs} {c : Config} {starts : ThreadStarts} {now : Nanos} {l l' : Launch}
  {a : LaunchAct}

theorem moves_of_spawn (h : l.spawnNext c starts = some l') : Moves X c starts l .spawn l' := by
  unfold spawnNext at h
  cases hpc : l.pc with
  | validating =>
    cases hvalid : c.options.validate with
    | error message =>
      simp only [hpc, hvalid, Option.some.injEq] at h
      exact h ▸ .refuse hpc
    | ok =>
      simp only [hpc, hvalid, Option.some.injEq] at h
      exact h ▸ .accept hpc hvalid
  | startingReceiver =>
    cases hstart : starts.receiver with
    | error reason =>
      simp only [hpc, hstart, Option.some.injEq] at h
      exact h ▸ .noReceiver hpc
    | ok =>
      simp only [hpc, hstart, Option.some.injEq] at h
      exact h ▸ .receiver hpc hstart
  | startingSettler =>
    cases hstart : starts.settler with
    | error reason =>
      simp only [hpc, hstart, Option.some.injEq] at h
      exact h ▸ .noSettler hpc hstart
    | ok =>
      simp only [hpc, hstart, Option.some.injEq] at h
      exact h ▸ .settler hpc
  | returned result =>
    simp only [hpc] at h
    cases h

theorem moves_of_step (h : Steps X c starts l a l') : Moves X c starts l a l' := by
  unfold Steps at h
  cases a with
  | spawn => exact moves_of_spawn h
  | watch a =>
    unfold step at h
    dsimp only at h
    split_ifs at h with hcan
    obtain ⟨q, hq, rfl⟩ := Option.map_eq_some_iff.mp h
    exact .watch hcan hq

/-- **The watch of a start is a queue watch**: its steps are those of the two threads and the host. -/
theorem reach_watch (h : Reach (Steps X c starts) anyStep (start now) l) :
    Reach (Queue.Steps X c) anyStep (Queue.start now) l.watch := by
  induction h with
  | refl => exact .refl
  | tail _ _ hstep ih =>
    cases moves_of_step hstep with
    | watch _ hq => exact .tail ih trivial hq
    | _ => exact ih

end

/-- The options are fine and the receiving thread runs, but the settling thread cannot be started. -/
def SettlerRefused (c : Config) (starts : ThreadStarts) : Prop :=
  c.options.validate = .ok () ∧ starts.receiver = .ok () ∧ ∃ reason, starts.settler = .error reason

/-- What `spawn_queue_watch` has behind it at each statement. -/
def Inv (c : Config) (starts : ThreadStarts) (l : Launch) : Prop :=
  match l.pc with
  | .validating => l.receiving = false ∧ l.settling = false
  | .startingReceiver => c.options.validate = .ok () ∧ l.receiving = false ∧ l.settling = false
  | .startingSettler => c.options.validate = .ok () ∧ starts.receiver = .ok () ∧ l.settling = false
  | .returned (.error _) => l.receiving = false ∧ l.settling = false
  | .returned (.ok ()) => True

section

variable {X : Externs} {c : Config} {starts : ThreadStarts} {now : Nanos} {l l' : Launch}
  {a : LaunchAct}

theorem inv_step (hok : ¬ SettlerRefused c starts) (hi : Inv c starts l)
    (h : Steps X c starts l a l') : Inv c starts l' := by
  unfold Inv at hi
  cases moves_of_step h with
  | refuse hpc =>
    rw [hpc] at hi
    exact hi
  | accept hpc hvalid =>
    rw [hpc] at hi
    exact ⟨hvalid, hi⟩
  | noReceiver hpc =>
    rw [hpc] at hi
    exact hi.2
  | receiver hpc hstart =>
    rw [hpc] at hi
    exact ⟨hi.1, hstart, hi.2.2⟩
  | noSettler hpc hstart =>
    rw [hpc] at hi
    exact absurd ⟨hi.1, hi.2.1, _, hstart⟩ hok
  | settler hpc => exact trivial
  | watch _ _ => exact hi

theorem quiet_of_inv (hi : Inv c starts l) (hf : l.Failed) (h : Steps X c starts l a l') :
    callOf l.watch l'.watch = none := by
  obtain ⟨error, hpc⟩ := hf
  unfold Inv at hi
  rw [hpc] at hi
  cases moves_of_step h with
  | @watch b q hcan hq =>
    cases b with
    | tick d =>
      apply callOf_eq_none
      rw [← Option.some.inj hq]
    | receiver | connected result | received result =>
      rw [canStep, hi.1] at hcan
      cases hcan
    | settler =>
      rw [canStep, hi.2] at hcan
      cases hcan
    | ack position | cancel =>
      rw [canStep, hpc] at hcan
      cases hcan
  | _ => exact callOf_eq_none rfl

end

theorem reach_refused {X : Externs} {c : Config} {starts : ThreadStarts} {reason : String}
    (hvalid : c.options.validate = .ok ()) (hreceiver : starts.receiver = .ok ())
    (hsettler : starts.settler = .error reason) (now : Nanos) :
    Reach (Steps X c starts) anyStep (start now)
      ⟨.returned (.error (cannotStart reason)), true, false, Queue.start now⟩ := by
  have h₁ : Reach (Steps X c starts) anyStep (start now)
      ⟨.startingReceiver, false, false, Queue.start now⟩ := by
    apply Reach.tail (a := .spawn) .refl trivial
    simp only [Steps, step, spawnNext, start, hvalid]
  have h₂ : Reach (Steps X c starts) anyStep (start now)
      ⟨.startingSettler, true, false, Queue.start now⟩ := by
    apply Reach.tail (a := .spawn) h₁ trivial
    simp only [Steps, step, spawnNext, hreceiver]
  apply Reach.tail (a := .spawn) h₂ trivial
  simp only [Steps, step, spawnNext, hsettler]

/-- **When a failed start leaves nothing running.** After `spawn_queue_watch` has returned an error no
call of `connect`, `receive` or `emit_event` ever begins, if and only if it was not the settling thread
that could not be started. -/
theorem quiet_after_failure_iff (X : Externs) (c : Config) (starts : ThreadStarts) (now : Nanos) :
    (∀ l, Reach (Steps X c starts) anyStep (start now) l → l.Failed →
      ∀ a l', Steps X c starts l a l' → callOf l.watch l'.watch = none) ↔
      ¬ SettlerRefused c starts := by
  constructor
  · rintro h ⟨hvalid, hreceiver, reason, hsettler⟩
    -- the receiving thread is at the head of its loop, and nobody has told it to stop
    have hcall := h _ (reach_refused (X := X) hvalid hreceiver hsettler now) ⟨_, rfl⟩
      (.watch .receiver) _ rfl
    cases hcall
  · intro hok l hr hf a l' hstep
    have hi : Inv c starts l := by
      refine hr.invariant ⟨rfl, rfl⟩ fun u a v hu _ hs => ?_
      exact inv_step hok hu hs
    exact quiet_of_inv hi hf hstep

/-- **The receiving thread outlives a failed start**: the host is told that the watch did not start,
and the thread connects to the source. -/
theorem receiver_outlives_failure :
    ¬ ∀ (X : Externs) (c : Config) (starts : ThreadStarts) (now : Nanos) (l : Launch),
      Reach (Steps X c starts) anyStep (start now) l → l.Failed →
      ∀ a l', Steps X c starts l a l' → callOf l.watch l'.watch = none := by
  intro h
  let starts : ThreadStarts := ⟨.ok (), .error "Resource temporarily unavailable"⟩
  have hsettler : starts.settler = .error "Resource temporarily unavailable" := rfl
  have hreach := reach_refused (X := plainExterns) (c := plainConfig) rfl rfl hsettler 0
  have hcall := h _ _ _ _ _ hreach ⟨_, rfl⟩ (.watch .receiver) _ rfl
  cases hcall

end Launch

end Queue

end McpgSdk
