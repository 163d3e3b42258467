import McpgSdk.Queue.Shutdown
import McpgSdk.Lib.Fair

/-!
# The processes of a queue watch

Whose step each action is, what the steps of one process leave to the others, and how far each thread
is from the end of what it does. Results on executions that go on for ever rest on these.

* `Process`, `Process.owns`: the threads, the broker and the cancel, and their actions;
* `receiver_lowers`, `settler_lowers`: a statement of a thread brings it nearer to its end;
* `receiver_enabled`, `settler_enabled`, `source_enabled`: when a process can go on;
* `receiver_of_step`, `settler_of_step`, `cancel_of_step`: what the others leave alone;
* `exists_fair`: a run that ends with all at rest is the beginning of a fair execution.
-/

set_option autoImplicit false

namespace McpgSdk

open OrdMap

namespace Queue

/-- Who takes a step. -/
inductive Process
  | receiver
  /-- The broker, inside a call of `connect` or `receive`. -/
  | source
  | settler
  | canceller
  deriving DecidableEq, Repr

/-- The actions of a process. -/
def Process.owns : Process → Act → Prop
  | receiver, .receiver => True
  | source, .connected _ => True
  | source, .received _ => True
  | settler, .settler => True
  | canceller, .cancel => True
  | _, _ => False

/-- The receiving thread is inside a call of the source. -/
def ReceiverPc.inCall : ReceiverPc → Bool
  | connecting | receiving _ => true
  | _ => false

/-- A bound on the statements the receiving thread takes before it is done or back at its head. -/
def ReceiverPc.stepsLeft : ReceiverPc → ℕ
  | top | waitRoom => 1
  | pausing _ => 2
  | connecting | receiving _ | done => 0
  | got items => 4 * items.length + 3
  | releasing items => items.length + 1
  | acking items => items.length + 2
  | offering items => 4 * items.length + 2
  | offered _ _ rest => 4 * rest.length + 5
  | taking _ _ rest => 4 * rest.length + 4
  | emitting _ _ _ rest | rejecting _ rest => 4 * rest.length + 3

/-- The statements the settling thread takes in this turn of its loop, or until it is done. -/
def SettlerPc.stepsLeft : SettlerPc → ℕ
  | top => 4
  | releasing late => late.length + 3
  | arming => 2
  | waiting _ => 1
  | taking _ => 6
  | acking _ => 5
  | draining => 2
  | drained held => held.length + 1
  | done | dead => 0

/-! ## What each thread leaves alone -/

section Frames

variable {X : Externs} {c : Config} {q q' : Queue}

theorem receiver_frame {a : Act} (ha : Process.owns .receiver a ∨ Process.owns .source a)
    (h : Steps X c q a q') :
    q'.settler = q.settler ∧ q'.settles = q.settles ∧ q'.stop = q.stop ∧ q'.cancel = q.cancel ∧
      q'.clock = q.clock := by
  cases a with
  | receiver => cases transition_of_receiver h <;> exact ⟨rfl, rfl, rfl, rfl, rfl⟩
  | connected result =>
    cases transition_of_step h
    exact ⟨rfl, rfl, rfl, rfl, rfl⟩
  | received result => cases transition_of_step h <;> exact ⟨rfl, rfl, rfl, rfl, rfl⟩
  | settler | ack | cancel | tick => exact absurd ha (by simp [Process.owns])

theorem settlerNext_eq (h : settlerNext c q = some q') :
    q' = { q with
      settler := q'.settler
      pending := q'.pending
      settles := q'.settles
      log := q'.log
      expired := q'.expired } := by
  unfold settlerNext at h
  split at h
  case h_4 | h_6 => split at h <;> cases h <;> rfl
  case h_5 =>
    split at h
    · cases h; rfl
    · cases h; rfl
    · split_ifs at h
      cases h
      rfl
  case h_11 | h_12 => cases h
  all_goals
    cases h
    rfl

theorem settler_frame (h : settlerNext c q = some q') :
    q'.receiver = q.receiver ∧ q'.stop = q.stop ∧ q'.cancel = q.cancel ∧ q'.clock = q.clock := by
  rw [settlerNext_eq h]
  exact ⟨rfl, rfl, rfl, rfl⟩

theorem cancelNext_eq (h : q.cancelNext = some q') :
    q' = { q with cancel := q'.cancel, stop := q'.stop, settles := q'.settles } := by
  unfold cancelNext at h
  split at h
  case h_2 | h_4 =>
    split_ifs at h
    cases h
    rfl
  case h_1 | h_3 =>
    cases h
    rfl
  case h_5 => cases h

theorem cancel_frame (h : q.cancelNext = some q') :
    q'.receiver = q.receiver ∧ q'.settler = q.settler ∧ q'.pending = q.pending ∧
      q'.clock = q.clock := by
  rw [cancelNext_eq h]
  exact ⟨rfl, rfl, rfl, rfl⟩

/-! ## How far the threads are -/

theorem receiver_lowers (h : receiverNext X c q = some q')
    (hgo : q.stop = true ∨ ¬ q.receiver.Idle) :
    q'.receiver.stepsLeft < q.receiver.stepsLeft ∧ q'.receiver.inCall = false := by
  cases hpc : q.receiver with
  | top | waitRoom =>
    have hstop : q.stop = true := hgo.resolve_right (by simp [hpc])
    simp only [receiverNext, hpc, hstop, if_true] at h
    cases h
    simp [ReceiverPc.stepsLeft, ReceiverPc.inCall]
  | pausing wakeAt =>
    simp only [receiverNext, hpc] at h
    split_ifs at h
    cases h
    simp [ReceiverPc.stepsLeft, ReceiverPc.inCall]
  | got items =>
    simp only [receiverNext, hpc] at h
    split_ifs at h <;> cases h <;> simp [ReceiverPc.stepsLeft, ReceiverPc.inCall] <;> omega
  | releasing items | acking items | offering items =>
    cases items <;> simp only [receiverNext, hpc] at h <;> cases h <;>
      simp [ReceiverPc.stepsLeft, ReceiverPc.inCall] <;> omega
  | offered i seq rest =>
    simp only [receiverNext, hpc] at h
    split at h <;> cases h <;> simp [ReceiverPc.stepsLeft, ReceiverPc.inCall]
  | emitting | taking | rejecting =>
    simp only [receiverNext, hpc] at h
    cases h
    simp [ReceiverPc.stepsLeft, ReceiverPc.inCall]
  | connecting | receiving | done => simp [receiverNext, hpc] at h

theorem receiver_enabled (hgo : q.stop = true ∨ ¬ q.receiver.Idle) (hcall : q.receiver.inCall = false)
    (hdone : q.receiver ≠ .done) : Enabled (Steps X c) (Process.owns .receiver) q := by
  suffices h : ∃ q', receiverNext X c q = some q' from
    h.elim fun q' h => ⟨.receiver, q', trivial, h⟩
  cases hpc : q.receiver with
  | top | waitRoom | pausing =>
    have hstop : q.stop = true := hgo.resolve_right (by simp [hpc])
    exact ⟨_, by simp only [receiverNext, hpc, hstop, true_or, if_true]; rfl⟩
  | got items =>
    simp only [receiverNext, hpc]
    split_ifs <;> exact ⟨_, rfl⟩
  | releasing items | acking items | offering items =>
    cases items <;> exact ⟨_, by simp only [receiverNext, hpc]; rfl⟩
  | offered i seq rest =>
    simp only [receiverNext, hpc]
    split <;> exact ⟨_, rfl⟩
  | emitting | taking | rejecting => exact ⟨_, by simp only [receiverNext, hpc]; rfl⟩
  | connecting | receiving => exact absurd hcall (by simp [hpc, ReceiverPc.inCall])
  | done => exact absurd hpc hdone

theorem late_add_filter (c : Config) (q : Queue) :
    (late c q).length + (q.pending.filter fun _ h => !isLate c q.clock h).size = q.pending.size := by
  have h := (windowIds_filter q.pending (isLate c q.clock)).length_eq
  simp only [windowIds, List.length_append, List.length_map, Std.ExtTreeMap.length_toList] at h
  exact h.symm

/-- What the settling thread has before it once it was told to stop. -/
def settlerLeft (q : Queue) : ℕ := q.settler.stepsLeft + q.pending.size + 6 * q.settles.length

theorem settler_lowers (h : settlerNext c q = some q')
    (hgo : q.settles ≠ [] ∨ q.settler.Leaving) : q'.settlerLeft < q.settlerLeft := by
  cases hpc : q.settler with
  | top =>
    simp only [settlerNext, hpc] at h
    cases h
    have hsize := late_add_filter c q
    simp only [settlerLeft, SettlerPc.stepsLeft, hpc]
    omega
  | releasing held | drained held =>
    cases held <;> simp only [settlerNext, hpc] at h <;> cases h <;>
      simp [settlerLeft, SettlerPc.stepsLeft, settle, hpc]
  | arming =>
    simp only [settlerNext, hpc] at h
    split at h <;> cases h <;> simp [settlerLeft, SettlerPc.stepsLeft, hpc]
  | waiting deadline =>
    have hsome : q.settles ≠ [] := hgo.resolve_right (by simp [hpc])
    cases hs : q.settles with
    | nil => exact absurd hs hsome
    | cons x rest =>
      cases x <;> simp only [settlerNext, hpc, hs] at h <;> cases h <;>
        simp only [settlerLeft, SettlerPc.stepsLeft, hpc, hs, List.length_cons] <;> omega
  | taking position =>
    simp only [settlerNext, hpc] at h
    split at h
    · cases h
      have hsize := Std.ExtTreeMap.size_erase_le (t := q.pending) (k := ‹ℕ›)
      simp only [settlerLeft, SettlerPc.stepsLeft, hpc]
      omega
    · cases h
      simp [settlerLeft, SettlerPc.stepsLeft, hpc]
  | acking held =>
    simp only [settlerNext, hpc] at h
    cases h
    simp [settlerLeft, SettlerPc.stepsLeft, settle, hpc]
  | draining =>
    simp only [settlerNext, hpc] at h
    cases h
    simp only [settlerLeft, SettlerPc.stepsLeft, hpc, List.length_map, Std.ExtTreeMap.length_toList,
      Std.ExtTreeMap.size_empty]
    omega
  | done | dead => simp [settlerNext, hpc] at h

/-- The settling thread can go on, unless it is gone or waits for the channel or the clock. -/
theorem settler_enabled (hthere : q.settler.gone = false)
    (hawake : ∀ deadline, q.settler = .waiting deadline → q.settles ≠ [] ∨ deadline ≤ q.clock) :
    Enabled (Steps X c) (Process.owns .settler) q := by
  suffices h : ∃ q', settlerNext c q = some q' from h.elim fun q' h => ⟨.settler, q', trivial, h⟩
  cases hpc : q.settler with
  | top | acking | draining => exact ⟨_, by simp only [settlerNext, hpc]; rfl⟩
  | releasing held | drained held => cases held <;> exact ⟨_, by simp only [settlerNext, hpc]; rfl⟩
  | waiting deadline =>
    cases hs : q.settles with
    | nil =>
      have htime : deadline ≤ q.clock := (hawake deadline hpc).resolve_left (by simp [hs])
      exact ⟨_, by simp only [settlerNext, hpc, hs, htime, if_true]; rfl⟩
    | cons x rest => cases x <;> exact ⟨_, by simp only [settlerNext, hpc, hs]; rfl⟩
  | arming | taking =>
    simp only [settlerNext, hpc]
    split <;> exact ⟨_, rfl⟩
  | done | dead =>
    rw [hpc] at hthere
    cases hthere

/-! ## What the others leave alone -/

variable {a : Act}

theorem call_returns (ha : Process.owns .source a) (h : Steps X c q a q') :
    q.receiver.inCall = true ∧ q'.receiver.inCall = false := by
  cases a with
  | connected result =>
    cases result <;> simp only [Steps, step, connectReturns, Option.ite_none_right_eq_some] at h <;>
      obtain ⟨hpc, h⟩ := h <;> cases h <;> split at hpc <;> simp_all [ReceiverPc.inCall, retry]
  | received result =>
    cases result with
    | ok deliveries =>
      simp only [Steps, step, receiveReturns, Option.ite_none_right_eq_some] at h
      obtain ⟨hpc, h⟩ := h
      cases deliveries <;> cases h <;> split at hpc <;> simp_all [ReceiverPc.inCall]
    | error e =>
      simp only [Steps, step, receiveReturns, Option.ite_none_right_eq_some] at h
      obtain ⟨hpc, h⟩ := h
      cases h
      split at hpc <;> simp_all [ReceiverPc.inCall, retry]
  | receiver | settler | ack | cancel | tick => exact absurd ha id

theorem not_source (hcall : q.receiver.inCall = false) (h : Steps X c q a q') :
    ¬ Process.owns .source a := by
  intro ha
  rw [(call_returns ha h).1] at hcall
  cases hcall

theorem source_enabled (h : q.receiver.inCall = true) :
    Enabled (Steps X c) (Process.owns .source) q := by
  cases hpc : q.receiver with
  | connecting =>
    exact ⟨.connected (.ok ()), _, trivial, by simp only [Steps, step, connectReturns, hpc]; rfl⟩
  | receiving room =>
    exact ⟨.received (.ok []), _, trivial, by simp only [Steps, step, receiveReturns, hpc]; rfl⟩
  | top | pausing | waitRoom | got | releasing | acking | offering | offered | emitting | taking
  | rejecting | done => simp [hpc, ReceiverPc.inCall] at h

theorem cancel_of_step (ha : ¬ Process.owns .canceller a) (h : Steps X c q a q') :
    q'.cancel = q.cancel := by
  cases a with
  | receiver | connected | received => exact (receiver_frame (by simp [Process.owns]) h).2.2.2.1
  | settler => exact (settler_frame h).2.2.1
  | ack position => cases transition_of_step h <;> rfl
  | cancel => exact absurd trivial ha
  | tick d =>
    cases h
    rfl

theorem receiver_of_step (ha : ¬ Process.owns .receiver a) (ha' : ¬ Process.owns .source a)
    (h : Steps X c q a q') : q'.receiver = q.receiver := by
  cases a with
  | receiver => exact absurd trivial ha
  | connected | received => exact absurd trivial ha'
  | settler => exact (settler_frame h).1
  | ack position =>
    simp only [Steps, step, acknowledge, Option.ite_none_right_eq_some] at h
    obtain ⟨-, h⟩ := h
    cases h
    rfl
  | cancel => exact (cancel_frame h).1
  | tick d =>
    cases h
    rfl

theorem receiver_done_of_step (hdone : q.receiver = .done) (h : Steps X c q a q') :
    q'.receiver = .done := by
  by_cases ha : Process.owns .receiver a
  · cases a with
    | receiver => simp [Steps, step, receiverNext, hdone] at h
    | connected | received | settler | ack | cancel | tick => exact absurd ha id
  · exact (receiver_of_step ha (not_source (by rw [hdone]; rfl) h) h).trans hdone

theorem settler_of_step (ha : ¬ Process.owns .settler a) (h : Steps X c q a q') :
    q'.settler = q.settler := by
  cases a with
  | receiver | connected | received => exact (receiver_frame (by simp [Process.owns]) h).1
  | settler => exact absurd trivial ha
  | ack position => cases transition_of_step h <;> rfl
  | cancel => exact (cancel_frame h).2.1
  | tick d =>
    cases h
    rfl

theorem settler_gone_of_step (hgone : q.settler.gone = true) (h : Steps X c q a q') :
    q'.settler.gone = true := by
  by_cases ha : Process.owns .settler a
  · cases a with
    | settler =>
      cases hpc : q.settler with
      | done | dead => simp [Steps, step, settlerNext, hpc] at h
      | top | releasing | arming | waiting | taking | acking | draining | drained =>
        rw [hpc] at hgone
        cases hgone
    | receiver | connected | received | ack | cancel | tick => exact absurd ha id
  · rw [settler_of_step ha h]
    exact hgone

theorem clock_of_step (h : Steps X c q a q') : q.clock ≤ q'.clock := by
  cases a with
  | receiver | connected | received =>
    exact (receiver_frame (by simp [Process.owns]) h).2.2.2.2.symm.le
  | settler => exact (settler_frame h).2.2.2.symm.le
  | ack position => cases transition_of_step h <;> exact le_refl _
  | cancel => exact (cancel_frame h).2.2.2.symm.le
  | tick d =>
    cases h
    exact Nat.le_add_right _ _

end Frames

/-! ## A fair execution -/

/-- Both threads are gone and nothing is left to cancel. -/
def AtRest (q : Queue) : Prop := q.receiver = .done ∧ q.settler = .done ∧ q.cancel = .returned

theorem not_enabled_of_atRest {X : Externs} {c : Config} {q : Queue} (h : q.AtRest) (p : Process) :
    ¬ Enabled (Steps X c) p.owns q := by
  obtain ⟨hreceiver, hsettler, hcancel⟩ := h
  rintro ⟨a, q', ha, hs⟩
  cases a with
  | receiver => simp [Steps, step, receiverNext, hreceiver] at hs
  | connected | received => exact not_source (by rw [hreceiver]; rfl) hs (by trivial)
  | settler => simp [Steps, step, settlerNext, hsettler] at hs
  | cancel => simp [Steps, step, cancelNext, hcancel] at hs
  | ack | tick => cases p <;> exact ha

/-- A run that ends at rest goes on fairly: only time passes. -/
theorem exists_fair {X : Externs} {c : Config} {q q' : Queue} {acts : List Act}
    (h : acts.foldlM (step X c) q = some q') (hrest : q'.AtRest) :
    ∃ r : Execution (Steps X c),
      (∀ n u, n ≤ acts.length → (acts.take n).foldlM (step X c) q = some u → r.state n = u) ∧
        (∀ p : Process, r.Fair p.owns) ∧ r.Diverges clock :=
  exists_fair_execution (.tick 1) (g := fun q => { q with clock := q.clock + 1 })
    (fun _ => rfl) h clock AtRest hrest (fun _ hu => ⟨hu, Nat.lt_succ_self _⟩)
    fun _ p hu => not_enabled_of_atRest hu p

end Queue

end McpgSdk
