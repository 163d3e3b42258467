import McpgSdk.Queue.Progress

/-!
# A watch goes on receiving

The receiving thread asks the source for more only while the window has room. It may find the source
gone, the window full or a batch to offer, and each of these ends: a lost connection is made again, the
window gives up what waited too long, a batch is worked through. So as long as the source can be reached
again and again, no host, however slow or silent, keeps the watch from receiving.

* `Running`: an execution of a watch that is not cancelled; `Working`: its settling thread goes on too;
* `busy_ends`, `call_ends`, `pause_ends`, `connects`, `finds_room`: each phase of the receiving thread
  leads on;
* **`receives_again`**: the source is asked for more again and again.
-/

set_option autoImplicit false

namespace McpgSdk

open OrdMap

namespace Queue

/-- An execution of a watch that nobody cancels, fair to its receiving thread and to the calls that
thread makes. -/
structure Running (X : Externs) (c : Config) (now : Nanos) (r : Execution (Steps X c)) : Prop where
  reached : Reach (Steps X c) anyStep (start now) (r.state 0)
  options : c.options.validate = .ok ()
  going : ∀ n, (r.state n).stop = false
  receiver : r.Fair (Process.owns .receiver)
  source : r.Fair (Process.owns .source)
  clock : r.Diverges clock
  /-- The source does not refuse to connect for ever. -/
  answers : ∀ n, (∀ m, n ≤ m → ∃ k result, m ≤ k ∧ r.act k = .connected result) →
    ∃ k, n ≤ k ∧ r.act k = .connected (.ok ())

/-- It is fair to the settling thread too, which no deadline brings down. -/
structure Working (X : Externs) (c : Config) (now : Nanos) (r : Execution (Steps X c)) : Prop
    extends Running X c now r where
  settler : r.Fair (Process.owns .settler)
  fitted : Reach (Steps X c) (DeadlinesFit c) (start now) (r.state 0)
  fits : ∀ n, DeadlinesFit c (r.state n) (r.act n)

/-! ## What a thread that goes on does -/

section Steps

variable {X : Externs} {c : Config} {q q' : Queue} {a : Act}

theorem done_of_reach {now : Nanos} (hr : Reach (Steps X c) anyStep (start now) q)
    (hdone : q.receiver = .done) : q.cancel ≠ .idle := by
  refine (hr.invariant (I := fun q => q.Shut ∧ (q.receiver = .done → q.cancel ≠ .idle))
    ⟨shut_start now, by simp [start]⟩ ?_).2 hdone
  rintro u a v ⟨hshut, hu⟩ - hs
  have ht := transition_of_step hs
  refine ⟨shut_step hshut ht, ?_⟩
  cases ht with
  | quit hfree hstop => exact fun _ => hshut.flag hstop
  | leave hpc => exact fun _ => hshut.turned _ hpc
  | walk hfree hpc =>
    rintro rfl
    exact absurd hpc id
  | cancel | join | sendStop | joinSettler => simp
  | expire | releaseLate | wait | die | hear | hearStop | miss | take | ackTaken | drain | releaseHeld
  | finish | ack | tick => exact hu
  | room | arrive | turnAway | keep | consume | releaseNow | ackNow | insert | fits | refused | emit
  | takeBack | reject => simp

theorem receiver_stays (hcall : q.receiver.inCall = false) (ha : ¬ Process.owns .receiver a)
    (h : Steps X c q a q') : q'.receiver = q.receiver :=
  receiver_of_step ha (not_source hcall h) h

/-- While the receiving thread waits for room, the window only shrinks, and it goes on only with
room. -/
theorem waitRoom_step (hstop : q.stop = false) (hpc : q.receiver = .waitRoom)
    (h : Steps X c q a q') :
    (a = .receiver ∧ q.pending.size < c.options.maxInFlight ∧
      q'.receiver = .receiving (c.options.maxInFlight - q.pending.size)) ∨
    ¬ Process.owns .receiver a ∧ q'.receiver = .waitRoom ∧ q'.pending.size ≤ q.pending.size ∧
      ∀ (s : ℕ) (held : Held), q'.pending[s]? = some held → q.pending[s]? = some held := by
  cases a with
  | receiver =>
    simp only [Steps, step, receiverNext, hpc, hstop, Bool.false_eq_true, if_false,
      Option.ite_none_right_eq_some] at h
    obtain ⟨hroom, h⟩ := h
    cases h
    exact .inl ⟨rfl, hroom, rfl⟩
  | connected | received => exact absurd trivial (not_source (by rw [hpc]; rfl) h)
  | settler =>
    refine .inr ⟨id, (settler_frame h).1.trans hpc, ?_⟩
    cases transition_of_settler (X := X) h with
    | expire =>
      refine ⟨Std.ExtTreeMap.size_filter_le_size, fun s held hs => ?_⟩
      rw [Std.ExtTreeMap.getElem?_filter'] at hs
      exact (Option.filter_eq_some_iff.mp hs).1
    | take =>
      refine ⟨Std.ExtTreeMap.size_erase_le, fun s held hs => ?_⟩
      rw [getElem?_erase_ite] at hs
      split_ifs at hs
      exact hs
    | drain => exact ⟨by simp, fun s held hs => by simp at hs⟩
    | walk | releaseLate | wait | die | hear | hearStop | miss | ackTaken | releaseHeld | finish =>
      exact ⟨le_refl _, fun s held hs => hs⟩
  | ack position =>
    refine .inr ⟨id, (receiver_stays (by rw [hpc]; rfl) id h).trans hpc, ?_⟩
    cases transition_of_step h <;> exact ⟨le_refl _, fun s held hs => hs⟩
  | cancel =>
    refine .inr ⟨id, (cancel_frame h).1.trans hpc, ?_⟩
    rw [(cancel_frame h).2.2.1]
    exact ⟨le_refl _, fun s held hs => hs⟩
  | tick d =>
    cases h
    exact .inr ⟨id, hpc, le_refl _, fun s held hs => hs⟩

theorem idle_step (hstop : q.stop = false) (hidle : q.receiver.Idle) (hroom : q.receiver ≠ .waitRoom)
    (h : Steps X c q a q') : q'.receiver.Idle := by
  by_cases ha : Process.owns .receiver a ∨ Process.owns .source a
  · cases transition_of_step h with
    | walk hfree hpc => exact hpc
    | quit hfree hquit => exact absurd (hstop.symm.trans hquit) Bool.false_ne_true
    | room hpc => exact absurd hpc hroom
    | arrive hpc | turnAway hpc | keep hpc | consume hpc | releaseNow hpc | leave hpc | ackNow hpc
    | insert hpc | fits hpc | refused hpc | emit hpc | takeBack hpc | reject hpc =>
      rw [hpc] at hidle
      exact absurd hidle id
    | expire | releaseLate | wait | die | hear | hearStop | miss | take | ackTaken | drain
    | releaseHeld | finish | ack | cancel | join | sendStop | joinSettler | tick => exact hidle
  · rw [not_or] at ha
    rw [receiver_of_step ha.1 ha.2 h]
    exact hidle

end Steps

/-! ## Each phase leads on -/

namespace Running

variable {X : Externs} {c : Config} {now : Nanos} {r : Execution (Steps X c)}

theorem not_done (h : Running X c now r) (n : ℕ) : (r.state n).receiver ≠ .done := by
  intro hdone
  have hreach := Execution.reach h.reached n
  have hstop := (keeps_of_reach hreach).2.flag (done_of_reach hreach hdone)
  exact Bool.false_ne_true ((h.going n).symm.trans hstop)

theorem room_pos (h : Running X c now r) : 1 ≤ c.options.maxInFlight := by
  by_contra hzero
  have hoptions := h.options
  rw [QueueOptions.validate, if_pos fun hbounds => hzero hbounds.1] at hoptions
  cases hoptions

theorem busy_ends (h : Running X c now r) :
    r.LeadsTo (fun q => q.receiver.inCall = false ∧ ¬ q.receiver.Idle) fun q => q.receiver.Idle := by
  refine Execution.leadsTo_of_measure (I := fun q => q.receiver ≠ .done) h.not_done h.receiver
    (fun q => q.receiver.stepsLeft) ?_ ?_ ?_
  · rintro q hdone ⟨hcall, hbusy⟩
    exact receiver_enabled (.inr hbusy) hcall hdone
  · rintro q a q' - ⟨-, hbusy⟩ ha hs
    cases a with
    | receiver =>
      obtain ⟨hlt, hcall'⟩ := receiver_lowers hs (.inr hbusy)
      by_cases hidle : q'.receiver.Idle
      · exact .inl hidle
      · exact .inr ⟨⟨hcall', hidle⟩, hlt⟩
    | connected | received | settler | ack | cancel | tick => exact absurd ha id
  · rintro q a q' - ⟨hcall, hbusy⟩ ha hs
    have hsame := receiver_stays hcall ha hs
    exact .inr ⟨⟨hsame ▸ hcall, hsame ▸ hbusy⟩, by rw [hsame]⟩

theorem call_ends (h : Running X c now r) :
    r.LeadsTo (fun q => q.receiver.inCall = true) fun q => q.receiver.inCall = false := by
  refine Execution.leadsTo_of_fair (I := fun _ => True) (fun _ => trivial) h.source ?_ ?_ ?_
  · exact fun q _ hcall => source_enabled hcall
  · exact fun q a q' _ _ ha hs => (call_returns ha hs).2
  · intro q a q' _ hcall ha hs
    by_cases hown : Process.owns .receiver a
    · cases a with
      | receiver => exact absurd (hcall.symm.trans (inCall_of_receiverNext hs)) (by simp)
      | connected | received | settler | ack | cancel | tick => exact absurd hown id
    · exact .inr (by rw [receiver_of_step hown ha hs]; exact hcall)

theorem pause_ends (h : Running X c now r) (wakeAt : Nanos) :
    r.LeadsTo (fun q => q.receiver = .pausing wakeAt) fun q => q.receiver = .top := by
  refine Execution.leadsTo_of_timed_rank (I := fun _ => True) (fun _ => trivial)
    (fun _ : Unit => Process.owns .receiver) (fun _ => h.receiver) (fun _ _ _ => clock_of_step)
    (fun _ => ()) (fun _ => 0) (fun _ => wakeAt) (fun _ _ => h.clock wakeAt) ?_ ?_
  · intro q _ hpc htime
    refine ⟨.receiver, { q with receiver := .top }, trivial, ?_⟩
    simp only [Steps, step, receiverNext, hpc, htime, or_true, if_true]
  · intro q a q' _ hpc hs
    by_cases ha : Process.owns .receiver a
    · cases a with
      | receiver =>
        simp only [Steps, step, receiverNext, hpc] at hs
        split_ifs at hs
        cases hs
        exact .inl rfl
      | connected | received | settler | ack | cancel | tick => exact absurd ha id
    · exact .inr ⟨(receiver_stays (by rw [hpc]; rfl) ha hs).trans hpc, .inr ⟨⟨rfl, rfl, rfl⟩, ha⟩⟩

theorem top_goes_on (h : Running X c now r) :
    r.LeadsTo (fun q => q.receiver = .top)
      fun q => q.receiver = .connecting ∨ q.receiver = .waitRoom := by
  refine Execution.leadsTo_of_fair (I := fun q => q.stop = false) h.going h.receiver ?_ ?_ ?_
  · intro q hstop hpc
    refine ⟨.receiver, { q with receiver := if q.connected then .waitRoom else .connecting },
      trivial, ?_⟩
    simp only [Steps, step, receiverNext, hpc, hstop, Bool.false_eq_true, if_false]
  · intro q a q' hstop hpc ha hs
    cases a with
    | receiver =>
      simp only [Steps, step, receiverNext, hpc, hstop, Bool.false_eq_true, if_false] at hs
      cases hs
      by_cases hconnected : q.connected = true
      · exact .inr (if_pos hconnected)
      · exact .inl (if_neg hconnected)
    | connected | received | settler | ack | cancel | tick => exact absurd ha id
  · intro q a q' _ hpc ha hs
    exact .inr ((receiver_stays (by rw [hpc]; rfl) ha hs).trans hpc)

theorem idle_goes_on (h : Running X c now r) :
    r.LeadsTo (fun q => q.receiver.Idle)
      fun q => q.receiver = .connecting ∨ q.receiver = .waitRoom := by
  intro n hn
  cases hpc : (r.state n).receiver with
  | top => exact h.top_goes_on n hpc
  | pausing wakeAt => exact ((h.pause_ends wakeAt).trans h.top_goes_on) n hpc
  | connecting => exact ⟨n, le_refl n, .inl hpc⟩
  | waitRoom => exact ⟨n, le_refl n, .inr hpc⟩
  | receiving | got | releasing | acking | offering | offered | emitting | taking | rejecting | done =>
    rw [hpc] at hn
    exact absurd hn id

theorem connect_returns (h : Running X c now r) {n : ℕ} (hn : (r.state n).receiver = .connecting) :
    ∃ k result, n ≤ k ∧ r.act k = .connected result := by
  by_contra hnone
  have hno : ∀ k result, n ≤ k → r.act k ≠ .connected result :=
    fun k result hk hact => hnone ⟨k, result, hk, hact⟩
  -- without an answer the thread stays inside the call
  have hinside : ∀ k, n ≤ k → (r.state k).receiver = .connecting := by
    intro k hk
    induction k, hk using Nat.le_induction with
    | base => exact hn
    | succ k hk ih =>
      have hs := r.next k
      cases hact : r.act k with
      | connected result => exact absurd hact (hno k result hk)
      | received result =>
        rw [hact] at hs
        cases result <;> simp [Steps, step, receiveReturns, ih] at hs
      | receiver =>
        rw [hact] at hs
        simp [Steps, step, receiverNext, ih] at hs
      | settler | ack | cancel | tick =>
        rw [hact] at hs
        exact (receiver_of_step (by simp [Process.owns]) (by simp [Process.owns]) hs).trans ih
  obtain ⟨k, hk, hown⟩ := h.source n fun k hk => source_enabled (by rw [hinside k hk]; rfl)
  have hs := r.next k
  cases hact : r.act k with
  | connected result => exact hno k result hk hact
  | received result =>
    rw [hact] at hs
    cases result <;> simp [Steps, step, receiveReturns, hinside k hk] at hs
  | receiver | settler | ack | cancel | tick =>
    rw [hact] at hown
    exact hown

theorem connects (h : Running X c now r) :
    r.LeadsTo (fun q => q.receiver.Idle) fun q => q.receiver = .waitRoom := by
  intro n hn
  by_contra hnone
  have hnot : ∀ m, n ≤ m → (r.state m).receiver ≠ .waitRoom := fun m hm hpc => hnone ⟨m, hm, hpc⟩
  have hidle : ∀ m, n ≤ m → (r.state m).receiver.Idle := by
    intro m hm
    induction m, hm using Nat.le_induction with
    | base => exact hn
    | succ m hm ih => exact idle_step (h.going m) ih (hnot m hm) (r.next m)
  obtain ⟨k, hk, hok⟩ := h.answers n fun m hm => by
    obtain ⟨j, hj, hpc⟩ := h.idle_goes_on m (hidle m hm)
    obtain ⟨k, result, hk, hact⟩ := h.connect_returns (hpc.resolve_right (hnot j (hm.trans hj)))
    exact ⟨k, result, hj.trans hk, hact⟩
  have hs := r.next k
  rw [hok] at hs
  simp only [Steps, step, connectReturns, Option.ite_none_right_eq_some] at hs
  obtain ⟨-, hs⟩ := hs
  exact hnot (k + 1) (Nat.le_succ_of_le hk) (by rw [← Option.some.inj hs])

/-! ## Room in the window -/

theorem room_goes_on (h : Running X c now r) :
    r.LeadsTo (fun q => q.receiver = .waitRoom ∧ q.pending.size < c.options.maxInFlight)
      fun q => ∃ room, q.receiver = .receiving room := by
  refine Execution.leadsTo_of_fair (I := fun q => q.stop = false) h.going h.receiver ?_ ?_ ?_
  · rintro q hstop ⟨hpc, hroom⟩
    refine ⟨.receiver, { q with receiver := .receiving (c.options.maxInFlight - q.pending.size) },
      trivial, ?_⟩
    simp only [Steps, step, receiverNext, hpc, hstop, hroom, Bool.false_eq_true, if_false, if_true]
  · rintro q a q' hstop ⟨hpc, -⟩ ha hs
    rcases waitRoom_step hstop hpc hs with ⟨-, -, hpc'⟩ | ⟨hnot, -⟩
    · exact ⟨_, hpc'⟩
    · exact absurd ha hnot
  · rintro q a q' hstop ⟨hpc, hroom⟩ ha hs
    rcases waitRoom_step hstop hpc hs with ⟨rfl, -⟩ | ⟨-, hpc', hsize, -⟩
    · exact absurd trivial ha
    · exact .inr ⟨hpc', hsize.trans_lt hroom⟩

theorem comes_to_waitRoom (h : Running X c now r) (n : ℕ) :
    ∃ m, n ≤ m ∧ (r.state m).receiver = .waitRoom := by
  have hfree : r.LeadsTo (fun q => q.receiver.inCall = false) fun q => q.receiver = .waitRoom := by
    intro n hn
    by_cases hidle : (r.state n).receiver.Idle
    · exact h.connects n hidle
    · exact h.busy_ends.trans h.connects n ⟨hn, hidle⟩
  cases hcall : (r.state n).receiver.inCall with
  | true => exact h.call_ends.trans hfree n hcall
  | false => exact hfree n hcall

end Running

theorem exists_held {m : BTreeMap ℕ Held} (h : 0 < m.size) : ∃ (s : ℕ) (held : Held),
    m[s]? = some held := by
  rw [← Std.ExtTreeMap.length_toList] at h
  obtain ⟨⟨s, held⟩, hmem⟩ := List.exists_mem_of_length_pos h
  exact ⟨s, held, Std.ExtTreeMap.mem_toList_iff_getElem?_eq_some.mp hmem⟩

/-- The window gives up what waited too long, so a thread that waits for room finds it. -/
theorem Working.finds_room {X : Externs} {c : Config} {now : Nanos} {r : Execution (Steps X c)}
    (h : Working X c now r) :
    r.LeadsTo (fun q => q.receiver = .waitRoom) fun q => ∃ room, q.receiver = .receiving room := by
  suffices hsize : ∀ k n, (r.state n).receiver = .waitRoom → (r.state n).pending.size ≤ k →
      ∃ m, n ≤ m ∧ ∃ room, (r.state m).receiver = .receiving room from
    fun n hn => hsize _ n hn (le_refl _)
  intro k
  induction k with
  | zero =>
    intro n hn hk
    exact h.toRunning.room_goes_on n ⟨hn, lt_of_le_of_lt hk h.toRunning.room_pos⟩
  | succ k ih =>
    intro n hn hk
    by_cases hroom : (r.state n).pending.size < c.options.maxInFlight
    · exact h.toRunning.room_goes_on n ⟨hn, hroom⟩
    · obtain ⟨s, held, hs⟩ := exists_held
        (h.toRunning.room_pos.trans (Nat.le_of_not_lt hroom) : 0 < (r.state n).pending.size)
      have hreach := Execution.reach_of_ok h.fitted h.fits
      obtain ⟨m, hm, hleft⟩ := window_left (fun n => sound_of_reach (hreach n)) h.settler h.clock s
        held n hs
      by_contra hnone
      -- until the thread goes on the window only shrinks
      have hwaits : (r.state m).receiver = .waitRoom ∧ ∀ (s : ℕ) (held : Held),
          (r.state m).pending[s]? = some held → (r.state n).pending[s]? = some held := by
        refine Execution.stays (P := fun q : Queue => q.receiver = .waitRoom ∧ ∀ (s : ℕ) (held : Held),
          q.pending[s]? = some held → (r.state n).pending[s]? = some held)
          (Q := fun q : Queue => ∃ room, q.receiver = .receiving room) ⟨hn, fun _ _ hs => hs⟩ ?_
          (fun j hj hpc => hnone ⟨j, hj, hpc⟩) hm
        rintro j - ⟨hpc, hsub⟩
        rcases waitRoom_step (h.going j) hpc (r.next j) with ⟨-, -, hpc'⟩ | ⟨-, hpc', -, hsub'⟩
        · exact .inr ⟨_, hpc'⟩
        · exact .inl ⟨hpc', fun s held hs => hsub s held (hsub' s held hs)⟩
      have hlt := size_lt_of_missing hwaits.2 hs hleft
      obtain ⟨j, hj, hpc⟩ := ih m hwaits.1 (Nat.le_of_lt_succ (hlt.trans_le hk))
      exact hnone ⟨j, hm.trans hj, hpc⟩

/-- **A watch goes on receiving.** In every execution of a watch that is not cancelled, fair to its
threads and to the calls it makes, in which the clock goes on, no deadline overflows and the source does
not refuse to connect for ever, the source is asked for more again and again, for at least one delivery
and for no more than the window holds, whatever it returns and whether or not the host acknowledges
anything. -/
theorem receives_again {X : Externs} {c : Config} {now : Nanos} {r : Execution (Steps X c)}
    (h : Working X c now r) (n : ℕ) :
    ∃ m room, n ≤ m ∧ r.act m = .receiver ∧ (r.state m).receiver = .waitRoom ∧
      (r.state (m + 1)).receiver = .receiving room ∧ 1 ≤ room ∧ room ≤ c.options.maxInFlight := by
  obtain ⟨k, hk, hwaits⟩ := h.toRunning.comes_to_waitRoom n
  obtain ⟨j, hj, room, hasked⟩ := h.finds_room k hwaits
  by_contra hnone
  -- a thread that never asks waits for ever
  have hstays : (r.state j).receiver = .waitRoom := by
    refine Execution.stays (P := fun q : Queue => q.receiver = .waitRoom) (Q := fun _ => False)
      hwaits ?_ (fun _ _ => id) hj
    intro m hm hpc
    rcases waitRoom_step (h.going m) hpc (r.next m) with ⟨hact, hroom, hpc'⟩ | ⟨-, hpc', -⟩
    · exact absurd ⟨m, _, hk.trans hm, hact, hpc, hpc', by omega, Nat.sub_le _ _⟩ hnone
    · exact .inl hpc'
  cases hstays.symm.trans hasked

/-! ## A source that never runs dry -/

/-- What each of the threads, a source that connects and always has a message, and the clock does. -/
def wish : ℕ → ReceiverPc → Act
  | 0, _ => .receiver
  | 1, .connecting => .connected (.ok ())
  | 1, _ => .received (.ok [message "more"])
  | 2, _ => .settler
  | _, _ => .tick 1

/-- They take turns, and time passes in the turn of one that waits. -/
def turn (i : ℕ) (q : Queue) : Act :=
  if (q.step plainExterns endlessConfig (wish i q.receiver)).isSome then wish i q.receiver else .tick 1

section Turns

variable {q q' : Queue} {i : ℕ}

theorem turn_of_step (h : Steps plainExterns endlessConfig q (wish i q.receiver) q') :
    turn i q = wish i q.receiver := if_pos (Option.isSome_iff_exists.mpr ⟨q', h⟩)

theorem turn_cases (i : ℕ) (q : Queue) : turn i q = wish i q.receiver ∨ turn i q = .tick 1 := by
  unfold turn
  split_ifs
  · exact .inl rfl
  · exact .inr rfl

theorem exists_turn_step (i : ℕ) (q : Queue) :
    ∃ q', Steps plainExterns endlessConfig q (turn i q) q' := by
  unfold turn
  split_ifs with hsome
  · exact Option.isSome_iff_exists.mp hsome
  · exact ⟨_, rfl⟩

theorem turn_not_cancel (i : ℕ) (q : Queue) : ¬ Process.owns .canceller (turn i q) := by
  rcases turn_cases i q with h | h <;> rw [h]
  · rcases i with _ | _ | _ | i
    · exact id
    · cases q.receiver <;> exact id
    · exact id
    · exact id
  · exact id

theorem turn_receiver (h : Enabled (Steps plainExterns endlessConfig) (Process.owns .receiver) q) :
    Process.owns .receiver (turn 0 q) := by
  obtain ⟨a, q', ha, hs⟩ := h
  cases a with
  | receiver =>
    rw [turn_of_step (i := 0) hs]
    trivial
  | connected | received | settler | ack | cancel | tick => exact absurd ha id

theorem turn_source (h : Enabled (Steps plainExterns endlessConfig) (Process.owns .source) q) :
    Process.owns .source (turn 1 q) := by
  obtain ⟨a, q', ha, hs⟩ := h
  have hcall := (call_returns ha hs).1
  have hwish : ∃ q', Steps plainExterns endlessConfig q (wish 1 q.receiver) q' := by
    cases hpc : q.receiver with
    | connecting => exact ⟨_, by simp only [Steps, step, wish, connectReturns, hpc]; rfl⟩
    | receiving room => exact ⟨_, by simp only [Steps, step, wish, receiveReturns, hpc]; rfl⟩
    | top | pausing | waitRoom | got | releasing | acking | offering | offered | emitting | taking
    | rejecting | done => simp [hpc, ReceiverPc.inCall] at hcall
  obtain ⟨q'', hs'⟩ := hwish
  rw [turn_of_step hs']
  cases q.receiver <;> trivial

theorem turn_settler (h : Enabled (Steps plainExterns endlessConfig) (Process.owns .settler) q) :
    Process.owns .settler (turn 2 q) := by
  obtain ⟨a, q', ha, hs⟩ := h
  cases a with
  | settler =>
    rw [turn_of_step (i := 2) hs]
    trivial
  | receiver | connected | received | ack | cancel | tick => exact absurd ha id

theorem turn_connects {result : Except String Unit} (h : turn i q = .connected result) :
    result = .ok () := by
  rcases turn_cases i q with hturn | hturn <;> rw [hturn] at h
  · rcases i with _ | _ | _ | i
    · cases h
    · cases hpc : q.receiver <;> rw [hpc] at h <;> cases h
      rfl
    · cases h
    · cases h
  · cases h

end Turns

theorem exists_working :
    ∃ r : Execution (Steps plainExterns endlessConfig), Working plainExterns endlessConfig 0 r := by
  let K (q : Queue) : Prop :=
    Reach (Steps plainExterns endlessConfig) (DeadlinesFit endlessConfig) (start 0) q ∧
      q.cancel = .idle
  have hgo : ∀ n q, K q → ∃ q', Steps plainExterns endlessConfig q (turn (n % 4) q) q' ∧ K q' := by
    rintro n q ⟨hreach, hidle⟩
    obtain ⟨q', hs⟩ := exists_turn_step (n % 4) q
    exact ⟨q', hs, .tail hreach (deadlinesFit_endless _ _) hs,
      (cancel_of_step (turn_not_cancel _ _) hs).trans hidle⟩
  obtain ⟨r, -, hkeep, hact⟩ := Execution.exists_turns (K := K) ⟨.refl, rfl⟩ hgo
  refine ⟨r, ⟨(hkeep 0).1.mono fun _ _ _ => trivial, rfl, fun n => ?_,
    Execution.fair_of_turns hact (by decide : 0 < 4) fun n => turn_receiver,
    Execution.fair_of_turns hact (by decide : 1 < 4) fun n => turn_source,
    Execution.diverges_of_ticks (fun _ _ _ => clock_of_step) fun n => ?_, fun n hagain => ?_⟩,
    Execution.fair_of_turns hact (by decide : 2 < 4) fun n => turn_settler,
    (hkeep 0).1, fun n => deadlinesFit_endless _ _⟩
  · cases hstop : (r.state n).stop with
    | false => rfl
    | true => exact absurd (hkeep n).2 ((keeps_of_reach (hkeep n).1).1.flag hstop)
  · obtain ⟨m, hm, hturn⟩ := Execution.exists_turn (by decide : 3 < 4) n
    have htick : turn 3 (r.state m) = .tick 1 := (turn_cases 3 (r.state m)).elim id id
    have hs := r.next m
    rw [hact m, hturn, htick] at hs
    refine ⟨m, hm, ?_⟩
    rw [← Option.some.inj hs]
    exact Nat.lt_succ_self _
  · obtain ⟨k, result, hk, hconnected⟩ := hagain n (le_refl n)
    exact ⟨k, hk, turn_connects (hact k ▸ hconnected) ▸ hconnected⟩

theorem receives_again_turns : ∃ r : Execution (Steps plainExterns endlessConfig),
    ∀ n, ∃ m room, n ≤ m ∧ (r.state (m + 1)).receiver = .receiving room ∧ 1 ≤ room := by
  obtain ⟨r, hr⟩ := exists_working
  refine ⟨r, fun n => ?_⟩
  obtain ⟨m, room, hm, -, -, hpc, hroom, -⟩ := receives_again hr n
  exact ⟨m, room, hm, hpc, hroom⟩

end Queue

end McpgSdk
