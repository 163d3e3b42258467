import McpgSdk.Queue.Process

/-!
# A cancel returns

`cancel_queue_watch` joins the receiving thread and then the settling thread. The first leaves because
the stop flag is set, once the call it may be in returns; the second because the stop stands last in
its channel, and it hears all that was sent before.

* `Told`: once a cancel began the flag is set, and the stop it sent stays in the channel until the
  settling thread leaves;
* `receiver_leaves`, `settler_leaves`: each thread comes to its end;
* **`cancel_returns`**: in every fair execution a cancel that began returns, with both threads gone and
  every delivery settled.
-/

set_option autoImplicit false

namespace McpgSdk

namespace Queue

/-! ## The stop that was sent -/

/-- Once a cancel began the flag is set, and its stop stays in the channel until it is heard. -/
structure Told (q : Queue) : Prop where
  flag : q.cancel ≠ .idle → q.stop = true
  stays : q.cancel.Sent → .stop ∈ q.settles ∨ q.settler.Leaving

section Stopped

variable {X : Externs} {c : Config} {q q' : Queue} {a : Act}

theorem told_step (hi : q.Told) (h : Steps X c q a q') : q'.Told := by
  cases a with
  | receiver | connected | received =>
    obtain ⟨hsettler, hsettles, hstop, hcancel, -⟩ :=
      receiver_frame (by simp [Process.owns]) h
    exact ⟨by rw [hcancel, hstop]; exact hi.flag,
      by rw [hcancel, hsettles, hsettler]; exact hi.stays⟩
  | settler =>
    obtain ⟨-, hstop, hcancel, -⟩ := settler_frame h
    refine ⟨by rw [hcancel, hstop]; exact hi.flag, fun hsent => ?_⟩
    rw [hcancel] at hsent
    cases transition_of_settler (X := X) h with
    | walk => exact hi.stays hsent
    | hear hpc hsettles =>
      refine (hi.stays hsent).imp (fun hmem => ?_) fun hl => absurd hl (by rw [hpc]; exact id)
      rw [hsettles] at hmem
      exact (List.mem_cons.mp hmem).resolve_left (by simp)
    | hearStop => exact .inr trivial
    | drain | finish | releaseHeld => exact .inr trivial
    | wait hfree =>
      exact .inl ((hi.stays hsent).resolve_right hfree.not_leaving)
    | expire hpc | releaseLate hpc | die hpc | miss hpc | take hpc | ackTaken hpc =>
      exact .inl ((hi.stays hsent).resolve_right (by rw [hpc]; exact id))
  | ack position =>
    cases transition_of_step h with
    | walk => exact ⟨hi.flag, hi.stays⟩
    | ack hidle =>
      exact ⟨hi.flag, fun hsent => absurd hsent (by rw [show q.cancel = _ from hidle]; exact id)⟩
  | cancel =>
    cases transition_of_cancel (X := X) (c := c) h with
    | walk => exact ⟨hi.flag, hi.stays⟩
    | cancel => exact ⟨fun _ => rfl, fun hsent => absurd hsent id⟩
    | join hcancel => exact ⟨fun _ => hi.flag (by rw [hcancel]; simp), fun hsent => absurd hsent id⟩
    | sendStop hcancel =>
      exact ⟨fun _ => hi.flag (by rw [hcancel]; simp), fun _ => .inl (by simp)⟩
    | joinSettler hcancel =>
      exact ⟨fun _ => hi.flag (by rw [hcancel]; simp), fun _ => hi.stays (by rw [hcancel]; trivial)⟩
  | tick d =>
    cases h
    exact ⟨hi.flag, hi.stays⟩

/-- What is kept throughout a run that goes on for ever. -/
def Keeps (q : Queue) : Prop := q.Shut ∧ q.Told

theorem keeps_of_reach {ok : Queue → Act → Prop} {now : Nanos}
    (hr : Reach (Steps X c) ok (start now) q) : q.Keeps := by
  refine ⟨(settling_of_reach hr).2.1, ?_⟩
  refine hr.invariant (I := Told) ⟨fun h => absurd rfl h, fun h => absurd h id⟩ ?_
  exact fun _ _ _ hu _ hs => told_step hu hs

/-- Who moves the receiving thread on. -/
def ReceiverPc.helper (pc : ReceiverPc) : Process := if pc.inCall then .source else .receiver

/-- How far the receiving thread is from its end once it is told to stop: a call it is in may bring any
number of deliveries, so it counts for more than every statement. -/
def ReceiverPc.rank (pc : ReceiverPc) : ℕ ×ₗ ℕ := toLex (pc.inCall.toNat, pc.stepsLeft)

theorem inCall_of_receiverNext (h : receiverNext X c q = some q') : q.receiver.inCall = false := by
  cases hpc : q.receiver with
  | connecting | receiving => simp [receiverNext, hpc] at h
  | top | pausing | waitRoom | got | releasing | acking | offering | offered | emitting | taking
  | rejecting | done => rfl

/-- While the cancel joins the receiving thread, that thread's helper brings it nearer to its end and
nobody else touches it. -/
theorem stopping_step (hi : q.Told) (hc : q.cancel = .stopping) (hdone : q.receiver ≠ .done)
    (h : Steps X c q a q') : q'.cancel = .stopping ∧ (q'.receiver.rank < q.receiver.rank ∨
      q'.receiver = q.receiver ∧ ¬ q.receiver.helper.owns a) := by
  have hstop : q.stop = true := hi.flag (by rw [hc]; nofun)
  cases a with
  | receiver =>
    refine ⟨(cancel_of_step (by simp [Process.owns]) h).trans hc, .inl ?_⟩
    obtain ⟨hlt, hcall'⟩ := receiver_lowers h (.inl hstop)
    have hcall : q.receiver.inCall = false := inCall_of_receiverNext h
    exact Prod.Lex.toLex_lt_toLex.mpr (.inr ⟨by rw [hcall, hcall'], hlt⟩)
  | connected | received =>
    refine ⟨(cancel_of_step (by simp [Process.owns]) h).trans hc, .inl ?_⟩
    obtain ⟨hcall, hcall'⟩ := call_returns (by trivial) h
    exact Prod.Lex.toLex_lt_toLex.mpr (.inl (by simp [hcall, hcall']))
  | cancel => cases hpc : q.receiver <;> simp_all [Steps, step, cancelNext]
  | settler | ack | tick =>
    refine ⟨(cancel_of_step (by simp [Process.owns]) h).trans hc, .inr ⟨?_, ?_⟩⟩
    · exact receiver_of_step (by simp [Process.owns]) (by simp [Process.owns]) h
    · unfold ReceiverPc.helper
      split_ifs <;> simp [Process.owns]

/-- While the cancel joins the settling thread, that thread comes nearer to its end and nobody else
touches what it has before it. -/
theorem stopSent_step (hi : q.Keeps) (hc : q.cancel = .stopSent) (hthere : q.settler.gone = false)
    (h : Steps X c q a q') : q'.cancel = .stopSent ∧
      (Process.owns .settler a ∧ q'.settlerLeft < q.settlerLeft ∨
        ¬ Process.owns .settler a ∧ q'.settler = q.settler ∧ q'.settlerLeft = q.settlerLeft) := by
  have hgone : q.receiver = .done := hi.1.joined (by rw [hc]; trivial)
  cases a with
  | receiver => simp [Steps, step, receiverNext, hgone] at h
  | connected | received => exact absurd (by trivial) (not_source (by rw [hgone]; rfl) h)
  | settler =>
    refine ⟨(cancel_of_step (by simp [Process.owns]) h).trans hc, .inl ⟨trivial, ?_⟩⟩
    have htold := hi.2.stays (by rw [hc]; trivial)
    exact settler_lowers h (htold.imp_left List.ne_nil_of_mem)
  | ack => simp [Steps, step, acknowledge, hc] at h
  | cancel => simp [Steps, step, cancelNext, hc, hthere] at h
  | tick =>
    cases h
    exact ⟨hc, .inr ⟨id, rfl, rfl⟩⟩

end Stopped

/-! ## Step by step to the end of a cancel -/

section Cancel

variable {X : Externs} {c : Config} {now : Nanos} {r : Execution (Steps X c)}

theorem receiver_leaves (hI : ∀ n, (r.state n).Keeps) (hfair : ∀ p : Process, r.Fair p.owns) :
    r.LeadsTo (fun q => q.cancel = .stopping ∧ q.receiver ≠ .done)
      fun q => q.cancel = .stopping ∧ q.receiver = .done := by
  refine Execution.leadsTo_of_rank hI Process.owns hfair (fun q => q.receiver.helper)
    (fun q => q.receiver.rank) ?_ ?_
  · rintro q ⟨-, htold⟩ ⟨hc, hdone⟩
    cases hcall : q.receiver.inCall with
    | true =>
      rw [ReceiverPc.helper, if_pos hcall]
      exact source_enabled hcall
    | false =>
      rw [ReceiverPc.helper, if_neg (by simp [hcall])]
      exact receiver_enabled (.inl (htold.flag (by rw [hc]; nofun))) hcall hdone
  · rintro q a q' ⟨-, htold⟩ ⟨hc, hdone⟩ hs
    obtain ⟨hc', hmoves⟩ := stopping_step htold hc hdone hs
    by_cases hend : q'.receiver = .done
    · exact .inl ⟨hc', hend⟩
    · refine .inr ⟨⟨hc', hend⟩, hmoves.imp_right ?_⟩
      rintro ⟨hsame, hown⟩
      rw [hsame]
      exact ⟨⟨rfl, rfl⟩, hown⟩

theorem canceller_goes_on {pc pc' : CancelPc} {J : Queue → Prop}
    (hfair : r.Fair (Process.owns .canceller))
    (hgo : ∀ q : Queue, q.cancel = pc → J q → ∃ q', q.cancelNext = some q' ∧ q'.cancel = pc')
    (hJ : ∀ (q : Queue) a q', J q → Steps X c q a q' → J q') :
    r.LeadsTo (fun q => q.cancel = pc ∧ J q) fun q => q.cancel = pc' := by
  refine Execution.leadsTo_of_fair (I := fun _ => True) (fun _ => trivial) hfair ?_ ?_ ?_
  · rintro q - ⟨hc, hj⟩
    obtain ⟨q', hs, -⟩ := hgo q hc hj
    exact ⟨.cancel, q', trivial, hs⟩
  · rintro q a q' - ⟨hc, hj⟩ ha hs
    cases a with
    | cancel =>
      obtain ⟨q'', hs', hc'⟩ := hgo q hc hj
      obtain rfl : q'' = q' := Option.some.inj (hs'.symm.trans hs)
      exact hc'
    | receiver | connected | received | settler | ack | tick => exact absurd ha id
  · rintro q a q' - ⟨hc, hj⟩ ha hs
    exact .inr ⟨(cancel_of_step ha hs).trans hc, hJ q a q' hj hs⟩

theorem receiver_is_joined (hfair : r.Fair (Process.owns .canceller)) :
    r.LeadsTo (fun q => q.cancel = .stopping ∧ q.receiver = .done) fun q => q.cancel = .joined :=
  canceller_goes_on hfair (fun q hc hpc => ⟨_, by simp only [cancelNext, hc, hpc]; rfl, rfl⟩)
    fun _ _ _ => receiver_done_of_step

theorem stop_is_sent (hfair : r.Fair (Process.owns .canceller)) :
    r.LeadsTo (fun q => q.cancel = .joined) fun q => q.cancel = .stopSent :=
  (Execution.LeadsTo.of_imp fun _ h => ⟨h, trivial⟩).trans
    (canceller_goes_on (J := fun _ => True) hfair
      (fun q hc _ => ⟨_, by simp only [cancelNext, hc]; rfl, rfl⟩) fun _ _ _ _ _ => trivial)

theorem settler_leaves (hI : ∀ n, (r.state n).Keeps) (hfair : ∀ p : Process, r.Fair p.owns) :
    r.LeadsTo (fun q => q.cancel = .stopSent ∧ q.settler.gone = false)
      fun q => q.cancel = .stopSent ∧ q.settler.gone = true := by
  refine Execution.leadsTo_of_measure hI (hfair .settler) settlerLeft ?_ ?_ ?_
  · rintro q hi ⟨hc, hthere⟩
    have htold := hi.2.stays (by rw [hc]; trivial)
    refine settler_enabled hthere fun deadline hpc => .inl ?_
    exact List.ne_nil_of_mem (htold.resolve_right (by rw [hpc]; exact id))
  · rintro q a q' hi ⟨hc, hthere⟩ ha hs
    obtain ⟨hc', ⟨-, hlt⟩ | ⟨hnot, -⟩⟩ := stopSent_step hi hc hthere hs
    · cases q'.settler.gone with
      | true => exact .inl ⟨hc', rfl⟩
      | false => exact .inr ⟨⟨hc', rfl⟩, hlt⟩
    · exact absurd ha hnot
  · rintro q a q' hi ⟨hc, hthere⟩ ha hs
    obtain ⟨hc', ⟨hown, -⟩ | ⟨-, hsame, heq⟩⟩ := stopSent_step hi hc hthere hs
    · exact absurd hown ha
    · exact .inr ⟨⟨hc', hsame ▸ hthere⟩, heq⟩

theorem settler_is_joined (hfair : r.Fair (Process.owns .canceller)) :
    r.LeadsTo (fun q => q.cancel = .stopSent ∧ q.settler.gone = true) fun q => q.cancel = .returned :=
  canceller_goes_on hfair (fun q hc hgone => ⟨_, by simp only [cancelNext, hc, hgone]; rfl, rfl⟩)
    fun _ _ _ => settler_gone_of_step

/-- **A cancel returns.** However the steps of the threads are interleaved, if each thread that can go
on does, the calls of the source return and no deadline overflows, `cancel_queue_watch` returns once it
began; then both threads are gone, the window is empty and every delivery that was received has been
settled. -/
theorem cancel_returns (h₀ : Reach (Steps X c) (DeadlinesFit c) (start now) (r.state 0))
    (hfit : ∀ n, DeadlinesFit c (r.state n) (r.act n)) (hfair : ∀ p : Process, r.Fair p.owns) :
    r.LeadsTo (fun q => q.cancel ≠ .idle) fun q => q.cancel = .returned ∧ q.receiver = .done ∧
      q.settler = .done ∧ q.pending = ∅ ∧
      ∀ id < q.received.length, id ∈ q.log.map Settlement.id := by
  have hreach := Execution.reach_of_ok h₀ hfit
  have hI : ∀ n, (r.state n).Keeps := fun n => keeps_of_reach (hreach n)
  have hstopSent : r.LeadsTo (fun q => q.cancel = .stopSent) fun q => q.cancel = .returned := by
    intro n hn
    cases hgone : (r.state n).settler.gone with
    | true => exact settler_is_joined (hfair _) n ⟨hn, hgone⟩
    | false => exact (settler_leaves hI hfair).trans (settler_is_joined (hfair _)) n ⟨hn, hgone⟩
  have hjoined : r.LeadsTo (fun q => q.cancel = .joined) fun q => q.cancel = .returned :=
    (stop_is_sent (hfair _)).trans hstopSent
  have hstopping : r.LeadsTo (fun q => q.cancel = .stopping) fun q => q.cancel = .returned := by
    have hdone := (receiver_is_joined (hfair _)).trans hjoined
    intro n hn
    by_cases hpc : (r.state n).receiver = .done
    · exact hdone n ⟨hn, hpc⟩
    · exact (receiver_leaves hI hfair).trans hdone n ⟨hn, hpc⟩
  have hreturns : r.LeadsTo (fun q => q.cancel ≠ .idle) fun q => q.cancel = .returned := by
    intro n hn
    cases hc : (r.state n).cancel with
    | idle => exact absurd hc hn
    | stopping => exact hstopping n hc
    | joined => exact hjoined n hc
    | stopSent => exact hstopSent n hc
    | returned => exact ⟨n, le_refl n, hc⟩
  intro n hn
  obtain ⟨m, hm, hc⟩ := hreturns n hn
  have hshut := (hI m).1
  have halive := alive_of_reach (hreach m)
  have hsettler := hshut.done_of_returned halive hc
  refine ⟨m, hm, hc, hshut.joined (by rw [hc]; trivial), hsettler,
    hshut.emptied (by rw [hsettler]; trivial), fun id hid => ?_⟩
  rw [← owned_of_returned hshut halive hc]
  exact covered_of_reach (hreach m) id hid

end Cancel

/-- `plainConfig` with a clock without an end. -/
def endlessConfig : Config := { plainConfig with lastInstant := none }

theorem deadlinesFit_endless (q : Queue) (a : Act) : DeadlinesFit endlessConfig q a := by
  cases a with
  | settler => exact fun _ _ _ => rfl
  | receiver | connected | received | ack | cancel | tick => trivial

theorem exists_fair_cancelHalfway :
    ∃ r : Execution (Steps plainExterns endlessConfig), r.state 0 = start 0 ∧
      (∃ n, (r.state n).cancel = .stopping ∧ (r.state n).received.length = 2 ∧
        (r.state n).log.length = 0) ∧ (∀ p : Process, r.Fair p.owns) ∧ r.Diverges clock := by
  obtain ⟨q, hq, hcancel⟩ := end_of_run
    (r := cancelHalfway.foldlM (step plainExterns endlessConfig) (start 0))
    (P := fun q => q.cancel = .returned) (by decide +kernel)
  have hreach : Reach (Steps plainExterns endlessConfig) (DeadlinesFit endlessConfig) (start 0) q :=
    Reach.of_foldlM (fun _ _ _ hs => ⟨deadlinesFit_endless _ _, hs⟩) hq
  have hshut := (keeps_of_reach hreach).1
  have hrest : q.AtRest := ⟨hshut.joined (by rw [hcancel]; trivial),
    hshut.done_of_returned (alive_of_reach hreach) hcancel, hcancel⟩
  obtain ⟨r, hbegins, hfair, hclock⟩ := exists_fair hq hrest
  obtain ⟨u, hu, hstopping⟩ := end_of_run
    (r := (cancelHalfway.take (fillWindow.length + 2)).foldlM (step plainExterns endlessConfig)
      (start 0))
    (P := fun q => q.cancel = .stopping ∧ q.received.length = 2 ∧ q.log.length = 0)
    (by decide +kernel)
  refine ⟨r, hbegins 0 _ (Nat.zero_le _) rfl, ⟨fillWindow.length + 2, ?_⟩, hfair, hclock⟩
  rw [hbegins _ u (by decide) hu]
  exact hstopping

theorem cancel_returns_cancelHalfway :
    ∃ (r : Execution (Steps plainExterns endlessConfig)) (n m : ℕ), n ≤ m ∧
      (r.state n).cancel = .stopping ∧ (r.state m).cancel = .returned := by
  obtain ⟨r, h₀, ⟨n, hc, -⟩, hfair, -⟩ := exists_fair_cancelHalfway
  have hreach : Reach (Steps plainExterns endlessConfig) (DeadlinesFit endlessConfig) (start 0)
      (r.state 0) := h₀ ▸ .refl
  have hbegan : (r.state n).cancel ≠ .idle := by rw [hc]; nofun
  obtain ⟨m, hm, hreturned, -⟩ :=
    cancel_returns hreach (fun _ => deadlinesFit_endless _ _) hfair n hbegan
  exact ⟨r, n, m, hm, hc, hreturned⟩

end Queue

end McpgSdk
