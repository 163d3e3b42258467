import McpgSdk.Queue.Acks
import McpgSdk.Queue.Settle

/-!
# Shutting down leaves nothing unsettled

`cancel_queue_watch` sets the stop flag, joins the receiving thread, tells the settling thread to
stop and joins it. The receiving thread goes first, so nothing joins the window after the settling
thread empties it; and the acknowledgements the host sent before it cancelled are in the channel
ahead of the stop.

* `Shut`: how far the shutdown is, and where the stop stands in the channel;
* `AcksQueued`: a number the host acknowledged is in the window only with its acknowledgement on the
  way;
* `AllTracked`: every emitted delivery is expired, in the window, acked, or let go without an
  acknowledgement;
* `Released`: what is released was expired or not acknowledged;
* `DeadlinesFit`: no deadline overflows, so the settling thread does not panic (`alive_of_reach`);
* **`cancel_settles_all`**: then, once the cancel returned, every delivery was settled, and what the
  host had acknowledged and did not expire was acked and not released;
* `patient_settles_nothing`: with a timeout past what `Instant` can hold, everything is left behind.
-/

set_option autoImplicit false

namespace McpgSdk

open OrdMap

namespace Queue

/-- The receiving thread is gone. -/
def CancelPc.Joined : CancelPc → Prop
  | joined | stopSent | returned => True
  | _ => False

/-- The settling thread was told to stop. -/
def CancelPc.Sent : CancelPc → Prop
  | stopSent | returned => True
  | _ => False

/-- The window was emptied for good. -/
def SettlerPc.Emptied : SettlerPc → Prop
  | drained _ | done => True
  | _ => False

theorem CancelPc.Sent.joined {pc : CancelPc} (h : pc.Sent) : pc.Joined := by
  cases pc with
  | idle | stopping | joined => exact absurd h id
  | stopSent | returned => trivial

theorem SettlerPc.Free.not_leaving {pc : SettlerPc} (h : pc.Free) : ¬ pc.Leaving := by
  cases pc with
  | top | releasing | arming | waiting | taking | acking | dead => exact id
  | draining | drained | done => exact absurd h id

theorem SettlerPc.Free.not_gone {pc : SettlerPc} (h : pc.Free) : pc.gone = false := by
  cases pc with
  | top | releasing | arming | waiting | taking | acking | draining | drained => rfl
  | done | dead => exact absurd h id

theorem SettlerPc.Emptied.leaving {pc : SettlerPc} (h : pc.Emptied) : pc.Leaving := by
  cases pc with
  | drained | done => trivial
  | top | releasing | arming | waiting | taking | acking | draining | dead => exact absurd h id

/-! ## The order of the shutdown -/

/-- How far the shutdown is. -/
structure Shut (q : Queue) : Prop where
  flag : q.stop = true → q.cancel ≠ .idle
  joined : q.cancel.Joined → q.receiver = .done
  queued : .stop ∈ q.settles → q.cancel.Sent
  last : ∀ pre post, q.settles = pre ++ .stop :: post → post = []
  leaving : q.settler.Leaving → q.cancel.Sent ∧ q.settles = []
  emptied : q.settler.Emptied → q.pending = ∅
  returned : q.cancel = .returned → q.settler.gone = true
  /-- Deliveries are turned away only once stopped. -/
  turned : ∀ items, q.receiver = .releasing items → q.cancel ≠ .idle

section ShutSteps

variable {X : Externs} {c : Config} {q q' : Queue} {a : Act}

theorem shut_start (now : Nanos) : (start now).Shut where
  flag := by simp [start]
  joined := fun h => absurd h id
  queued := by simp [start]
  last := by simp [start]
  leaving := fun h => absurd h id
  emptied := fun h => absurd h id
  returned := by simp [start]
  turned := by simp [start]

theorem Shut.before_stop (hi : q.Shut) (h : ¬ q.cancel.Sent) :
    .stop ∉ q.settles ∧ ¬ q.settler.Leaving :=
  ⟨fun hs => h (hi.queued hs), fun hl => h (hi.leaving hl).1⟩

theorem Shut.receives (hi : q.Shut) (hnot : q.receiver ≠ .done) (hstop : q'.stop = q.stop)
    (hcancel : q'.cancel = q.cancel) (hsettles : q'.settles = q.settles)
    (hsettler : q'.settler = q.settler)
    (hturned : ∀ items, q'.receiver = .releasing items → q.cancel ≠ .idle) : q'.Shut where
  flag := by rw [hstop, hcancel]; exact hi.flag
  joined := fun h => absurd (hi.joined (hcancel ▸ h)) hnot
  queued := by rw [hsettles, hcancel]; exact hi.queued
  last := by rw [hsettles]; exact hi.last
  leaving := by rw [hsettler, hcancel, hsettles]; exact hi.leaving
  emptied := fun h => absurd (hi.joined (hi.leaving (hsettler ▸ h.leaving)).1.joined) hnot
  returned := by rw [hcancel, hsettler]; exact hi.returned
  turned := by rw [hcancel]; exact hturned

theorem Shut.settles (hi : q.Shut) (hnot : ¬ q'.settler.Leaving) (hthere : q.settler.gone = false)
    (hstop : q'.stop = q.stop) (hcancel : q'.cancel = q.cancel)
    (hreceiver : q'.receiver = q.receiver)
    (hsettles : ∃ heard, q.settles = heard ++ q'.settles) : q'.Shut where
  flag := by rw [hstop, hcancel]; exact hi.flag
  joined := by rw [hcancel, hreceiver]; exact hi.joined
  queued := fun h => by
    obtain ⟨heard, hs⟩ := hsettles
    rw [hcancel]
    exact hi.queued (hs ▸ List.mem_append_right heard h)
  last := fun pre post h => by
    obtain ⟨heard, hs⟩ := hsettles
    exact hi.last (heard ++ pre) post (by rw [hs, h, List.append_assoc])
  leaving := fun h => absurd h hnot
  emptied := fun h => absurd h.leaving hnot
  returned := fun h => absurd (hi.returned (hcancel ▸ h)) (Bool.eq_false_iff.mp hthere)
  turned := by rw [hreceiver, hcancel]; exact hi.turned

theorem shut_step (hi : q.Shut) (ht : Transition X c q a q') : q'.Shut := by
  cases ht with
  | @walk _ pc _ _ _ hfree hpc =>
    refine hi.receives (fun h => by rw [h] at hfree; exact hfree) rfl rfl rfl rfl fun items h => ?_
    cases (h : pc = _)
    exact absurd hpc id
  | quit hfree hstop =>
    exact hi.receives (fun h => by rw [h] at hfree; exact hfree) rfl rfl rfl rfl fun _ => nofun
  | turnAway hpc hstop =>
    exact hi.receives (by rw [hpc]; nofun) rfl rfl rfl rfl fun _ _ => hi.flag hstop
  | releaseNow hpc =>
    exact hi.receives (by rw [hpc]; nofun) rfl rfl rfl rfl fun _ _ => hi.turned _ hpc
  | room hpc | arrive hpc | keep hpc | consume hpc | leave hpc | ackNow hpc | insert hpc | fits hpc
  | refused hpc | emit hpc | takeBack hpc | reject hpc =>
    exact hi.receives (by rw [hpc]; nofun) rfl rfl rfl rfl fun _ => nofun
  | wait hfree hpc =>
    exact hi.settles hpc.not_leaving hfree.not_gone rfl rfl rfl ⟨[], rfl⟩
  | expire hpc | releaseLate hpc | die hpc | miss hpc | take hpc | ackTaken hpc =>
    exact hi.settles id (by rw [hpc]; rfl) rfl rfl rfl ⟨[], rfl⟩
  | hear hpc hsettles => exact hi.settles id (by rw [hpc]; rfl) rfl rfl rfl ⟨[_], hsettles⟩
  | hearStop hpc hsettles =>
    have hrest := hi.last [] _ hsettles
    have hsent := hi.queued (hsettles ▸ List.mem_cons_self)
    exact { hi with
      queued := fun _ => hsent
      last := fun pre post h => hi.last (.stop :: pre) post (hsettles.trans (congrArg _ h))
      leaving := fun _ => ⟨hsent, hrest⟩
      emptied := fun h => absurd h id
      returned := fun h => absurd (hi.returned h) (by rw [hpc]; exact Bool.false_ne_true) }
  | drain hpc =>
    exact { hi with
      leaving := fun _ => hi.leaving (by rw [hpc]; trivial)
      emptied := fun _ => rfl
      returned := fun h => absurd (hi.returned h) (by rw [hpc]; exact Bool.false_ne_true) }
  | releaseHeld hpc =>
    exact { hi with
      leaving := fun _ => hi.leaving (by rw [hpc]; trivial)
      emptied := fun _ => hi.emptied (by rw [hpc]; trivial)
      returned := fun h => absurd (hi.returned h) (by rw [hpc]; exact Bool.false_ne_true) }
  | finish hpc =>
    exact { hi with
      leaving := fun _ => hi.leaving (by rw [hpc]; trivial)
      emptied := fun _ => hi.emptied (by rw [hpc]; trivial)
      returned := fun _ => rfl }
  | @ack position hcancel =>
    obtain ⟨hnone, hstays⟩ := hi.before_stop (by rw [hcancel]; exact id)
    refine { hi with
      queued := fun h => hi.queued (by simpa using h)
      last := fun pre post h => ?_
      leaving := fun h => absurd h hstays }
    rcases append_split h with ⟨more, hold⟩ | ⟨add, -, hnew⟩
    · exact absurd (hold ▸ List.mem_append_right pre List.mem_cons_self) hnone
    · have hmem : Settle.stop ∈ [Settle.ack position] := by
        rw [hnew]
        exact List.mem_append_right add List.mem_cons_self
      simp at hmem
  | cancel hcancel =>
    obtain ⟨hnone, hstays⟩ := hi.before_stop (by rw [hcancel]; exact id)
    exact { hi with
      flag := fun _ => nofun
      joined := fun h => absurd h id
      queued := fun h => absurd h hnone
      leaving := fun h => absurd h hstays
      returned := nofun
      turned := fun _ _ => nofun }
  | join hcancel hpc =>
    obtain ⟨hnone, hstays⟩ := hi.before_stop (by rw [hcancel]; exact id)
    exact { hi with
      flag := fun _ => nofun
      joined := fun _ => hpc
      queued := fun h => absurd h hnone
      leaving := fun h => absurd h hstays
      returned := nofun
      turned := fun _ _ => nofun }
  | sendStop hcancel =>
    obtain ⟨hnone, hstays⟩ := hi.before_stop (by rw [hcancel]; exact id)
    refine { hi with
      flag := fun _ => nofun
      joined := fun _ => hi.joined (by rw [hcancel]; trivial)
      queued := fun _ => trivial
      last := fun pre post h => ?_
      leaving := fun h => absurd h hstays
      returned := nofun
      turned := fun _ _ => nofun }
    rcases append_split h with ⟨more, hold⟩ | ⟨add, -, hnew⟩
    · exact absurd (hold ▸ List.mem_append_right pre List.mem_cons_self) hnone
    · cases add with
      | nil => exact (List.cons.inj hnew).2.symm
      | cons x add => simp at hnew
  | joinSettler hcancel hgone =>
    exact { hi with
      flag := fun _ => nofun
      joined := fun _ => hi.joined (by rw [hcancel]; trivial)
      queued := fun _ => trivial
      leaving := fun h => ⟨trivial, (hi.leaving h).2⟩
      returned := fun _ => hgone
      turned := fun _ _ => nofun }
  | tick => exact { hi with }

end ShutSteps

/-! ## Acknowledgements on their way -/

/-- An acknowledgement of the number is on its way. -/
def Queued (q : Queue) (seq : ℕ) : Prop :=
  (∃ p, .ack p ∈ q.settles ∧ positionSeq p = some seq) ∨
    ∃ p, q.settler = .taking p ∧ positionSeq p = some seq

/-- What the host acknowledged is in the window only with its acknowledgement on the way. -/
def AcksQueued (q : Queue) : Prop := ∀ s ∈ q.hostAcked, q.pending[s]? ≠ none → q.Queued s

section QueuedSteps

variable {X : Externs} {c : Config} {q q' : Queue} {a : Act}

theorem AcksQueued.mono (hi : q.AcksQueued) (hacked : q'.hostAcked = q.hostAcked)
    (hpending : ∀ s ∈ q.hostAcked, q'.pending[s]? ≠ none → q.pending[s]? ≠ none)
    (hqueued : ∀ s, q'.pending[s]? ≠ none → q.Queued s → q'.Queued s) : q'.AcksQueued :=
  fun s hs hp => hqueued s hp (hi s (hacked ▸ hs) (hpending s (hacked ▸ hs) hp))

theorem Queued.of_channel {s : ℕ} (h : q.Queued s) (hnot : ∀ p, q.settler ≠ .taking p)
    (hsettles : ∀ x ∈ q.settles, x ∈ q'.settles) : q'.Queued s := by
  rcases h with ⟨p, hp, hs⟩ | ⟨p, hp, -⟩
  · exact .inl ⟨p, hsettles _ hp, hs⟩
  · exact absurd hp (hnot p)

theorem ne_none_of_erase {m : BTreeMap ℕ Held} {k s : ℕ} (h : (m.erase k)[s]? ≠ none) :
    m[s]? ≠ none ∧ s ≠ k := by
  rw [getElem?_erase_ite] at h
  split_ifs at h with hk
  · exact absurd rfl h
  · exact ⟨h, hk⟩

theorem acksQueued_step (hseqs : q.Seqs) (hshut : q.Shut) (hi : q.AcksQueued)
    (ht : Transition X c q a q') : q'.AcksQueued := by
  cases ht with
  | insert hpc =>
    refine hi.mono rfl (fun s hs hp => ?_) fun s _ h => h
    obtain ⟨e, he, rfl⟩ := hseqs.hostAcked s hs
    rwa [getElem?_insert_ite,
      if_neg (Nat.ne_of_lt (hseqs.below e (hseqs.emitted e he)))] at hp
  | takeBack hpc => exact hi.mono rfl (fun s _ hp => (ne_none_of_erase hp).1) fun s _ h => h
  | expire hpc =>
    refine hi.mono rfl (fun s _ hp => ?_) fun s _ h =>
      h.of_channel (by rw [hpc]; nofun) fun _ hx => hx
    obtain ⟨h, hh⟩ := Option.ne_none_iff_exists'.mp hp
    rw [getElem?_pending_filter hh]
    nofun
  | releaseLate hpc | die hpc | ackTaken hpc | releaseHeld hpc | finish hpc =>
    exact hi.mono rfl (fun _ _ hp => hp) fun s _ h =>
      h.of_channel (by rw [hpc]; nofun) fun _ hx => hx
  | wait hfree hpc =>
    refine hi.mono rfl (fun _ _ hp => hp) fun s _ h => h.of_channel (fun p hp => ?_) fun _ hx => hx
    rw [hp] at hfree
    exact hfree
  | @hear deadline position rest hpc hsettles =>
    refine hi.mono rfl (fun _ _ hp => hp) fun s _ h => ?_
    rcases h with ⟨p, hp, hs⟩ | ⟨p, hp, -⟩
    · rw [hsettles] at hp
      rcases List.mem_cons.mp hp with hp | hp
      · exact .inr ⟨p, congrArg SettlerPc.taking (Settle.ack.inj hp).symm, hs⟩
      · exact .inl ⟨p, hp, hs⟩
    · rw [hpc] at hp
      cases hp
  | hearStop hpc hsettles =>
    -- nothing stands behind the stop, so nothing is on its way
    refine hi.mono rfl (fun _ _ hp => hp) fun s _ h => ?_
    rw [hshut.last [] _ hsettles] at hsettles
    rcases h with ⟨p, hp, -⟩ | ⟨p, hp, -⟩
    · rw [hsettles] at hp
      simp at hp
    · rw [hpc] at hp
      cases hp
  | @miss position hpc hmiss =>
    refine hi.mono rfl (fun _ _ hp => hp) fun s hpending h => ?_
    rcases h with h | ⟨p, hp, hs⟩
    · exact .inl h
    · rw [hpc] at hp
      cases hp
      exact absurd (hmiss s hs) hpending
  | @take position seq held hpc hseq hheld =>
    refine hi.mono rfl (fun s _ hp => (ne_none_of_erase hp).1) fun s hpending h => ?_
    rcases h with h | ⟨p, hp, hs⟩
    · exact .inl h
    · rw [hpc] at hp
      cases hp
      rw [hseq] at hs
      exact absurd (Option.some.inj hs).symm (ne_none_of_erase hpending).2
  | drain hpc => exact fun s _ hp => absurd (by simp) hp
  | @ack position hcancel =>
    intro s hs hp
    rcases List.mem_append.mp hs with hs | hs
    · rcases hi s hs hp with ⟨p, hq, hps⟩ | h
      · exact .inl ⟨p, List.mem_append_left _ hq, hps⟩
      · exact .inr h
    · have hsome := (Option.mem_filter_iff.mp (Option.mem_toList.mp hs)).1
      exact .inl ⟨position, List.mem_append_right _ (List.mem_singleton_self _), hsome⟩
  | sendStop hcancel =>
    refine hi.mono rfl (fun _ _ hp => hp) fun s _ h => ?_
    rcases h with ⟨p, hq, hps⟩ | h
    · exact .inl ⟨p, List.mem_append_left _ hq, hps⟩
    · exact .inr h
  | _ => exact hi

/-- Once the settling thread leaves, nothing the host acknowledged is in the window. -/
theorem not_acked_of_leaving (hshut : q.Shut) (hi : q.AcksQueued) (hl : q.settler.Leaving) {s : ℕ}
    (hp : q.pending[s]? ≠ none) : s ∉ q.hostAcked := by
  intro hs
  rcases hi s hs hp with ⟨p, hq, -⟩ | ⟨p, hq, -⟩
  · rw [(hshut.leaving hl).2] at hq
    cases hq
  · rw [hq] at hl
    exact hl

end QueuedSteps

/-! ## Where an emitted delivery goes -/

/-- The delivery in the window whose event is about to be emitted. -/
def ReceiverPc.coming : ReceiverPc → Option Given
  | offered i seq _ | emitting i seq _ _ => some ⟨i.id, seq⟩
  | _ => none

/-- The delivery was acked. -/
def Acked (q : Queue) (id : ℕ) : Prop := ∃ s ∈ q.log, s.call = .ack ∧ s.id = id

/-- The delivery expired, is in the window, is being acked or was, or was let go unacknowledged. -/
def Tracked (q : Queue) (g : Given) : Prop :=
  g.id ∈ q.expired ∨ q.pending[g.seq]? ≠ none ∨ (∃ h, q.settler = .acking h ∧ h.id = g.id) ∨
    q.Acked g.id ∨ (q.settler.Emptied ∧ g.seq ∉ q.hostAcked)

/-- Every emitted delivery, and the one about to be emitted, is tracked. -/
def AllTracked (q : Queue) : Prop :=
  ∀ g, g ∈ q.emitted ∨ q.receiver.coming = some g → q.Tracked g

theorem given_of_coming {q : Queue} (hseqs : q.Seqs) {g : Given}
    (h : g ∈ q.emitted ∨ q.receiver.coming = some g) : g ∈ q.given := by
  rcases h with h | h
  · exact hseqs.emitted g h
  · cases hpc : q.receiver with
    | offered i seq rest | emitting i seq text rest =>
      rw [hpc] at h
      cases h
      exact (hseqs.current i seq (by rw [hpc]; rfl)).1
    | top | connecting | pausing | waitRoom | receiving | got | releasing | acking | offering
    | taking | rejecting | done =>
      rw [hpc] at h
      cases h

section TrackedSteps

variable {X : Externs} {c : Config} {q q' : Queue} {a : Act}

theorem Acked.append {id : ℕ} (h : q.Acked id) {more : List Settlement}
    (hlog : q'.log = q.log ++ more) : q'.Acked id := by
  obtain ⟨s, hs, hcall⟩ := h
  exact ⟨s, hlog ▸ List.mem_append_left more hs, hcall⟩

theorem Tracked.receives {g : Given} (h : q.Tracked g) (hexpired : q'.expired = q.expired)
    (hpending : q.pending[g.seq]? ≠ none → q'.pending[g.seq]? ≠ none)
    (hsettler : q'.settler = q.settler) (hlog : ∃ more, q'.log = q.log ++ more)
    (hacked : q'.hostAcked = q.hostAcked) : q'.Tracked g := by
  obtain ⟨more, hlog⟩ := hlog
  rcases h with h | h | h | h | h
  · exact .inl (hexpired ▸ h)
  · exact .inr (.inl (hpending h))
  · exact .inr (.inr (.inl (hsettler ▸ h)))
  · exact .inr (.inr (.inr (.inl (h.append hlog))))
  · exact .inr (.inr (.inr (.inr (by rw [hsettler, hacked]; exact h))))

/-- A step of the settling thread, out of a state in which it acks nothing and stays. -/
theorem Tracked.settles {g : Given} (h : q.Tracked g) (hacking : ∀ h, q.settler ≠ .acking h)
    (hemptied : ¬ q.settler.Emptied) (hexpired : ∀ id ∈ q.expired, id ∈ q'.expired)
    (hpending : q.pending[g.seq]? ≠ none → q'.Tracked g)
    (hlog : ∃ more, q'.log = q.log ++ more) : q'.Tracked g := by
  obtain ⟨more, hlog⟩ := hlog
  rcases h with h | h | ⟨held, h, -⟩ | h | h
  · exact .inl (hexpired _ h)
  · exact hpending h
  · exact absurd h (hacking held)
  · exact .inr (.inr (.inr (.inl (h.append hlog))))
  · exact absurd h.1 hemptied

theorem held_id (hseqs : q.Seqs) {g : Given} (hg : g ∈ q.given) {h : Held}
    (hh : q.pending[g.seq]? = some h) : h.id = g.id :=
  hseqs.id_eq (hseqs.window g.seq h hh) hg rfl

theorem allTracked_step (hseqs : q.Seqs) (hshut : q.Shut) (hacks : q.AcksQueued)
    (hi : q.AllTracked) (ht : Transition X c q a q') : q'.AllTracked := by
  have hold : ∀ g ∈ q.emitted, q.Tracked g := fun g hg => hi g (.inl hg)
  cases ht with
  | @walk _ pc _ _ _ hfree hpc =>
    rintro g (hg | hg)
    · exact hold g hg
    · cases pc with
      | top | connecting | pausing | waitRoom => cases hg
      | receiving | got | releasing | acking | offering | offered | emitting | taking | rejecting
      | done => exact absurd hpc id
  | quit | room | arrive | turnAway | keep | consume | leave | refused =>
    rintro g (hg | hg)
    · exact hold g hg
    · cases hg
  | releaseNow | ackNow | reject =>
    rintro g (hg | hg)
    · exact (hold g hg).receives rfl id rfl ⟨_, rfl⟩ rfl
    · cases hg
  | @insert i rest hpc =>
    rintro g (hg | hg)
    · refine (hold g hg).receives rfl (fun hp => ?_) rfl ⟨[], (List.append_nil _).symm⟩ rfl
      rw [getElem?_insert_ite]
      split_ifs
      · nofun
      · exact hp
    · cases hg
      refine .inr (.inl ?_)
      rw [getElem?_insert_ite, if_pos rfl]
      nofun
  | fits hpc htext =>
    rintro g (hg | hg)
    · exact hold g hg
    · exact hi g (.inr (by rw [hpc]; exact hg))
  | @emit i seq text rest hpc =>
    rintro g (hg | hg)
    · rcases List.mem_append.mp hg with hg | hg
      · exact hold g hg
      · exact hi g (.inr (by rw [hpc, List.mem_singleton.mp hg]; rfl))
    · cases hg
  | @takeBack i seq rest hpc =>
    -- what is taken back was not emitted
    rintro g (hg | hg)
    · refine (hold g hg).receives rfl (fun hp => ?_) rfl ⟨[], (List.append_nil _).symm⟩ rfl
      have hlt := (hseqs.current i seq (by rw [hpc]; rfl)).2 g hg
      rw [getElem?_erase_ite, if_neg (Nat.ne_of_lt hlt)]
      exact hp
    · cases hg
  | expire hpc =>
    intro g hg
    refine (hi g hg).settles (by rw [hpc]; nofun) (by rw [hpc]; exact id)
      (fun _ h => List.mem_append_left _ h) (fun hp => ?_) ⟨[], (List.append_nil _).symm⟩
    obtain ⟨h, hh⟩ := Option.ne_none_iff_exists'.mp hp
    by_cases hlate : isLate c q.clock h = true
    · left
      refine List.mem_append_right _ (List.mem_map.mpr ⟨h, List.mem_filter.mpr ⟨?_, hlate⟩,
        held_id hseqs (given_of_coming hseqs hg) hh⟩)
      exact List.mem_map.mpr ⟨(g.seq, h), Std.ExtTreeMap.mem_toList_iff_getElem?_eq_some.mpr hh, rfl⟩
    · right
      left
      dsimp only
      rw [Std.ExtTreeMap.getElem?_filter', hh, Option.filter_some, if_pos (by simpa using hlate)]
      nofun
  | releaseLate hpc =>
    exact fun g hg => (hi g hg).settles (by rw [hpc]; nofun) (by rw [hpc]; exact id) (fun _ h => h)
      (fun hp => .inr (.inl hp)) ⟨_, rfl⟩
  | wait hfree hpc =>
    refine fun g hg => (hi g hg).settles (fun h hh => ?_) (fun h => ?_) (fun _ h => h)
      (fun hp => .inr (.inl hp)) ⟨[], (List.append_nil _).symm⟩
    · rw [hh] at hfree
      exact hfree
    · exact hfree.not_leaving h.leaving
  | die hpc | hear hpc | hearStop hpc | miss hpc =>
    exact fun g hg => (hi g hg).settles (by rw [hpc]; nofun) (by rw [hpc]; exact id) (fun _ h => h)
      (fun hp => .inr (.inl hp)) ⟨[], (List.append_nil _).symm⟩
  | @take position seq held hpc hseq hheld =>
    intro g hg
    refine (hi g hg).settles (by rw [hpc]; nofun) (by rw [hpc]; exact id) (fun _ h => h)
      (fun hp => ?_) ⟨[], (List.append_nil _).symm⟩
    by_cases hgs : g.seq = seq
    · rw [← hgs] at hheld
      exact .inr (.inr (.inl ⟨held, rfl, held_id hseqs (given_of_coming hseqs hg) hheld⟩))
    · right
      left
      rw [getElem?_erase_ite, if_neg hgs]
      exact hp
  | @ackTaken held hpc =>
    intro g hg
    rcases hi g hg with h | h | ⟨held', h, hid⟩ | h | h
    · exact .inl h
    · exact .inr (.inl h)
    · rw [hpc] at h
      cases h
      exact .inr (.inr (.inr (.inl ⟨_, List.mem_append_right _ (List.mem_singleton_self _), rfl,
        hid⟩)))
    · exact .inr (.inr (.inr (.inl (h.append rfl))))
    · rw [hpc] at h
      exact absurd h.1 id
  | drain hpc =>
    -- what is let go was not acknowledged: its acknowledgement would still be on the way
    have hl : q.settler.Leaving := by rw [hpc]; trivial
    exact fun g hg => (hi g hg).settles (by rw [hpc]; nofun) (by rw [hpc]; exact id) (fun _ h => h)
      (fun hp => .inr (.inr (.inr (.inr ⟨trivial, not_acked_of_leaving hshut hacks hl hp⟩))))
      ⟨[], (List.append_nil _).symm⟩
  | releaseHeld hpc | finish hpc =>
    intro g hg
    rcases hi g hg with h | h | ⟨held', h, -⟩ | h | h
    · exact .inl h
    · exact .inr (.inl h)
    · rw [hpc] at h
      cases h
    · exact .inr (.inr (.inr (.inl (h.append (by first | rfl | exact (List.append_nil _).symm)))))
    · exact .inr (.inr (.inr (.inr ⟨trivial, h.2⟩)))
  | ack hcancel =>
    intro g hg
    rcases hi g hg with h | h | h | h | h
    · exact .inl h
    · exact .inr (.inl h)
    · exact .inr (.inr (.inl h))
    · exact .inr (.inr (.inr (.inl h)))
    · have hsent := (hshut.leaving h.1.leaving).1
      rw [hcancel] at hsent
      exact absurd hsent id
  | cancel | join | sendStop | joinSettler | tick => exact hi

end TrackedSteps

/-! ## What is released -/

/-- What is released was expired, or let go at the shutdown without an acknowledgement. -/
structure Released (q : Queue) : Prop where
  log : ∀ s ∈ q.log, s.call = .release →
    s.id ∈ q.expired ∨ q.cancel ≠ .idle ∧ ¬ q.HostAcked s.id
  late : ∀ held, q.settler = .releasing held → ∀ h ∈ held, h.id ∈ q.expired
  drained : ∀ held, q.settler = .drained held → ∀ h ∈ held, ¬ q.HostAcked h.id

theorem InOrder.not_given {n : ℕ} {given : List Given} {items : List Item}
    (h : InOrder n given items) {i : Item} (hi : i ∈ items) : ∀ g ∈ given, g.id ≠ i.id := by
  obtain ⟨first, hids, -, hlt⟩ := h
  have hmem : i.id ∈ List.range' first items.length := hids ▸ List.mem_map_of_mem hi
  have hle : first ≤ i.id := (List.mem_range'_1.mp hmem).1
  exact fun g hg => Nat.ne_of_lt ((hlt g hg).trans_le hle)

section ReleasedSteps

variable {X : Externs} {c : Config} {q q' : Queue} {a : Act}

theorem released_start (now : Nanos) : (start now).Released where
  log := by simp [start]
  late := by simp [start]
  drained := by simp [start]

theorem hostAcked_of_emit (hseqs : q.Seqs) {i : Item} {seq id : ℕ}
    (hcur : q.receiver.current = some (i, seq)) {e : Given} (he : e ∈ q.emitted ++ [⟨i.id, seq⟩])
    (hid : e.id = id) (hs : e.seq ∈ q.hostAcked) : q.HostAcked id := by
  rcases List.mem_append.mp he with he | he
  · exact ⟨e, he, hid, hs⟩
  · obtain rfl := List.mem_singleton.mp he
    obtain ⟨e', he', hseq⟩ := hseqs.hostAcked _ hs
    exact absurd hseq (Nat.ne_of_lt ((hseqs.current i seq hcur).2 e' he'))

theorem Released.mono (hi : q.Released) (hlog : ∃ more, q'.log = q.log ++ more ∧
      ∀ s ∈ more, s.call = .ack)
    (hcancel : q.cancel ≠ .idle → q'.cancel ≠ .idle) (hexpired : q'.expired = q.expired)
    (hacked : ∀ id, q'.HostAcked id → q.HostAcked id)
    (hlate : ∀ held, q'.settler = .releasing held → q.settler = .releasing held ∨ held = [])
    (hdrained : ∀ held, q'.settler = .drained held → q.settler = .drained held) : q'.Released where
  log := fun s hs hcall => by
    obtain ⟨more, hlog, hmore⟩ := hlog
    rw [hlog] at hs
    rcases List.mem_append.mp hs with hs | hs
    · rw [hexpired]
      exact (hi.log s hs hcall).imp_right fun h => ⟨hcancel h.1, fun h' => h.2 (hacked _ h')⟩
    · exact absurd ((hmore s hs).symm.trans hcall) nofun
  late := fun held h x hx => by
    rcases hlate held h with h | rfl
    · exact hexpired ▸ hi.late held h x hx
    · cases hx
  drained := fun held h x hx h' => hi.drained held (hdrained held h) x hx (hacked _ h')

/-- A release of a delivery that was expired, or let go without an acknowledgement. -/
theorem released_log (hi : q.Released) {id : ℕ} {receipt : Json}
    (h : id ∈ q.expired ∨ q.cancel ≠ .idle ∧ ¬ q.HostAcked id) :
    ∀ s ∈ q.log ++ [(⟨.release, id, receipt⟩ : Settlement)], s.call = .release →
      s.id ∈ q.expired ∨ q.cancel ≠ .idle ∧ ¬ q.HostAcked s.id := by
  intro s hs hcall
  rcases List.mem_append.mp hs with hs | hs
  · exact hi.log s hs hcall
  · obtain rfl := List.mem_singleton.mp hs
    exact h

theorem Shut.cancelled (hi : q.Shut) (hl : q.settler.Leaving) : q.cancel ≠ .idle := by
  intro hidle
  have hsent := (hi.leaving hl).1
  rw [hidle] at hsent
  exact hsent

theorem released_step (hseqs : q.Seqs) (hshut : q.Shut) (hacks : q.AcksQueued) (hi : q.Released)
    (ht : Transition X c q a q') : q'.Released := by
  cases ht with
  | @releaseNow i rest hpc =>
    -- what is turned away was never offered
    have hnot : ¬ q.HostAcked i.id := by
      rintro ⟨e, he, hid, -⟩
      have horder := hseqs.order
      rw [hpc] at horder
      exact horder.not_given List.mem_cons_self e (hseqs.emitted e he) hid
    exact ⟨released_log hi (.inr ⟨hshut.turned _ hpc, hnot⟩), hi.late, hi.drained⟩
  | ackNow | reject =>
    exact hi.mono ⟨_, rfl, by simp⟩ id rfl (fun _ h => h) (fun _ h => .inl h) (fun _ h => h)
  | @emit i seq text rest hpc =>
    have hcur : q.receiver.current = some (i, seq) := by rw [hpc]; rfl
    refine hi.mono ⟨[], (List.append_nil _).symm, by simp⟩ id rfl (fun id h => ?_)
      (fun _ h => .inl h) (fun _ h => h)
    obtain ⟨e, he, hid, hs⟩ := h
    exact hostAcked_of_emit hseqs hcur he hid hs
  | expire hpc =>
    refine ⟨fun s hs hcall => (hi.log s hs hcall).imp_left (List.mem_append_left _),
      fun held h x hx => ?_, fun _ => nofun⟩
    cases h
    exact List.mem_append_right _ (List.mem_map_of_mem hx)
  | releaseLate hpc =>
    refine ⟨released_log hi (.inl (hi.late _ hpc _ List.mem_cons_self)), fun held h x hx => ?_,
      fun _ => nofun⟩
    cases h
    exact hi.late _ hpc x (List.mem_cons_of_mem _ hx)
  | @wait pc hfree hpc =>
    refine hi.mono ⟨[], (List.append_nil _).symm, by simp⟩ id rfl (fun _ h => h)
      (fun held h => .inr ?_) (fun held h => ?_)
    · cases (h : pc = _)
      cases held with
      | nil => rfl
      | cons x held => exact absurd hpc id
    · cases (h : pc = _)
      exact absurd hpc id
  | die | hear | hearStop | miss | take | finish =>
    exact hi.mono ⟨[], (List.append_nil _).symm, by simp⟩ id rfl (fun _ h => h) (fun _ => nofun)
      (fun _ => nofun)
  | ackTaken =>
    exact hi.mono ⟨_, rfl, by simp⟩ id rfl (fun _ h => h) (fun _ => nofun) (fun _ => nofun)
  | drain hpc =>
    refine ⟨hi.log, fun _ => nofun, fun held h x hx => ?_⟩
    cases h
    obtain ⟨⟨s, y⟩, hsy, rfl⟩ := List.mem_map.mp hx
    have hheld : q.pending[s]? = some y := Std.ExtTreeMap.mem_toList_iff_getElem?_eq_some.mp hsy
    rintro ⟨e, he, hid, hs⟩
    have hseq : e.seq = s := hseqs.seq_eq (hseqs.emitted e he) (hseqs.window s y hheld) hid
    rw [hseq] at hs
    exact not_acked_of_leaving hshut hacks (by rw [hpc]; trivial) (by rw [hheld]; nofun) hs
  | releaseHeld hpc =>
    have hcancel := hshut.cancelled (by rw [hpc]; trivial)
    refine ⟨released_log hi (.inr ⟨hcancel, hi.drained _ hpc _ List.mem_cons_self⟩),
      fun _ => nofun, fun held h x hx => ?_⟩
    cases h
    exact hi.drained _ hpc x (List.mem_cons_of_mem _ hx)
  | ack hcancel =>
    refine ⟨fun s hs hcall => .inl ?_, hi.late, fun held h => ?_⟩
    · rcases hi.log s hs hcall with h | h
      · exact h
      · exact absurd hcancel h.1
    · exact absurd hcancel (hshut.cancelled (by rw [show q.settler = _ from h]; trivial))
  | cancel | join | sendStop | joinSettler =>
    exact hi.mono ⟨[], (List.append_nil _).symm, by simp⟩ (fun _ => nofun) rfl (fun _ h => h)
      (fun _ h => .inl h) (fun _ h => h)
  | _ =>
    exact hi.mono ⟨[], (List.append_nil _).symm, by simp⟩ id rfl (fun _ h => h) (fun _ h => .inl h)
      (fun _ h => h)

end ReleasedSteps

/-! ## The settling thread lives -/

/-- The settling thread has the deadlines of the window to add up. -/
def SettlerPc.arms : SettlerPc → Bool
  | arming => true
  | _ => false

/-- When the settling thread works out how long to wait, `Instant` can hold the deadline of every
delivery in the window. -/
def DeadlinesFit (c : Config) (q : Queue) : Act → Prop
  | .settler => q.settler.arms = true →
      ∀ sh ∈ q.pending.toList, c.holds (sh.2.atTime + c.options.ackTimeout) = true
  | _ => True

instance (c : Config) (q : Queue) : DecidablePred (DeadlinesFit c q)
  | .settler => inferInstanceAs (Decidable (_ → _))
  | .receiver | .connected _ | .received _ | .ack _ | .cancel | .tick _ => .isTrue trivial

section Alive

variable {X : Externs} {c : Config} {now : Nanos} {q q' : Queue} {a : Act}

theorem alive_step (hi : q.settler ≠ .dead) (hfit : DeadlinesFit c q a)
    (ht : Transition X c q a q') : q'.settler ≠ .dead := by
  cases ht with
  | die hpc hoverflows =>
    obtain ⟨sh, hsh, hlong⟩ := hoverflows
    have hholds := hfit (by rw [hpc]; rfl) sh hsh
    rw [hlong] at hholds
    cases hholds
  | wait hfree hpc =>
    rintro rfl
    exact hpc
  | expire | releaseLate | hear | hearStop | miss | take | ackTaken | drain | releaseHeld | finish =>
    nofun
  | _ => exact hi

theorem alive_of_reach (hr : Reach (Steps X c) (DeadlinesFit c) (start now) q) :
    q.settler ≠ .dead :=
  invariant_of_transition hr nofun fun _ _ _ hu hok ht => alive_step hu hok ht

end Alive

/-! ## The cancel returned -/

section Returned

variable {X : Externs} {c : Config} {now : Nanos} {q : Queue}

theorem settling_of_reach {ok : Queue → Act → Prop} (hr : Reach (Steps X c) ok (start now) q) :
    q.Seqs ∧ q.Shut ∧ q.AcksQueued ∧ q.AllTracked ∧ q.Released := by
  refine invariant_of_transition
    (I := fun q => q.Seqs ∧ q.Shut ∧ q.AcksQueued ∧ q.AllTracked ∧ q.Released) hr
    ⟨seqs_start now, shut_start now, by simp [AcksQueued, start],
      by simp [AllTracked, start, ReceiverPc.coming], released_start now⟩ ?_
  rintro u a v ⟨hseqs, hshut, hacks, htracked, hreleased⟩ - ht
  exact ⟨seqs_step hseqs ht, shut_step hshut ht, acksQueued_step hseqs hshut hacks ht,
    allTracked_step hseqs hshut hacks htracked ht, released_step hseqs hshut hacks hreleased ht⟩

theorem Shut.done_of_returned (hshut : q.Shut) (halive : q.settler ≠ .dead)
    (hc : q.cancel = .returned) : q.settler = .done := by
  have hgone := hshut.returned hc
  cases hpc : q.settler with
  | done => rfl
  | dead => exact absurd hpc halive
  | top | releasing | arming | waiting | taking | acking | draining | drained =>
    rw [hpc] at hgone
    cases hgone

theorem owned_of_returned (hshut : q.Shut) (halive : q.settler ≠ .dead) (hc : q.cancel = .returned) :
    q.owned = q.log.map Settlement.id := by
  have hreceiver := hshut.joined (by rw [hc]; trivial)
  have hsettler := hshut.done_of_returned halive hc
  have hpending := hshut.emptied (by rw [hsettler]; trivial)
  have hnone : (∅ : BTreeMap ℕ Held).toList = [] := Std.ExtTreeMap.toList_eq_nil_iff.mpr rfl
  rw [owned, hreceiver, hsettler, hpending, windowIds, hnone]
  rfl

/-- **Nothing is left unsettled**, in every run in which no deadline overflows and which ends with the
cancel returning: every delivery that was received was acked or released, with the receipt it came
with; and a delivery whose position the host acknowledged before it cancelled, and which did not
expire, was acked and never released. -/
theorem cancel_settles_all (hr : Reach (Steps X c) (DeadlinesFit c) (start now) q)
    (hc : q.cancel = .returned) :
    (∀ id < q.received.length, ∃ s ∈ q.log, s.id = id ∧ q.Came id s.receipt) ∧
      ∀ id, q.HostAcked id → id ∉ q.expired →
        q.Acked id ∧ ∀ s ∈ q.log, s.id = id → s.call = .ack := by
  obtain ⟨-, hshut, -, htracked, hreleased⟩ := settling_of_reach hr
  have halive := alive_of_reach hr
  refine ⟨fun id hid => ?_, fun id hacked hexpired => ⟨?_, fun s hs hsid => ?_⟩⟩
  · have howned := covered_of_reach hr id hid
    rw [owned_of_returned hshut halive hc] at howned
    obtain ⟨s, hs, rfl⟩ := List.mem_map.mp howned
    exact ⟨s, hs, rfl, (real_of_reach hr).log s hs⟩
  · have hsettler := hshut.done_of_returned halive hc
    have hpending := hshut.emptied (by rw [hsettler]; trivial)
    obtain ⟨e, he, rfl, hseq⟩ := hacked
    rcases htracked e (.inl he) with h | h | ⟨held, h, -⟩ | h | h
    · exact absurd h hexpired
    · exact absurd (by rw [hpending]; simp) h
    · rw [hsettler] at h
      cases h
    · exact h
    · exact absurd hseq h.2
  · cases hcall : s.call with
    | ack => rfl
    | release =>
      rcases hreleased.log s hs hcall with h | h
      · exact absurd (hsid ▸ h) hexpired
      · exact absurd (hsid ▸ hacked) h.2

end Returned

/-- Two deliveries are offered; the host acknowledges the first and cancels. -/
def cancelHalfway : List Act :=
  fillWindow ++ [.ack (position 0), .cancel, .receiver, .receiver, .cancel, .cancel] ++
    List.replicate 13 .settler ++ [.cancel]

theorem cancel_settles_all_cancelHalfway :
    ∃ q, (start 0).run plainExterns plainConfig (fun q a => decide (DeadlinesFit plainConfig q a))
        cancelHalfway = some q ∧
      (q.log.map fun s => (s.call, s.id)) = [(.ack, 0), (.release, 1)] ∧ q.cancel = .returned ∧
      ∀ id < q.received.length, ∃ s ∈ q.log, s.id = id ∧ q.Came id s.receipt := by
  obtain ⟨q, hq, hlog, hreturned⟩ := end_of_run
    (r := (start 0).run plainExterns plainConfig (fun q a => decide (DeadlinesFit plainConfig q a))
      cancelHalfway)
    (P := fun q => (q.log.map fun s => (s.call, s.id)) = [(.ack, 0), (.release, 1)] ∧
      q.cancel = .returned) (by decide +kernel)
  exact ⟨q, hq, hlog, hreturned,
    (cancel_settles_all ((reach_run hq).mono fun _ _ h => of_decide_eq_true h) hreturned).1⟩

/-- The longest `Duration`: 2^64 - 1 seconds and 999999999 nanoseconds. -/
def durationMax : Nanos := 2 ^ 64 * 1000000000 - 1

/-- `plainConfig` with a timeout that never passes. -/
def patientConfig : Config :=
  { plainConfig with options := { plainConfig.options with ackTimeout := durationMax } }

/-- Two deliveries are offered, the settling thread works out how long to wait, and the host cancels. -/
def cancelsPatient : List Act :=
  fillWindow ++ [.settler, .settler, .settler, .cancel, .receiver, .receiver, .cancel, .cancel, .cancel]

/-- **Deliveries are left behind** when the settling thread panics: the cancel returns all the same. -/
theorem patient_settles_nothing :
    ¬ ∀ (X : Externs) (c : Config) (now : Nanos) (q : Queue), c.options.validate = .ok () →
      Reach (Steps X c) anyStep (start now) q → q.cancel = .returned →
      (∀ id < q.received.length, ∃ s ∈ q.log, s.id = id) ∧
        ∀ id, q.HostAcked id → id ∉ q.expired →
          q.Acked id ∧ ∀ s ∈ q.log, s.id = id → s.call = .ack := by
  intro H
  obtain ⟨q, hq, hreturned, hreceived, hlog⟩ := end_of_run
    (r := (start 0).run plainExterns patientConfig (fun _ _ => true) cancelsPatient)
    (P := fun q => q.cancel = .returned ∧ q.received.length = 2 ∧ q.log.length = 0)
    (by decide +kernel)
  obtain ⟨s, hs, -⟩ := (H plainExterns patientConfig 0 q rfl
    ((reach_run hq).mono fun _ _ _ => trivial) hreturned).1 0 (by rw [hreceived]; decide)
  rw [List.length_eq_zero_iff.mp hlog] at hs
  cases hs

end Queue

end McpgSdk
