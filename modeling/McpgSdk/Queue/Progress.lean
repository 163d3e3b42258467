import McpgSdk.Queue.Returns

/-!
# Every delivery is settled

A delivery is offered by the receiving thread, waits in the window, and leaves it into the hands of the
thread that settles it. None of these places keeps it for ever: the window gives it up when it waited
past the timeout and the settling thread next comes to the head of its loop, which it does although the
host may go on acknowledging.

* `window_step`: a delivery leaves the window only into the hands of a thread;
* `unoffered_leaves`, `window_left`, `window_leaves`, `out_settles`: each place leads on;
* **`delivery_settles`**: every delivery that was received is settled, cancelled or not, if the clock
  goes on.
-/

set_option autoImplicit false

namespace McpgSdk

open OrdMap

namespace Queue

section Window

variable {X : Externs} {c : Config} {q q' : Queue} {a : Act}

/-- The settling thread or `offer` has the delivery in its hands, to settle it next. -/
def Out (q : Queue) (id : ℕ) : Prop :=
  id ∈ q.settler.hand.map Held.id ∨ ∃ i rest, q.receiver = .rejecting i rest ∧ i.id = id

theorem mem_held {m : BTreeMap ℕ Held} {s : ℕ} {h : Held} (hs : m[s]? = some h) :
    h ∈ m.toList.map Prod.snd :=
  List.mem_map.mpr ⟨(s, h), Std.ExtTreeMap.mem_toList_iff_getElem?_eq_some.mpr hs, rfl⟩

theorem window_step (hi : q.Seqs) {s : ℕ} {h : Held} (hs : q.pending[s]? = some h)
    (ht : Transition X c q a q') : q'.pending[s]? = some h ∨ q'.Out h.id := by
  cases ht with
  | insert hpc =>
    have hlt := hi.below _ (hi.window s h hs)
    exact .inl (by rw [getElem?_insert_ite, if_neg (Nat.ne_of_lt hlt)]; exact hs)
  | @takeBack i seq rest hpc =>
    by_cases hseq : s = seq
    · subst hseq
      have hid : h.id = i.id := hi.id_eq (hi.window s h hs) (hi.current i s (by rw [hpc]; rfl)).1 rfl
      exact .inr (.inr ⟨i, rest, rfl, hid.symm⟩)
    · exact .inl (by rw [getElem?_erase_ite, if_neg hseq]; exact hs)
  | expire hpc =>
    cases hlate : isLate c q.clock h with
    | true =>
      have hmem : h ∈ late c q := List.mem_filter.mpr ⟨mem_held hs, hlate⟩
      exact .inr (.inl (List.mem_map_of_mem hmem))
    | false => exact .inl (by rw [Std.ExtTreeMap.getElem?_filter', hs]; simp [hlate])
  | @take position seq held hpc hseq hheld =>
    by_cases hsame : s = seq
    · subst hsame
      obtain rfl : held = h := Option.some.inj (hheld.symm.trans hs)
      exact .inr (.inl (by simp))
    · exact .inl (by rw [getElem?_erase_ite, if_neg hsame]; exact hs)
  | drain hpc => exact .inr (.inl (List.mem_map_of_mem (mem_held hs)))
  | _ => exact .inl hs

theorem ReceiverPc.busy_of_unoffered {pc : ReceiverPc} {id : ℕ}
    (h : id ∈ pc.unoffered.map Item.id) : ¬ pc.Idle ∧ pc.inCall = false ∧ pc ≠ .done := by
  cases pc with
  | top | connecting | pausing | waitRoom | receiving | done => simp at h
  | got | releasing | acking | offering | offered | emitting | taking | rejecting =>
    exact ⟨fun h => h, rfl, nofun⟩

/-- How far the settling thread is from the head of its loop. -/
def SettlerPc.turn : SettlerPc → ℕ
  | drained _ | done | dead => 0
  | top | draining => 1
  | acking _ => 2
  | taking _ => 3
  | waiting _ => 4
  | arming => 5
  | releasing late => late.length + 6

/-- When the settling thread wakes by itself. -/
def SettlerPc.deadline : SettlerPc → Nanos
  | waiting deadline => deadline
  | _ => 0

/-- A delivery that waited past the timeout is taken out of the window when the settling thread comes
to the head of its loop, and each statement that leaves it there brings the thread nearer. -/
theorem turn_lowers (hshut : q.Shut) {s : ℕ} {h : Held} (hs : q.pending[s]? = some h)
    (htime : h.atTime + c.options.ackTimeout ≤ q.clock) (hnext : Steps X c q .settler q')
    (hs' : q'.pending[s]? = some h) : q'.settler.turn < q.settler.turn := by
  cases hpc : q.settler with
  | top =>
    simp only [Steps, step, settlerNext, hpc] at hnext
    cases hnext
    rw [Std.ExtTreeMap.getElem?_filter', hs] at hs'
    have hlate : isLate c q.clock h = true := decide_eq_true (Nat.le_sub_of_add_le' htime)
    simp [hlate] at hs'
  | releasing held =>
    cases held <;> simp only [Steps, step, settlerNext, hpc] at hnext <;> cases hnext <;>
      simp [SettlerPc.turn]
  | arming =>
    simp only [Steps, step, settlerNext, hpc] at hnext
    split at hnext <;> cases hnext <;> simp [SettlerPc.turn]
  | acking | draining =>
    simp only [Steps, step, settlerNext, hpc] at hnext
    cases hnext
    simp [SettlerPc.turn]
  | waiting deadline =>
    simp only [Steps, step, settlerNext, hpc] at hnext
    split at hnext
    · cases hnext
      simp [SettlerPc.turn]
    · cases hnext
      simp [SettlerPc.turn]
    · split_ifs at hnext
      cases hnext
      simp [SettlerPc.turn]
  | taking position =>
    simp only [Steps, step, settlerNext, hpc] at hnext
    split at hnext <;> cases hnext <;> simp [SettlerPc.turn]
  | drained held =>
    have hempty := hshut.emptied (by rw [hpc]; trivial)
    rw [hempty] at hs
    simp at hs
  | done | dead => simp [Steps, step, settlerNext, hpc] at hnext

theorem hand_step {id : ℕ} (hid : id ∈ q.settler.hand.map Held.id) (h : Steps X c q .settler q') :
    id ∈ q'.log.map Settlement.id ∨
      id ∈ q'.settler.hand.map Held.id ∧ q'.settler.hand.length < q.settler.hand.length := by
  cases hpc : q.settler with
  | releasing held | drained held =>
    cases held with
    | nil => simp [hpc] at hid
    | cons x rest =>
      simp only [Steps, step, settlerNext, hpc] at h
      cases h
      rw [hpc] at hid
      rcases List.mem_cons.mp hid with rfl | hid
      · exact .inl (by simp [settle])
      · exact .inr ⟨hid, by simp⟩
  | acking held =>
    simp only [Steps, step, settlerNext, hpc] at h
    cases h
    rw [hpc] at hid
    obtain rfl := List.mem_singleton.mp hid
    exact .inl (by simp [settle])
  | top | arming | waiting | taking | draining | done | dead => simp [hpc] at hid

end Window

section Settles

variable {X : Externs} {c : Config} {now : Nanos} {r : Execution (Steps X c)}

theorem unoffered_leaves (hfair : r.Fair (Process.owns .receiver)) (id : ℕ) :
    r.LeadsTo (fun q => id ∈ q.receiver.unoffered.map Item.id)
      fun q => id ∉ q.receiver.unoffered.map Item.id := by
  refine Execution.leadsTo_of_measure (I := fun _ => True) (fun _ => trivial) hfair
    (fun q => q.receiver.stepsLeft) ?_ ?_ ?_
  · intro q _ hid
    obtain ⟨hidle, hcall, hdone⟩ := ReceiverPc.busy_of_unoffered hid
    exact receiver_enabled (.inr hidle) hcall hdone
  · intro q a q' _ hid ha hs
    cases a with
    | receiver =>
      have hlt := (receiver_lowers hs (.inr (ReceiverPc.busy_of_unoffered hid).1)).1
      by_cases hmem : id ∈ q'.receiver.unoffered.map Item.id
      · exact .inr ⟨hmem, hlt⟩
      · exact .inl hmem
    | connected | received | settler | ack | cancel | tick => exact absurd ha (fun h => h)
  · intro q a q' _ hid ha hs
    have hcall := not_source (ReceiverPc.busy_of_unoffered hid).2.1 hs
    have hsame := receiver_of_step ha hcall hs
    exact .inr ⟨hsame ▸ hid, by rw [hsame]⟩

theorem out_settles (hreceiver : r.Fair (Process.owns .receiver))
    (hsettler : r.Fair (Process.owns .settler)) (id : ℕ) :
    r.LeadsTo (fun q => q.Out id) fun q => id ∈ q.log.map Settlement.id := by
  refine Execution.LeadsTo.or ?_ ?_
  · refine Execution.leadsTo_of_measure (I := fun _ => True) (fun _ => trivial) hsettler
      (fun q => q.settler.hand.length) ?_ ?_ ?_
    · intro q _ hid
      refine settler_enabled ?_ fun deadline h => ?_
      · cases hpc : q.settler with
        | done | dead => simp [hpc] at hid
        | top | releasing | arming | waiting | taking | acking | draining | drained => rfl
      · simp [h] at hid
    · intro q a q' _ hid ha hs
      cases a with
      | settler => exact hand_step hid hs
      | receiver | connected | received | ack | cancel | tick => exact absurd ha (fun h => h)
    · intro q a q' _ hid ha hs
      have hsame := settler_of_step ha hs
      exact .inr ⟨hsame ▸ hid, by rw [hsame]⟩
  · refine Execution.leadsTo_of_fair (I := fun _ => True) (fun _ => trivial) hreceiver ?_ ?_ ?_
    · rintro q - ⟨i, rest, hpc, -⟩
      exact receiver_enabled (.inr (by rw [hpc]; exact fun h => h)) (by rw [hpc]; rfl)
        (by rw [hpc]; nofun)
    · rintro q a q' - ⟨i, rest, hpc, rfl⟩ ha hs
      cases a with
      | receiver =>
        simp only [Steps, step, receiverNext, hpc] at hs
        cases hs
        simp [settle]
      | connected | received | settler | ack | cancel | tick => exact absurd ha (fun h => h)
    · rintro q a q' - ⟨i, rest, hpc, hid⟩ ha hs
      have hcall := not_source (by rw [hpc]; rfl) hs
      exact .inr ⟨i, rest, (receiver_of_step ha hcall hs).trans hpc, hid⟩

/-- The delivery is in the window and waited past the timeout. -/
def Overdue (c : Config) (s : ℕ) (h : Held) (q : Queue) : Prop :=
  q.pending[s]? = some h ∧ h.atTime + c.options.ackTimeout ≤ q.clock

/-- The numbers and the shutdown are in order, and the settling thread did not panic. -/
structure Sound (q : Queue) : Prop where
  seqs : q.Seqs
  shut : q.Shut
  alive : q.settler ≠ .dead

theorem sound_of_reach {q : Queue} (hr : Reach (Steps X c) (DeadlinesFit c) (start now) q) :
    q.Sound :=
  ⟨(settling_of_reach hr).1, (settling_of_reach hr).2.1, alive_of_reach hr⟩

theorem Sound.there {q : Queue} (hi : q.Sound) {s : ℕ} {h : Held} (hs : q.pending[s]? = some h) :
    q.settler.gone = false := by
  cases hpc : q.settler with
  | done =>
    rw [hi.shut.emptied (by rw [hpc]; trivial)] at hs
    simp at hs
  | dead => exact absurd hpc hi.alive
  | top | releasing | arming | waiting | taking | acking | draining | drained => rfl

/-- What is in the window does not stay: once it is overdue it is gone when the settling thread next
comes to the head of its loop. -/
theorem window_left (hI : ∀ n, (r.state n).Sound)
    (hfair : r.Fair (Process.owns .settler)) (hclock : r.Diverges clock) (s : ℕ) (h : Held) :
    r.LeadsTo (fun q => q.pending[s]? = some h) fun q => q.pending[s]? ≠ some h := by
  have hmono : ∀ (q : Queue) a q', Steps X c q a q' → q.clock ≤ q'.clock :=
    fun _ _ _ => clock_of_step
  refine (Execution.leadsTo_after hI hclock hmono (fun q a q' _ _ _ => em _)
    (h.atTime + c.options.ackTimeout)).trans_or ?_
  refine Execution.leadsTo_of_timed_rank (P := Overdue c s h) hI
    (fun _ : Unit => Process.owns .settler) (fun _ => hfair) hmono (fun _ => ())
    (fun q => q.settler.turn) (fun q => q.settler.deadline) (fun q _ => hclock _) ?_ ?_
  · intro q hi hq hwake
    refine settler_enabled (hi.there hq.1) fun deadline hwait => .inr ?_
    rw [hwait] at hwake
    exact hwake
  · intro q a q' hi hq ht
    by_cases hs' : q'.pending[s]? = some h
    · have hq' : Overdue c s h q' := ⟨hs', hq.2.trans (clock_of_step ht)⟩
      refine .inr ⟨hq', ?_⟩
      by_cases ha : Process.owns .settler a
      · cases a with
        | settler => exact .inl (turn_lowers hi.shut hq.1 hq.2 ht hs')
        | receiver | connected | received | ack | cancel | tick => exact absurd ha id
      · have hsame := settler_of_step ha ht
        exact .inr ⟨⟨by rw [hsame], rfl, by rw [hsame]⟩, ha⟩
    · exact .inl hs'

theorem window_leaves (hI : ∀ n, (r.state n).Sound)
    (hfair : r.Fair (Process.owns .settler)) (hclock : r.Diverges clock) (s : ℕ) (h : Held) :
    r.LeadsTo (fun q => q.pending[s]? = some h) fun q => q.Out h.id :=
  (window_left hI hfair hclock s h).of_leaves fun n hs =>
    window_step (hI n).seqs hs (transition_of_step (r.next n))

theorem rejecting_of_hand {pc : ReceiverPc} {id : ℕ} (hhand : id ∈ pc.hand.map Item.id)
    (hnot : id ∉ pc.unoffered.map Item.id) : ∃ i rest, pc = .rejecting i rest ∧ i.id = id := by
  cases pc with
  | rejecting i rest =>
    rcases List.mem_cons.mp hhand with hid | hmem
    · exact ⟨i, rest, rfl, hid.symm⟩
    · exact absurd hmem hnot
  | _ => exact absurd hhand hnot

theorem received_of_le {n m : ℕ} (h : n ≤ m) :
    (r.state n).received.length ≤ (r.state m).received.length :=
  monotone_nat_of_le_succ (f := fun m => (r.state m).received.length)
    (fun m => received_grows (transition_of_step (r.next m))) h

/-- **Every delivery is settled.** In every execution that is fair to the two threads and in which the
clock goes on and no deadline overflows, a delivery that `receive` returned is acked or released, with
the receipt it came with, whatever the host and the broker do. -/
theorem delivery_settles (h₀ : Reach (Steps X c) (DeadlinesFit c) (start now) (r.state 0))
    (hfit : ∀ n, DeadlinesFit c (r.state n) (r.act n)) (hreceiver : r.Fair (Process.owns .receiver))
    (hsettler : r.Fair (Process.owns .settler)) (hclock : r.Diverges clock) (id : ℕ) :
    r.LeadsTo (fun q => id < q.received.length)
      fun q => ∃ s ∈ q.log, s.id = id ∧ q.Came id s.receipt := by
  have hreach := Execution.reach_of_ok h₀ hfit
  have hout := out_settles hreceiver hsettler id
  have hwindow : r.LeadsTo (fun q => id ∈ windowIds q.pending)
      fun q => id ∈ q.log.map Settlement.id := by
    intro n hn
    obtain ⟨⟨s, h⟩, hmem, rfl⟩ := List.mem_map.mp hn
    exact (window_leaves (fun n => sound_of_reach (hreach n)) hsettler hclock s h).trans hout n
      (Std.ExtTreeMap.mem_toList_iff_getElem?_eq_some.mp hmem)
  -- outside the deliveries still to be offered, it is in one of the other places
  have hoffered : ∀ n, id < (r.state n).received.length →
      id ∉ (r.state n).receiver.unoffered.map Item.id →
      ∃ m, n ≤ m ∧ id ∈ (r.state m).log.map Settlement.id := by
    intro n hn hnot
    have howned := covered_of_reach (hreach n) id hn
    simp only [owned, List.mem_append, or_assoc] at howned
    rcases howned with hhand | hpending | hheld | hlog
    · exact hout n (.inr (rejecting_of_hand hhand hnot))
    · exact hwindow n hpending
    · exact hout n (.inl hheld)
    · exact ⟨n, le_refl n, hlog⟩
  intro n hn
  obtain ⟨m, hm, hlog⟩ : ∃ m, n ≤ m ∧ id ∈ (r.state m).log.map Settlement.id := by
    by_cases hmem : id ∈ (r.state n).receiver.unoffered.map Item.id
    · obtain ⟨m, hm, hleft⟩ := unoffered_leaves hreceiver id n hmem
      obtain ⟨k, hk, hlog⟩ := hoffered m (hn.trans_le (received_of_le hm)) hleft
      exact ⟨k, hm.trans hk, hlog⟩
    · exact hoffered n hn hmem
  obtain ⟨s, hs, rfl⟩ := List.mem_map.mp hlog
  exact ⟨m, hm, s, hs, rfl, (real_of_reach (hreach m)).log s hs⟩

end Settles

theorem delivery_settles_cancelHalfway :
    ∃ (r : Execution (Steps plainExterns endlessConfig)) (n m : ℕ), n ≤ m ∧
      (r.state n).log.length = 0 ∧ ∃ s ∈ (r.state m).log, s.id = 1 := by
  obtain ⟨r, h₀, ⟨n, -, hreceived, hlog⟩, hfair, hclock⟩ := exists_fair_cancelHalfway
  have hreach : Reach (Steps plainExterns endlessConfig) (DeadlinesFit endlessConfig) (start 0)
      (r.state 0) := h₀ ▸ .refl
  have hcame : 1 < (r.state n).received.length := by rw [hreceived]; decide
  obtain ⟨m, hm, s, hs, hid, -⟩ :=
    delivery_settles hreach (fun _ => deadlinesFit_endless _ _) (hfair .receiver) (hfair .settler)
      hclock 1 n hcame
  exact ⟨r, n, m, hm, hlog, s, hs, hid⟩

end Queue

end McpgSdk
