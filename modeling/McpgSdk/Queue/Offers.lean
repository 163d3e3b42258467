import McpgSdk.Queue.Receives

/-!
# Every event, once and in order

An event source hands the deliveries to the host one after the other, each with the position of its
place among those received. A delivery without a text, or with a text past the host's limit, is passed
over. Nothing is handed over twice, and nothing out of turn.

* `handed`: the texts that belong to some deliveries;
* `Standing`, `Handing`: how far the receiving thread is with what it received;
* **`handed_in_order`**: what was handed over belongs to the first of the deliveries received;
* **`hands_over_all`**: a watch that goes on catches up with its source again and again.
-/

set_option autoImplicit false

namespace McpgSdk

namespace Queue

/-- The texts for some deliveries, each with the position of its place among them. -/
def handed (X : Externs) (c : Config) (deliveries : List Delivery) : List String :=
  deliveries.zipIdx.filterMap fun p => offerText X c p.1.event p.2

theorem handed_concat (X : Externs) (c : Config) (before : List Delivery) (d : Delivery) :
    handed X c (before ++ [d]) =
      handed X c before ++ (offerText X c d.event before.length).toList := by
  unfold handed
  rw [List.zipIdx_append, List.filterMap_append, Nat.zero_add]
  cases h : offerText X c d.event before.length <;> simp [h]

theorem deliveries_itemsOf (n : ℕ) (deliveries : List Delivery) :
    (itemsOf n deliveries).map Item.delivery = deliveries := by
  induction deliveries generalizing n with
  | nil => rfl
  | cons d ds ih => rw [itemsOf, List.map_cons, ih]

/-- How far the receiving thread of an event source is, with `n` the next sequence number: it is done
with the deliveries `before`, and those `after` are still to be offered. -/
def Standing (X : Externs) (c : Config) (n : ℕ) (before after : List Delivery) : ReceiverPc → Prop
  | .top | .connecting | .pausing _ | .waitRoom | .receiving _ => n = before.length ∧ after = []
  | .got items | .offering items => n = before.length ∧ after = items.map Item.delivery
  | .offered i seq rest => n = before.length + 1 ∧ seq = before.length ∧
      after = i.delivery :: rest.map Item.delivery
  | .emitting i _ text rest => n = before.length + 1 ∧
      offerText X c i.delivery.event before.length = some text ∧
      after = i.delivery :: rest.map Item.delivery
  | .taking i _ rest | .rejecting i rest => n = before.length + 1 ∧
      offerText X c i.delivery.event before.length = none ∧
      after = i.delivery :: rest.map Item.delivery
  -- a resource watch only
  | .acking _ => False
  -- what arrived too late is never offered
  | .releasing _ | .done => True

/-- What was handed over belongs to the deliveries the receiving thread is done with. -/
def Handing (X : Externs) (c : Config) (q : Queue) : Prop :=
  ∃ before after, q.received = before ++ after ∧ q.texts = handed X c before ∧
    Standing X c q.nextSeq before after q.receiver

section Steps

variable {X : Externs} {c : Config} {q q' : Queue} {a : Act}

theorem offers_frame (ha : ¬ Process.owns .receiver a) (ha' : ¬ Process.owns .source a)
    (h : Steps X c q a q') :
    q'.received = q.received ∧ q'.texts = q.texts ∧ q'.nextSeq = q.nextSeq := by
  cases a with
  | receiver => exact absurd trivial ha
  | connected | received => exact absurd trivial ha'
  | settler =>
    rw [settlerNext_eq h]
    exact ⟨rfl, rfl, rfl⟩
  | ack position =>
    simp only [Steps, step, acknowledge, Option.ite_none_right_eq_some] at h
    obtain ⟨-, h⟩ := h
    cases h
    exact ⟨rfl, rfl, rfl⟩
  | cancel =>
    rw [cancelNext_eq h]
    exact ⟨rfl, rfl, rfl⟩
  | tick d =>
    cases h
    exact ⟨rfl, rfl, rfl⟩

theorem handing_next {before after rest : List Delivery} {d : Delivery}
    (hreceived : q.received = before ++ after) (hafter : after = d :: rest) :
    q.received = (before ++ [d]) ++ rest := by
  rw [hreceived, hafter, List.append_assoc, List.singleton_append]

theorem handing_receiver (hsource : c.eventSource = true) (hi : q.Handing X c)
    (h : receiverNext X c q = some q') : q'.Handing X c := by
  obtain ⟨before, after, hreceived, htexts, hstand⟩ := hi
  cases hpc : q.receiver with
  | top | waitRoom =>
    simp only [receiverNext, hpc] at h
    rw [hpc] at hstand
    split_ifs at h <;> cases h
    all_goals first
      | exact ⟨before, after, hreceived, htexts, hstand⟩
      | exact ⟨before, after, hreceived, htexts, trivial⟩
  | pausing wakeAt =>
    simp only [receiverNext, hpc, Option.ite_none_right_eq_some] at h
    obtain ⟨-, h⟩ := h
    cases h
    rw [hpc] at hstand
    exact ⟨before, after, hreceived, htexts, hstand⟩
  | got items =>
    simp only [receiverNext, hpc, hsource, if_true] at h
    rw [hpc] at hstand
    split_ifs at h <;> cases h
    · exact ⟨before, after, hreceived, htexts, trivial⟩
    · exact ⟨before, after, hreceived, htexts, hstand⟩
  | releasing items =>
    cases items <;> simp only [receiverNext, hpc] at h <;> cases h <;>
      exact ⟨before, after, hreceived, htexts, trivial⟩
  | acking items =>
    rw [hpc] at hstand
    exact absurd hstand id
  | offering items =>
    rw [hpc] at hstand
    obtain ⟨hseq, hafter⟩ := hstand
    cases items with
    | nil =>
      simp only [receiverNext, hpc] at h
      cases h
      exact ⟨before, after, hreceived, htexts, hseq, hafter⟩
    | cons i rest =>
      simp only [receiverNext, hpc] at h
      cases h
      exact ⟨before, after, hreceived, htexts, by rw [hseq], hseq, hafter⟩
  | offered i seq rest =>
    rw [hpc] at hstand
    obtain ⟨hseq, rfl, hafter⟩ := hstand
    simp only [receiverNext, hpc] at h
    split at h <;> cases h
    · exact ⟨before, after, hreceived, htexts, hseq, ‹_›, hafter⟩
    · exact ⟨before, after, hreceived, htexts, hseq, ‹_›, hafter⟩
  | emitting i seq text rest =>
    rw [hpc] at hstand
    obtain ⟨hseq, htext, hafter⟩ := hstand
    simp only [receiverNext, hpc] at h
    cases h
    refine ⟨before ++ [i.delivery], rest.map Item.delivery, handing_next hreceived hafter, ?_, ?_, rfl⟩
    · rw [handed_concat, htext, htexts, Option.toList_some]
    · rw [hseq, List.length_append, List.length_singleton]
  | taking i seq rest =>
    rw [hpc] at hstand
    simp only [receiverNext, hpc] at h
    cases h
    exact ⟨before, after, hreceived, htexts, hstand⟩
  | rejecting i rest =>
    rw [hpc] at hstand
    obtain ⟨hseq, htext, hafter⟩ := hstand
    simp only [receiverNext, hpc] at h
    cases h
    refine ⟨before ++ [i.delivery], rest.map Item.delivery, handing_next hreceived hafter, ?_, ?_, rfl⟩
    · rw [handed_concat, htext, Option.toList_none, List.append_nil]
      exact htexts
    · exact hseq.trans (by rw [List.length_append, List.length_singleton])
  | connecting | receiving | done => simp [receiverNext, hpc] at h

theorem handing_received {result : Except String (List Delivery)} (hi : q.Handing X c)
    (h : q.receiveReturns result = some q') : q'.Handing X c := by
  obtain ⟨before, after, hreceived, htexts, hstand⟩ := hi
  cases hpc : q.receiver with
  | receiving room =>
    rw [hpc] at hstand
    obtain ⟨hseq, rfl⟩ := hstand
    cases result with
    | error message =>
      simp only [receiveReturns, hpc, if_true] at h
      cases h
      exact ⟨before, [], hreceived, htexts, hseq, rfl⟩
    | ok deliveries =>
      cases deliveries with
      | nil =>
        simp only [receiveReturns, hpc, if_true] at h
        cases h
        exact ⟨before, [], hreceived, htexts, hseq, rfl⟩
      | cons d ds =>
        simp only [receiveReturns, hpc, if_true] at h
        cases h
        refine ⟨before, d :: ds, ?_, htexts, hseq, (deliveries_itemsOf _ _).symm⟩
        rw [hreceived, List.append_nil]
  | top | connecting | pausing | waitRoom | got | releasing | acking | offering | offered | emitting
  | taking | rejecting | done => cases result <;> simp [receiveReturns, hpc] at h

theorem handing_connected {result : Except String Unit} (hi : q.Handing X c)
    (h : q.connectReturns result = some q') : q'.Handing X c := by
  obtain ⟨before, after, hreceived, htexts, hstand⟩ := hi
  cases hpc : q.receiver with
  | connecting =>
    rw [hpc] at hstand
    cases result <;> simp only [connectReturns, hpc, if_true] at h <;> cases h <;>
      exact ⟨before, after, hreceived, htexts, hstand⟩
  | top | receiving | pausing | waitRoom | got | releasing | acking | offering | offered | emitting
  | taking | rejecting | done => cases result <;> simp [connectReturns, hpc] at h

theorem handing_step (hsource : c.eventSource = true) (hi : q.Handing X c) (h : Steps X c q a q') :
    q'.Handing X c := by
  cases a with
  | receiver => exact handing_receiver hsource hi h
  | connected result => exact handing_connected hi h
  | received result => exact handing_received hi h
  | settler | ack | cancel | tick =>
    obtain ⟨hreceived, htexts, hseq⟩ :=
      offers_frame (by simp [Process.owns]) (by simp [Process.owns]) h
    have hreceiver := receiver_of_step (by simp [Process.owns]) (by simp [Process.owns]) h
    unfold Handing
    rw [hreceived, htexts, hseq, hreceiver]
    exact hi

theorem handing_of_reach {now : Nanos} (hsource : c.eventSource = true)
    (hr : Reach (Steps X c) anyStep (start now) q) : q.Handing X c :=
  hr.invariant (I := fun q => q.Handing X c) ⟨[], [], rfl, rfl, rfl, rfl⟩
    fun _ _ _ hi _ hs => handing_step hsource hi hs

/-- With no batch in its hands the thread has nothing left to offer. -/
theorem Handing.texts_eq (hi : q.Handing X c)
    (hfree : q.receiver.Idle ∨ q.receiver.inCall = true) : q.texts = handed X c q.received := by
  obtain ⟨before, after, hreceived, htexts, hstand⟩ := hi
  have hafter : after = [] := by
    cases hpc : q.receiver with
    | top | connecting | pausing | waitRoom | receiving =>
      rw [hpc] at hstand
      exact hstand.2
    | got | releasing | acking | offering | offered | emitting | taking | rejecting | done =>
      rw [hpc] at hfree
      exact hfree.elim (absurd · id) (absurd · Bool.false_ne_true)
  rw [hreceived, hafter, List.append_nil]
  exact htexts

end Steps

/-- **Every event, once and in order.** Whatever the source delivers, the host acknowledges and the
threads do, a watch on an event source has handed over the texts of the first so many of the deliveries
received, one for each in their order, with the place of each as its position; and those of all of them
when it has no batch in its hands. -/
theorem handed_in_order {X : Externs} {c : Config} {now : Nanos} {q : Queue}
    (hsource : c.eventSource = true) (hr : Reach (Steps X c) anyStep (start now) q) :
    (∃ k, k ≤ q.received.length ∧ q.texts = handed X c (q.received.take k)) ∧
      (q.receiver.Idle ∨ q.receiver.inCall = true → q.texts = handed X c q.received) := by
  have hi := handing_of_reach hsource hr
  refine ⟨?_, hi.texts_eq⟩
  obtain ⟨before, after, hreceived, htexts, -⟩ := hi
  refine ⟨before.length, ?_, ?_⟩
  · rw [hreceived, List.length_append]
    exact Nat.le_add_right _ _
  · rw [hreceived, List.take_left]
    exact htexts

/-- A batch of two whose second event the host cannot take, and another of one. -/
def passesOver : List Act :=
  [.receiver, .connected (.ok ()), .receiver, .received (.ok [message "a", message "too long"]),
    .receiver, .receiver, .receiver, .receiver, .receiver, .receiver, .receiver, .receiver, .receiver,
    .receiver, .receiver, .received (.ok [message "b"]), .receiver, .receiver, .receiver, .receiver,
    .receiver]

theorem handed_in_order_passesOver :
    ∃ q, (start 0).run plainExterns { plainConfig with maxPayload := 4 } (fun _ _ => true)
        passesOver = some q ∧ q.texts = ["a", "b"] ∧ q.received.length = 3 ∧
      q.texts = handed plainExterns { plainConfig with maxPayload := 4 } q.received := by
  obtain ⟨q, hq, htexts, hlength, hidle⟩ := end_of_run
    (r := (start 0).run plainExterns { plainConfig with maxPayload := 4 } (fun _ _ => true) passesOver)
    (P := fun q => q.texts = ["a", "b"] ∧ q.received.length = 3 ∧ (q.receiver matches .top) = true)
    (by decide +kernel)
  refine ⟨q, hq, htexts, hlength, (handed_in_order rfl
    ((reach_run hq).mono fun _ _ _ => trivial)).2 (.inl ?_)⟩
  cases hpc : q.receiver <;> simp [hpc] at hidle ⊢

theorem received_prefix {X : Externs} {c : Config} {r : Execution (Steps X c)} {n m : ℕ} (h : n ≤ m) :
    (r.state n).received <+: (r.state m).received := by
  induction m, h using Nat.le_induction with
  | base => exact List.prefix_refl _
  | succ m hm ih =>
    obtain ⟨more, hmore⟩ := (grows_of_transition (transition_of_step (r.next m))).received
    exact ih.trans ⟨more, hmore.symm⟩

/-- **A watch catches up with its source.** In every execution of a watch on an event source that is not
cancelled, fair to its receiving thread and to the calls it makes, in which the clock goes on and the
source does not refuse to connect for ever, the host was handed again and again exactly what belongs to
all that was received, whether or not it acknowledges anything. -/
theorem hands_over_all {X : Externs} {c : Config} {now : Nanos} {r : Execution (Steps X c)}
    (hsource : c.eventSource = true) (h : Running X c now r) (n : ℕ) :
    ∃ m, n ≤ m ∧ (r.state n).received <+: (r.state m).received ∧
      (r.state m).texts = handed X c (r.state m).received := by
  obtain ⟨m, hm, hwaits⟩ := h.comes_to_waitRoom n
  have hi := handing_of_reach hsource (Execution.reach h.reached m)
  refine ⟨m, hm, received_prefix hm, hi.texts_eq (.inl ?_)⟩
  rw [hwaits]
  trivial

theorem hands_over_all_turns : ∃ r : Execution (Steps plainExterns endlessConfig),
    ∀ n, ∃ m, n ≤ m ∧ (r.state n).received <+: (r.state m).received ∧
      (r.state m).texts = handed plainExterns endlessConfig (r.state m).received := by
  obtain ⟨r, hr⟩ := exists_working
  exact ⟨r, hands_over_all rfl hr.toRunning⟩

end Queue

end McpgSdk
