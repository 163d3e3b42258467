import McpgSdk.Queue.Step

/-!
# Sequence numbers and the window

* `Seqs`: deliveries are offered in the order they arrived, each under a new sequence number, and the
  window, the emitted positions and the acknowledged ones are among the numbers given;
* `Room`: as long as the source returns no more than it is asked for, what is in the window and what
  is still to be offered fit together;
* **`window_bounded`**: the bound on the window, and fresh sequence numbers.
-/

set_option autoImplicit false

namespace McpgSdk

open OrdMap

namespace Queue

theorem getElem?_pending_filter {m : BTreeMap ℕ Held} {f : ℕ → Held → Bool} {s : ℕ} {h : Held}
    (hs : (m.filter f)[s]? = some h) : m[s]? = some h := by
  rw [Std.ExtTreeMap.getElem?_filter'] at hs
  exact (Option.filter_eq_some_iff.mp hs).1

theorem getElem?_pending_erase {m : BTreeMap ℕ Held} {k s : ℕ} {h : Held}
    (hs : (m.erase k)[s]? = some h) : m[s]? = some h := by
  rw [getElem?_erase_ite] at hs
  split_ifs at hs
  exact hs

/-! ## Sequence numbers -/

/-- The deliveries still to be offered are the last that arrived, in order, and none of them was
given a sequence number. -/
def InOrder (n : ℕ) (given : List Given) (items : List Item) : Prop :=
  ∃ first, items.map Item.id = List.range' first items.length ∧ first + items.length = n ∧
    ∀ g ∈ given, g.id < first

theorem InOrder.tail {n : ℕ} {given : List Given} {i : Item} {rest : List Item}
    (h : InOrder n given (i :: rest)) : InOrder n given rest := by
  obtain ⟨first, hids, hn, hg⟩ := h
  rw [List.map_cons, List.length_cons, List.range'_succ, List.cons.injEq] at hids
  refine ⟨first + 1, hids.2, ?_, fun g hg' => (hg g hg').trans (Nat.lt_succ_self first)⟩
  rw [List.length_cons] at hn
  omega

theorem InOrder.give {n : ℕ} {given : List Given} {i : Item} {rest : List Item}
    (h : InOrder n given (i :: rest)) (seq : ℕ) :
    (∀ g ∈ given, g.id < i.id) ∧ InOrder n (given ++ [⟨i.id, seq⟩]) rest := by
  obtain ⟨first, hids, hn, hg⟩ := h
  rw [List.map_cons, List.length_cons, List.range'_succ, List.cons.injEq] at hids
  obtain ⟨hi, hids⟩ := hids
  rw [List.length_cons] at hn
  refine ⟨fun g hg' => hi ▸ hg g hg', first + 1, hids, by omega, fun g hg' => ?_⟩
  rcases List.mem_append.mp hg' with hg' | hg'
  · exact (hg g hg').trans (Nat.lt_succ_self first)
  · obtain rfl := List.mem_singleton.mp hg'
    exact hi ▸ Nat.lt_succ_self first

theorem ids_itemsOf (n : ℕ) (ds : List Delivery) :
    (itemsOf n ds).map Item.id = List.range' n ds.length := by
  induction ds generalizing n with
  | nil => rfl
  | cons d ds ih => rw [itemsOf, List.map_cons, ih, List.length_cons, List.range'_succ]

theorem length_itemsOf (n : ℕ) (ds : List Delivery) : (itemsOf n ds).length = ds.length := by
  rw [← List.length_map (f := Item.id), ids_itemsOf, List.length_range']

/-- What ties the sequence numbers to the deliveries. -/
structure Seqs (q : Queue) : Prop where
  below : ∀ g ∈ q.given, g.seq < q.nextSeq
  seqs : (q.given.map Given.seq).Pairwise (· < ·)
  ids : (q.given.map Given.id).Pairwise (· < ·)
  order : InOrder q.received.length q.given q.receiver.unoffered
  window : ∀ (s : ℕ) (h : Held), q.pending[s]? = some h → ⟨h.id, s⟩ ∈ q.given
  current : ∀ i seq, q.receiver.current = some (i, seq) →
    ⟨i.id, seq⟩ ∈ q.given ∧ ∀ e ∈ q.emitted, e.seq < seq
  emitted : ∀ e ∈ q.emitted, e ∈ q.given
  hostAcked : ∀ s ∈ q.hostAcked, ∃ e ∈ q.emitted, e.seq = s

theorem Seqs.id_eq {q : Queue} (hi : q.Seqs) {g g' : Given} (hg : g ∈ q.given) (hg' : g' ∈ q.given)
    (h : g.seq = g'.seq) : g.id = g'.id := by
  have hn : (q.given.map Given.seq).Nodup := hi.seqs.imp Nat.ne_of_lt
  rw [List.inj_on_of_nodup_map hn hg hg' h]

theorem Seqs.seq_eq {q : Queue} (hi : q.Seqs) {g g' : Given} (hg : g ∈ q.given) (hg' : g' ∈ q.given)
    (h : g.id = g'.id) : g.seq = g'.seq := by
  have hn : (q.given.map Given.id).Nodup := hi.ids.imp Nat.ne_of_lt
  rw [List.inj_on_of_nodup_map hn hg hg' h]

/-- A step that gives, emits and acknowledges nothing, adds nothing to the window and goes on with
the deliveries it has. -/
theorem Seqs.mono {q q' : Queue} (hi : q.Seqs) (hgiven : q'.given = q.given)
    (hnext : q'.nextSeq = q.nextSeq) (hreceived : q'.received = q.received)
    (hemitted : q'.emitted = q.emitted) (hacked : q'.hostAcked = q.hostAcked)
    (horder : InOrder q.received.length q.given q'.receiver.unoffered)
    (hcurrent : ∀ x, q'.receiver.current = some x → q.receiver.current = some x)
    (hwindow : ∀ (s : ℕ) (h : Held), q'.pending[s]? = some h → q.pending[s]? = some h) : q'.Seqs where
  below := by rw [hgiven, hnext]; exact hi.below
  seqs := by rw [hgiven]; exact hi.seqs
  ids := by rw [hgiven]; exact hi.ids
  order := by rw [hreceived, hgiven]; exact horder
  window := fun s h hs => by rw [hgiven]; exact hi.window s h (hwindow s h hs)
  current := fun i seq hc => by rw [hgiven, hemitted]; exact hi.current i seq (hcurrent _ hc)
  emitted := by rw [hemitted, hgiven]; exact hi.emitted
  hostAcked := by rw [hacked, hemitted]; exact hi.hostAcked

section Steps

variable {X : Externs} {c : Config} {q q' : Queue} {a : Act}

theorem Seqs.other {q q' : Queue} (hi : q.Seqs) (hreceiver : q'.receiver = q.receiver)
    (hgiven : q'.given = q.given) (hnext : q'.nextSeq = q.nextSeq)
    (hreceived : q'.received = q.received) (hemitted : q'.emitted = q.emitted)
    (hacked : q'.hostAcked = q.hostAcked)
    (hwindow : ∀ (s : ℕ) (h : Held), q'.pending[s]? = some h → q.pending[s]? = some h) : q'.Seqs :=
  hi.mono hgiven hnext hreceived hemitted hacked (hreceiver ▸ hi.order)
    (fun _ h => hreceiver ▸ h) hwindow

theorem seqs_start (now : Nanos) : (start now).Seqs where
  below := by simp [start]
  seqs := by simp [start]
  ids := by simp [start]
  order := ⟨0, rfl, rfl, by simp [start]⟩
  window := by simp [start]
  current := by simp [start]
  emitted := by simp [start]
  hostAcked := by simp [start]

theorem seqs_step (hi : q.Seqs) (ht : Transition X c q a q') : q'.Seqs := by
  have horder := hi.order
  have hcurrent := hi.current
  cases ht with
  | walk hfree hpc =>
    refine hi.mono rfl rfl rfl rfl rfl ?_ ?_ (fun _ _ h => h)
    · rw [hfree.holds_nothing.2.1] at horder
      rw [hpc.free.holds_nothing.2.1]
      exact horder
    · intro x hx
      rw [hpc.free.holds_nothing.2.2] at hx
      cases hx
  | quit hfree hstop =>
    refine hi.mono rfl rfl rfl rfl rfl ?_ (fun _ h => by cases h) (fun _ _ h => h)
    rw [hfree.holds_nothing.2.1] at horder
    exact horder
  | room hpc hroom | leave hpc | turnAway hpc hstop | keep hpc hsource | consume hpc hsource
  | reject hpc =>
    rw [hpc] at horder
    exact hi.mono rfl rfl rfl rfl rfl horder (fun _ h => by cases h) (fun _ _ h => h)
  | releaseNow hpc | ackNow hpc =>
    rw [hpc] at horder
    exact hi.mono rfl rfl rfl rfl rfl horder.tail (fun _ h => by cases h) (fun _ _ h => h)
  | fits hpc htext | refused hpc htext =>
    rw [hpc] at horder
    exact hi.mono rfl rfl rfl rfl rfl horder (fun _ h => by rw [hpc]; exact h) (fun _ _ h => h)
  | takeBack hpc =>
    rw [hpc] at horder
    exact hi.mono rfl rfl rfl rfl rfl horder (fun _ h => by cases h)
      (fun _ _ h => getElem?_pending_erase h)
  | @arrive room deliveries hpc =>
    -- what arrives comes after everything received before
    rw [hpc] at horder
    obtain ⟨first, -, hn, hg⟩ := horder
    refine { hi with
      order := ⟨q.received.length, ?_, ?_, fun g hg' => ?_⟩
      current := fun _ _ h => by cases h }
    · simp only [ReceiverPc.unoffered, ReceiverPc.hand]
      rw [ids_itemsOf, length_itemsOf]
    · simp only [ReceiverPc.unoffered, ReceiverPc.hand]
      rw [length_itemsOf, List.length_append]
    · exact lt_of_lt_of_le (hg g hg') (by simpa using hn.le)
  | @insert i rest hpc =>
    rw [hpc] at horder
    obtain ⟨hlt, horder⟩ := horder.give q.nextSeq
    refine ⟨?_, ?_, ?_, horder, ?_, ?_, ?_, hi.hostAcked⟩
    · intro g hg
      rcases List.mem_append.mp hg with hg | hg
      · exact (hi.below g hg).trans (Nat.lt_succ_self _)
      · obtain rfl := List.mem_singleton.mp hg
        exact Nat.lt_succ_self _
    · rw [List.map_append, List.pairwise_append]
      refine ⟨hi.seqs, List.pairwise_singleton _ _, ?_⟩
      intro s hs s' hs'
      obtain ⟨g, hg, rfl⟩ := List.mem_map.mp hs
      obtain rfl := List.mem_singleton.mp hs'
      exact hi.below g hg
    · rw [List.map_append, List.pairwise_append]
      refine ⟨hi.ids, List.pairwise_singleton _ _, ?_⟩
      intro d hd d' hd'
      obtain ⟨g, hg, rfl⟩ := List.mem_map.mp hd
      obtain rfl := List.mem_singleton.mp hd'
      exact hlt g hg
    · intro s h hs
      rw [getElem?_insert_ite] at hs
      split_ifs at hs with hseq
      · obtain rfl := Option.some.inj hs
        rw [hseq]
        exact List.mem_append_right _ (List.mem_singleton_self _)
      · exact List.mem_append_left _ (hi.window s h hs)
    · intro j seq hc
      cases hc
      exact ⟨List.mem_append_right _ (List.mem_singleton_self _),
        fun e he => hi.below e (hi.emitted e he)⟩
    · exact fun e he => List.mem_append_left _ (hi.emitted e he)
  | @emit i seq text rest hpc =>
    rw [hpc] at horder hcurrent
    obtain ⟨hmem, hlt⟩ := hcurrent i seq rfl
    refine { hi with
      order := horder, current := fun _ _ h => (by cases h), emitted := ?_, hostAcked := ?_ }
    · intro e he
      rcases List.mem_append.mp he with he | he
      · exact hi.emitted e he
      · exact List.mem_singleton.mp he ▸ hmem
    · intro s hs
      obtain ⟨e, he, hse⟩ := hi.hostAcked s hs
      exact ⟨e, List.mem_append_left _ he, hse⟩
  | @ack position hcancel =>
    refine { hi with hostAcked := fun s hs => ?_ }
    rcases List.mem_append.mp hs with hs | hs
    · exact hi.hostAcked s hs
    · have hany := (Option.mem_filter_iff.mp (Option.mem_toList.mp hs)).2
      obtain ⟨e, he, hse⟩ := List.any_eq_true.mp hany
      exact ⟨e, he, beq_iff_eq.mp hse⟩
  | expire hpc =>
    exact hi.other rfl rfl rfl rfl rfl rfl (fun _ _ h => getElem?_pending_filter h)
  | take hpc hseq hheld =>
    exact hi.other rfl rfl rfl rfl rfl rfl (fun _ _ h => getElem?_pending_erase h)
  | drain hpc =>
    exact hi.other rfl rfl rfl rfl rfl rfl (fun _ _ h => by simp at h)
  | releaseLate | wait | die | hear | hearStop | miss | ackTaken | releaseHeld | finish | cancel
  | join | sendStop | joinSettler | tick =>
    exact hi.other rfl rfl rfl rfl rfl rfl (fun _ _ h => h)

theorem seqs_of_reach {ok : Queue → Act → Prop} {now : Nanos}
    (hr : Reach (Steps X c) ok (start now) q) : q.Seqs :=
  invariant_of_transition hr (seqs_start now) fun _ _ _ hu _ ht => seqs_step hu ht

end Steps

/-! ## Room -/

/-- What the source was asked for. -/
def ReceiverPc.room : ReceiverPc → ℕ
  | receiving room => room
  | _ => 0

/-- The source returns no more than it is asked for. -/
def AtMostRoom (q : Queue) : Act → Prop
  | .received (.ok deliveries) => deliveries.length ≤ q.receiver.room
  | _ => True

instance (q : Queue) : DecidablePred (AtMostRoom q)
  | .received (.ok deliveries) => inferInstanceAs (Decidable (deliveries.length ≤ q.receiver.room))
  | .received (.error _) => .isTrue trivial
  | .receiver | .connected _ | .settler | .ack _ | .cancel | .tick _ => .isTrue trivial

/-- What is in the window, still to be offered, and asked for fits. -/
def Room (c : Config) (q : Queue) : Prop :=
  q.pending.size + q.receiver.unoffered.length + q.receiver.room ≤ c.options.maxInFlight

theorem ReceiverPc.Idle.room_eq {pc : ReceiverPc} (h : pc.Idle) : pc.room = 0 := by
  cases pc <;> first | rfl | exact absurd h id

section RoomSteps

variable {X : Externs} {c : Config} {q q' : Queue} {a : Act}

theorem Room.mono (hi : q.Room c) (hpending : q'.pending.size ≤ q.pending.size)
    (hreceiver : q'.receiver.unoffered.length + q'.receiver.room ≤
      q.receiver.unoffered.length + q.receiver.room) : q'.Room c := by
  unfold Room at hi ⊢
  omega

theorem room_step (hi : q.Room c) (hok : AtMostRoom q a) (ht : Transition X c q a q') :
    q'.Room c := by
  cases ht with
  | walk hfree hpc =>
    refine hi.mono le_rfl ?_
    rw [hpc.free.holds_nothing.2.1, hpc.room_eq]
    exact Nat.zero_le _
  | quit hfree hstop => exact hi.mono le_rfl (Nat.zero_le _)
  | room hpc hroom =>
    unfold Room
    simp only [ReceiverPc.unoffered, ReceiverPc.hand, ReceiverPc.room, List.length_nil]
    omega
  | @arrive room deliveries hpc =>
    refine hi.mono le_rfl ?_
    simp only [AtMostRoom, hpc, ReceiverPc.room] at hok
    simp only [hpc, ReceiverPc.unoffered, ReceiverPc.hand, ReceiverPc.room, length_itemsOf,
      List.length_nil]
    omega
  | turnAway hpc hstop | keep hpc hsource | consume hpc hsource | leave hpc | fits hpc htext
  | refused hpc htext | emit hpc | reject hpc =>
    refine hi.mono le_rfl ?_
    rw [hpc]
    exact le_rfl
  | releaseNow hpc | ackNow hpc =>
    refine hi.mono le_rfl ?_
    rw [hpc]
    simp [ReceiverPc.room]
  | takeBack hpc =>
    refine hi.mono Std.ExtTreeMap.size_erase_le ?_
    rw [hpc]
    exact le_rfl
  | @insert i rest hpc =>
    -- what enters the window leaves the hand
    unfold Room at hi ⊢
    rw [hpc] at hi
    have hsize := Std.ExtTreeMap.size_insert_le (t := q.pending) (k := q.nextSeq)
      (v := ⟨i.id, i.delivery.receipt, q.clock⟩)
    simp only [ReceiverPc.unoffered, ReceiverPc.hand, ReceiverPc.room, List.length_cons] at hi ⊢
    omega
  | expire hpc => exact hi.mono Std.ExtTreeMap.size_filter_le_size le_rfl
  | take hpc hseq hheld => exact hi.mono Std.ExtTreeMap.size_erase_le le_rfl
  | drain hpc => exact hi.mono (by simp) le_rfl
  | releaseLate | wait | die | hear | hearStop | miss | ackTaken | releaseHeld | finish | ack
  | cancel | join | sendStop | joinSettler | tick => exact hi.mono le_rfl le_rfl

end RoomSteps

/-- **The window is bounded and sequence numbers are fresh.** As long as the source returns no more
deliveries than it is asked for, in every reachable state the window and the deliveries still to be
offered hold at most `max_in_flight` together, every number in the window is below the next one, and
no two deliveries of the run were given the same number. -/
theorem window_bounded {X : Externs} {c : Config} {now : Nanos} {q : Queue}
    (hr : Reach (Steps X c) AtMostRoom (start now) q) :
    q.pending.size + q.receiver.unoffered.length ≤ c.options.maxInFlight ∧
      (∀ seq ∈ q.pending, seq < q.nextSeq) ∧ (q.given.map Given.seq).Nodup := by
  have hroom : q.Room c := invariant_of_transition hr
    (Nat.zero_le _) fun _ _ _ hu hok ht => room_step hu hok ht
  have hseqs := seqs_of_reach hr
  refine ⟨by unfold Room at hroom; omega, fun seq hseq => ?_, hseqs.seqs.imp Nat.ne_of_lt⟩
  obtain ⟨h, hh⟩ := Option.isSome_iff_exists.mp (Std.ExtTreeMap.mem_iff_isSome_getElem?.mp hseq)
  exact hseqs.below _ (hseqs.window seq h hh)

/-- An event source with a window of two and room for short texts only, on a platform whose `Instant`
counts its seconds in 63 bits. -/
def plainConfig : Config where
  options := ⟨"test", 2, millis 60000, millis 20⟩
  eventSource := true
  maxPayload := 8
  lastInstant := some (2 ^ 63 * 1000000000 - 1)

/-- A delivery of the message `body`. -/
def message (body : String) : Delivery := ⟨{ eventId := some body }, .str body⟩

/-- Two deliveries fill the window. -/
def fillWindow : List Act :=
  [.receiver, .connected (.ok ()), .receiver, .received (.ok [message "a", message "b"]),
    .receiver, .receiver, .receiver, .receiver, .receiver, .receiver, .receiver]

theorem window_bounded_fillWindow :
    ∃ q, (start 0).run plainExterns plainConfig (fun q a => decide (AtMostRoom q a)) fillWindow =
        some q ∧ q.pending.size = 2 ∧ q.emitted.map Given.seq = [0, 1] ∧
      q.pending.size + q.receiver.unoffered.length ≤ 2 := by
  obtain ⟨q, hq, hsize, hemitted⟩ := end_of_run
    (r := (start 0).run plainExterns plainConfig (fun q a => decide (AtMostRoom q a)) fillWindow)
    (P := fun q => q.pending.size = 2 ∧ q.emitted.map Given.seq = [0, 1]) (by decide +kernel)
  exact ⟨q, hq, hsize, hemitted,
    (window_bounded ((reach_run hq).mono fun _ _ h => of_decide_eq_true h)).1⟩

end Queue

end McpgSdk
